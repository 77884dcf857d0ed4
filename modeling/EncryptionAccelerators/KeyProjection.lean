import EncryptionAccelerators.KeyedDevice
import EncryptionAccelerators.KeyHandover

/-! The runs of the device with its control loop as runs of the hand-over: what `udp_reg` stores to the
key registers, what the loop reads and the columns it writes are steps of a `KeyState`, and no other
step of the device concerns it. -/
namespace EncryptionAccelerators.Net
open Dataflow WriteHistory

/-! The control loop as the steps of a pass. -/

/-- The command goes through the rest of the pass and may then start the next one. -/
inductive Follows : Cmd Empty Empty NetWord Cell.Val ControlState → Pass → Prop
  | done (st : ControlState) : Follows (.ret st) (.reading 0 fun _ => 0)
  | read {n : Fin 4} {keyReg k} (h : ∀ word, Follows (k word)
      (if n = 3 then .writingDes 0 (keyOf (Function.update keyReg n word))
        else .reading (n+1) (Function.update keyReg n word))) :
      Follows (.peek (.bram (keyRegister n)) k) (.reading n keyReg)
  | writeDes {n : Fin 8} {K k}
      (h : Follows k (if n = 7 then .writingAes 0 K else .writingDes (n+1) K)) :
      Follows (.poke (.keySetsK n) (desColumnsOf K n) k) (.writingDes n K)
  | writeAes {n : Fin 16} {K k}
      (h : Follows k (if n = 15 then .reading 0 fun _ => 0 else .writingAes (n+1) K)) :
      Follows (.poke (.aesW n) (aesColumnsOf K n) k) (.writingAes n K)
  | dipSwitches {k} (h : ∀ dipsw, Follows (k dipsw) (.reading 0 fun _ => 0)) :
      Follows (.peek .dipSwitches k) (.reading 0 fun _ => 0)
  | switch {c v k} (hc : c = .rawDataSwitch ∨ c = .desMode)
      (h : Follows k (.reading 0 fun _ => 0)) : Follows (.poke c v k) (.reading 0 fun _ => 0)

lemma follows_setSwitches (st : ControlState) : Follows (setSwitches st) (.reading 0 fun _ => 0) :=
  .dipSwitches fun _ => .switch (.inl rfl) (.switch (.inr rfl) (.done st))

lemma follows_writeAes (K : Vector Byte 16) (st : ControlState) : Follows
    (forEach (List.finRange 16) (fun i => storeCell (.aesW i) (aesColumnsOf K i)) >>=
      fun _ => setSwitches st) (.writingAes 0 K) := by
  iterate 16 refine .writeAes ?_
  exact follows_setSwitches st

lemma follows_writeDes (K : Vector Byte 16) (st : ControlState) : Follows
    (forEach (List.finRange 8) (fun i => storeCell (.keySetsK i) (desColumnsOf K i)) >>=
      fun _ => forEach (List.finRange 16) (fun i => storeCell (.aesW i) (aesColumnsOf K i)) >>=
        fun _ => setSwitches st) (.writingDes 0 K) := by
  iterate 8 refine .writeDes ?_
  exact follows_writeAes K st

lemma update_reads (key0 key1 key2 key3 : BitVec 32) :
    Function.update (Function.update (Function.update (Function.update
      (fun _ => 0 : Fin 4 → BitVec 32) 0 key0) 1 key1) 2 key2) 3 key3 = ![key0,key1,key2,key3] := by
  funext i
  fin_cases i <;> rfl

lemma follows_controlPass (st : ControlState) : Follows (controlPass st) (.reading 0 fun _ => 0) := by
  refine .read (n := 0) fun key0 => .read (n := 1) fun key1 => .read (n := 2) fun key2 =>
    .read (n := 3) fun key3 => ?_
  change Follows (loadCores st (keyOf ![key0,key1,key2,key3]) >>= setSwitches)
    (.writingDes 0 (keyOf (Function.update (Function.update (Function.update (Function.update
      (fun _ => 0 : Fin 4 → BitVec 32) 0 key0) 1 key1) 2 key2) 3 key3)))
  rw [update_reads, loadCores_bind]
  exact follows_writeDes _ _

/-! The stores of `udp_reg`. -/

/-- The stores of a key, word by word. -/
def keyStores (K : Vector Byte 16) : List (Sigma Cell.Val) :=
  (List.finRange 4).map fun i : Fin 4 => ⟨.bram (keyRegister i),keyWord K i⟩

/-- The stores to the key registers. -/
def toKey (stores : List (Sigma Cell.Val)) : List (Sigma Cell.Val) :=
  stores.filter fun e => e.1 ∈ keyCells

lemma toKey_append (stores : List (Sigma Cell.Val)) {e : Sigma Cell.Val} (he : e.1 ∈ keyCells) :
    toKey (stores ++ [e]) = toKey stores ++ [e] := by simp [toKey, he]

lemma toKey_append_of_not (stores : List (Sigma Cell.Val)) {e : Sigma Cell.Val}
    (he : e.1 ∉ keyCells) : toKey (stores ++ [e]) = toKey stores := by simp [toKey, he]

/-- The frames ask for no stores to the key registers but those of the keys, one after the other. -/
def KeyWrites (fs : List Frame) (keys : List (Vector Byte 16)) : Prop :=
  toKey ((writeHistory (framesFor .UDP_REG fs)).map regStore) = keys.flatMap keyStores

/-- The steps of the control loop. -/
inductive KeyAction.OfLoop : KeyAction → Prop
  | read : OfLoop .read
  | writeDes : OfLoop .writeDes
  | writeAes : OfLoop .writeAes

namespace KeyState

/-- The stores that are still to come. -/
def pending (t : KeyState) : List (Sigma Cell.Val) := (t.frames.flatMap keyStores).drop t.stored

/-- No key is stored in part when there is none left. -/
def Whole (t : KeyState) : Prop := t.frames = [] → t.stored = 0

/-- Nothing is still to come. -/
lemma Whole.done {t : KeyState} (hw : t.Whole) (h : t.pending = []) :
    t.frames = [] ∧ t.stored = 0 := by
  have hlen := congrArg List.length h
  suffices hf : t.frames = [] from ⟨hf, hw hf⟩
  cases hf : t.frames with
  | nil => rfl
  | cons K frames =>
    rw [pending, hf, List.flatMap_cons, List.length_drop, List.length_append, keyStores,
      List.length_map, List.length_finRange] at hlen
    have hlt := t.stored.isLt
    simp only [List.length_nil] at hlen
    omega

/-- The next of them is one step. -/
lemma store_pending {t : KeyState} {e : Sigma Cell.Val} {rest : List (Sigma Cell.Val)}
    (h : t.pending = e::rest) : ∃ t' word, t.next .store = some t' ∧
      e = ⟨.bram (keyRegister t.stored),word⟩ ∧ t'.pending = rest ∧
      t'.keyReg = Function.update t.keyReg t.stored word ∧ t'.desCols = t.desCols ∧
      t'.aesCols = t.aesCols ∧ t'.pass = t.pass ∧ t'.Whole := by
  obtain ⟨keyReg, frames, stored, complete, pass, desCols, aesCols⟩ := t
  cases frames with
  | nil =>
    have hnil : ([] : List (Sigma Cell.Val)).drop stored = e::rest := h
    simp at hnil
  | cons K frames =>
    have hcons : (keyStores K ++ frames.flatMap keyStores).drop stored = e::rest := h
    refine ⟨_, keyWord K stored, rfl, ?_, ?_, rfl, rfl, rfl, rfl, ?_⟩
    · fin_cases stored <;> exact (List.cons.inj hcons).1.symm
    · fin_cases stored <;> exact (List.cons.inj hcons).2
    · intro hnone
      by_cases h3 : stored = 3
      · simp [h3]
      · simp [h3] at hnone

variable {t : KeyState}

lemma next_read {n : Fin 4} {keyReg : Fin 4 → BitVec 32} (hp : t.pass = .reading n keyReg) :
    t.next .read = some { t with
      pass := if n = 3 then .writingDes 0 (keyOf (Function.update keyReg n (t.keyReg n)))
        else .reading (n+1) (Function.update keyReg n (t.keyReg n)) } := by
  rw [next, hp]

lemma next_writeDes {n : Fin 8} {K : Vector Byte 16} (hp : t.pass = .writingDes n K) :
    t.next .writeDes = some { t with
      desCols := Function.update t.desCols n (desColumnsOf K n)
      pass := if n = 7 then .writingAes 0 K else .writingDes (n+1) K } := by
  rw [next, hp]

lemma next_writeAes {n : Fin 16} {K : Vector Byte 16} (hp : t.pass = .writingAes n K) :
    t.next .writeAes = some { t with
      aesCols := Function.update t.aesCols n (aesColumnsOf K n)
      pass := if n = 15 then .reading 0 fun _ => 0 else .writingAes (n+1) K } := by
  rw [next, hp]

/-- The loop stores no key. -/
lemma next_ofLoop {a : KeyAction} {t' : KeyState} (ha : a.OfLoop) (h : t.next a = some t') :
    t'.complete = t.complete ∧ t'.frames = t.frames ∧ t'.stored = t.stored := by
  cases ha <;> rw [next] at h <;> cases hp : t.pass <;> rw [hp] at h <;> cases h <;>
    exact ⟨rfl, rfl, rfl⟩

/-- No key is lost or stored twice. -/
lemma next_keys {a : KeyAction} {t' : KeyState} (h : t.next a = some t') :
    t'.complete ++ t'.frames = t.complete ++ t.frames := by
  cases a with
  | store =>
    rw [next] at h
    cases hf : t.frames with
    | nil => simp [hf] at h
    | cons K frames =>
      rw [hf] at h
      obtain rfl := Option.some.inj h
      by_cases h3 : t.stored = 3 <;> simp [h3]
  | read | writeDes | writeAes =>
    obtain ⟨hcomplete, hframes, -⟩ := next_ofLoop (by constructor) h
    rw [hcomplete, hframes]
  | desBlock | aesBlock => exact Option.some.inj h ▸ rfl

lemma run_keys {P : KeyState → KeyAction → Prop} {K : Vector Byte 16} {keys : List (Vector Byte 16)}
    (h : Run P (start K keys) t) : t.complete ++ t.frames = K::keys := by
  induction h with
  | refl => rfl
  | tail _ hs ih =>
    obtain ⟨a, -, hnext⟩ := hs
    exact (next_keys hnext).trans ih

lemma calm_ofLoop {a : KeyAction} (ha : a.OfLoop) (h0 : t.stored = 0) : Calm t a := by
  cases ha with
  | read => exact h0
  | writeDes | writeAes => trivial

end KeyState

section Columns
variable (m : (c : Cell) → c.Val)

lemma regs_update (j : Fin 4) (word : BitVec 32) (i : Fin 4) :
    Function.update m (.bram (keyRegister j)) word (.bram (keyRegister i)) =
      Function.update (fun i : Fin 4 => m (.bram (keyRegister i))) j word i := by
  by_cases hij : i = j
  · subst hij
    rw [Function.update_self, Function.update_self]
  · have hne : Cell.bram (keyRegister i) ≠ .bram (keyRegister j) := keyRegister_injective.ne hij
    rw [Function.update_of_ne hne, Function.update_of_ne hij]

lemma desColumns_update (n : Fin 8) (col : Vector Byte 17) :
    desColumns (Function.update m (.keySetsK n) col) = Function.update (desColumns m) n col := by
  funext i
  by_cases hi : i = n
  · subst hi
    simp [desColumns]
  · simp [desColumns, hi]

lemma aesColumns_update (n : Fin 16) (col : Vector Byte 11) :
    aesColumns (Function.update m (.aesW n) col) = Function.update (aesColumns m) n col := by
  funext i
  by_cases hi : i = n
  · subst hi
    simp [aesColumns]
  · simp [aesColumns, hi]

variable {m} {c : Cell}

lemma desColumns_update_of_ne (hc : ∀ i, Cell.keySetsK i ≠ c) (v : c.Val) :
    desColumns (Function.update m c v) = desColumns m :=
  funext fun i => Function.update_of_ne (hc i) v m

lemma aesColumns_update_of_ne (hc : ∀ i, Cell.aesW i ≠ c) (v : c.Val) :
    aesColumns (Function.update m c v) = aesColumns m :=
  funext fun i => Function.update_of_ne (hc i) v m

end Columns

/-! What a core stores. -/

lemma DeviceCore.Stores.not_fixed {i : DeviceCore} {c : Cell} (h : i.Stores c)
    {m : (c : Cell) → c.Val} {v : c.Val} (hv : fixedCells m c = some v) : False := by
  rw [fixedCells_stores h] at hv
  cases hv

lemma mem_keyCells {c : Cell} : c ∈ keyCells ↔ ∃ i : Fin 4, c = .bram (keyRegister i) := by
  rw [keyCells, List.mem_map]
  exact ⟨fun ⟨i, _, h⟩ => ⟨i, h.symm⟩, fun ⟨i, h⟩ => ⟨i, List.mem_finRange i, h.symm⟩⟩

lemma DeviceCore.Stores.udpReg {i : DeviceCore} {c : Cell} (h : i.Stores c) (hc : c ∈ keyCells) :
    i = .udpReg := by
  obtain ⟨j, rfl⟩ := mem_keyCells.mp hc
  rcases h.owner with ho | ho
  · cases ho
  · exact (Option.some.inj ho).symm

lemma toKey_update (log : DeviceCore → List (Sigma Cell.Val)) (i : DeviceCore) {e : Sigma Cell.Val}
    (he : e.1 ∉ keyCells) :
    toKey (Function.update log i (log i ++ [e]) .udpReg) = toKey (log .udpReg) := by
  by_cases hi : i = .udpReg
  · subst hi
    rw [Function.update_self, toKey_append_of_not _ he]
  · rw [Function.update_of_ne (Ne.symm hi)]

section Projection
variable {kind : CipherKind} {lasts : ℕ → Bool} {ports : DevicePorts}

/-- Registers, columns and control loop are as in the hand-over. -/
structure Shows (s : Supervised (keyedDevice kind lasts ports) ControlState) (t : KeyState) : Prop where
  keyReg : ∀ i : Fin 4, s.net.mem (.bram (keyRegister i)) = t.keyReg i
  desCols : desColumns s.net.mem = t.desCols
  aesCols : aesColumns s.net.mem = t.aesCols
  pass : Follows s.control t.pass

variable {fs : List Frame} {cap : DeviceFifo → ℕ∞} {m : (c : Cell) → c.Val}
  {keys : List (Vector Byte 16)}

variable (kind lasts ports fs cap m keys) in
/-- The hand-over at a state of the device, whose cores have stored `log` on the way there. -/
structure HandsOver (s : Supervised (keyedDevice kind lasts ports) ControlState) (t : KeyState)
    (log : DeviceCore → List (Sigma Cell.Val)) : Prop where
  shows : Shows s t
  pending : toKey (log .udpReg) ++ t.pending = keys.flatMap keyStores
  whole : t.Whole
  stores : ∀ i, (s.net.code i).Accesses (fun _ => True) i.Stores
  logged : Network.Logged regOwner cap (keyedStart kind lasts ports fs m) s.net log

variable {s : Supervised (keyedDevice kind lasts ports) ControlState} {t : KeyState}
  {log : DeviceCore → List (Sigma Cell.Val)}

lemma HandsOver.keeps (h : HandsOver kind lasts ports fs cap m keys s t log) :
    Network.Keeps regOwner s.net :=
  fun i => (h.stores i).mono (fun _ => id) fun _ hc => hc.owner

/-- What `udp_reg` stores next to the key registers is what the hand-over stores next. -/
lemma HandsOver.next_pending (hf : DeviceFrames fs) (hkeys : KeyWrites fs keys)
    {log' : DeviceCore → List (Sigma Cell.Val)} {e : Sigma Cell.Val}
    (h : HandsOver kind lasts ports fs cap m keys s t log)
    {u : (keyedDevice kind lasts ports).State (Memory.shared DeviceCore Cell.Val).State}
    (hlogged : Network.Logged regOwner cap (keyedStart kind lasts ports fs m) u log')
    (hlog : log' .udpReg = log .udpReg ++ [e]) (he : e.1 ∈ keyCells) :
    ∃ rest, t.pending = e::rest := by
  have hstart : log' .udpReg <+: (writeHistory (framesFor .UDP_REG fs)).map regStore :=
    (hlogged.le_final fun script => device_logs kind.body_enciphers lasts ports hf (script,m)).1
  rw [hlog] at hstart
  obtain ⟨more, hmore⟩ := hstart
  have hall := congrArg toKey hmore
  have hsplit : toKey (log .udpReg ++ [e] ++ more) = toKey (log .udpReg) ++ e::toKey more := by
    rw [toKey, List.filter_append]
    exact (congrArg (· ++ toKey more) (toKey_append _ he)).trans (List.append_assoc ..)
  rw [hsplit, hkeys, ← h.pending] at hall
  exact ⟨toKey more, (List.append_cancel_left hall).symm⟩

/-- A core's step is a store of the hand-over or does not concern it. -/
lemma HandsOver.net (hf : DeviceFrames fs) (hkeys : KeyWrites fs keys)
    (h : HandsOver kind lasts ports fs cap m keys s t log) {i : DeviceCore}
    {u : (keyedDevice kind lasts ports).State (Memory.shared DeviceCore Cell.Val).State}
    (hi : (keyedDevice kind lasts ports).StepAt (Memory.shared DeviceCore Cell.Val) cap i s.net u) :
    ∃ t' log', (t' = t ∨ t.next .store = some t' ∧ t'.pass = t.pass) ∧
      HandsOver kind lasts ports fs cap m keys ⟨u,s.control⟩ t' log' := by
  have hlogged := h.logged.step h.keeps hi
  have hmem := hi.mem_store
  have hstores : ∀ j, (u.code j).Accesses (fun _ => True) j.Stores :=
    hi.accesses (fun j l => (around_accesses kind.body_accesses j l).mono (fun _ _ => trivial)
      fun _ => id) h.stores
  have hdes : desColumns u.mem = desColumns s.net.mem :=
    funext fun j => hi.mem_eq (h.stores i) fun hc => hc.not_fixed (m := s.net.mem) rfl
  have haes : aesColumns u.mem = aesColumns s.net.mem :=
    funext fun j => hi.mem_eq (h.stores i) fun hc => hc.not_fixed (m := s.net.mem) rfl
  have hother (hreg : ∀ j : Fin 4, u.mem (.bram (keyRegister j)) = s.net.mem (.bram (keyRegister j))) :
      Shows ⟨u,s.control⟩ t := ⟨fun j => (hreg j).trans (h.shows.keyReg j),
    hdes.trans h.shows.desCols, haes.trans h.shows.aesCols, h.shows.pass⟩
  cases hn : (s.net.code i).nextStore with
  | none =>
    rw [hn] at hmem hlogged
    have hreg (j : Fin 4) := congrFun hmem (.bram (keyRegister j))
    refine ⟨t, _, .inl rfl, hother hreg, ?_, h.whole, hstores, hlogged⟩
    simpa using h.pending
  | some e =>
    have hstore : i.Stores e.1 := (h.stores i).nextStore hn
    rw [hn, Option.toList_some] at hmem hlogged
    by_cases he : e.1 ∈ keyCells
    · obtain rfl := hstore.udpReg he
      have hlog : Function.update log .udpReg (log .udpReg ++ [e]) .udpReg = log .udpReg ++ [e] :=
        Function.update_self ..
      obtain ⟨rest, hrest⟩ := h.next_pending hf hkeys hlogged hlog he
      obtain ⟨t', word, ht', rfl, hpending, hreg', hdes', haes', hpass', hwhole⟩ :=
        KeyState.store_pending hrest
      refine ⟨t', _, .inr ⟨ht', hpass'⟩, ⟨fun k => ?_, ?_, ?_, hpass'.symm ▸ h.shows.pass⟩, ?_, hwhole,
        hstores, hlogged⟩
      · have hregs : (fun j : Fin 4 => (s.net.mem : (c : Cell) → c.Val) (.bram (keyRegister j))) =
            t.keyReg := funext h.shows.keyReg
        rw [hreg', ← hregs]
        exact (congrFun hmem _).trans (regs_update _ _ _ _)
      · rw [hdes', ← h.shows.desCols, hdes]
      · rw [haes', ← h.shows.aesCols, haes]
      · have hkey := toKey_append (log .udpReg) he
        rw [hlog, hkey, hpending, ← h.pending, hrest, List.append_assoc, List.singleton_append]
    · have hreg (j : Fin 4) : u.mem (.bram (keyRegister j)) = s.net.mem (.bram (keyRegister j)) := by
        have hne : Cell.bram (keyRegister j) ≠ e.1 := fun hj => he (mem_keyCells.mpr ⟨j, hj.symm⟩)
        exact (congrFun hmem _).trans (Function.update_of_ne hne _ _)
      refine ⟨t, _, .inl rfl, hother hreg, ?_, h.whole, hstores, hlogged⟩
      rw [toKey_update log i he]
      exact h.pending

/-- The control loop writes to a cell of nobody. -/
lemma HandsOver.poke (h : HandsOver kind lasts ports fs cap m keys s t log) {c : Cell} {v : c.Val}
    {k : Cmd Empty Empty NetWord Cell.Val ControlState} {t' : KeyState} (hc : regOwner c = none)
    (hkeyReg : t'.keyReg = t.keyReg) (hframes : t'.frames = t.frames) (hstored : t'.stored = t.stored)
    (hdes : desColumns (Function.update s.net.mem c v) = t'.desCols)
    (haes : aesColumns (Function.update s.net.mem c v) = t'.aesCols) (hpass : Follows k t'.pass) :
    HandsOver kind lasts ports fs cap m keys
      ⟨⟨s.net.code,s.net.fifo,Function.update s.net.mem c v⟩,k⟩ t' log where
  shows := by
    refine ⟨fun i => ?_, hdes, haes, hpass⟩
    have hne : Cell.bram (keyRegister i) ≠ c := by
      rintro rfl
      cases hc
    rw [hkeyReg, ← h.shows.keyReg]
    exact Function.update_of_ne hne _ _
  pending := by
    rw [KeyState.pending, hframes, hstored]
    exact h.pending
  whole := by
    rw [KeyState.Whole, hframes, hstored]
    exact h.whole
  stores := h.stores
  logged := h.logged.store hc v

lemma HandsOver.step (hf : DeviceFrames fs) (hkeys : KeyWrites fs keys)
    (h : HandsOver kind lasts ports fs cap m keys s t log)
    {u : Supervised (keyedDevice kind lasts ports) ControlState}
    (hs : Supervised.Step controlPass cap s u) :
    ∃ t' log', (t' = t ∨
        t.next .store = some t' ∧ (keyedDevice kind lasts ports).Step (Memory.shared DeviceCore Cell.Val)
          cap s.net u.net ∨
        ∃ a, a.OfLoop ∧ t.next a = some t') ∧
      HandsOver kind lasts ports fs cap m keys u t' log' := by
  have hpass := h.shows.pass
  cases hs with
  | net hs =>
    obtain ⟨i, hi⟩ := hs
    obtain ⟨t', log', ht', h'⟩ := h.net hf hkeys hi
    exact ⟨t', log', ht'.imp_right fun hn => .inl ⟨hn.1, i, hi⟩, h'⟩
  | @call s l =>
    generalize hp : t.pass = pass at hpass
    cases hpass
    have hnext : Follows (controlPass l) t.pass := hp.symm ▸ follows_controlPass l
    exact ⟨t, log, .inl rfl, ⟨{ h.shows with pass := hnext }, h.pending, h.whole, h.stores, h.logged⟩⟩
  | @load s c k =>
    generalize hp : t.pass = pass at hpass
    cases hpass with
    | @read n keyReg _ hk =>
      have hword : (s.mem : (c : Cell) → c.Val) (.bram (keyRegister n)) = t.keyReg n := h.shows.keyReg n
      refine ⟨_, log, .inr (.inr ⟨.read, .read, KeyState.next_read hp⟩),
        ⟨⟨h.shows.keyReg, h.shows.desCols, h.shows.aesCols, ?_⟩, h.pending, h.whole, h.stores, h.logged⟩⟩
      exact hword ▸ hk _
    | @dipSwitches k hk =>
      have hnext : Follows (k (s.mem .dipSwitches)) t.pass := hp.symm ▸ hk _
      exact ⟨t, log, .inl rfl, ⟨{ h.shows with pass := hnext }, h.pending, h.whole, h.stores, h.logged⟩⟩
  | @store s c v k =>
    have hdes : desColumns s.mem = t.desCols := h.shows.desCols
    have haes : aesColumns s.mem = t.aesCols := h.shows.aesCols
    generalize hp : t.pass = pass at hpass
    cases hpass with
    | @writeDes n K _ hk =>
      refine ⟨_, log, .inr (.inr ⟨.writeDes, .writeDes, KeyState.next_writeDes hp⟩),
        h.poke rfl rfl rfl rfl ?_ ?_ hk⟩
      · refine (desColumns_update s.mem n _).trans ?_
        rw [hdes]
      · exact (aesColumns_update_of_ne (by simp) _).trans haes
    | @writeAes n K _ hk =>
      refine ⟨_, log, .inr (.inr ⟨.writeAes, .writeAes, KeyState.next_writeAes hp⟩),
        h.poke rfl rfl rfl rfl ?_ ?_ hk⟩
      · exact (desColumns_update_of_ne (by simp) _).trans hdes
      · refine (aesColumns_update s.mem n _).trans ?_
        rw [haes]
    | switch hc hk =>
      have hnext : Follows k t.pass := hp.symm ▸ hk
      have hown : regOwner c = none := by rcases hc with rfl | rfl <;> rfl
      refine ⟨t, log, .inl rfl, h.poke hown rfl rfl rfl ?_ ?_ hnext⟩
      · exact (desColumns_update_of_ne (by rcases hc with rfl | rfl <;> simp) _).trans hdes
      · exact (aesColumns_update_of_ne (by rcases hc with rfl | rfl <;> simp) _).trans haes

/-- The data of one key, and nothing stored yet. -/
lemma HandsOver.start {K : Vector Byte 16} (hm : Provisioned K m) (st : ControlState) :
    HandsOver kind lasts ports fs cap m keys ⟨keyedStart kind lasts ports fs m,.ret st⟩
      (KeyState.start K keys) fun _ => [] where
  shows := by
    refine ⟨fun i => ?_, funext hm.des, funext hm.aes, .done st⟩
    have hkey : keyWord (storedKey m) i = keyWord K i := congrArg (keyWord · i) hm.key
    exact (congrFun (keyWord_keyOf _) i).symm.trans hkey
  pending := rfl
  whole _ := rfl
  stores _ := .ret _
  logged := .refl

/-! The device and the hand-over side by side. -/

variable (kind lasts ports cap) in
/-- A step of the device, and none or one of the hand-over that meets the condition `P`. -/
inductive HandedStep (P : KeyState → KeyAction → Prop) :
    Supervised (keyedDevice kind lasts ports) ControlState × KeyState →
    Supervised (keyedDevice kind lasts ports) ControlState × KeyState → Prop
  | other {s u t} (h : Supervised.Step controlPass cap s u) (hu : Shows u t) : HandedStep P (s,t) (u,t)
  | act {s u t t' a} (h : Supervised.Step controlPass cap s u) (hP : P t a)
      (hnext : t.next a = some t') (hu : Shows u t') : HandedStep P (s,t) (u,t')

variable (kind lasts ports cap) in
def HandedRun (P : KeyState → KeyAction → Prop) :
    Supervised (keyedDevice kind lasts ports) ControlState × KeyState →
    Supervised (keyedDevice kind lasts ports) ControlState × KeyState → Prop :=
  Relation.ReflTransGen (HandedStep kind lasts ports cap P)

variable {P : KeyState → KeyAction → Prop}

lemma HandedRun.handover {x y : Supervised (keyedDevice kind lasts ports) ControlState × KeyState}
    (h : HandedRun kind lasts ports cap P x y) : KeyState.Run P x.2 y.2 := by
  induction h with
  | refl => exact .refl
  | tail _ hs ih =>
    cases hs with
    | other => exact ih
    | act _ hP hnext => exact ih.tail ⟨_, hP, hnext⟩

lemma HandedRun.shows {x y : Supervised (keyedDevice kind lasts ports) ControlState × KeyState}
    (h : HandedRun kind lasts ports cap P x y) (hx : Shows x.1 x.2) : Shows y.1 y.2 := by
  induction h with
  | refl => exact hx
  | tail _ hs ih =>
    cases hs with
    | other _ hu => exact hu
    | act _ _ _ hu => exact hu

/-- Every run of the device has a run of the hand-over next to it. -/
lemma HandsOver.run (hf : DeviceFrames fs) (hkeys : KeyWrites fs keys)
    (h : HandsOver kind lasts ports fs cap m keys s t log)
    {u : Supervised (keyedDevice kind lasts ports) ControlState}
    (hs : Supervised.Run controlPass cap s u) :
    ∃ t' log', HandedRun kind lasts ports cap (fun _ _ => True) (s,t) (u,t') ∧
      HandsOver kind lasts ports fs cap m keys u t' log' := by
  induction hs with
  | refl => exact ⟨t, log, .refl, h⟩
  | tail _ hs ih =>
    obtain ⟨t₁, log₁, hrun, h₁⟩ := ih
    obtain ⟨t₂, log₂, ht, h₂⟩ := h₁.step hf hkeys hs
    refine ⟨t₂, log₂, hrun.tail ?_, h₂⟩
    rcases ht with rfl | ⟨hnext, -⟩ | ⟨a, -, hnext⟩
    · exact .other hs h₂.shows
    · exact .act hs trivial hnext h₂.shows
    · exact .act hs trivial hnext h₂.shows

/-- Calm runs: while the loop rests before a pass the cores may store. -/
lemma HandsOver.run_cores (hf : DeviceFrames fs) (hkeys : KeyWrites fs keys)
    (h : HandsOver kind lasts ports fs cap m keys s t log) (hreads : t.pass.reads = 0)
    {u : (keyedDevice kind lasts ports).State (Memory.shared DeviceCore Cell.Val).State}
    (hs : (keyedDevice kind lasts ports).Run (Memory.shared DeviceCore Cell.Val) cap s.net u) :
    ∃ t' log', HandedRun kind lasts ports cap KeyState.Calm (s,t) (⟨u,s.control⟩,t') ∧
      HandsOver kind lasts ports fs cap m keys ⟨u,s.control⟩ t' log' ∧ t'.pass = t.pass := by
  induction hs with
  | refl => exact ⟨t, log, .refl, h, rfl⟩
  | tail _ hs ih =>
    obtain ⟨t₁, log₁, hrun, h₁, hpass⟩ := ih
    obtain ⟨i, hi⟩ := hs
    obtain ⟨t₂, log₂, ht, h₂⟩ := h₁.net hf hkeys hi
    rcases ht with rfl | ⟨hnext, hpass'⟩
    · exact ⟨t₂, log₂, hrun.tail (.other (.net ⟨i, hi⟩) h₂.shows), h₂, hpass⟩
    · have hcalm : KeyState.Calm t₁ .store := (congrArg Pass.reads hpass).trans hreads
      exact ⟨t₂, log₂, hrun.tail (.act (.net ⟨i, hi⟩) hcalm hnext h₂.shows), h₂, hpass'.trans hpass⟩

/-- And once all cores wait the loop may run. -/
lemma HandsOver.run_loop (hf : DeviceFrames fs) (hkeys : KeyWrites fs keys)
    (h : HandsOver kind lasts ports fs cap m keys s t log) (h0 : t.stored = 0)
    (hst : Network.Starved s.net) {u : Supervised (keyedDevice kind lasts ports) ControlState}
    (hs : Supervised.Run controlPass cap s u) :
    ∃ t' log', HandedRun kind lasts ports cap KeyState.Calm (s,t) (u,t') ∧
      HandsOver kind lasts ports fs cap m keys u t' log' ∧ t'.stored = 0 ∧
      t'.complete = t.complete ∧ Network.Starved u.net := by
  induction hs with
  | refl => exact ⟨t, log, .refl, h, h0, rfl, hst⟩
  | tail _ hs ih =>
    obtain ⟨t₁, log₁, hrun, h₁, hstored, hcomplete, hst₁⟩ := ih
    obtain ⟨t₂, log₂, ht, h₂⟩ := h₁.step hf hkeys hs
    have hst₂ := hs.starved hst₁
    rcases ht with rfl | ⟨-, hnet⟩ | ⟨a, ha, hnext⟩
    · exact ⟨t₂, log₂, hrun.tail (.other hs h₂.shows), h₂, hstored, hcomplete, hst₂⟩
    · exact absurd hnet hst₁.no_step
    · have hcalm := KeyState.calm_ofLoop ha hstored
      obtain ⟨hcomplete', -, hstored'⟩ := KeyState.next_ofLoop ha hnext
      exact ⟨t₂, log₂, hrun.tail (.act hs hcalm hnext h₂.shows), h₂, hstored'.trans hstored,
        hcomplete'.trans hcomplete, hst₂⟩

/-- From the data of one key the frames' keys can be stored and the last of them loaded in a calm run. -/
lemma calm_handover {K : Vector Byte 16} (hm : Provisioned K m) (hf : DeviceFrames fs)
    (hkeys : KeyWrites fs keys) (hroom : DeviceRoom cap) (st : ControlState) :
    ∃ s t, HandedRun kind lasts ports (opened deviceOutlets cap) KeyState.Calm
        (⟨keyedStart kind lasts ports fs m,.ret st⟩,KeyState.start K keys) (s,t) ∧
      Supervised.Run controlPass (opened deviceOutlets cap)
        ⟨keyedStart kind lasts ports fs m,.ret st⟩ s ∧
      Provisioned (keyOf fun i => latest wordIndex (regSpace m)
        (writeHistory (framesFor .UDP_REG fs)) (keyRegister i)) s.net.mem ∧
      t.complete = K::keys ∧ t.pass = .reading 0 fun _ => 0 := by
  have hstart : HandsOver kind lasts ports fs (opened deviceOutlets cap) m keys
      ⟨keyedStart kind lasts ports fs m,.ret st⟩ (KeyState.start K keys) fun _ => [] := .start hm st
  have hnone : ∀ c ∉ deviceOutlets, (fun _ => 0 : DeviceFifo → ℕ) c = 0 := fun _ _ => rfl
  obtain ⟨u, taken, hs, hst, -⟩ :=
    reached_start.ends kind.body_enciphers hf hroom keeps_start hnone
  have hcores := (hs.opened Network.asksRoom hnone).1
  obtain ⟨t₁, log, hrun₁, h₁, hpass⟩ := hstart.run_cores hf hkeys rfl hcores
  -- everything asked for has been stored
  have hlog := (h₁.logged.le_final fun script =>
    device_logs kind.body_enciphers lasts ports hf (script,m)).2 hst
  have hpending : t₁.pending = [] := by
    have hall := h₁.pending
    rw [hlog, hkeys] at hall
    exact List.append_right_eq_self.mp hall
  obtain ⟨hframes, hstored⟩ := h₁.whole.done hpending
  have hkept : t₁.complete ++ t₁.frames = K::keys := KeyState.run_keys hrun₁.handover
  rw [hframes, List.append_nil] at hkept
  have hwritten : Supervised.Run controlPass (opened deviceOutlets cap)
      ⟨keyedStart kind lasts ports fs m,.ret st⟩ ⟨u,.ret st⟩ := Supervised.Run.of_net hcores
  have hloop := pass_run (opened deviceOutlets cap) u st
  obtain ⟨t₂, log₂, hrun₂, h₂, -, hcomplete, -⟩ := h₁.run_loop hf hkeys hstored hst hloop
  refine ⟨_, t₂, hrun₁.trans hrun₂, hwritten.trans hloop, ?_, hcomplete.trans hkept, ?_⟩
  · rw [← storedKey_starved hf hwritten hst]
    exact provisioned_pass u.mem
  · have hpass₂ := h₂.shows.pass
    generalize t₂.pass = pass at hpass₂ ⊢
    cases hpass₂
    rfl

end Projection

/-! The blocks. -/

namespace CipherKind

/-- The step of the hand-over in which the core processes a block. -/
def blockAction : CipherKind → KeyAction
  | des => .desBlock
  | aesCipher => .aesBlock

end CipherKind

/-- The hand-over of keys is what happens in the device: next to every run of the cores and the control
loop there is one of the hand-over, with the same registers and columns and the same place of the loop.
As long as that run is calm, a block processed in a state where its columns are at rest is in the block
cipher of the standard under one key that has been stored in full. -/
theorem keyed_handover (kind : CipherKind) (lasts : ℕ → Bool) (ports : DevicePorts)
    (K : Vector Byte 16) (keys : List (Vector Byte 16)) {m : (c : Cell) → c.Val}
    (hm : Provisioned K m) (fs : List Frame) (hf : DeviceFrames fs) (hkeys : KeyWrites fs keys)
    (cap : DeviceFifo → ℕ∞) (st : ControlState)
    (s : Supervised (keyedDevice kind lasts ports) ControlState)
    (hs : Supervised.Run controlPass cap ⟨keyedStart kind lasts ports fs m,.ret st⟩ s) :
    (∃ t, HandedRun kind lasts ports cap (fun _ _ => True)
      (⟨keyedStart kind lasts ports fs m,.ret st⟩,KeyState.start K keys) (s,t) ∧ Shows s t) ∧
    ∀ t, HandedRun kind lasts ports cap KeyState.Calm
        (⟨keyedStart kind lasts ports fs m,.ret st⟩,KeyState.start K keys) (s,t) →
      KeyState.Calm t kind.blockAction → ∃ L ∈ t.complete, ∀ block inp out,
        exec (Memory.shared DeviceCore Cell.Val) .cipher (kind.process block) ⟨inp,out,s.net.mem⟩ =
          some (kind.standard L (s.net.mem .desMode) block,⟨inp,out,s.net.mem⟩) := by
  have hstart : HandsOver kind lasts ports fs cap m keys ⟨keyedStart kind lasts ports fs m,.ret st⟩
      (KeyState.start K keys) fun _ => [] := .start hm st
  constructor
  · obtain ⟨t, log, hrun, h⟩ := hstart.run hf hkeys hs
    exact ⟨t, hrun, h.shows⟩
  · intro t ht hc
    have hshows := ht.shows hstart.shows
    have hinv := KeyState.inv_run (KeyState.inv_start K keys) ht.handover
    have hblock (L : Vector Byte 16)
        (hdes : kind = .des → desTable (desColumns s.net.mem) = desSchedule L)
        (haes : kind = .aesCipher → aesTable (aesColumns s.net.mem) = aesSchedule L)
        (block : Vector Byte kind.blockSize) (inp : InputStrm → List NetWord)
        (out : OutputStrm → List NetWord) :
        exec (Memory.shared DeviceCore Cell.Val) .cipher (kind.process block) ⟨inp,out,s.net.mem⟩ =
          some (kind.standard L (s.net.mem .desMode) block,⟨inp,out,s.net.mem⟩) := by
      rw [← kind.processBlock_standard hdes haes block]
      exact kind.exec_process _ block _
    cases kind with
    | des =>
      obtain ⟨L, hL, htable⟩ := KeyState.wholeKey_desBlock hinv hc
      exact ⟨L, hL, hblock L (fun _ => hshows.desCols ▸ htable) (fun h => by cases h)⟩
    | aesCipher =>
      obtain ⟨L, hL, htable⟩ := KeyState.wholeKey_aesBlock hinv hc
      exact ⟨L, hL, hblock L (fun h => by cases h) (fun _ => hshows.aesCols ▸ htable)⟩

/-! The request of `keyFrame` to a device that has been loaded with zeros. -/

def zeroKeyed : (c : Cell) → c.Val := afterPass Cell.zero

lemma keyWrites_keyFrame : KeyWrites [keyFrame] [someKey] := by
  have hpairs := writePairs_key (f := keyFrame.words) (K := someKey) (by decide)
  rw [KeyWrites, writeHistory_keyFrame, hpairs]
  rfl

/-- `keyed_handover` where the key has been stored and loaded in a calm run: a block is in AES under
the new key. -/
theorem keyed_handover_keyFrame : ∃ s t, HandedRun .aesCipher (fun _ => false) somePorts openDepth
      KeyState.Calm (⟨keyedStart .aesCipher (fun _ => false) somePorts [keyFrame] zeroKeyed,
        .ret someControl⟩,KeyState.start (storedKey Cell.zero) [someKey]) (s,t) ∧
    t.complete = [storedKey Cell.zero,someKey] ∧ Provisioned someKey s.net.mem ∧
    ∃ L ∈ t.complete, ∀ block inp out,
      exec (Memory.shared DeviceCore Cell.Val) .cipher (CipherKind.aesCipher.process block)
        ⟨inp,out,s.net.mem⟩ = some (CipherKind.aesCipher.standard L (s.net.mem .desMode) block,
          ⟨inp,out,s.net.mem⟩) := by
  have hm : Provisioned (storedKey Cell.zero) zeroKeyed := provisioned_pass Cell.zero
  obtain ⟨s, t, hrun, hs, hkeyed, hcomplete, hpass⟩ := calm_handover hm keyFrame_device
    keyWrites_keyFrame fifoDepth_room someControl
  obtain ⟨-, hcalm⟩ := keyed_handover .aesCipher (fun _ => false) somePorts (storedKey Cell.zero)
    [someKey] hm [keyFrame] keyFrame_device keyWrites_keyFrame openDepth someControl s hs
  exact ⟨s, t, hrun, hcomplete, latest_keyFrame zeroKeyed ▸ hkeyed,
    hcalm t hrun (congrArg Pass.aesWrites hpass)⟩

end EncryptionAccelerators.Net
