import EncryptionAccelerators.ControlLoop

/-! A key on its way to the cores while blocks flow: register words stored one at a time, read
one at a time, and columns written one at a time, in any order with the blocks of the cores. -/
namespace EncryptionAccelerators.Net

/-- The next step of the control loop: word `n` of the key or column `n` of a core. -/
inductive Pass
  | reading (n : Fin 4) (keyReg : Fin 4 → BitVec 32)
  | writingDes (n : Fin 8) (inputKey : Vector Byte 16)
  | writingAes (n : Fin 16) (inputKey : Vector Byte 16)

namespace Pass

/-- Register words read so far in the pass. -/
def reads : Pass → ℕ
  | reading n _ => n
  | _ => 0

/-- Columns written so far, while some are left to write. -/
def desWrites : Pass → ℕ
  | writingDes n _ => n
  | _ => 0

def aesWrites : Pass → ℕ
  | writingAes n _ => n
  | _ => 0

end Pass

/-- `frames` are the keys of the write frames not yet stored in full, `stored` words of the first
of them are; `complete` lists the keys that have been stored in full. -/
structure KeyState where
  keyReg : Fin 4 → BitVec 32
  frames : List (Vector Byte 16)
  stored : Fin 4
  complete : List (Vector Byte 16)
  pass : Pass
  desCols : Fin 8 → Vector Byte 17
  aesCols : Fin 16 → Vector Byte 11

inductive KeyAction
  | store | read | writeDes | writeAes | desBlock | aesBlock
  deriving DecidableEq

namespace KeyState

/-- The atomic steps. A block is processed with the table as it is and changes nothing here. -/
def next (s : KeyState) : KeyAction → Option KeyState
  | .store =>
    match s.frames with
    | [] => none
    | K::frames => some { s with
        keyReg := Function.update s.keyReg s.stored (keyWord K s.stored)
        stored := s.stored + 1
        frames := if s.stored = 3 then frames else s.frames
        complete := if s.stored = 3 then s.complete ++ [K] else s.complete }
  | .read =>
    match s.pass with
    | .reading n keyReg =>
      let keyReg := Function.update keyReg n (s.keyReg n)
      some { s with pass := if n = 3 then .writingDes 0 (keyOf keyReg) else .reading (n + 1) keyReg }
    | _ => none
  | .writeDes =>
    match s.pass with
    | .writingDes n inputKey => some { s with
        desCols := Function.update s.desCols n (desColumnsOf inputKey n)
        pass := if n = 7 then .writingAes 0 inputKey else .writingDes (n + 1) inputKey }
    | _ => none
  | .writeAes =>
    match s.pass with
    | .writingAes n inputKey => some { s with
        aesCols := Function.update s.aesCols n (aesColumnsOf inputKey n)
        pass := if n = 15 then .reading 0 fun _ => 0 else .writingAes (n + 1) inputKey }
    | _ => none
  | .desBlock => some s
  | .aesBlock => some s

/-- Registers and tables hold the data of one key. -/
def start (K : Vector Byte 16) (frames : List (Vector Byte 16)) : KeyState where
  keyReg := keyWord K
  frames := frames
  stored := 0
  complete := [K]
  pass := .reading 0 fun _ => 0
  desCols := desColumnsOf K
  aesCols := aesColumnsOf K

/-- The steps of a run that meets the condition `P` at every step. -/
def Run (P : KeyState → KeyAction → Prop) : KeyState → KeyState → Prop :=
  Relation.ReflTransGen fun s t => ∃ a, P s a ∧ s.next a = some t

/-- A block is processed with the table of a key stored in full. -/
def WholeKey (s : KeyState) : KeyAction → Prop
  | .desBlock => ∃ K ∈ s.complete, desTable s.desCols = desSchedule K
  | .aesBlock => ∃ K ∈ s.complete, aesTable s.aesCols = aesSchedule K
  | _ => True

/-- No word is stored between the four reads of a pass, none is read while a frame is stored in
part, and no block is processed while its core's columns are being written. -/
def Calm (s : KeyState) : KeyAction → Prop
  | .store => s.pass.reads = 0
  | .read => s.stored = 0
  | .desBlock => s.pass.desWrites = 0
  | .aesBlock => s.pass.aesWrites = 0
  | _ => True

instance (s : KeyState) (a : KeyAction) : Decidable (Calm s a) := by
  cases a <;> unfold Calm <;> infer_instance

/-- What a pass has done so far belongs to one key stored in full. -/
def PassOk (s : KeyState) : Pass → Prop
  | .reading n keyReg => (n = 0 ∨ s.stored = 0) ∧ (∀ i < n, keyReg i = s.keyReg i) ∧
      (∃ K ∈ s.complete, s.desCols = desColumnsOf K) ∧ ∃ K ∈ s.complete, s.aesCols = aesColumnsOf K
  | .writingDes n K => K ∈ s.complete ∧ (∀ i < n, s.desCols i = desColumnsOf K i) ∧
      (n = 0 → ∃ K ∈ s.complete, s.desCols = desColumnsOf K) ∧
      ∃ K ∈ s.complete, s.aesCols = aesColumnsOf K
  | .writingAes n K => K ∈ s.complete ∧ s.desCols = desColumnsOf K ∧
      (∀ i < n, s.aesCols i = aesColumnsOf K i) ∧
      (n = 0 → ∃ K ∈ s.complete, s.aesCols = aesColumnsOf K)

structure Inv (s : KeyState) : Prop where
  partly : ∀ K frames, s.frames = K::frames → ∀ i < s.stored, s.keyReg i = keyWord K i
  whole : s.stored = 0 → ∃ K ∈ s.complete, s.keyReg = keyWord K
  pass : PassOk s s.pass

lemma inv_start (K : Vector Byte 16) (frames : List (Vector Byte 16)) : Inv (start K frames) where
  partly _ _ _ i hi := absurd hi (Fin.not_lt_zero i)
  whole _ := ⟨K, List.mem_singleton_self K, rfl⟩
  pass := ⟨.inl rfl, fun i hi => absurd hi (Fin.not_lt_zero i),
    ⟨K, List.mem_singleton_self K, rfl⟩, ⟨K, List.mem_singleton_self K, rfl⟩⟩

/-- Entries below `n + 1` are those below `n` and entry `n`. -/
lemma lt_succ_cases {m : ℕ} {n i : Fin (m+1)} (hn : n ≠ Fin.last m) (hi : i < n + 1) :
    i < n ∨ i = n := by
  have hv : (n + 1).val = n.val + 1 := Fin.val_add_one_of_lt (Fin.lt_last_iff_ne_last.mpr hn)
  rw [Fin.lt_def, hv] at hi
  rcases Nat.lt_succ_iff_lt_or_eq.mp hi with h | h
  · exact .inl h
  · exact .inr (Fin.ext h)

lemma succ_ne_zero {m : ℕ} {n : Fin (m+1)} (hn : n ≠ Fin.last m) : n + 1 ≠ 0 := by
  intro h
  have hv : (n + 1).val = n.val + 1 := Fin.val_add_one_of_lt (Fin.lt_last_iff_ne_last.mpr hn)
  rw [h] at hv
  exact absurd hv (by simp)

/-- A series of writes, one entry after the other, after the entry `n`. -/
lemma update_lt {α : Type} {m : ℕ} {f g : Fin (m+1) → α} {n : Fin (m+1)}
    (h : ∀ i < n, f i = g i) (hn : n ≠ Fin.last m) :
    ∀ i < n + 1, Function.update f n (g n) i = g i := by
  intro i hi
  rcases lt_succ_cases hn hi with hlt | rfl
  · rw [Function.update_of_ne (ne_of_lt hlt), h i hlt]
  · exact Function.update_self _ _ _

/-- After the last entry all are written. -/
lemma update_last {α : Type} {m : ℕ} {f g : Fin (m+1) → α} (h : ∀ i < Fin.last m, f i = g i) :
    Function.update f (Fin.last m) (g (Fin.last m)) = g := by
  funext i
  by_cases hi : i = Fin.last m
  · subst hi
    exact Function.update_self _ _ _
  · rw [Function.update_of_ne hi, h i (Fin.lt_last_iff_ne_last.mpr hi)]

/-- A pass is not affected by more keys, nor by register writes outside its reads. -/
lemma PassOk.mono {s t : KeyState} {p : Pass} (h : PassOk s p)
    (hcomplete : ∀ K ∈ s.complete, K ∈ t.complete) (hdes : t.desCols = s.desCols)
    (haes : t.aesCols = s.aesCols) (hread : p.reads = 0) : PassOk t p := by
  cases p with
  | reading n keyReg =>
    obtain rfl : n = 0 := Fin.ext hread
    obtain ⟨-, -, ⟨K, hK, hKd⟩, ⟨L, hL, hLa⟩⟩ := h
    exact ⟨.inl rfl, fun i hi => absurd hi (Fin.not_lt_zero i),
      ⟨K, hcomplete K hK, hdes.trans hKd⟩, ⟨L, hcomplete L hL, haes.trans hLa⟩⟩
  | writingDes n K =>
    obtain ⟨hK, hcols, hzero, ⟨L, hL, hLa⟩⟩ := h
    refine ⟨hcomplete K hK, by rwa [hdes], fun hn => ?_, ⟨L, hcomplete L hL, haes.trans hLa⟩⟩
    obtain ⟨M, hM, hMd⟩ := hzero hn
    exact ⟨M, hcomplete M hM, hdes.trans hMd⟩
  | writingAes n K =>
    obtain ⟨hK, hKd, hcols, hzero⟩ := h
    refine ⟨hcomplete K hK, hdes.trans hKd, by rwa [haes], fun hn => ?_⟩
    obtain ⟨M, hM, hMa⟩ := hzero hn
    exact ⟨M, hcomplete M hM, haes.trans hMa⟩

lemma inv_store {s t : KeyState} (hs : Inv s) (hc : Calm s .store) (h : s.next .store = some t) :
    Inv t := by
  rw [next] at h
  cases hf : s.frames with
  | nil => simp [hf] at h
  | cons K frames =>
    rw [hf] at h
    obtain rfl := Option.some.inj h
    have hpart := hs.partly K frames hf
    by_cases h3 : s.stored = 3
    · have hreg : Function.update s.keyReg s.stored (keyWord K s.stored) = keyWord K := by
        rw [h3] at hpart ⊢
        exact update_last hpart
      have hnext : s.stored + 1 = 0 := by rw [h3]; rfl
      refine ⟨fun _ _ _ i hi => ?_, fun _ => ⟨K, by simp [h3], hreg⟩,
        hs.pass.mono (fun L hL => by simp [h3, hL]) rfl rfl hc⟩
      exact absurd (hnext ▸ hi) (Fin.not_lt_zero i)
    · refine ⟨fun L _ hL => ?_, fun h0 => absurd h0 (succ_ne_zero h3),
        hs.pass.mono (fun L hL => by simpa [h3] using hL) rfl rfl hc⟩
      have hKL : K = L := by
        simp only [h3, if_false] at hL
        exact (List.cons.inj hL).1
      subst hKL
      exact update_lt hpart h3

lemma inv_read {s t : KeyState} (hs : Inv s) (hc : Calm s .read) (h : s.next .read = some t) :
    Inv t := by
  rw [next] at h
  have hp := hs.pass
  cases hpass : s.pass with
  | writingDes n K => simp [hpass] at h
  | writingAes n K => simp [hpass] at h
  | reading n keyReg =>
    rw [hpass] at h hp
    obtain rfl := Option.some.inj h
    obtain ⟨-, hread, hdes, haes⟩ := hp
    refine ⟨hs.partly, hs.whole, ?_⟩
    by_cases h3 : n = 3
    · obtain ⟨K, hK, hreg⟩ := hs.whole hc
      have hall : Function.update keyReg n (s.keyReg n) = keyWord K := by
        rw [← hreg]
        subst h3
        exact update_last hread
      simp only [h3, if_true] at hall ⊢
      rw [hall, keyOf_keyWord]
      exact ⟨hK, fun i hi => absurd hi (Fin.not_lt_zero i), fun _ => hdes, haes⟩
    · simp only [h3, if_false]
      exact ⟨.inr hc, update_lt hread h3, hdes, haes⟩

lemma inv_writeDes {s t : KeyState} (hs : Inv s) (h : s.next .writeDes = some t) : Inv t := by
  rw [next] at h
  have hp := hs.pass
  cases hpass : s.pass with
  | reading n keyReg => simp [hpass] at h
  | writingAes n K => simp [hpass] at h
  | writingDes n K =>
    rw [hpass] at h hp
    obtain rfl := Option.some.inj h
    obtain ⟨hK, hcols, -, haes⟩ := hp
    refine ⟨hs.partly, hs.whole, ?_⟩
    by_cases h7 : n = 7
    · subst h7
      exact ⟨hK, update_last hcols, fun i hi => absurd hi (Fin.not_lt_zero i), fun _ => haes⟩
    · simp only [h7, if_false]
      exact ⟨hK, update_lt hcols h7, fun h0 => absurd h0 (succ_ne_zero h7), haes⟩

lemma inv_writeAes {s t : KeyState} (hs : Inv s) (h : s.next .writeAes = some t) : Inv t := by
  rw [next] at h
  have hp := hs.pass
  cases hpass : s.pass with
  | reading n keyReg => simp [hpass] at h
  | writingDes n K => simp [hpass] at h
  | writingAes n K =>
    rw [hpass] at h hp
    obtain rfl := Option.some.inj h
    obtain ⟨hK, hdes, hcols, -⟩ := hp
    refine ⟨hs.partly, hs.whole, ?_⟩
    by_cases h15 : n = 15
    · subst h15
      exact ⟨.inl rfl, fun i hi => absurd hi (Fin.not_lt_zero i), ⟨K, hK, hdes⟩,
        ⟨K, hK, update_last hcols⟩⟩
    · simp only [h15, if_false]
      exact ⟨hK, hdes, update_lt hcols h15, fun h0 => absurd h0 (succ_ne_zero h15)⟩

/-- Every calm step keeps the invariant. -/
lemma inv_next {s t : KeyState} {a : KeyAction} (hs : Inv s) (hc : Calm s a)
    (h : s.next a = some t) : Inv t := by
  cases a with
  | store => exact inv_store hs hc h
  | read => exact inv_read hs hc h
  | writeDes => exact inv_writeDes hs h
  | writeAes => exact inv_writeAes hs h
  | desBlock => exact Option.some.inj h ▸ hs
  | aesBlock => exact Option.some.inj h ▸ hs

lemma inv_run {s t : KeyState} (hs : Inv s) (h : Run Calm s t) : Inv t := by
  induction h with
  | refl => exact hs
  | tail _ hstep ih =>
    obtain ⟨a, hc, hnext⟩ := hstep
    exact inv_next ih hc hnext

lemma wholeKey_desBlock {s : KeyState} (hs : Inv s) (hc : Calm s .desBlock) :
    WholeKey s .desBlock := by
  have hp := hs.pass
  suffices h : ∃ K ∈ s.complete, s.desCols = desColumnsOf K by
    obtain ⟨K, hK, hcols⟩ := h
    exact ⟨K, hK, by rw [hcols, desTable_desColumnsOf]⟩
  cases hpass : s.pass with
  | reading n keyReg => rw [hpass] at hp; exact hp.2.2.1
  | writingDes n K =>
    rw [hpass] at hp
    rw [Calm, hpass] at hc
    exact hp.2.2.1 (Fin.ext hc)
  | writingAes n K => rw [hpass] at hp; exact ⟨K, hp.1, hp.2.1⟩

lemma wholeKey_aesBlock {s : KeyState} (hs : Inv s) (hc : Calm s .aesBlock) :
    WholeKey s .aesBlock := by
  have hp := hs.pass
  suffices h : ∃ K ∈ s.complete, s.aesCols = aesColumnsOf K by
    obtain ⟨K, hK, hcols⟩ := h
    exact ⟨K, hK, by rw [hcols, aesTable_aesColumnsOf]⟩
  cases hpass : s.pass with
  | reading n keyReg => rw [hpass] at hp; exact hp.2.2.2
  | writingDes n K => rw [hpass] at hp; exact hp.2.2.2
  | writingAes n K =>
    rw [hpass] at hp
    rw [Calm, hpass] at hc
    exact hp.2.2.2 (Fin.ext hc)

/-- In a run of calm steps every block is processed with the table of one key that has been stored
in full. -/
theorem whole_keys (K : Vector Byte 16) (frames : List (Vector Byte 16)) (s : KeyState)
    (h : Run Calm (start K frames) s) (a : KeyAction) (hc : Calm s a) : WholeKey s a := by
  have hs := inv_run (inv_start K frames) h
  cases a with
  | desBlock => exact wholeKey_desBlock hs hc
  | aesBlock => exact wholeKey_aesBlock hs hc
  | _ => trivial

/-- The state after a list of steps, if each can be taken and meets the condition. -/
def steps (P : KeyState → KeyAction → Prop) [∀ s a, Decidable (P s a)] :
    KeyState → List KeyAction → Option KeyState
  | s, [] => some s
  | s, a::as => if P s a then (s.next a).bind fun t => steps P t as else none

lemma run_steps {P : KeyState → KeyAction → Prop} [∀ s a, Decidable (P s a)]
    (as : List KeyAction) {s t : KeyState} (h : steps P s as = some t) : Run P s t := by
  induction as generalizing s with
  | nil => exact Option.some.inj h ▸ .refl
  | cons a as ih =>
    rw [steps] at h
    by_cases hp : P s a
    · rw [if_pos hp] at h
      obtain ⟨u, hu, hrest⟩ := Option.bind_eq_some_iff.mp h
      exact .head ⟨a, hp, hu⟩ (ih hrest)
    · simp [hp] at h

/-- A frame stored, read and written to both cores with nothing else going on. -/
def handover : List KeyAction :=
  .replicate 4 .store ++ .replicate 4 .read ++ .replicate 8 .writeDes ++ .replicate 16 .writeAes

/-- Two keys, the second sent in one frame. -/
def zeros : Vector Byte 16 := .replicate 16 0x00
def ones : Vector Byte 16 := .replicate 16 0xff

/-- `whole_keys` at the end of a handover: the block meets the new key. -/
theorem whole_keys_handover : ∃ s, steps Calm (start zeros [ones]) handover = some s ∧
    s.complete = [zeros,ones] ∧ WholeKey s .desBlock ∧ WholeKey s .aesBlock := by
  obtain ⟨s, hs, hc⟩ : ∃ s, steps Calm (start zeros [ones]) handover = some s ∧
      s.complete = [zeros,ones] ∧ Calm s .desBlock ∧ Calm s .aesBlock := ⟨_, rfl, rfl, rfl, rfl⟩
  exact ⟨s, hs, hc.1, whole_keys zeros [ones] s (run_steps handover hs) .desBlock hc.2.1,
    whole_keys zeros [ones] s (run_steps handover hs) .aesBlock hc.2.2⟩

/-- The frame is stored and one column of the new schedule is written. -/
def tornTable : List KeyAction := .replicate 4 .store ++ .replicate 4 .read ++ [.writeDes]

/-- One word of the new key is stored before a pass reads the registers. -/
def tornKey : List KeyAction := [.store] ++ .replicate 4 .read ++ .replicate 8 .writeDes

/-- The subkey of the first round. -/
def firstKey (table : KeyTable) : Vector Byte 8 := table.getD 1 (.replicate 8 0)

lemma not_wholeKey {s : KeyState} (h : firstKey (desTable s.desCols) ∉
    s.complete.map fun K => firstKey (desSchedule K)) : ¬ WholeKey s .desBlock := by
  rintro ⟨K, hK, hs⟩
  exact h (List.mem_map.mpr ⟨K, hK, by rw [hs]⟩)

/-- A block can meet columns of two keys; with its columns at rest it can meet a key that was never
stored. -/
theorem whole_keys_fails :
    (∃ s, Run Calm (start zeros [ones]) s ∧ ¬ WholeKey s .desBlock) ∧
    ∃ s, Run (fun _ _ => True) (start zeros [ones]) s ∧ Calm s .desBlock ∧
      ¬ WholeKey s .desBlock := by
  constructor
  · refine ⟨_, run_steps tornTable rfl, not_wholeKey ?_⟩
    decide +kernel
  · refine ⟨_, run_steps tornKey rfl, rfl, not_wholeKey ?_⟩
    decide +kernel

end KeyState

end EncryptionAccelerators.Net
