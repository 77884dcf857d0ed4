import EncryptionAccelerators.SupervisedDevice
import EncryptionAccelerators.KeyProvisioning

/-! The device with the control loop of `main.cc` running next to it. As long as the key in the
registers and the DIP switches stay, each pass writes to the cores what they hold already. -/
namespace EncryptionAccelerators.Net
open Dataflow BitString WriteHistory

/-- The tables, the mode and the switch are those a pass sets for the key `K` in the registers. -/
structure Provisioned (K : Vector Byte 16) (m : (c : Cell) → c.Val) : Prop where
  key : storedKey m = K
  des : ∀ i, m (.keySetsK i) = desColumnsOf K i
  aes : ∀ i, m (.aesW i) = aesColumnsOf K i
  mode : m .desMode = ((m .dipSwitches &&& 0x02) >>> 1).setWidth 1
  rawData : m .rawDataSwitch = (m .dipSwitches &&& 0x01,SLAVE_0)

/-- A pass writes no other cells. -/
lemma loaded_of_ne (m : (c : Cell) → c.Val) (des : Fin 8 → Vector Byte 17)
    (aes : Fin 16 → Vector Byte 11) {c : Cell} (hdes : ∀ i, c ≠ .keySetsK i)
    (haes : ∀ i, c ≠ .aesW i) : loaded m des aes c = m c := by
  refine (foldl_update_of_ne (V := Cell.Val) Cell.aesW aes _ _ fun i _ => haes i).trans ?_
  exact foldl_update_of_ne (V := Cell.Val) Cell.keySetsK des _ _ fun i _ => hdes i

lemma bram_switched (m : (c : Cell) → c.Val) (des : Fin 8 → Vector Byte 17)
    (aes : Fin 16 → Vector Byte 11) (index : BitVec 32) :
    switched (loaded m des aes) (.bram index) = m (.bram index) := by
  have hreg : loaded m des aes (.bram index) = m (.bram index) :=
    loaded_of_ne m des aes (by simp) (by simp)
  simpa [switched] using hreg

/-- What a pass makes of the memory. -/
def afterPass (m : (c : Cell) → c.Val) : (c : Cell) → c.Val :=
  switched (loaded m (desColumnsOf (storedKey m)) (aesColumnsOf (storedKey m)))

/-- Every pass of the control loop that is not disturbed leaves such a memory. -/
lemma provisioned_pass (m : (c : Cell) → c.Val) : Provisioned (storedKey m) (afterPass m) := by
  unfold afterPass
  set des := desColumnsOf (storedKey m)
  set aes := aesColumnsOf (storedKey m)
  have hdip : loaded m des aes .dipSwitches = m .dipSwitches :=
    loaded_of_ne m des aes (by simp) (by simp)
  constructor
  · exact congrArg keyOf (funext fun i => bram_switched m des aes (keyRegister i))
  · have hcols := (desColumns_switched (loaded m des aes)).trans (desColumns_loaded m des aes)
    exact congrFun hcols
  · have hcols := (aesColumns_switched (loaded m des aes)).trans (aesColumns_loaded m des aes)
    exact congrFun hcols
  · simp [switched, hdip]
  · simp [switched, hdip]

/-! What the memory keeps. -/

/-- The registers of the key. -/
def keyCells : List Cell := (List.finRange 4).map fun i : Fin 4 => .bram (keyRegister i)

/-- The tables of the cores, the switches and the mode. -/
def fixedCells (m : (c : Cell) → c.Val) : (c : Cell) → Option c.Val
  | .keySetsK i => some (m (.keySetsK i))
  | .aesW i => some (m (.aesW i))
  | .desMode => some (m .desMode)
  | .dipSwitches => some (m .dipSwitches)
  | .rawDataSwitch => some (m .rawDataSwitch)
  | _ => none

def knownCells (m : (c : Cell) → c.Val) (c : Cell) : Option c.Val :=
  if c ∈ keyCells then some (m c) else fixedCells m c

variable {m : (c : Cell) → c.Val}

lemma fixedCells_eq {c : Cell} {v : c.Val} (h : v ∈ fixedCells m c) : m c = v := by
  cases c <;> first | exact Option.some.inj h | cases h

lemma knownCells_eq {c : Cell} {v : c.Val} (h : v ∈ knownCells m c) : m c = v := by
  by_cases hc : c ∈ keyCells
  · rw [knownCells, if_pos hc] at h
    exact Option.some.inj h
  · rw [knownCells, if_neg hc] at h
    exact fixedCells_eq h

lemma mem_knownCells {c : Cell} {v : c.Val} (h : v ∈ fixedCells m c) : v ∈ knownCells m c := by
  by_cases hc : c ∈ keyCells
  · rw [knownCells, if_pos hc]
    exact congrArg some (fixedCells_eq h)
  · rwa [knownCells, if_neg hc]

/-- A pass writes what is there. -/
lemma steady_controlPass {K : Vector Byte 16} (hm : Provisioned K m) (st : ControlState) :
    (controlPass st : Cmd Empty Empty NetWord Cell.Val ControlState).Steady (knownCells m) := by
  have hreg (i : Fin 4) : m (.bram (keyRegister i)) ∈ knownCells m (.bram (keyRegister i)) := by
    have hc : Cell.bram (keyRegister i) ∈ keyCells := List.mem_map_of_mem (List.mem_finRange i)
    rw [knownCells, if_pos hc]
    rfl
  have hwrite {c : Cell} {v : c.Val} (h : v ∈ fixedCells m c) : v ∈ knownCells m c := mem_knownCells h
  refine .peek fun key0 h0 => .peek fun key1 h1 => .peek fun key2 h2 => .peek fun key3 h3 => ?_
  have hkey : keyOf ![key0,key1,key2,key3] = K := by
    have h0' := h0 _ (hreg 0)
    have h1' := h1 _ (hreg 1)
    have h2' := h2 _ (hreg 2)
    have h3' := h3 _ (hreg 3)
    subst h0' h1' h2' h3'
    refine (congrArg keyOf (funext fun i => ?_)).trans hm.key
    fin_cases i <;> rfl
  change Cmd.Steady _ (loadCores st (keyOf ![key0,key1,key2,key3]) >>= setSwitches)
  rw [hkey, loadCores_bind]
  refine steady_forEach_bind Cell.keySetsK (desColumnsOf K) _ (fun i _ => hwrite ?_) ?_
  · exact congrArg some (hm.des i)
  refine steady_forEach_bind Cell.aesW (aesColumnsOf K) _ (fun i _ => hwrite ?_) ?_
  · exact congrArg some (hm.aes i)
  refine .peek fun dipsw hdip => ?_
  have hdip' : dipsw = m .dipSwitches := hdip _ (hwrite rfl)
  subst hdip'
  refine .poke (hwrite ?_) (.poke (hwrite ?_) (.ret _))
  · exact congrArg some hm.rawData
  · exact congrArg some hm.mode

/-- The known cells are all a memory needs to be the one a pass leaves. -/
lemma Provisioned.of_holds {K : Vector Byte 16} {m' : (c : Cell) → c.Val} (hm : Provisioned K m)
    (h : Holds (knownCells m) m') : Provisioned K m' := by
  have hfixed {c : Cell} (hc : m c ∈ fixedCells m c) : m' c = m c := h c _ (mem_knownCells hc)
  have hdip : m' .dipSwitches = m .dipSwitches := hfixed rfl
  constructor
  · refine (congrArg keyOf (funext fun i => ?_)).trans hm.key
    have hc : Cell.bram (keyRegister i) ∈ keyCells := List.mem_map_of_mem (List.mem_finRange i)
    refine h (.bram (keyRegister i)) _ ?_
    rw [knownCells, if_pos hc]
    rfl
  · exact fun i => (hfixed rfl).trans (hm.des i)
  · exact fun i => (hfixed rfl).trans (hm.aes i)
  · rw [hdip]
    exact (hfixed rfl).trans hm.mode
  · rw [hdip]
    exact (hfixed rfl).trans hm.rawData

/-! The cores around a cipher core that loads from its tables. -/

section Around
variable {n : ℕ} {cipher cipher' : Piece n → Cmd InputStrm OutputStrm NetWord Cell.Val (Piece n)}
  {lasts : ℕ → Bool} {ports : DevicePorts}

lemma fixedCells_sender {c : Cell} (h : SenderCell c) : fixedCells m c = none := by
  rcases h with rfl | rfl <;> rfl

lemma fixedCells_register {c : Cell} (h : regOwner c = some .udpReg) : fixedCells m c = none := by
  cases c with
  | bram index => rfl
  | _ => cases h

lemma fixedCells_stores {i : DeviceCore} {c : Cell} (h : i.Stores c) : fixedCells m c = none := by
  cases i with
  | udpReg => exact fixedCells_register h
  | udpDepacketizer => exact fixedCells_sender h
  | _ => exact h.elim

lemma fixedCells_loads {i : DeviceCore} (hi : i ≠ .cipher) {ld : Cell → Prop} {c : Cell}
    (h : i.Loads ld c) : fixedCells m c = none := by
  cases i with
  | udpReg => exact fixedCells_register h
  | udpPacketizer => exact fixedCells_sender h
  | cipher => exact absurd rfl hi
  | _ => exact h.elim

/-- Where the tables are constants, the cipher core is all that changes. -/
lemma around_settle (hacc : ∀ piece, (cipher piece).Accesses (fun _ => True) NoCell)
    (hc : ∀ piece, (cipher piece).settle (fixedCells m) = cipher' piece)
    (i : DeviceCore) (l : (deviceAround cipher lasts ports).Label i) :
    ((deviceAround cipher lasts ports).body i l).settle (fixedCells m) =
      (deviceAround cipher' lasts ports).body i l := by
  by_cases hi : i = .cipher
  · subst hi
    exact hc l
  · have hloads : ((deviceAround cipher lasts ports).body i l).Accesses (i.Loads fun _ => True)
        i.Stores := around_accesses hacc i l
    have hsame := (hloads.mono (fun _ => fixedCells_loads (m := m) hi) fun _ h => h).settle_eq
    cases i <;> first | exact absurd rfl hi | exact hsame

end Around

/-- The frames write to the registers of the key, if at all, what these hold in `m`. -/
def KeepsKey (m : (c : Cell) → c.Val) (fs : List Frame) : Prop :=
  ∀ p ∈ writeHistory (framesFor .UDP_REG fs), ∀ i : Fin 4, wordIndex p.1 = keyRegister i →
    p.2 = regSpace m (keyRegister i)

/-- Writing what a register holds leaves it as it is. -/
lemma regSpace_storePairs_same {pairs : List (BitVec 32 × BitVec 32)} {index : BitVec 32}
    (h : ∀ p ∈ pairs, wordIndex p.1 = index → p.2 = regSpace m index) :
    regSpace (storePairs m pairs) index = regSpace m index := by
  rw [regSpace_latest, WriteHistory.latest]
  cases hp : pairs.reverse.find? fun p => wordIndex p.1 = index with
  | none => rfl
  | some p =>
    have hmem := List.mem_reverse.mp (List.mem_of_find?_eq_some hp)
    have hindex := List.find?_some (p := fun p : BitVec 32 × BitVec 32 => wordIndex p.1 = index) hp
    exact h p hmem (of_decide_eq_true hindex)

section Run
variable {core : CipherCore} {lasts : ℕ → Bool} {ports : DevicePorts} {fs : List Frame}
  {cap : DeviceFifo → ℕ∞}

/-- The device keeps the key. -/
lemma device_keepsKey (hf : DeviceFrames fs) (hkey : KeepsKey m fs)
    {u : (device core lasts ports).State (Memory.shared DeviceCore Cell.Val).State}
    (hu : (device core lasts ports).Run (Memory.shared DeviceCore Cell.Val) cap
      (deviceStart core lasts ports fs m) u) (c : Cell) (hc : fixedCells m c = none) (v : c.Val)
    (hv : v ∈ knownCells m c) : (u.mem : (c : Cell) → c.Val) c = v := by
  by_cases hmem : c ∈ keyCells
  · obtain ⟨i, -, rfl⟩ := List.mem_map.mp hmem
    have hreached := reached_of_run (core_enciphers core) hu
    obtain ⟨pairs, hpairs, hreg⟩ := hreached.registers (core_enciphers core) hf
    have hsame := regSpace_storePairs_same fun p hp => hkey p (hpairs.subset hp) i
    exact ((hreg _).trans hsame).trans (knownCells_eq hv)
  · rw [knownCells, if_neg hmem, hc] at hv
    cases hv

section Around
variable {cipher : Piece core.blockSize → Cmd InputStrm OutputStrm NetWord Cell.Val (Piece core.blockSize)}
  (hacc : ∀ piece, (cipher piece).Accesses (fun _ => True) NoCell)
  (hc : ∀ piece, (cipher piece).settle (fixedCells m) = core.body piece) {K : Vector Byte 16}
  (hm : Provisioned K m) (hf : DeviceFrames fs) (hkey : KeepsKey m fs) {st : ControlState}
  {s : Supervised (deviceAround cipher lasts ports) ControlState}
  (hs : Supervised.Run controlPass cap
    ⟨aroundStart core.blockSize_pos cipher lasts ports fs m,.ret st⟩ s)
include hacc hc hm hf hkey hs

variable (core)

/-- With the control loop next to it the device runs as with the tables on its ports. -/
lemma around_run : (device core lasts ports).Run (Memory.shared DeviceCore Cell.Val) cap
      (deviceStart core lasts ports fs m)
      (Network.State.settle (N := deviceAround cipher lasts ports) (fixedCells m)
        (device core lasts ports).body s.net) ∧
    s.Quiet (fixedCells m) (knownCells m) ∧ Holds (knownCells m) s.net.mem := by
  have hsettle (i : DeviceCore) (l : (deviceAround cipher lasts ports).Label i) :
      ((deviceAround cipher lasts ports).body i l).settle (fixedCells m) =
        (device core lasts ports).body i l := around_settle hacc hc i l
  have hkeep (u : (device core lasts ports).State (Memory.shared DeviceCore Cell.Val).State)
      (hu : (device core lasts ports).Run (Memory.shared DeviceCore Cell.Val) cap
        (deviceStart core lasts ports fs m) u) := device_keepsKey hf hkey hu
  exact Supervised.Run.settle hsettle
    (fun i l => (around_accesses hacc i l).mono (fun _ _ => trivial) fun _ => fixedCells_stores)
    (steady_controlPass hm) (fun c v => mem_knownCells) ⟨fun i => .ret _, .ret _⟩
    (fun c v => knownCells_eq) hkeep hs

lemma around_replies : Replied core lasts ports fs m s.net.fifo s.net.mem (Network.Starved s.net) ∧
    Holds (knownCells m) s.net.mem := by
  obtain ⟨hrun, -, hholds⟩ := around_run core hacc hc hm hf hkey hs
  refine ⟨?_, hholds⟩
  exact (replied_of_run hf hf ⟨rfl, rfl, rfl, rfl⟩ hrun).mono Network.starved_settle

end Around

end Run

/-! What the cores compute with the tables of the key. -/

/-- DES under the first eight bytes of the key. -/
def desBlock (K : Vector Byte 16) (mode : BitVec 1) (block : Vector Byte 8) : Vector Byte 8 :=
  .ofFn fun b => byteOf (if mode = DECRYPTION_MODE
    then Fips46.decrypt (ofBytes (desKey K)) (ofBytes block)
    else Fips46.encrypt (ofBytes (desKey K)) (ofBytes block)) b

namespace CipherKind

/-- The block ciphers of the standards. -/
def standard (K : Vector Byte 16) (mode : BitVec 1) :
    (kind : CipherKind) → Vector Byte kind.blockSize → Vector Byte kind.blockSize
  | des => desBlock K mode
  | aesCipher => Fips197.cipher 10 (Fips197.keyExpansion 4 (getWord K.toList))

end CipherKind

lemma processMessage_desSchedule (K : Vector Byte 16) (mode : BitVec 1) (block : Vector Byte 8) :
    processMessage (desSchedule K) mode block = desBlock K mode block := by
  suffices h : ofBytes (processMessage (desSchedule K) mode block) = if mode = DECRYPTION_MODE
      then Fips46.decrypt (ofBytes (desKey K)) (ofBytes block)
      else Fips46.encrypt (ofBytes (desKey K)) (ofBytes block) by
    refine Vector.ext fun b hb => ?_
    rw [desBlock, ← h, Vector.getElem_ofFn, byteOf_ofBytes, getD_eq_getElem _ _ hb]
  split_ifs with h
  · refine ofBytes_processMessage _ _ _ (fun k hk => ?_) _
    obtain ⟨h1, h16⟩ := List.mem_range'_1.mp hk
    rw [keyIndex, if_pos h]
    exact keyBits_keyTable (desKey K) (by omega) (by omega)
  · refine ofBytes_processMessage _ _ _ (fun k hk => ?_) _
    obtain ⟨h1, h16⟩ := List.mem_range'_1.mp hk
    rw [keyIndex, if_neg h]
    exact keyBits_keyTable (desKey K) h1 (by omega)

namespace CipherKind

/-- With the tables of a key in its registers the core is the block cipher of the standard. -/
lemma processBlock_standard {K : Vector Byte 16} {m : (c : Cell) → c.Val} (kind : CipherKind)
    (hdes : kind = .des → desTable (desColumns m) = desSchedule K)
    (haes : kind = .aesCipher → aesTable (aesColumns m) = aesSchedule K)
    (block : Vector Byte kind.blockSize) :
    kind.processBlock m block = kind.standard K (m .desMode) block := by
  cases kind with
  | des =>
    rw [processBlock, hdes rfl]
    exact processMessage_desSchedule K (m .desMode) block
  | aesCipher =>
    rw [processBlock, haes rfl]
    exact aesCipher_eq (rowsAre_columnsTable K.toList _ List.length_replicate.ge) block

lemma core_cipher (kind : CipherKind) (m : (c : Cell) → c.Val) (bs : List Byte) :
    (kind.core m).cipher bs = cipherBlocks kind.blockSize (kind.processBlock m) bs := by
  cases kind <;> rfl

end CipherKind

lemma Provisioned.cipher {K : Vector Byte 16} (hm : Provisioned K m) (kind : CipherKind)
    (bs : List Byte) : (kind.core m).cipher bs =
      cipherBlocks kind.blockSize (kind.standard K (m .desMode)) bs := by
  have hdes : desTable (desColumns m) = desSchedule K := by
    rw [← desTable_desColumnsOf]
    exact congrArg desTable (funext hm.des)
  have haes : aesTable (aesColumns m) = aesSchedule K := by
    rw [← aesTable_aesColumnsOf]
    exact congrArg aesTable (funext hm.aes)
  rw [kind.core_cipher]
  exact congrArg (cipherBlocks kind.blockSize · bs)
    (funext (kind.processBlock_standard (fun _ => hdes) fun _ => haes))

section Service
variable {lasts : ℕ → Bool} {ports : DevicePorts}

lemma settle_des (piece : Piece 8) : (CipherKind.body .des piece).settle (fixedCells m) =
    (CipherKind.core m .des).body piece :=
  settle_loadingCore _ (settle_loadProcessMessage (fun _ => rfl) rfl) piece

lemma settle_aesCipher (piece : Piece 16) :
    (CipherKind.body .aesCipher piece).settle (fixedCells m) =
      (CipherKind.core m .aesCipher).body piece :=
  settle_loadingCore _ (settle_loadAesCipher fun _ => rfl) piece

/-- With the key `K` loaded and the control loop running, in any order of the steps, the device
answers as with the tables of `K` on its ports, the payloads it puts out are those received in the
block cipher of the standard under `K`, and the key stays loaded and the core selected. -/
theorem keyed_service (kind : CipherKind) (K : Vector Byte 16) (hm : Provisioned K m)
    (hkind : m .dipSwitches &&& 0x01 = kind.master) (fs : List Frame) (hf : DeviceFrames fs)
    (hkey : KeepsKey m fs) (cap : DeviceFifo → ℕ∞) (st : ControlState)
    (s : Supervised (keyedDevice kind lasts ports) ControlState)
    (hs : Supervised.Run controlPass cap ⟨keyedStart kind lasts ports fs m,.ret st⟩ s) :
    Replied (kind.core m) lasts ports fs m s.net.fifo s.net.mem (Network.Starved s.net) ∧
    packetPayloads s.net.fifo <+:
      cipherBlocks kind.blockSize (kind.standard K (m .desMode)) (sentPayloads fs) ∧
    Provisioned K s.net.mem ∧ s.net.mem .rawDataSwitch = (kind.master,SLAVE_0) := by
  have hall : Replied (kind.core m) lasts ports fs m s.net.fifo s.net.mem (Network.Starved s.net) ∧
      Holds (knownCells m) s.net.mem := by
    cases kind with
    | des =>
      exact around_replies (CipherKind.core m .des) (CipherKind.body_accesses .des) settle_des
        hm hf hkey hs
    | aesCipher =>
      exact around_replies (CipherKind.core m .aesCipher) (CipherKind.body_accesses .aesCipher)
        settle_aesCipher hm hf hkey hs
  refine ⟨hall.1, ?_, hm.of_holds hall.2, ?_⟩
  · rw [← hm.cipher]
    exact hall.1.udpStrm.start
  · rw [← hkind, ← hm.rawData]
    exact hall.2 .rawDataSwitch _ (mem_knownCells rfl)

lemma pass_run {kind : CipherKind} (cap : DeviceFifo → ℕ∞)
    (s : (keyedDevice kind lasts ports).State (Memory.shared DeviceCore Cell.Val).State)
    (l : ControlState) : Supervised.Run controlPass cap ⟨s,.ret l⟩
      ⟨⟨s.code,s.fifo,afterPass s.mem⟩,.ret (reloaded (storedKey s.mem))⟩ := by
  have hpass := exec_controlPass DeviceCore.parser l
    (⟨fun _ => [],fun _ => [],s.mem⟩ : Io Empty Empty NetWord ((c : Cell) → c.Val))
  exact .head .call (Supervised.run_exec DeviceCore.parser hpass)

/-- Once all cores wait the registers hold the key written last. -/
lemma storedKey_starved {kind : CipherKind} {fs : List Frame} (hf : DeviceFrames fs)
    {cap : DeviceFifo → ℕ∞} {m : (c : Cell) → c.Val} {st : ControlState}
    {s : Supervised (keyedDevice kind lasts ports) ControlState}
    (hs : Supervised.Run controlPass cap ⟨keyedStart kind lasts ports fs m,.ret st⟩ s)
    (hst : Network.Starved s.net) :
    storedKey s.net.mem = keyOf fun i => latest wordIndex (regSpace m)
      (writeHistory (framesFor .UDP_REG fs)) (keyRegister i) := by
  obtain ⟨-, hreached⟩ := keyed_reached hs
  have hregisters := (hreached.answered kind.body_enciphers hf hf ⟨rfl, rfl, rfl, rfl⟩).registers hst
  exact congrArg keyOf (funext fun i => hregisters (keyRegister i))

/-- From every state, in whatever order writes to the key and passes of the loop came, the device can
come to where nothing is left to do and the key that was written last is loaded, and from then on
nothing changes. -/
theorem keyed_rekeys (kind : CipherKind) (fs : List Frame) (hf : DeviceFrames fs)
    (cap : DeviceFifo → ℕ∞) (hroom : DeviceRoom cap) (m : (c : Cell) → c.Val) (st : ControlState)
    (s : Supervised (keyedDevice kind lasts ports) ControlState) (taken : DeviceFifo → ℕ)
    (hs : KeyedRun kind lasts ports cap (⟨keyedStart kind lasts ports fs m,.ret st⟩,fun _ => 0)
      (s,taken)) :
    ∃ t taken', KeyedRun kind lasts ports cap (s,taken) (t,taken') ∧ Idle t.net taken' ∧
      Provisioned (keyOf fun i => latest wordIndex (regSpace m)
        (writeHistory (framesFor .UDP_REG fs)) (keyRegister i)) t.net.mem ∧
      ∀ u, KeyedRun kind lasts ports cap (t,taken') u → u.1.net = t.net ∧ u.2 = taken' := by
  obtain ⟨hrun, htaken⟩ := hs.opened Supervised.asksRoom fun _ _ => rfl
  obtain ⟨t₁, taken₁, h₁, hst, hall⟩ := keyed_ends hf hroom hrun htaken
  obtain ⟨m₁, l, h₂⟩ :=
    Supervised.exists_finished controlPass (fun c => cap c + taken₁ c) t₁.net t₁.control
  have h₃ := pass_run (fun c => cap c + taken₁ c) ⟨t₁.net.code,t₁.net.fifo,m₁⟩ l
  set r : (keyedDevice kind lasts ports).State (Memory.shared DeviceCore Cell.Val).State :=
    ⟨t₁.net.code,t₁.net.fifo,afterPass m₁⟩
  set t : Supervised (keyedDevice kind lasts ports) ControlState :=
    ⟨r,.ret (reloaded (storedKey m₁))⟩
  have hr : Network.Starved r := hst
  have ht : KeyedRun kind lasts ports cap (s,taken) (t,taken₁) :=
    h₁.trans (OutletRun.of_steps (h₂.trans h₃))
  -- the writes are all done before the last pass
  have hwritten : KeyedRun kind lasts ports cap
      (⟨keyedStart kind lasts ports fs m,.ret st⟩,fun _ => 0)
      (⟨⟨t₁.net.code,t₁.net.fifo,m₁⟩,.ret l⟩,taken₁) :=
    hs.trans (h₁.trans (OutletRun.of_steps h₂))
  have hkey := storedKey_starved hf (hwritten.opened Supervised.asksRoom fun _ _ => rfl).1 hst
  have hm := provisioned_pass m₁
  -- and the loop writes the same key from now on
  have hnone : ∀ c ∉ deviceOutlets, taken₁ c = 0 := (ht.opened Supervised.asksRoom htaken).2
  have hnet (u : KeyedState kind lasts ports)
      (hu : KeyedRun kind lasts ports cap (t,taken₁) u) : u.1.net = r := by
    have hopen := (hu.opened Supervised.asksRoom hnone).1
    have hrests := Supervised.Run.rests (s := t) (steady_controlPass hm) hr (.ret _)
      (fun c v => knownCells_eq) hopen
    exact hrests.1
  refine ⟨t, taken₁, ht, ⟨hr, hall⟩, ?_, fun u hu => ⟨hnet u hu, ?_⟩⟩
  · rw [← hkey]
    exact hm
  · exact hu.taken_eq (fun z hz => congrArg Network.State.fifo (hnet z hz)) hall

end Service

def someKey : Vector Byte 16 := .ofFn fun i => BitVec.ofNat 8 i

/-- The request that writes it. -/
def keyFrame : Frame := requestFrame 50000 40 (keyPayload someKey)

lemma keyFrame_write : WriteFrame keyFrame.words 4 :=
  ⟨by decide, by decide, by decide, by decide, by decide, by decide⟩

lemma keyFrame_device : DeviceFrames [keyFrame] where
  words := by decide
  icmp f hm := absurd hm (List.not_mem_nil (a := f))
  udpReg f hm := by
    obtain rfl := List.mem_singleton.mp hm
    exact .inl ⟨4, keyFrame_write⟩
  udpStrm f hm := absurd hm (List.not_mem_nil (a := f))

lemma writeHistory_keyFrame :
    writeHistory (framesFor .UDP_REG [keyFrame]) = writePairs keyFrame.words 42 4 := by
  have hframes : framesFor .UDP_REG [keyFrame] = [keyFrame] := rfl
  rw [hframes, writeHistory, List.flatMap_singleton, keyFrame_write.writesOf_eq]

lemma latest_keyFrame (m : (c : Cell) → c.Val) : (keyOf fun i => latest wordIndex (regSpace m)
    (writeHistory (framesFor .UDP_REG [keyFrame])) (keyRegister i)) = someKey := by
  have hkey := storedKey_request (f := keyFrame.words) (K := someKey) (by decide) m
  rw [writeHistory_keyFrame]
  refine (congrArg keyOf (funext fun i => ?_)).trans hkey
  exact (regSpace_latest m _ (keyRegister i)).symm

/-- `keyed_rekeys` for that request, from registers that hold no key. -/
theorem keyed_rekeys_keyFrame : ∃ t taken, KeyedRun .aesCipher (fun _ => false) somePorts fifoDepth
    (⟨keyedStart .aesCipher (fun _ => false) somePorts [keyFrame] Cell.zero,.ret someControl⟩,fun _ => 0)
    (t,taken) ∧
    Idle t.net taken ∧ Provisioned someKey t.net.mem := by
  obtain ⟨t, taken, ht, hidle, hkeyed, -⟩ := keyed_rekeys .aesCipher [keyFrame] keyFrame_device
    fifoDepth fifoDepth_room Cell.zero someControl
    ⟨keyedStart .aesCipher (fun _ => false) somePorts [keyFrame] Cell.zero,.ret someControl⟩
    (fun _ => 0) .refl
  exact ⟨t, taken, ht, hidle, latest_keyFrame Cell.zero ▸ hkeyed⟩

/-! A device that has passed over the word which `someFrames` write. -/

def someRegisters : (c : Cell) → c.Val := Function.update Cell.zero (.bram 0x30000001) 0xdeadbeef#32

def someKeyed : (c : Cell) → c.Val := afterPass someRegisters

lemma regSpace_someKeyed (index : BitVec 32) :
    regSpace someKeyed index = regSpace someRegisters index := bram_switched _ _ _ _

lemma keepsKey_someFrames : KeepsKey someKeyed someFrames := by
  have hone : writeHistory (framesFor .UDP_REG someFrames) = [(0xc0000004,0xdeadbeef)] := by
    rw [framesFor_someFrames]
    decide
  rw [KeepsKey, hone]
  rintro p hp i hi
  obtain rfl := List.mem_singleton.mp hp
  rw [regSpace_someKeyed, ← hi]
  rfl

/-- `keyed_service` in a state in which all cores wait: the word is read back. -/
theorem keyed_service_someFrames : ∃ s, Supervised.Run controlPass openDepth
    ⟨keyedStart .des (fun _ => false) somePorts someFrames someKeyed,.ret someControl⟩ s ∧
    ((s.net.fifo .udpRegOutBuf).drop 42).map NetWord.data = [0xc0,0,0,4,0xde,0xad,0xbe,0xef] ∧
    Provisioned (storedKey someRegisters) s.net.mem := by
  have hm := provisioned_pass someRegisters
  obtain ⟨s, hs, hst⟩ := keyed_waits someFrames_device fifoDepth_room
  obtain ⟨hreplied, -, hkeyed, -⟩ := keyed_service .des _ hm rfl someFrames someFrames_device
    keepsKey_someFrames openDepth someControl s hs
  refine ⟨s, hs, ?_, hkeyed⟩
  rw [hreplied.udpReg.2 hst, framesFor_someFrames]
  decide

end EncryptionAccelerators.Net
