import EncryptionAccelerators.DataflowLogged
import EncryptionAccelerators.DeviceReplies

/-! The registers at every moment of a run: they hold what the first writes asked for have left. -/
namespace EncryptionAccelerators.Net
open Dataflow WriteHistory

/-- A write as a store to its register. -/
def regStore (p : BitVec 32 × BitVec 32) : Sigma Cell.Val := ⟨.bram (wordIndex p.1),p.2⟩

lemma afterStores_regStore (m : (c : Cell) → c.Val) (pairs : List (BitVec 32 × BitVec 32)) :
    afterStores m (pairs.map regStore) = storePairs m pairs := List.foldl_map

lemma ownsRegisters_logged : OwnsRegisters regMemory.logged .udpReg fun m => m.1.2 where
  load index m := by
    have hload := ownsRegisters.load index m.1
    have hvalue : (regMemory.load .udpReg (.bram index) m.1).1 = m.1.2 (.bram index) :=
      congrArg Prod.fst hload
    have hmem : (regMemory.load .udpReg (.bram index) m.1).2 = m.1 := congrArg Prod.snd hload
    exact Prod.ext hvalue (Prod.ext hmem rfl)
  store index data m := ownsRegisters.store index data m.1

/-- The log of `udp_reg` after its writes. -/
lemma storeAll_log (m : regMemory.logged.State) (pairs : List (BitVec 32 × BitVec 32)) :
    (storeAll regMemory.logged .udpReg m pairs).2 .udpReg = m.2 .udpReg ++ pairs.map regStore := by
  induction pairs generalizing m with
  | nil => exact (List.append_nil _).symm
  | cons p pairs ih =>
    have hrest := ih (regMemory.logged.store .udpReg (.bram (wordIndex p.1)) p.2 m)
    rw [log_store, List.append_assoc] at hrest
    exact hrest

section Registers
variable {n : ℕ} {hn : 0 < n}
  {cipher : Piece n → Cmd InputStrm OutputStrm NetWord Cell.Val (Piece n)} {lasts : ℕ → Bool}
  {ports : DevicePorts} {Out : List NetWord → List NetWord → Prop}
  (hcipher : Enciphers hn cipher Out) {fs : List Frame}
include hcipher

/-- In the run that answers everything `udp_reg` stores what the frames ask for, in their order. -/
lemma device_logs (lasts ports) (hf : DeviceFrames fs) (m : regMemory.State) :
    ∃ t, (deviceAround cipher lasts ports).Run regMemory.logged (fun _ => ⊤)
      (aroundStart hn cipher lasts ports fs (m,fun _ => [])) t ∧
      (deviceAround cipher lasts ports).Starved t ∧
      t.mem.2 .udpReg = (writeHistory (framesFor .UDP_REG fs)).map regStore := by
  obtain ⟨t, -, -, -, -, ht, hst, -, -, -, hlog, -⟩ := device_final ownsRegisters_logged hcipher
    (P := fun m' => m'.2 .udpReg = (writeHistory (framesFor .UDP_REG fs)).map regStore)
    (fun h => (blocks_log_frame (by simp) h).trans) (fun h => (blocks_log_frame (by simp) h).trans)
    (fun h => (blocks_log_frame (by simp) h).trans) fs hf (m,fun _ => []) (storeAll_log ..)
  exact ⟨t, ht, hst, hlog⟩

/-- In every state the registers are those after some first part of the writes. -/
lemma Reached.registers {cap : DeviceFifo → ℕ∞} {m : (c : Cell) → c.Val}
    {s : (deviceAround cipher lasts ports).State (Memory.shared DeviceCore Cell.Val).State}
    (hf : DeviceFrames fs) (hs : Reached hn cap fs m s) :
    ∃ pairs, pairs <+: writeHistory (framesFor .UDP_REG fs) ∧
      ∀ index, regSpace s.mem index = regSpace (storePairs m pairs) index := by
  obtain ⟨script, hr⟩ := hs fun _ _ => m
  obtain ⟨t, ht, hst, hlog⟩ := device_logs hcipher lasts ports hf (script,m)
  obtain ⟨l, hl, hcells⟩ := hr.stores ht hst .udpReg
  rw [hlog] at hl
  obtain ⟨pairs, hpairs, rfl⟩ := List.prefix_map_iff.mp hl
  refine ⟨pairs, hpairs, fun index => ?_⟩
  have hindex := (ownedCells_bram m s.mem index).symm.trans (hcells (.bram index) rfl)
  exact hindex.trans (congrFun (afterStores_regStore m pairs) _)

end Registers

section Device
variable {core : CipherCore} {lasts : ℕ → Bool} {ports : DevicePorts}

/-- At every moment a register holds the latest value of some first part of the writes. -/
theorem registers_history (fs : List Frame) (hf : DeviceFrames fs) (cap : DeviceFifo → ℕ∞)
    (m : (Memory.shared DeviceCore Cell.Val).State)
    (s : (device core lasts ports).State (Memory.shared DeviceCore Cell.Val).State)
    (hs : (device core lasts ports).Run (Memory.shared DeviceCore Cell.Val) cap
      (deviceStart core lasts ports fs m) s) :
    ∃ pairs, pairs <+: writeHistory (framesFor .UDP_REG fs) ∧
      ∀ index, regSpace s.mem index = latest wordIndex (regSpace m) pairs index := by
  have hreached := reached_of_run (core_enciphers core) hs
  obtain ⟨pairs, hpairs, hreg⟩ := hreached.registers (core_enciphers core) hf
  exact ⟨pairs, hpairs, fun index => (hreg index).trans (regSpace_latest m pairs index)⟩

end Device

/-! Two requests that write to the same register. -/

def firstWrite : Frame := requestFrame 50000 16 [0xc0,0,0,4,0x11,0x11,0x11,0x11]

def secondWrite : Frame := requestFrame 50000 16 [0xc0,0,0,4,0x22,0x22,0x22,0x22]

def twoWrites : List Frame := [firstWrite,secondWrite]

lemma framesFor_twoWrites : framesFor .UDP_REG twoWrites = twoWrites := rfl

lemma firstWrite_frame : WriteFrame firstWrite.words 1 :=
  ⟨by decide, by decide, by decide, by decide, by decide, by decide⟩

lemma twoWrites_device : DeviceFrames twoWrites where
  words := by decide
  icmp f hm := by
    have hnone : framesFor .ICMP twoWrites = [] := rfl
    exact absurd (hnone ▸ hm) List.not_mem_nil
  udpReg := by
    have hsecond : WriteFrame secondWrite.words 1 :=
      ⟨by decide, by decide, by decide, by decide, by decide, by decide⟩
    rw [framesFor_twoWrites]
    exact List.forall_mem_cons.mpr ⟨.inl ⟨1, firstWrite_frame⟩,
      List.forall_mem_singleton.mpr (.inl ⟨1, hsecond⟩)⟩
  udpStrm f hm := by
    have hnone : framesFor .UDP_STRM twoWrites = [] := rfl
    exact absurd (hnone ▸ hm) List.not_mem_nil

/-- `registers_history` between the two: just the first is done. -/
theorem registers_history_twoWrites : ∃ s, (device someCore (fun _ => false) somePorts).Run
      (Memory.shared DeviceCore Cell.Val) (fun _ => ⊤)
      (deviceStart someCore (fun _ => false) somePorts twoWrites Cell.zero) s ∧
    regSpace s.mem 0x30000001 = 0x11111111 ∧
    ∃ pairs, pairs <+: writeHistory (framesFor .UDP_REG twoWrites) ∧ pairs.length = 1 ∧
      ∀ index, regSpace s.mem index = latest wordIndex (regSpace Cell.zero) pairs index := by
  have hrouted : (device someCore (fun _ => false) somePorts).Run (Memory.shared DeviceCore Cell.Val)
      (fun _ => ⊤) (deviceStart someCore (fun _ => false) somePorts twoWrites Cell.zero) _ :=
    device_routed (Memory.shared DeviceCore Cell.Val) twoWrites twoWrites_device.words Cell.zero
  have hinv := (firstWrite_frame.invokes (Memory.shared DeviceCore Cell.Val) .udpReg (fun _ => [])
    Cell.zero secondWrite.words).blocks
  have hqueue : (framesFor .UDP_REG twoWrites).flatMap Frame.words =
      firstWrite.words ++ secondWrite.words := by
    rw [framesFor_twoWrites]
    rfl
  have hs := hrouted.piped (i := DeviceCore.udpReg) (fun p => by cases p; rfl)
    (fun q => by cases q; rfl) hinv rfl hqueue rfl rfl
  have hwrites : writeHistory (framesFor .UDP_REG twoWrites) =
      [(0xc0000004,0x11111111),(0xc0000004,0x22222222)] := by
    rw [framesFor_twoWrites]
    decide
  have hvalue : regSpace (storePairs Cell.zero (writesOf firstWrite.words)) 0x30000001 =
      0x11111111 := by
    rw [regSpace_latest]
    decide
  obtain ⟨pairs, hpairs, hreg⟩ := registers_history twoWrites twoWrites_device _ Cell.zero _ hs
  refine ⟨_, hs, hvalue, pairs, hpairs, ?_, hreg⟩
  have hlatest := (hreg 0x30000001).symm.trans hvalue
  rw [hwrites, List.prefix_cons_iff] at hpairs
  -- neither of the other prefixes leaves this value
  rcases hpairs with rfl | ⟨ps, rfl, hps⟩
  · exact absurd hlatest (by decide)
  rw [List.prefix_cons_iff] at hps
  rcases hps with rfl | ⟨qs, rfl, hqs⟩
  · rfl
  · obtain rfl := List.prefix_nil.mp hqs
    exact absurd hlatest (by decide)

end EncryptionAccelerators.Net
