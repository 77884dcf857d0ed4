import EncryptionAccelerators.DeviceRegisters
import EncryptionAccelerators.LoadingCores

/-! The device with the control loop of `main.cc` running next to it. Whatever key the loop finds in
the registers, it does not disturb the cores. -/
namespace EncryptionAccelerators.Net
open Dataflow WriteHistory

lemma loadCores_bind {α : Type} (st : ControlState) (inputKey : Vector Byte 16)
    (f : ControlState → Cmd Empty Empty NetWord Cell.Val α) : (loadCores st inputKey >>= f) =
      forEach (List.finRange 8) (fun i => storeCell (.keySetsK i) (desColumnsOf inputKey i)) >>=
        fun _ => forEach (List.finRange 16) (fun i => storeCell (.aesW i) (aesColumnsOf inputKey i)) >>=
          fun _ => f (reloaded inputKey) := by
  have hkeys : (st.keySets.map fun _ => KeySet.zero) = .replicate 17 .zero := map_zero _ _
  have haes : (st.aesExpandedKey.map fun _ => (0 : Byte)).toList = .replicate 176 0 := by
    rw [map_zero]
    exact Vector.toList_replicate
  simp only [loadCores, hkeys, haes, Cmd.bind_bind, Cmd.pure_def, Cmd.ret_bind]
  rfl

/-- The control loop stores to no register. -/
lemma controlPass_accesses (st : ControlState) :
    (controlPass st : Cmd Empty Empty NetWord Cell.Val ControlState).Accesses (fun _ => True)
      (regOwner · = none) := by
  refine .peek trivial fun key0 => .peek trivial fun key1 => .peek trivial fun key2 =>
    .peek trivial fun key3 => ?_
  change Cmd.Accesses _ _ (loadCores st (keyOf ![key0,key1,key2,key3]) >>= setSwitches)
  rw [loadCores_bind]
  refine accesses_forEach_bind Cell.keySetsK _ _ (fun i => rfl) ?_
  refine accesses_forEach_bind Cell.aesW _ _ (fun i => rfl) ?_
  exact .peek trivial fun dipsw => .poke rfl (.poke rfl (.ret _))

namespace CipherKind

/-- The bytes of the complete blocks, block `k` processed with the data in the registers `ms k`. -/
def cipherWith (kind : CipherKind) (ms : ℕ → (c : Cell) → c.Val) (bs : List Byte) : List Byte :=
  blocksThrough kind.blockSize (fun k => kind.processBlock (ms k)) bs

/-- A block for each complete block read, with whatever data in the registers. -/
def BlocksOut (kind : CipherKind) (ws us : List NetWord) : Prop :=
  ∃ ms, us = (kind.cipherWith ms (ws.map NetWord.data)).map byteWord

lemma body_enciphers (kind : CipherKind) :
    Enciphers kind.blockSize_pos kind.body kind.BlocksOut where
  reads piece := by
    rw [body, loadingCore, readWord_bind]
    exact ⟨_, rfl⟩
  accesses := kind.body_accesses
  blocks mem ws m := by
    obtain ⟨piece, ms, m', hb⟩ := loadingCore_blocks kind.blockSize_pos kind.yields_process ws
      ⟨[], kind.blockSize_pos⟩ [] m
    exact ⟨piece, _, m', ⟨ms, rfl⟩, hb⟩

end CipherKind

@[reducible] def keyedDevice (kind : CipherKind) (lasts : ℕ → Bool) (ports : DevicePorts) :
    Network DeviceCore DeviceFifo NetWord Cell.Val := deviceAround kind.body lasts ports

@[reducible] def keyedStart (kind : CipherKind) (lasts : ℕ → Bool) (ports : DevicePorts) {M : Type}
    (fs : List Frame) (m : M) : (keyedDevice kind lasts ports).State M :=
  aroundStart kind.blockSize_pos kind.body lasts ports fs m

/-- The state of the device with its control loop, and how many words the switch has taken from each
FIFO. -/
abbrev KeyedState (kind : CipherKind) (lasts : ℕ → Bool) (ports : DevicePorts) : Type :=
  Supervised (keyedDevice kind lasts ports) ControlState × (DeviceFifo → ℕ)

/-- Steps of the cores, of the control loop and of the switch behind the outputs. -/
abbrev KeyedRun (kind : CipherKind) (lasts : ℕ → Bool) (ports : DevicePorts)
    (cap : DeviceFifo → ℕ∞) : KeyedState kind lasts ports → KeyedState kind lasts ports → Prop :=
  OutletRun (Supervised.Step (N := keyedDevice kind lasts ports) controlPass) (fun s => s.net.fifo)
    deviceOutlets cap

section Keyed
variable {kind : CipherKind} {lasts : ℕ → Bool} {ports : DevicePorts} {fs : List Frame}
  {cap : DeviceFifo → ℕ∞} {m : (c : Cell) → c.Val} {st : ControlState}
  {s : Supervised (keyedDevice kind lasts ports) ControlState}

/-- The cores run as they may run on their own registers. -/
lemma keyed_reached
    (hs : Supervised.Run controlPass cap ⟨keyedStart kind lasts ports fs m,.ret st⟩ s) :
    Supervised.Keeps regOwner s ∧ Reached kind.blockSize_pos cap fs m s.net := by
  obtain ⟨hkeeps, hrun⟩ := Supervised.Run.owned (around_keeps kind.body_accesses)
    controlPass_accesses hs ⟨keeps_start, .ret st⟩
  refine ⟨hkeeps, fun script => ?_⟩
  obtain ⟨script', hr⟩ := hrun m script
  exact ⟨script', aroundStart_owned .. ▸ hr⟩

/-- The run goes on with the cores and the switch alone. -/
lemma keyed_ends (hf : DeviceFrames fs) (hroom : DeviceRoom cap)
    (hs : Supervised.Run controlPass (opened deviceOutlets cap)
      ⟨keyedStart kind lasts ports fs m,.ret st⟩ s) {taken : DeviceFifo → ℕ}
    (htaken : ∀ c ∉ deviceOutlets, taken c = 0) : ∃ t taken',
      KeyedRun kind lasts ports cap (s,taken) (t,taken') ∧ Idle t.net taken' := by
  obtain ⟨hkeeps, hreached⟩ := keyed_reached hs
  obtain ⟨t, taken', ht, hidle⟩ :=
    hreached.ends kind.body_enciphers hf hroom hkeeps.net htaken
  exact ⟨⟨t,s.control⟩, taken', ht.supervised s.control, hidle⟩

/-- Some run on open outputs ends with all cores waiting. -/
lemma keyed_waits (hf : DeviceFrames fs) (hroom : DeviceRoom cap) : ∃ s,
    Supervised.Run controlPass (opened deviceOutlets cap)
      ⟨keyedStart kind lasts ports fs m,.ret st⟩ s ∧ Network.Starved s.net := by
  have hnone : ∀ c ∉ deviceOutlets, (fun _ => 0 : DeviceFifo → ℕ) c = 0 := fun _ _ => rfl
  have hstart : Supervised.Run controlPass (opened deviceOutlets cap)
      ⟨keyedStart kind lasts ports fs m,.ret st⟩ _ := .refl
  obtain ⟨s, taken, hs, hidle⟩ := keyed_ends hf hroom hstart hnone
  exact ⟨s, (hs.opened Supervised.asksRoom hnone).1, hidle.1⟩

end Keyed

section Service
variable {lasts : ℕ → Bool} {ports : DevicePorts}

end Service

def someControl : ControlState :=
  ⟨.replicate 16 0,.replicate 17 .zero,.replicate 8 (.replicate 17 0),.replicate 176 0⟩

end EncryptionAccelerators.Net
