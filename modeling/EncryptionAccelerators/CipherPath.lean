import EncryptionAccelerators.Des
import EncryptionAccelerators.AesCipher
import EncryptionAccelerators.UdpPacketizer
import EncryptionAccelerators.UdpDepacketizer

/-! What stands between `udp_depacketizer` and `udp_packetizer`: one of the two cipher cores and
`axis_switch_out_sel`. -/
namespace EncryptionAccelerators.Net
open Dataflow

/-- The core the switches select, with the data on its table and mode ports. -/
inductive CipherCore
  | des (keySetsK : KeyTable) (mode : BitVec 1)
  | aesCipher (w : RoundKeyTable)

namespace CipherCore

def blockSize : CipherCore → ℕ
  | des _ _ => 8
  | aesCipher _ => 16

lemma blockSize_pos (core : CipherCore) : 0 < core.blockSize := by
  cases core <;> simp [blockSize]

def processBlock : (core : CipherCore) → Vector Byte core.blockSize → Vector Byte core.blockSize
  | des keySetsK mode => processMessage keySetsK mode
  | aesCipher w => Net.aesCipher w

/-- The core's buffer before its first word. -/
def start (core : CipherCore) : Piece core.blockSize := ⟨[],core.blockSize_pos⟩

variable {A : Type} {V : A → Type}

def body : (core : CipherCore) → Piece core.blockSize →
    Cmd InputStrm OutputStrm NetWord V (Piece core.blockSize)
  | des keySetsK mode => Net.des keySetsK mode
  | aesCipher w => aesCipherCore w

lemma body_eq (core : CipherCore) :
    (core.body : _ → Cmd InputStrm OutputStrm NetWord V _) =
      blockCore core.blockSize_pos core.processBlock := by
  cases core <;> rfl

/-- The blocks of a byte stream, each processed by the core. -/
def cipher (core : CipherCore) (bs : List Byte) : List Byte :=
  cipherBlocks core.blockSize core.processBlock bs

lemma cipher_length {core : CipherCore} {bs : List Byte} (h : core.blockSize ∣ bs.length) :
    (core.cipher bs).length = bs.length := by
  rw [cipher, cipherBlocks_length, Nat.mul_div_cancel' h]

end CipherCore

section OutSwitch
variable {ι A : Type} {V : A → Type}

/-- The switch after the cores: it forwards each word and sets `last` on word `k` as `lasts k`
says. -/
def outSwitch (lasts : ℕ → Bool) (k : ℕ) : Cmd InputStrm OutputStrm NetWord V ℕ := do
  let word ← readWord .inputStrm
  writeWord .outputStrm ⟨word.data,lasts k,word.user⟩
  return k + 1

/-- The words `ws`, of which the first is word `k` of the stream, with their marks. -/
def marked (lasts : ℕ → Bool) : ℕ → List NetWord → List NetWord
  | _, [] => []
  | k, w::ws => ⟨w.data,lasts k,w.user⟩::marked lasts (k+1) ws

lemma marked_data (lasts : ℕ → Bool) (k : ℕ) (ws : List NetWord) :
    (marked lasts k ws).map NetWord.data = ws.map NetWord.data := by
  induction ws generalizing k with
  | nil => rfl
  | cons w ws ih => simp [marked, ih]

lemma marked_last (lasts : ℕ → Bool) (k : ℕ) (ws : List NetWord) (j : ℕ)
    (h : j < (marked lasts k ws).length) : (marked lasts k ws)[j].last = lasts (k + j) := by
  induction ws generalizing k j with
  | nil => simp [marked] at h
  | cons w ws ih =>
    cases j with
    | zero => rfl
    | succ j =>
      have hj := ih (k+1) j (by simpa [marked] using h)
      simpa [marked, Nat.add_assoc, Nat.add_comm 1 j] using hj

variable (mem : Memory ι V) (i : ι)

lemma exec_outSwitch (lasts : ℕ → Bool) (k : ℕ) (s : Io InputStrm OutputStrm NetWord mem.State)
    {w : NetWord} {ws : List NetWord} (hs : s.inp .inputStrm = w::ws) :
    exec mem i (outSwitch lasts k) s = some (k + 1,⟨fun _ => ws,
      fun _ => s.out .outputStrm ++ [⟨w.data,lasts k,w.user⟩],s.mem⟩) := by
  rw [outSwitch, readWord_bind, exec_recv mem i _ _ s hs]
  simp only [writeWord_bind, exec_send, Cmd.pure_def, exec_ret]
  congr 3

lemma outSwitch_blocks (lasts : ℕ → Bool) (k : ℕ) (ws : List NetWord)
    (s : Io InputStrm OutputStrm NetWord mem.State) (hs : s.inp .inputStrm = ws) :
    Blocks mem i (outSwitch lasts) (k,s) (k + ws.length,⟨fun _ => [],
      fun _ => s.out .outputStrm ++ marked lasts k ws,s.mem⟩) := by
  induction ws generalizing k s with
  | nil =>
    refine Blocks.to .refl ?_
    congr 1
    ext p : 2
    · cases p; simpa using hs
    · cases p; simp [marked]
    · rfl
  | cons w ws ih =>
    refine .head (exec_outSwitch mem i lasts k s hs) ?_
    refine (ih (k+1) ⟨fun _ => ws,_,s.mem⟩ rfl).to ?_
    simp only [marked, List.length_cons, List.append_assoc, List.singleton_append, Nat.add_assoc,
      Nat.add_comm 1 ws.length]

end OutSwitch

end EncryptionAccelerators.Net
