import EncryptionAccelerators.BlockCore

/-! `tlast_gen` and the two channels of the DMA, which move 1024 bytes a transfer. -/
namespace EncryptionAccelerators.Net
open Dataflow

section TlastGen
variable {ι A : Type} {V : A → Type}

/-- `tlast_gen` at the head of its loop. `user` is never assigned. -/
def tlastGen (userUnset : Bool) (i : BitVec 11) :
    Cmd InputStrm OutputStrm NetWord V (BitVec 11) := do
  let inWord ← readWord .inputStrm
  writeWord .outputStrm ⟨inWord.data,i = 1023,userUnset⟩
  return if i + 1 < 1024 then i + 1 else 0

variable (mem : Memory ι V) (j : ι) (userUnset : Bool)

lemma exec_tlastGen (i : BitVec 11) (s : Io InputStrm OutputStrm NetWord mem.State) {w : NetWord}
    {ws : List NetWord} (hs : s.inp .inputStrm = w::ws) : exec mem j (tlastGen userUnset i) s =
      some (if i + 1 < 1024 then i + 1 else 0,⟨fun _ => ws,
        fun _ => s.out .outputStrm ++ [⟨w.data,i = 1023,userUnset⟩],s.mem⟩) := by
  rw [tlastGen, readWord_bind, exec_recv mem j _ _ s hs]
  simp only [writeWord_bind, exec_send, Cmd.pure_def, exec_ret]
  congr 3

/-- From count `i` on, the word that makes 1024 is the only one with `last`. -/
lemma tlastGen_blocks (l rest : List NetWord) (w : NetWord) (i : BitVec 11)
    (hi : i.toNat + l.length = 1023) (s : Io InputStrm OutputStrm NetWord mem.State)
    (hs : s.inp .inputStrm = l ++ w::rest) : Blocks mem j (tlastGen userUnset) (i,s)
      (0,⟨fun _ => rest,fun _ => s.out .outputStrm ++
        ((l.map fun x => ⟨x.data,false,userUnset⟩) ++ [⟨w.data,true,userUnset⟩]),s.mem⟩) := by
  induction l generalizing i s with
  | nil =>
    obtain rfl : i = 1023 := BitVec.eq_of_toNat_eq hi
    exact .single (exec_tlastGen mem j userUnset 1023 s hs)
  | cons x l ih =>
    rw [List.length_cons] at hi
    have hne : i ≠ 1023 := by
      rintro rfl
      exact absurd hi (by simp)
    have hlt : i + 1 < 1024 := by bv_omega
    have hexec := exec_tlastGen mem j userUnset i s hs
    rw [if_pos hlt, decide_eq_false hne] at hexec
    refine .head hexec ((ih (i + 1) (by bv_omega) _ rfl).to ?_)
    simp

end TlastGen

/-! The channel from memory to stream: it forwards the bytes of a transfer and reports its end. -/

inductive Mm2sOut
  | strm | done
  deriving DecidableEq

section Mm2s
variable {ι A : Type} {V : A → Type}

/-- `n` bytes of a transfer have been sent. -/
def mm2s (n : ℕ) : Cmd InputStrm Mm2sOut NetWord V ℕ := do
  let word ← readWord .inputStrm
  writeWord .strm ⟨word.data,n + 1 = 1024,false⟩
  if n + 1 = 1024 then
    writeWord .done (byteWord 0)
    return 0
  else return n + 1

variable (mem : Memory ι V) (j : ι)

lemma exec_mm2s (n : ℕ) (hn : n + 1 ≠ 1024) (s : Io InputStrm Mm2sOut NetWord mem.State)
    {w : NetWord} {ws : List NetWord} (hs : s.inp .inputStrm = w::ws) :
    exec mem j (mm2s n) s = some (n + 1,⟨fun _ => ws,
      Function.update s.out .strm (s.out .strm ++ [byteWord w.data]),s.mem⟩) := by
  rw [mm2s, readWord_bind, exec_recv mem j _ _ s hs, writeWord_bind, exec_send, if_neg hn]
  simp only [hn, decide_false, Cmd.pure_def, exec_ret]
  congr 3

lemma exec_mm2s_done (s : Io InputStrm Mm2sOut NetWord mem.State) {w : NetWord} {ws : List NetWord}
    (hs : s.inp .inputStrm = w::ws) : exec mem j (mm2s 1023) s = some (0,⟨fun _ => ws,fun
      | .strm => s.out .strm ++ [⟨w.data,true,false⟩]
      | .done => s.out .done ++ [byteWord 0],s.mem⟩) := by
  rw [mm2s, readWord_bind, exec_recv mem j _ _ s hs]
  simp only [writeWord_bind, exec_send, if_true, Cmd.pure_def, exec_ret, Nat.reduceAdd]
  congr 3
  funext q
  cases q <;> rfl

/-- The rest of a transfer. -/
lemma mm2s_blocks (l rest : List NetWord) (w : NetWord) (n : ℕ) (hn : n + l.length = 1023)
    (s : Io InputStrm Mm2sOut NetWord mem.State) (hs : s.inp .inputStrm = l ++ w::rest) :
    Blocks mem j mm2s (n,s) (0,⟨fun _ => rest,fun
      | .strm => s.out .strm ++ ((l.map fun x => byteWord x.data) ++ [⟨w.data,true,false⟩])
      | .done => s.out .done ++ [byteWord 0],s.mem⟩) := by
  induction l generalizing n s with
  | nil =>
    obtain rfl : n = 1023 := hn
    exact .single (exec_mm2s_done mem j s hs)
  | cons x l ih =>
    rw [List.length_cons] at hn
    refine .head (exec_mm2s mem j n (by omega) s hs) ((ih (n + 1) (by omega) _ rfl).to ?_)
    congr 2
    funext q
    cases q <;> simp

end Mm2s

/-! The channel from stream to memory: once started it fills its buffer up to a word with `last` or
to the end. -/

inductive S2mmIn
  | start | strm
  deriving DecidableEq

/-- `dmaBuf1` is what the last transfer left in the buffer. -/
inductive S2mmLabel
  | idle (dmaBuf1 : List Byte)
  | active (received dmaBuf1 : List Byte)

section S2mm
variable {ι A : Type} {V : A → Type}

def s2mm : S2mmLabel → Cmd S2mmIn OutputStrm NetWord V S2mmLabel
  | .idle dmaBuf1 => do
    let _ ← readWord .start
    return .active [] dmaBuf1
  | .active received dmaBuf1 => do
    let word ← readWord .strm
    let received := received ++ [word.data]
    if word.last ∨ received.length = 1024 then
      let dmaBuf1 := received ++ dmaBuf1.drop received.length
      writeAll .outputStrm (dmaBuf1.map byteWord)
      return .idle dmaBuf1
    else return .active received dmaBuf1

variable (mem : Memory ι V) (j : ι)

lemma exec_s2mm_start (dmaBuf1 : List Byte) (s : Io S2mmIn OutputStrm NetWord mem.State)
    {w : NetWord} {ws : List NetWord} (hs : s.inp .start = w::ws) :
    exec mem j (s2mm (.idle dmaBuf1)) s =
      some (.active [] dmaBuf1,⟨Function.update s.inp .start ws,s.out,s.mem⟩) := by
  rw [s2mm, readWord_bind, exec_recv mem j _ _ s hs]
  rfl

lemma exec_s2mm (received dmaBuf1 : List Byte) (s : Io S2mmIn OutputStrm NetWord mem.State)
    {w : NetWord} {ws : List NetWord} (hs : s.inp .strm = w::ws) (hw : w.last = false)
    (hl : received.length + 1 < 1024) : exec mem j (s2mm (.active received dmaBuf1)) s =
      some (.active (received ++ [w.data]) dmaBuf1,
        ⟨Function.update s.inp .strm ws,s.out,s.mem⟩) := by
  have hmore : ¬ (w.last = true ∨ (received ++ [w.data]).length = 1024) := by
    rw [hw, List.length_append, List.length_singleton]
    simp only [Bool.false_eq_true, false_or]
    omega
  rw [s2mm, readWord_bind, exec_recv mem j _ _ s hs]
  simp only [hmore, if_false, Cmd.pure_def, exec_ret]

lemma exec_s2mm_last (received dmaBuf1 : List Byte) (s : Io S2mmIn OutputStrm NetWord mem.State)
    {w : NetWord} {ws : List NetWord} (hs : s.inp .strm = w::ws) (hw : w.last = true) :
    exec mem j (s2mm (.active received dmaBuf1)) s =
      some (.idle (received ++ [w.data] ++ dmaBuf1.drop (received.length + 1)),
        ⟨Function.update s.inp .strm ws,fun _ => s.out .outputStrm ++
          (received ++ [w.data] ++ dmaBuf1.drop (received.length + 1)).map byteWord,s.mem⟩) := by
  rw [s2mm, readWord_bind, exec_recv mem j _ _ s hs]
  simp only [hw, true_or, if_true, exec_writeAll_bind, Cmd.pure_def, exec_ret, List.length_append,
    List.length_singleton]
  congr 3

/-- A transfer ends with the first `last`. -/
lemma s2mm_blocks (l rest : List NetWord) (w : NetWord) (hl : ∀ x ∈ l, x.last = false)
    (hw : w.last = true) (received dmaBuf1 : List Byte)
    (hlen : received.length + l.length + 1 ≤ 1024) (s : Io S2mmIn OutputStrm NetWord mem.State)
    (hs : s.inp .strm = l ++ w::rest) : Blocks mem j s2mm (.active received dmaBuf1,s)
      (.idle (received ++ (l ++ [w]).map NetWord.data ++
          dmaBuf1.drop (received.length + l.length + 1)),
        ⟨Function.update s.inp .strm rest,fun _ => s.out .outputStrm ++
          (received ++ (l ++ [w]).map NetWord.data ++
            dmaBuf1.drop (received.length + l.length + 1)).map byteWord,s.mem⟩) := by
  induction l generalizing received s with
  | nil => exact .single (exec_s2mm_last mem j received dmaBuf1 s hs hw)
  | cons x l ih =>
    have hx : x.last = false := hl x (by simp)
    rw [List.length_cons] at hlen
    refine .head (exec_s2mm mem j received dmaBuf1 s hs hx (by omega))
      ((ih (fun y hy => hl y (by simp [hy])) (received ++ [x.data]) (by simp; omega) _ (by simp)).to ?_)
    have hcount : (received ++ [x.data]).length + l.length + 1 =
        received.length + (x::l).length + 1 := by
      simp
      omega
    rw [hcount]
    simp

end S2mm

end EncryptionAccelerators.Net
