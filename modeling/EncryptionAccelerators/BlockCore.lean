import EncryptionAccelerators.NetWord

/-! The stream loop shared by `des` and `aes_cipher`: buffer a block, process it, write it. -/
namespace EncryptionAccelerators.Net
open Dataflow

/-- The first `n` bytes of a list as an array. -/
def toBlock (n : ℕ) (l : List Byte) : Vector Byte n := .ofFn fun i => l.getD i 0

def xorBytes {n : ℕ} (u v : Vector Byte n) : Vector Byte n := .ofFn fun i => u.get i ^^^ v.get i

/-- The complete blocks of a byte stream, block `k` processed by `fs k`. -/
def blocksThrough (n : ℕ) (fs : ℕ → Vector Byte n → Vector Byte n) (bs : List Byte) : List Byte :=
  (List.range (bs.length / n)).flatMap fun k => (fs k (toBlock n (bs.drop (n*k)))).toList

/-- The complete blocks of a byte stream, each processed by `f`. -/
def cipherBlocks (n : ℕ) (f : Vector Byte n → Vector Byte n) (bs : List Byte) : List Byte :=
  blocksThrough n (fun _ => f) bs

/-- The bytes after the last complete block. -/
def residue (n : ℕ) (bs : List Byte) : List Byte := bs.drop (n*(bs.length / n))

section Blocks
variable {n : ℕ} (f : Vector Byte n → Vector Byte n)

lemma toBlock_append (l bs : List Byte) (h : n ≤ l.length) :
    toBlock n (l ++ bs) = toBlock n l := by
  ext i hi
  simp [toBlock, List.getElem?_append_left (by omega : i < l.length)]

lemma toBlock_take (l : List Byte) (h : n ≤ l.length) : toBlock n (l.take n) = toBlock n l := by
  have happ := toBlock_append (l.take n) (l.drop n) (List.length_take_of_le h).ge
  rwa [List.take_append_drop, eq_comm] at happ

lemma toBlock_toList (v : Vector Byte n) : toBlock n v.toList = v := by
  ext i hi
  simp [toBlock]

lemma toList_toBlock (l : List Byte) (h : l.length = n) : (toBlock n l).toList = l := by
  apply List.ext_getElem
  · simp [h]
  · intro i hi hl
    simp [toBlock, hl]

lemma blocksThrough_short (fs : ℕ → Vector Byte n → Vector Byte n) (bs : List Byte)
    (h : bs.length < n) : blocksThrough n fs bs = [] := by
  simp [blocksThrough, Nat.div_eq_of_lt h]

lemma cipherBlocks_short (bs : List Byte) (h : bs.length < n) : cipherBlocks n f bs = [] :=
  blocksThrough_short _ bs h

lemma residue_short (bs : List Byte) (h : bs.length < n) : residue n bs = bs := by
  simp [residue, Nat.div_eq_of_lt h]

lemma residue_length (bs : List Byte) (hn : 0 < n) : (residue n bs).length < n := by
  have h := Nat.div_add_mod bs.length n
  have hm := Nat.mod_lt bs.length hn
  simp only [residue, List.length_drop]
  omega

lemma append_div (l bs : List Byte) (hn : 0 < n) (h : l.length = n) :
    (l ++ bs).length / n = bs.length / n + 1 := by
  rw [List.length_append, h, Nat.add_comm, Nat.add_div_right _ hn]

/-- A complete block in front is processed first. -/
lemma blocksThrough_block (fs : ℕ → Vector Byte n → Vector Byte n) (l bs : List Byte) (hn : 0 < n)
    (h : l.length = n) : blocksThrough n fs (l ++ bs) =
      (fs 0 (toBlock n l)).toList ++ blocksThrough n (fun k => fs (k+1)) bs := by
  have hd : ∀ k, (l ++ bs).drop (n*(k+1)) = bs.drop (n*k) := by
    intro k
    rw [Nat.mul_succ, Nat.add_comm, ← List.drop_drop, ← h, List.drop_left]
  rw [blocksThrough, append_div l bs hn h, List.range_succ_eq_map, List.flatMap_cons]
  congr 1
  · rw [Nat.mul_zero, List.drop_zero, toBlock_append l bs h.ge]
  · simp only [List.flatMap_map, hd, blocksThrough]

lemma cipherBlocks_block (l bs : List Byte) (hn : 0 < n) (h : l.length = n) :
    cipherBlocks n f (l ++ bs) = (f (toBlock n l)).toList ++ cipherBlocks n f bs :=
  blocksThrough_block _ l bs hn h

lemma cipherBlocks_single (hn : 0 < n) {l : List Byte} (h : l.length = n) :
    cipherBlocks n f l = (f (toBlock n l)).toList := by
  have hblock := cipherBlocks_block f l [] hn h
  rwa [cipherBlocks_short f [] hn, List.append_nil, List.append_nil] at hblock

lemma residue_block (l bs : List Byte) (hn : 0 < n) (h : l.length = n) :
    residue n (l ++ bs) = residue n bs := by
  rw [residue, append_div l bs hn h, Nat.mul_succ, Nat.add_comm, ← List.drop_drop, ← h,
    List.drop_left, h, residue]

lemma cipherBlocks_length (bs : List Byte) :
    (cipherBlocks n f bs).length = n*(bs.length / n) := by
  simp [cipherBlocks, blocksThrough, List.length_flatMap, Nat.mul_comm]

/-- A byte stream is an incomplete block, or a complete one in front of a byte stream. -/
lemma block_induction {P : List Byte → Prop} (hn : 0 < n) (short : ∀ bs, bs.length < n → P bs)
    (block : ∀ l bs, l.length = n → P bs → P (l ++ bs)) (bs : List Byte) : P bs := by
  induction hk : bs.length using Nat.strong_induction_on generalizing bs with
  | _ k ih =>
    by_cases h : bs.length < n
    · exact short bs h
    · have hl : (bs.take n).length = n := List.length_take_of_le (Nat.le_of_not_lt h)
      have hd : (bs.drop n).length < k := by
        rw [List.length_drop]
        omega
      have hrec := block _ _ hl (ih _ hd (bs.drop n) rfl)
      rwa [List.take_append_drop] at hrec

/-- The bytes left over are processed with the bytes that follow. -/
lemma cipherBlocks_append (bs cs : List Byte) (hn : 0 < n) :
    cipherBlocks n f (bs ++ cs) = cipherBlocks n f bs ++ cipherBlocks n f (residue n bs ++ cs) := by
  induction bs using block_induction hn with
  | short bs h => rw [cipherBlocks_short f bs h, residue_short bs h, List.nil_append]
  | block l bs hl ih =>
    rw [List.append_assoc, cipherBlocks_block f _ _ hn hl, cipherBlocks_block f _ _ hn hl,
      residue_block _ _ hn hl, ih, List.append_assoc]

lemma residue_append (bs cs : List Byte) (hn : 0 < n) :
    residue n (residue n bs ++ cs) = residue n (bs ++ cs) := by
  induction bs using block_induction hn with
  | short bs h => rw [residue_short bs h]
  | block l bs hl ih =>
    rw [List.append_assoc, residue_block _ _ hn hl, residue_block _ _ hn hl, ih]

lemma residue_of_dvd (bs : List Byte) (h : n ∣ bs.length) : residue n bs = [] := by
  rw [residue, Nat.mul_div_cancel' h, List.drop_length]

/-- Processing block by block is undone by undoing each block. -/
lemma cipherBlocks_inverse {g : Vector Byte n → Vector Byte n} (hg : ∀ v, g (f v) = v)
    (hn : 0 < n) (bs : List Byte) (h : n ∣ bs.length) :
    cipherBlocks n g (cipherBlocks n f bs) = bs := by
  obtain ⟨k, hk⟩ := h
  induction k generalizing bs with
  | zero =>
    obtain rfl := List.length_eq_zero_iff.mp hk
    simp [cipherBlocks, blocksThrough]
  | succ k ih =>
    have hl : (bs.take n).length = n := by rw [List.length_take, hk, Nat.mul_succ]; omega
    have hd : (bs.drop n).length = n*k := by rw [List.length_drop, hk, Nat.mul_succ]; omega
    rw [← List.take_append_drop n bs, cipherBlocks_block f _ _ hn hl,
      cipherBlocks_block g _ _ hn (Vector.length_toList), ih _ hd, toBlock_toList, hg,
      toList_toBlock _ hl]

/-- The complete blocks of a byte stream. -/
def wholeBlocks (n : ℕ) (bs : List Byte) : List Byte := bs.take (n*(bs.length / n))

lemma wholeBlocks_residue (bs : List Byte) : wholeBlocks n bs ++ residue n bs = bs :=
  List.take_append_drop _ _

lemma wholeBlocks_length (bs : List Byte) : (wholeBlocks n bs).length = n*(bs.length / n) :=
  List.length_take_of_le (Nat.mul_div_le _ _)

lemma dvd_wholeBlocks (bs : List Byte) : n ∣ (wholeBlocks n bs).length := by
  rw [wholeBlocks_length]
  exact Nat.dvd_mul_right _ _

lemma cipherBlocks_wholeBlocks (hn : 0 < n) (bs : List Byte) :
    cipherBlocks n f (wholeBlocks n bs) = cipherBlocks n f bs := by
  have happ := cipherBlocks_append f (wholeBlocks n bs) (residue n bs) hn
  rw [wholeBlocks_residue, residue_of_dvd _ (dvd_wholeBlocks bs), List.nil_append,
    cipherBlocks_short f _ (residue_length bs hn), List.append_nil] at happ
  exact happ.symm

/-- Undoing each block gives the complete blocks back. -/
lemma cipherBlocks_undo {g : Vector Byte n → Vector Byte n} (hg : ∀ v, g (f v) = v) (hn : 0 < n)
    (bs : List Byte) : cipherBlocks n g (cipherBlocks n f bs) = wholeBlocks n bs := by
  rw [← cipherBlocks_wholeBlocks f hn bs]
  exact cipherBlocks_inverse f hg hn _ (dvd_wholeBlocks bs)

lemma cipherBlocks_mono (hn : 0 < n) {bs cs : List Byte} (h : bs <+: cs) :
    cipherBlocks n f bs <+: cipherBlocks n f cs := by
  obtain ⟨more, rfl⟩ := h
  rw [cipherBlocks_append f bs more hn]
  exact List.prefix_append _ _

end Blocks

/-- What `input_buffering` has read of the current block. -/
abbrev Piece (n : ℕ) : Type := {piece : List Byte // piece.length < n}

section Core
variable {ι A : Type} {V : A → Type} {n : ℕ}

/-- One turn of `input_buffering`; after the last turn the block is processed and written. -/
def blockCore (hn : 0 < n) (f : Vector Byte n → Vector Byte n) (piece : Piece n) :
    Cmd InputStrm OutputStrm NetWord V (Piece n) := do
  let word ← readWord .inputStrm
  if h : (piece.val ++ [word.data]).length < n then return ⟨piece.val ++ [word.data], h⟩
  else
    writeAll .outputStrm ((f (toBlock n (piece.val ++ [word.data]))).toList.map byteWord)
    return ⟨[], hn⟩

variable (mem : Memory ι V) (i : ι) (hn : 0 < n) (f : Vector Byte n → Vector Byte n)

lemma exec_blockCore_short (piece : Piece n) (s : Io InputStrm OutputStrm NetWord mem.State)
    {w : NetWord} {ws : List NetWord} (hs : s.inp .inputStrm = w::ws)
    (h : (piece.val ++ [w.data]).length < n) :
    exec mem i (blockCore hn f piece) s = some (⟨piece.val ++ [w.data], h⟩,
      ⟨fun _ => ws,s.out,s.mem⟩) := by
  rw [blockCore, readWord_bind, exec_recv mem i _ _ s hs]
  simp only [h, dite_true, Cmd.pure_def, exec_ret]
  congr 3

lemma exec_blockCore_full (piece : Piece n) (s : Io InputStrm OutputStrm NetWord mem.State)
    {w : NetWord} {ws : List NetWord} (hs : s.inp .inputStrm = w::ws)
    (h : ¬ (piece.val ++ [w.data]).length < n) :
    exec mem i (blockCore hn f piece) s = some (⟨[], hn⟩,⟨fun _ => ws,fun _ => s.out .outputStrm ++
      (f (toBlock n (piece.val ++ [w.data]))).toList.map byteWord,s.mem⟩) := by
  rw [blockCore, readWord_bind, exec_recv mem i _ _ s hs]
  simp only [h, dite_false, Cmd.pure_def, exec_writeAll_bind, exec_ret]
  congr 3

/-- The core turns a byte stream into the stream of its processed blocks; an incomplete block
stays in the buffer. -/
lemma blockCore_blocks (ws rest : List NetWord) (piece : Piece n)
    (s : Io InputStrm OutputStrm NetWord mem.State) (hs : s.inp .inputStrm = ws ++ rest) :
    Blocks mem i (blockCore hn f) (piece,s)
      (⟨residue n (piece.val ++ ws.map NetWord.data), residue_length _ hn⟩,⟨fun _ => rest,
        fun _ => s.out .outputStrm ++
          (cipherBlocks n f (piece.val ++ ws.map NetWord.data)).map byteWord,s.mem⟩) := by
  induction ws generalizing piece s with
  | nil =>
    refine Blocks.to .refl ?_
    congr 1
    · exact Subtype.ext (by simp [residue_short _ piece.2])
    · ext p : 2
      · cases p; simpa using hs
      · cases p; simp [cipherBlocks_short f _ piece.2]
      · rfl
  | cons w ws ih =>
    have happ : piece.val ++ (w::ws).map NetWord.data =
        piece.val ++ [w.data] ++ ws.map NetWord.data := by simp
    simp only [happ]
    by_cases h : (piece.val ++ [w.data]).length < n
    · refine .head (exec_blockCore_short mem i hn f piece s hs h) ?_
      exact ih ⟨_, h⟩ ⟨fun _ => ws ++ rest,s.out,s.mem⟩ rfl
    · have hl : (piece.val ++ [w.data]).length = n := by
        have hp := piece.2
        rw [List.length_append, List.length_singleton] at h ⊢
        omega
      refine .head (exec_blockCore_full mem i hn f piece s hs h) ((ih ⟨[], hn⟩ _ rfl).to ?_)
      congr 1
      · exact Subtype.ext (residue_block _ _ hn hl).symm
      · rw [cipherBlocks_block f _ _ hn hl]
        simp

/-- A core fed the words `ws` after which it waits for more has put `us` on its output. -/
def Drains {L : Type} (body : L → Cmd InputStrm OutputStrm NetWord (fun _ : Empty => Unit) L)
    (entry : L) (ws us : List NetWord) : Prop :=
  ∃ l, Blocks Memory.none () body (entry,⟨fun _ => ws,fun _ => [],nofun⟩)
    (l,⟨fun _ => [],fun _ => us,nofun⟩)

lemma blockCore_stuck (piece : Piece n) (s : Io InputStrm OutputStrm NetWord mem.State)
    (hs : s.inp .inputStrm = []) (u : Piece n × Io InputStrm OutputStrm NetWord mem.State) :
    ¬ Block mem i (blockCore hn f) (piece,s) u := by
  intro h
  rw [Block, blockCore, readWord_bind, exec_recv_none mem i _ _ s hs] at h
  cases h

/-- The output is exactly the processed complete blocks. -/
lemma drains_blockCore (ws us : List NetWord) :
    Drains (blockCore hn f) ⟨[], hn⟩ ws us ↔
      us = (cipherBlocks n f (ws.map NetWord.data)).map byteWord := by
  have hb := blockCore_blocks Memory.none () hn f ws [] ⟨[], hn⟩ ⟨fun _ => ws,fun _ => [],nofun⟩
    (List.append_nil ws).symm
  simp only [List.nil_append] at hb
  constructor
  · rintro ⟨l, h⟩
    have heq := h.stuck_unique hb (blockCore_stuck _ _ hn f _ _ rfl) (blockCore_stuck _ _ hn f _ _ rfl)
    exact congrFun (congrArg Io.out (congrArg Prod.snd heq)) .outputStrm
  · rintro rfl
    exact ⟨_, hb⟩

end Core

end EncryptionAccelerators.Net
