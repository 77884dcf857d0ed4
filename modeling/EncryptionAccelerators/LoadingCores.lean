import EncryptionAccelerators.EncryptionPath
import EncryptionAccelerators.ControlLoop
import EncryptionAccelerators.DataflowSupervised

/-! The two cipher cores as they read their tables: entry by entry, while a block is processed. -/
namespace EncryptionAccelerators.Net
open Dataflow BitString

section Loading
variable {In Out : Type}

/-- The columns a round uses. -/
def roundColumns : List (Fin 8) := (List.finRange 8).take 6

/-- The entries of row `keyIndex` in these columns. -/
def loadKeyRow (keyIndex : ℕ) : Cmd In Out NetWord Cell.Val (Vector Byte 8) := do
  let bytes ← roundColumns.mapM fun i => do
    let column : Vector Byte 17 ← loadCell (Cell.keySetsK i)
    return column.getD keyIndex 0
  return toBlock 8 bytes

/-- `process_message` on the table and the mode in the core's registers. -/
def loadProcessMessage (messagePiece : Vector Byte 8) :
    Cmd In Out NetWord Cell.Val (Vector Byte 8) := do
  let mode ← loadCell .desMode
  let initialPermutation := permute initialMessagePermutation 8 messagePiece
  let l := Vector.ofFn fun i : Fin 4 => initialPermutation.getD i 0
  let r := Vector.ofFn fun i : Fin 4 => initialPermutation.getD (i + 4) 0
  let lr ← (List.range' 1 16).foldlM (fun lr k => do
    let keyRow ← loadKeyRow (keyIndex mode k)
    return (lr.2,xorBytes (roundFunction keyRow lr.2) lr.1)) (l,r)
  let preEndPermutation := lr.2 ++ lr.1
  return permute finalMessagePermutation 8 preEndPermutation

/-- The row `w[round]`. -/
def loadRoundKey (round : ℕ) : Cmd In Out NetWord Cell.Val (Vector Byte 16) := do
  let bytes ← (List.finRange 16).mapM fun i => do
    let column : Vector Byte 11 ← loadCell (Cell.aesW i)
    return column.getD round 0
  return toBlock 16 bytes

def loadAddRoundKey (round : ℕ) (cipherState : CipherState) :
    Cmd In Out NetWord Cell.Val CipherState := do
  let wBias ← loadRoundKey round
  return addRoundKey wBias cipherState

/-- `aes_cipher` on the table in the core's registers. -/
def loadAesCipher (input : Vector Byte 16) : Cmd In Out NetWord Cell.Val (Vector Byte 16) := do
  let cipherState : CipherState := .ofFn fun j => .ofFn fun i => input.getD (j + 4*i) 0
  let cipherState ← loadAddRoundKey 0 cipherState
  let cipherState ← (List.range' 1 9).foldlM (fun cipherState round =>
    loadAddRoundKey round (mixColumns (shiftRows (subBytes cipherState)))) cipherState
  let cipherState ← loadAddRoundKey 10 (shiftRows (subBytes cipherState))
  return .ofFn fun k => (cipherState.getD (k%4) (.replicate 4 0)).getD (k/4) 0

variable {fixed : (c : Cell) → Option c.Val}

lemma settle_loadKeyRow {cols : Fin 8 → Vector Byte 17} (h : ∀ i, cols i ∈ fixed (.keySetsK i))
    (keyIndex : ℕ) : (loadKeyRow keyIndex : Cmd In Out NetWord Cell.Val _).settle fixed =
      .ret (toBlock 8 (roundColumns.map fun i => (cols i).getD keyIndex 0)) := by
  rw [loadKeyRow, settle_bind, settle_mapM (g := fun i => (cols i).getD keyIndex 0)]
  · rfl
  · intro i
    exact settle_peek (h i) _

lemma getD_desTable (cols : Fin 8 → Vector Byte 17) (keyIndex : ℕ) (i : Fin 8) :
    ((desTable cols).getD keyIndex (.replicate 8 0)).getD i 0 = (cols i).getD keyIndex 0 := by
  rcases lt_or_ge keyIndex 17 with h | h
  · rw [desTable, getD_ofFn _ _ h, getD_ofFn _ _ i.isLt, getD_eq_getElem _ _ h]
    rfl
  · simp [Vector.getD, not_lt.mpr h]

/-- A round uses no other entries of the row. -/
lemma roundFunction_loaded (cols : Fin 8 → Vector Byte 17) (keyIndex : ℕ) (r : Vector Byte 4) :
    roundFunction (toBlock 8 (roundColumns.map fun i => (cols i).getD keyIndex 0)) r =
      roundFunction ((desTable cols).getD keyIndex (.replicate 8 0)) r := by
  have hrow : ∀ i : Fin 6, (toBlock 8 (roundColumns.map fun i =>
      (cols i).getD keyIndex 0)).getD i 0 =
        ((desTable cols).getD keyIndex (.replicate 8 0)).getD i 0 := by
    intro i
    have h8 : i.val < 8 := by omega
    have htable := getD_desTable cols keyIndex ⟨i, h8⟩
    rw [htable, toBlock, getD_ofFn _ _ h8]
    fin_cases i <;> rfl
  simp only [roundFunction, hrow]

/-- With the table and the mode fixed, the core processes a block as with them on its ports. -/
lemma settle_loadProcessMessage {cols : Fin 8 → Vector Byte 17} {mode : BitVec 1}
    (hcols : ∀ i, cols i ∈ fixed (.keySetsK i)) (hmode : mode ∈ fixed .desMode)
    (messagePiece : Vector Byte 8) :
    (loadProcessMessage messagePiece : Cmd In Out NetWord Cell.Val _).settle fixed =
      .ret (processMessage (desTable cols) mode messagePiece) := by
  rw [loadProcessMessage, settle_bind]
  have hload : (loadCell .desMode : Cmd In Out NetWord Cell.Val _).settle fixed = .ret mode :=
    settle_peek hmode _
  rw [hload, Cmd.ret_bind, settle_bind, settle_foldlM (g := fun lr k => (lr.2,
    xorBytes (roundFunction ((desTable cols).getD (keyIndex mode k) (.replicate 8 0)) lr.2) lr.1))]
  · rfl
  · intro lr k
    rw [settle_bind, settle_loadKeyRow hcols, Cmd.ret_bind, roundFunction_loaded]
    rfl

lemma toBlock_aesTable (cols : Fin 16 → Vector Byte 11) (round : ℕ) :
    toBlock 16 ((List.finRange 16).map fun i => (cols i).getD round 0) =
      (aesTable cols).getD round (.replicate 16 0) := by
  refine Vector.ext fun i hi => ?_
  have hcol : ((List.finRange 16).map fun i => (cols i).getD round 0).getD i 0 =
      (cols ⟨i, hi⟩).getD round 0 := by
    simp [List.getD, hi]
  rw [toBlock, Vector.getElem_ofFn, hcol]
  rcases lt_or_ge round 11 with h | h
  · rw [aesTable, getD_ofFn _ _ h, Vector.getElem_ofFn, getD_eq_getElem _ _ h]
    rfl
  · simp [Vector.getD, not_lt.mpr h]

lemma settle_loadRoundKey {cols : Fin 16 → Vector Byte 11} (h : ∀ i, cols i ∈ fixed (.aesW i))
    (round : ℕ) : (loadRoundKey round : Cmd In Out NetWord Cell.Val _).settle fixed =
      .ret ((aesTable cols).getD round (.replicate 16 0)) := by
  rw [loadRoundKey, settle_bind, settle_mapM (g := fun i => (cols i).getD round 0)]
  · exact congrArg Cmd.ret (toBlock_aesTable cols round)
  · intro i
    exact settle_peek (h i) _

lemma settle_loadAesCipher {cols : Fin 16 → Vector Byte 11} (h : ∀ i, cols i ∈ fixed (.aesW i))
    (input : Vector Byte 16) :
    (loadAesCipher input : Cmd In Out NetWord Cell.Val _).settle fixed =
      .ret (aesCipher (aesTable cols) input) := by
  have hadd (round : ℕ) (cipherState : CipherState) :
      (loadAddRoundKey round cipherState : Cmd In Out NetWord Cell.Val _).settle fixed =
        .ret (addRoundKey ((aesTable cols).getD round (.replicate 16 0)) cipherState) := by
    rw [loadAddRoundKey, settle_bind, settle_loadRoundKey h]
    rfl
  rw [loadAesCipher, settle_bind, hadd, Cmd.ret_bind, settle_bind,
    settle_foldlM fun cipherState round => hadd round _, Cmd.ret_bind, settle_bind, hadd]
  rfl

end Loading

/-- A core that has buffered a block processes it with `process` and writes the result. -/
def loadingCore {n : ℕ} (hn : 0 < n)
    (process : Vector Byte n → Cmd InputStrm OutputStrm NetWord Cell.Val (Vector Byte n))
    (piece : Piece n) : Cmd InputStrm OutputStrm NetWord Cell.Val (Piece n) := do
  let word ← readWord .inputStrm
  if h : (piece.val ++ [word.data]).length < n then return ⟨piece.val ++ [word.data], h⟩
  else
    let processedPiece ← process (toBlock n (piece.val ++ [word.data]))
    writeAll .outputStrm (processedPiece.toList.map byteWord)
    return ⟨[], hn⟩

lemma settle_loadingCore {n : ℕ} (hn : 0 < n) {fixed : (c : Cell) → Option c.Val}
    {process : Vector Byte n → Cmd InputStrm OutputStrm NetWord Cell.Val (Vector Byte n)}
    {f : Vector Byte n → Vector Byte n} (hf : ∀ v, (process v).settle fixed = .ret (f v))
    (piece : Piece n) : (loadingCore hn process piece).settle fixed = blockCore hn f piece := by
  rw [loadingCore, blockCore, readWord_bind, readWord_bind, Cmd.settle]
  refine congrArg (Cmd.recv InputStrm.inputStrm) (funext fun word => ?_)
  by_cases h : (piece.val ++ [word.data]).length < n
  · simp only [h, dite_true]
    rfl
  · simp only [h, dite_false]
    rw [settle_bind, hf, Cmd.ret_bind, settle_bind, settle_writeAll]
    rfl

/-! The cores store nothing. -/

section Accesses
variable {ld st : Cell → Prop}

lemma loadProcessMessage_accesses {In Out : Type} (hld : ∀ c, ld c) (messagePiece : Vector Byte 8) :
    (loadProcessMessage messagePiece : Cmd In Out NetWord Cell.Val _).Accesses ld st := by
  have hrow (keyIndex : ℕ) : (loadKeyRow keyIndex : Cmd In Out NetWord Cell.Val _).Accesses ld st := by
    rw [loadKeyRow]
    exact (accesses_mapM (fun i => .peek (hld _) fun _ => .ret _) _).bind fun _ => .ret _
  refine .peek (hld _) fun mode => ?_
  exact (accesses_foldlM (fun lr k => (hrow _).bind fun _ => .ret _) _ _).bind fun _ => .ret _

lemma loadAesCipher_accesses {In Out : Type} (hld : ∀ c, ld c) (input : Vector Byte 16) :
    (loadAesCipher input : Cmd In Out NetWord Cell.Val _).Accesses ld st := by
  have hadd (round : ℕ) (cipherState : CipherState) :
      (loadAddRoundKey round cipherState : Cmd In Out NetWord Cell.Val _).Accesses ld st := by
    rw [loadAddRoundKey, loadRoundKey]
    refine Cmd.Accesses.bind ?_ fun _ => .ret _
    exact (accesses_mapM (fun i => .peek (hld _) fun _ => .ret _) _).bind fun _ => .ret _
  rw [loadAesCipher]
  refine (hadd _ _).bind fun s => (accesses_foldlM (fun _ _ => hadd _ _) _ _).bind fun s => ?_
  exact (hadd _ _).bind fun _ => .ret _

lemma loadingCore_accesses {n : ℕ} (hn : 0 < n)
    {process : Vector Byte n → Cmd InputStrm OutputStrm NetWord Cell.Val (Vector Byte n)}
    (hp : ∀ v, (process v).Accesses ld st) (piece : Piece n) :
    (loadingCore hn process piece).Accesses ld st := by
  rw [loadingCore, readWord_bind, accesses_recv]
  intro w
  split_ifs
  · exact .ret _
  · exact (hp _).bind fun v => accesses_writeAll_bind _ _ (.ret _)

end Accesses

/-- The core the switches select. -/
inductive CipherKind
  | des | aesCipher

namespace CipherKind

def blockSize : CipherKind → ℕ
  | des => 8
  | aesCipher => 16

/-- The core's master port of the raw data switch. -/
def master : CipherKind → BitVec 32
  | des => 0
  | aesCipher => 1

lemma blockSize_pos (kind : CipherKind) : 0 < kind.blockSize := by
  cases kind <;> simp [blockSize]

def process : (kind : CipherKind) → Vector Byte kind.blockSize →
    Cmd InputStrm OutputStrm NetWord Cell.Val (Vector Byte kind.blockSize)
  | des => loadProcessMessage
  | aesCipher => loadAesCipher

/-- The core's block loop. -/
def body (kind : CipherKind) : Piece kind.blockSize →
    Cmd InputStrm OutputStrm NetWord Cell.Val (Piece kind.blockSize) :=
  loadingCore kind.blockSize_pos kind.process

lemma body_accesses (kind : CipherKind) (piece : Piece kind.blockSize) :
    (kind.body piece).Accesses (fun _ => True) NoCell := by
  refine loadingCore_accesses kind.blockSize_pos (fun v => ?_) piece
  cases kind with
  | des => exact loadProcessMessage_accesses (fun _ => trivial) v
  | aesCipher => exact loadAesCipher_accesses (fun _ => trivial) v

/-- The core with the data that its registers hold. -/
def core (m : (c : Cell) → c.Val) : CipherKind → CipherCore
  | des => .des (desTable (desColumns m)) (m .desMode)
  | aesCipher => .aesCipher (aesTable (aesColumns m))

/-- What the core makes of a block with the data in its registers. -/
def processBlock (m : (c : Cell) → c.Val) :
    (kind : CipherKind) → Vector Byte kind.blockSize → Vector Byte kind.blockSize
  | des => processMessage (desTable (desColumns m)) (m .desMode)
  | aesCipher => Net.aesCipher (aesTable (aesColumns m))

/-- A block processed while nothing changes its registers. -/
lemma exec_process {ι : Type} [DecidableEq ι] (i : ι) (kind : CipherKind)
    (block : Vector Byte kind.blockSize) (s : Io InputStrm OutputStrm NetWord ((c : Cell) → c.Val)) :
    exec (Memory.shared ι Cell.Val) i (kind.process block) s =
      some (kind.processBlock s.mem block,s) := by
  have hholds : Holds (fun c => some (s.mem c)) s.mem := fun c v hv => Option.some.inj hv
  cases kind with
  | des => exact exec_of_settle i (settle_loadProcessMessage (fun _ => rfl) rfl block) hholds
  | aesCipher => exact exec_of_settle i (settle_loadAesCipher (fun _ => rfl) block) hholds

end CipherKind

/-! Whatever the registers hold while a core loads from them, what it puts out for a block it could
have computed with one table. -/

section Yields
variable {ι : Type} {mem : Memory ι Cell.Val} {i : ι} {In Out : Type} [DecidableEq In]
  [DecidableEq Out]

instance : Inhabited ((c : Cell) → c.Val) := ⟨Cell.zero⟩

/-- Registers with these rows in the tables, and the mode. -/
def desRegisters (keyRows : ℕ → Vector Byte 8) (mode : BitVec 1) : (c : Cell) → c.Val
  | .keySetsK i => .ofFn fun r => (keyRows r).getD i 0
  | .desMode => mode
  | c => Cell.zero c

def aesRegisters (w : ℕ → Vector Byte 16) : (c : Cell) → c.Val
  | .aesW i => .ofFn fun r => (w r).getD i 0
  | c => Cell.zero c

lemma desTable_registers (keyRows : ℕ → Vector Byte 8) (mode : BitVec 1) {r : ℕ} (h : r < 17) :
    (desTable (desColumns (desRegisters keyRows mode))).getD r (.replicate 8 0) = keyRows r := by
  refine Vector.ext fun i hi => ?_
  have hrow := getD_desTable (desColumns (desRegisters keyRows mode)) r ⟨i, hi⟩
  rw [← getD_eq_getElem _ 0 hi, ← getD_eq_getElem (keyRows r) 0 hi]
  exact hrow.trans (getD_ofFn _ _ h)

lemma aesTable_registers (w : ℕ → Vector Byte 16) {r : ℕ} (h : r < 11) :
    (aesTable (aesColumns (aesRegisters w))).getD r (.replicate 16 0) = w r := by
  refine Vector.ext fun i hi => ?_
  rw [← toBlock_aesTable, toBlock, Vector.getElem_ofFn, ← getD_eq_getElem (w r) 0 hi]
  have hcol : ((List.finRange 16).map fun i => (aesColumns (aesRegisters w) i).getD r 0).getD i 0 =
      (aesColumns (aesRegisters w) ⟨i, hi⟩).getD r 0 := by
    simp [List.getD, hi]
  exact hcol.trans (getD_ofFn _ _ h)

lemma yields_loadKeyRow (keyIndex : ℕ) :
    Yields mem i (fun _ => True) (loadKeyRow keyIndex : Cmd In Out NetWord Cell.Val _) := by
  rw [loadKeyRow]
  refine (yields_mapM (Q := fun _ => True) (fun i => ?_) _).bind fun _ _ => yields_ret trivial
  exact yields_peek fun _ => yields_ret trivial

lemma keyIndex_keyIndex (mode : BitVec 1) {k : ℕ} (h : k ≤ 16) :
    keyIndex mode (keyIndex mode k) = k := by
  unfold keyIndex
  split_ifs
  · omega
  · rfl

lemma keyIndex_lt (mode : BitVec 1) {k : ℕ} (h1 : 1 ≤ k) (h16 : k ≤ 16) : keyIndex mode k < 17 := by
  unfold keyIndex
  split_ifs <;> omega

lemma yields_loadProcessMessage (messagePiece : Vector Byte 8) :
    Yields mem i (fun v => ∃ m, v = CipherKind.des.processBlock m messagePiece)
      (loadProcessMessage messagePiece : Cmd In Out NetWord Cell.Val _) := by
  refine yields_peek fun mode => ?_
  refine (yields_foldlM (fun keyRow lr _ => (lr.2,xorBytes (roundFunction keyRow lr.2) lr.1))
    (fun lr k => ?_) (List.range' 1 16) List.nodup_range' _).bind fun lr hlr => ?_
  · exact (yields_loadKeyRow _).bind fun keyRow _ => yields_ret ⟨keyRow, rfl⟩
  · obtain ⟨keyRows, rfl⟩ := hlr
    -- round `k` finds its row where the mode makes it look
    refine yields_ret ⟨desRegisters (fun r => keyRows (keyIndex mode r)) mode, ?_⟩
    have hrounds (lr₀ : Vector Byte 4 × Vector Byte 4) :
        (List.range' 1 16).foldl (fun lr k =>
          (lr.2,xorBytes (roundFunction (keyRows k) lr.2) lr.1)) lr₀ =
        (List.range' 1 16).foldl (fun lr k => (lr.2,xorBytes (roundFunction
          ((desTable (desColumns (desRegisters (fun r => keyRows (keyIndex mode r)) mode))).getD
            (keyIndex mode k) (.replicate 8 0)) lr.2) lr.1)) lr₀ := by
      refine List.foldl_ext _ _ _ fun lr k hk => ?_
      obtain ⟨h1, h16⟩ := List.mem_range'_1.mp hk
      rw [desTable_registers _ _ (keyIndex_lt mode h1 (by omega)), keyIndex_keyIndex mode (by omega)]
    rw [hrounds]
    rfl

lemma yields_loadAddRoundKey (round : ℕ) (cipherState : CipherState) :
    Yields mem i (fun s => ∃ wBias, s = addRoundKey wBias cipherState)
      (loadAddRoundKey round cipherState : Cmd In Out NetWord Cell.Val _) := by
  rw [loadAddRoundKey, loadRoundKey]
  refine Yields.bind (P := fun _ => True) ?_ fun wBias _ => yields_ret ⟨wBias, rfl⟩
  refine (yields_mapM (Q := fun _ => True) (fun i => ?_) _).bind fun _ _ => yields_ret trivial
  exact yields_peek fun _ => yields_ret trivial

/-- The core with these round keys in its registers. -/
lemma aesCipher_registers (rows : ℕ → Vector Byte 16) (input : Vector Byte 16) :
    Net.aesCipher (aesTable (aesColumns (aesRegisters rows))) input = .ofFn fun k =>
      ((addRoundKey (rows 10) (shiftRows (subBytes ((List.range' 1 9).foldl (fun s round =>
        addRoundKey (rows round) (mixColumns (shiftRows (subBytes s)))) (addRoundKey (rows 0)
          (.ofFn fun j => .ofFn fun i => input.getD (j + 4*i) 0)))))).getD (k%4)
            (.replicate 4 0)).getD (k/4) 0 := by
  have hrow {r : ℕ} (h : r < 11) : (aesTable (aesColumns (aesRegisters rows)))[r] = rows r :=
    (getD_eq_getElem _ (.replicate 16 0) h).symm.trans (aesTable_registers rows h)
  have hrounds (s : CipherState) : (List.range' 1 9).foldl (fun s round => addRoundKey
      ((aesTable (aesColumns (aesRegisters rows))).getD round (.replicate 16 0))
      (mixColumns (shiftRows (subBytes s)))) s =
      (List.range' 1 9).foldl (fun s round =>
        addRoundKey (rows round) (mixColumns (shiftRows (subBytes s)))) s := by
    refine List.foldl_ext _ _ _ fun s round hround => ?_
    obtain ⟨h1, h9⟩ := List.mem_range'_1.mp hround
    rw [aesTable_registers rows (by omega)]
  have h0 : 0 < 11 := by decide
  have h10 : 10 < 11 := by decide
  rw [Net.aesCipher, hrow h0, hrow h10, hrounds]

/-- The rows `w`, but for the first and the last. -/
def firstAndLast (w₀ w₁₀ : Vector Byte 16) (w : ℕ → Vector Byte 16) (r : ℕ) : Vector Byte 16 :=
  if r = 0 then w₀ else if r = 10 then w₁₀ else w r

lemma yields_loadAesCipher (input : Vector Byte 16) :
    Yields mem i (fun v => ∃ m, v = CipherKind.aesCipher.processBlock m input)
      (loadAesCipher input : Cmd In Out NetWord Cell.Val _) := by
  rw [loadAesCipher]
  refine (yields_loadAddRoundKey 0 _).bind fun s₀ h₀ => ?_
  refine (yields_foldlM (fun wBias s _ =>
    addRoundKey wBias (mixColumns (shiftRows (subBytes s)))) (fun s round => ?_) (List.range' 1 9)
    List.nodup_range' _).bind fun s₉ h₉ => ?_
  · exact yields_loadAddRoundKey round _
  refine (yields_loadAddRoundKey 10 _).bind fun s₁₀ h₁₀ => ?_
  obtain ⟨w₀, rfl⟩ := h₀
  obtain ⟨w, rfl⟩ := h₉
  obtain ⟨w₁₀, rfl⟩ := h₁₀
  have hrounds (s : CipherState) : (List.range' 1 9).foldl (fun s round =>
      addRoundKey (w round) (mixColumns (shiftRows (subBytes s)))) s =
      (List.range' 1 9).foldl (fun s round =>
        addRoundKey (firstAndLast w₀ w₁₀ w round) (mixColumns (shiftRows (subBytes s)))) s := by
    refine List.foldl_ext _ _ _ fun s round hround => ?_
    obtain ⟨h1, h9⟩ := List.mem_range'_1.mp hround
    rw [firstAndLast, if_neg (by omega), if_neg (by omega)]
  rw [hrounds]
  exact yields_ret ⟨_, (aesCipher_registers (firstAndLast w₀ w₁₀ w) input).symm⟩

lemma CipherKind.yields_process (kind : CipherKind) (block : Vector Byte kind.blockSize) :
    Yields mem i (fun v => ∃ m, v = kind.processBlock m block) (kind.process block) := by
  cases kind with
  | des => exact yields_loadProcessMessage block
  | aesCipher => exact yields_loadAesCipher block

end Yields

section Blocks
variable {ι : Type} {mem : Memory ι Cell.Val} {i : ι} {n : ℕ} {hn : 0 < n}
  {process : Vector Byte n → Cmd InputStrm OutputStrm NetWord Cell.Val (Vector Byte n)}

variable (hn process) in
lemma exec_loadingCore_short (piece : Piece n) (s : Io InputStrm OutputStrm NetWord mem.State)
    {w : NetWord} {ws : List NetWord} (hs : s.inp .inputStrm = w::ws)
    (h : (piece.val ++ [w.data]).length < n) :
    exec mem i (loadingCore hn process piece) s = some (⟨piece.val ++ [w.data], h⟩,
      ⟨fun _ => ws,s.out,s.mem⟩) := by
  rw [loadingCore, readWord_bind, exec_recv mem i _ _ s hs, inputStrm_update]
  simp only [h, dite_true]
  rfl

variable {δ : Type} {f : δ → Vector Byte n → Vector Byte n}
  (hp : ∀ v, Yields mem i (fun v' => ∃ d, v' = f d v) (process v))
include hp

variable (hn) in
lemma exec_loadingCore_full (piece : Piece n)
    (s : Io InputStrm OutputStrm NetWord mem.State) {w : NetWord} {ws : List NetWord}
    (hs : s.inp .inputStrm = w::ws) (h : ¬ (piece.val ++ [w.data]).length < n) :
    ∃ (d : δ) (m : mem.State), exec mem i (loadingCore hn process piece) s =
      some (⟨[], hn⟩,⟨fun _ => ws,fun _ => s.out .outputStrm ++
        (f d (toBlock n (piece.val ++ [w.data]))).toList.map byteWord,m⟩) := by
  obtain ⟨v, m, ⟨d, rfl⟩, hv⟩ := hp (toBlock n (piece.val ++ [w.data])) ⟨fun _ => ws,s.out,s.mem⟩
  refine ⟨d, m, ?_⟩
  rw [loadingCore, readWord_bind, exec_recv mem i _ _ s hs, inputStrm_update]
  simp only [h, dite_false]
  rw [exec_bind, hv, Option.bind_some, exec_writeAll_bind, outputStrm_update]
  rfl

variable (hn) in
/-- Each block is processed with data of its own. -/
lemma loadingCore_blocks [Inhabited δ] (ws : List NetWord) (piece : Piece n) (out : List NetWord)
    (m : mem.State) : ∃ (piece' : Piece n) (ds : ℕ → δ) (m' : mem.State), Blocks mem i (loadingCore hn process)
      (piece,⟨fun _ => ws,fun _ => out,m⟩)
      (piece',⟨fun _ => [],fun _ => out ++
        (blocksThrough n (fun k => f (ds k)) (piece.val ++ ws.map NetWord.data)).map byteWord,m'⟩) := by
  induction ws generalizing piece out m with
  | nil =>
    refine ⟨piece, fun _ => default, m, Blocks.to .refl ?_⟩
    have hnone := blocksThrough_short (fun _ => f default) piece.val piece.2
    simp [hnone]
  | cons w ws ih =>
    have happ : piece.val ++ (w::ws).map NetWord.data =
        piece.val ++ [w.data] ++ ws.map NetWord.data := by simp
    rw [happ]
    by_cases h : (piece.val ++ [w.data]).length < n
    · have hone := exec_loadingCore_short (i := i) hn process piece
        ⟨fun _ => w::ws,fun _ => out,m⟩ rfl h
      obtain ⟨piece', ds, m', hb⟩ := ih ⟨_, h⟩ out m
      exact ⟨piece', ds, m', .head hone hb⟩
    · have hl : (piece.val ++ [w.data]).length = n := by
        have hlt := piece.2
        rw [List.length_append, List.length_singleton] at h ⊢
        omega
      obtain ⟨d, m₁, hone⟩ := exec_loadingCore_full hn hp piece
        ⟨fun _ => w::ws,fun _ => out,m⟩ rfl h
      obtain ⟨piece', ds, m', hb⟩ := ih ⟨[], hn⟩ _ m₁
      refine ⟨piece', fun k => Nat.casesOn k d ds, m', .head hone (hb.to ?_)⟩
      rw [blocksThrough_block _ _ _ hn hl, List.map_append, ← List.append_assoc]
      rfl

end Blocks

end EncryptionAccelerators.Net
