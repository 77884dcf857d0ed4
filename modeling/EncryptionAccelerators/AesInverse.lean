import EncryptionAccelerators.AesCipher
import EncryptionAccelerators.BitString

/-! The inverse of `aes_cipher`. Every step on `cipher_state` is a permutation of the states under any
table of round keys, so the cipher is one of the blocks. -/
namespace EncryptionAccelerators.Net
open BitString

/-- The second table of `main.cc`, which nothing there uses. -/
def isbox : List Byte := [
    0x52,0x09,0x6a,0xd5,0x30,0x36,0xa5,0x38,0xbf,0x40,0xa3,0x9e,0x81,0xf3,0xd7,0xfb,
    0x7c,0xe3,0x39,0x82,0x9b,0x2f,0xff,0x87,0x34,0x8e,0x43,0x44,0xc4,0xde,0xe9,0xcb,
    0x54,0x7b,0x94,0x32,0xa6,0xc2,0x23,0x3d,0xee,0x4c,0x95,0x0b,0x42,0xfa,0xc3,0x4e,
    0x08,0x2e,0xa1,0x66,0x28,0xd9,0x24,0xb2,0x76,0x5b,0xa2,0x49,0x6d,0x8b,0xd1,0x25,
    0x72,0xf8,0xf6,0x64,0x86,0x68,0x98,0x16,0xd4,0xa4,0x5c,0xcc,0x5d,0x65,0xb6,0x92,
    0x6c,0x70,0x48,0x50,0xfd,0xed,0xb9,0xda,0x5e,0x15,0x46,0x57,0xa7,0x8d,0x9d,0x84,
    0x90,0xd8,0xab,0x00,0x8c,0xbc,0xd3,0x0a,0xf7,0xe4,0x58,0x05,0xb8,0xb3,0x45,0x06,
    0xd0,0x2c,0x1e,0x8f,0xca,0x3f,0x0f,0x02,0xc1,0xaf,0xbd,0x03,0x01,0x13,0x8a,0x6b,
    0x3a,0x91,0x11,0x41,0x4f,0x67,0xdc,0xea,0x97,0xf2,0xcf,0xce,0xf0,0xb4,0xe6,0x73,
    0x96,0xac,0x74,0x22,0xe7,0xad,0x35,0x85,0xe2,0xf9,0x37,0xe8,0x1c,0x75,0xdf,0x6e,
    0x47,0xf1,0x1a,0x71,0x1d,0x29,0xc5,0x89,0x6f,0xb7,0x62,0x0e,0xaa,0x18,0xbe,0x1b,
    0xfc,0x56,0x3e,0x4b,0xc6,0xd2,0x79,0x20,0x9a,0xdb,0xc0,0xfe,0x78,0xcd,0x5a,0xf4,
    0x1f,0xdd,0xa8,0x33,0x88,0x07,0xc7,0x31,0xb1,0x12,0x10,0x59,0x27,0x80,0xec,0x5f,
    0x60,0x51,0x7f,0xa9,0x19,0xb5,0x4a,0x0d,0x2d,0xe5,0x7a,0x9f,0x93,0xc9,0x9c,0xef,
    0xa0,0xe0,0x3b,0x4d,0xae,0x2a,0xf5,0xb0,0xc8,0xeb,0xbb,0x3c,0x83,0x53,0x99,0x61,
    0x17,0x2b,0x04,0x7e,0xba,0x77,0xd6,0x26,0xe1,0x69,0x14,0x63,0x55,0x21,0x0c,0x7d]

/-! The inverse cipher of the standard, with the products of `AES.cpp`. -/

def invSubBytes (cipherState : CipherState) : CipherState :=
  cipherState.map fun row => row.map fun b => isbox.getD b.toNat 0

/-- Row `i` moves `i` places to the right. -/
def invShiftRows (cipherState : CipherState) : CipherState :=
  .ofFn fun i => .ofFn fun j => (cipherState.get i).get (j - i)

def stateColumn (cipherState : CipherState) (i : Fin 4) : Vector Byte 4 :=
  .ofFn fun j => (cipherState.get j).get i

/-- Every column multiplied by the column `A`. -/
def multiplyColumns (A : Vector Byte 4) (cipherState : CipherState) : CipherState :=
  .ofFn fun j => .ofFn fun i => (fourTermMultiplication A (stateColumn cipherState i)).get j

/-- The factor is `{0b}x^3 + {0d}x^2 + {09}x + {0e}`. -/
def invMixColumns (cipherState : CipherState) : CipherState :=
  multiplyColumns #v[0x0e,0x09,0x0d,0x0b] cipherState

def invCipher (w : RoundKeyTable) (output : Vector Byte 16) : Vector Byte 16 :=
  let cipherState : CipherState := .ofFn fun j => .ofFn fun i => output.getD (j + 4*i) 0
  let cipherState := addRoundKey (w.getD 10 (.replicate 16 0)) cipherState
  let cipherState := (List.range' 1 9).reverse.foldl (fun cipherState round =>
    invMixColumns (addRoundKey (w.getD round (.replicate 16 0))
      (invSubBytes (invShiftRows cipherState)))) cipherState
  let cipherState := addRoundKey (w.getD 0 (.replicate 16 0)) (invSubBytes (invShiftRows cipherState))
  .ofFn fun k => (cipherState.getD (k%4) (.replicate 4 0)).getD (k/4) 0

/-! A loop whose turns can be undone. -/
section Steps
variable {ι α : Type} (step : ι → Equiv.Perm α)

/-- The turns of a loop are undone from the last to the first. -/
lemma foldl_reverse_symm (is : List ι) (a : α) :
    is.reverse.foldl (fun a i => (step i).symm a) (is.foldl (fun a i => step i a) a) = a := by
  induction is generalizing a with
  | nil => rfl
  | cons i is ih =>
    rw [List.foldl_cons, List.reverse_cons, List.foldl_append, ih, List.foldl_cons, List.foldl_nil,
      Equiv.symm_apply_apply]

/-- The loop as a permutation. -/
def steps (is : List ι) : Equiv.Perm α where
  toFun a := is.foldl (fun a i => step i a) a
  invFun a := is.reverse.foldl (fun a i => (step i).symm a) a
  left_inv := foldl_reverse_symm step is
  right_inv a := by
    have hback := foldl_reverse_symm (fun i => (step i).symm) is.reverse a
    rwa [List.reverse_reverse] at hback

lemma steps_symm_apply (is : List ι) (a : α) : (steps step is).symm a =
    is.reverse.foldl (fun a i => (step i).symm a) a := rfl

end Steps

/-! The products of `AES.cpp` are linear in their second factor. -/

lemma xtime_eq (A : Byte) : xtime A = (A <<< 1) ^^^ if A.msb then 0x1b#8 else 0 := by
  have hmask : A &&& 0x80#8 = if A.msb then 0x80#8 else 0 := by
    rw [BitVec.msb_eq_getLsbD_last]
    exact BitVec.and_twoPow A 7
  rw [xtime, hmask]
  cases A.msb <;> simp

lemma xtime_xor (A B : Byte) : xtime (A ^^^ B) = xtime A ^^^ xtime B := by
  have hreduce : (if (A ^^^ B).msb then 0x1b#8 else 0) =
      (if A.msb then 0x1b#8 else 0) ^^^ if B.msb then 0x1b#8 else 0 := by
    rw [BitVec.msb_xor]
    cases A.msb <;> cases B.msb <;> rfl
  rw [xtime_eq, xtime_eq A, xtime_eq B, BitVec.shiftLeft_xor_distrib, hreduce]
  ac_rfl

/-- One turn of the loop of `Multiplication` on the pair of `sum` and `temp`. -/
def multiplicationStep (A : Byte) (p : Byte × Byte) (i : ℕ) : Byte × Byte :=
  (if A &&& (0x01#8 <<< i) ≠ 0 then p.1 ^^^ p.2 else p.1,xtime p.2)

lemma foldl_multiplicationStep_xor (A : Byte) (is : List ℕ) (s t s' t' : Byte) :
    is.foldl (multiplicationStep A) (s ^^^ s',t ^^^ t') =
      ((is.foldl (multiplicationStep A) (s,t)).1 ^^^ (is.foldl (multiplicationStep A) (s',t')).1,
        (is.foldl (multiplicationStep A) (s,t)).2 ^^^
          (is.foldl (multiplicationStep A) (s',t')).2) := by
  induction is generalizing s t s' t' with
  | nil => rfl
  | cons i is ih =>
    have hstep : multiplicationStep A (s ^^^ s',t ^^^ t') i =
        ((multiplicationStep A (s,t) i).1 ^^^ (multiplicationStep A (s',t') i).1,
          (multiplicationStep A (s,t) i).2 ^^^ (multiplicationStep A (s',t') i).2) := by
      simp only [multiplicationStep, xtime_xor]
      split_ifs
      · congr 1
        ac_rfl
      · rfl
    rw [List.foldl_cons, hstep, ih, List.foldl_cons, List.foldl_cons]

lemma Multiplication_xor (A B B' : Byte) :
    Multiplication A (B ^^^ B') = Multiplication A B ^^^ Multiplication A B' :=
  congrArg Prod.fst (foldl_multiplicationStep_xor A (List.range 8) 0 B 0 B')

/-! A byte is the sum of its bits. -/

lemma byte_bits (b : Byte) : b = (b &&& .twoPow 8 0) ^^^ ((b &&& .twoPow 8 1) ^^^
    ((b &&& .twoPow 8 2) ^^^ ((b &&& .twoPow 8 3) ^^^ ((b &&& .twoPow 8 4) ^^^
      ((b &&& .twoPow 8 5) ^^^ ((b &&& .twoPow 8 6) ^^^ (b &&& .twoPow 8 7))))))) := by
  apply BitVec.eq_of_getLsbD_eq
  intro i hi
  interval_cases i <;> simp

/-- What holds of the single bits and of sums holds of every byte. -/
lemma byte_induction {P : Byte → Prop} (bit : ∀ i < 8, P (.twoPow 8 i))
    (xor : ∀ a b, P a → P b → P (a ^^^ b)) (b : Byte) : P b := by
  have hzero : P 0 := by
    have hsum := xor _ _ (bit 0 (by omega)) (bit 0 (by omega))
    rwa [BitVec.xor_self] at hsum
  have hbit : ∀ i < 8, P (b &&& .twoPow 8 i) := by
    intro i hi
    rw [BitVec.and_twoPow]
    split_ifs
    · exact bit i hi
    · exact hzero
  rw [byte_bits b]
  repeat' apply xor
  all_goals exact hbit _ (by omega)

/-! A column is a polynomial modulo `x^4 + 1`, put together from its bytes by shifts. -/

/-- The column times `x`. -/
def shiftColumn (B : Vector Byte 4) : Vector Byte 4 := #v[B.get 3,B.get 0,B.get 1,B.get 2]

def constantColumn (b : Byte) : Vector Byte 4 := #v[b,0,0,0]

lemma constantColumn_xor (b b' : Byte) :
    constantColumn (b ^^^ b') = xorBytes (constantColumn b) (constantColumn b') := by
  apply Vector.ext
  intro i hi
  interval_cases i <;> simp [constantColumn, xorBytes]

lemma column_eq (B : Vector Byte 4) : B = xorBytes (constantColumn (B.get 0)) (shiftColumn
    (xorBytes (constantColumn (B.get 1)) (shiftColumn
      (xorBytes (constantColumn (B.get 2)) (shiftColumn (constantColumn (B.get 3))))))) := by
  apply Vector.ext
  intro i hi
  interval_cases i <;>
    simp [xorBytes, shiftColumn, constantColumn]

lemma fourTermMultiplication_xor (A B B' : Vector Byte 4) :
    fourTermMultiplication A (xorBytes B B') =
      xorBytes (fourTermMultiplication A B) (fourTermMultiplication A B') := by
  apply Vector.ext
  intro i hi
  interval_cases i <;>
    simp [fourTermMultiplication, xorBytes, Multiplication_xor] <;> ac_rfl

lemma fourTermMultiplication_shift (A B : Vector Byte 4) :
    fourTermMultiplication A (shiftColumn B) = shiftColumn (fourTermMultiplication A B) := by
  apply Vector.ext
  intro i hi
  interval_cases i <;>
    simp [fourTermMultiplication, shiftColumn] <;> ac_rfl

/-- Two factors whose product is 1 on the constant columns undo each other on all columns. -/
lemma fourTermMultiplication_cancel {A A' : Vector Byte 4}
    (h : ∀ b, fourTermMultiplication A' (fourTermMultiplication A (constantColumn b)) =
      constantColumn b) (B : Vector Byte 4) :
    fourTermMultiplication A' (fourTermMultiplication A B) = B := by
  have hsplit := congrArg (fun C => fourTermMultiplication A' (fourTermMultiplication A C))
    (column_eq B)
  simp only [fourTermMultiplication_xor, fourTermMultiplication_shift, h] at hsplit
  rw [hsplit]
  exact (column_eq B).symm

lemma stateColumn_injective : Function.Injective stateColumn := by
  intro s t h
  apply Vector.ext
  intro j hj
  apply Vector.ext
  intro i hi
  have hbyte := congrArg (fun B : Vector Byte 4 => B.get ⟨j, hj⟩) (congrFun h ⟨i, hi⟩)
  simpa [stateColumn] using hbyte

lemma stateColumn_multiplyColumns (A : Vector Byte 4) (cipherState : CipherState) (i : Fin 4) :
    stateColumn (multiplyColumns A cipherState) i =
      fourTermMultiplication A (stateColumn cipherState i) := by
  apply Vector.ext
  intro j hj
  simp [stateColumn, multiplyColumns, fourTermMultiplication]

/-- It is enough to multiply the single bits. -/
lemma constantColumn_cancel {A A' : Vector Byte 4}
    (h : ∀ i < 8, fourTermMultiplication A' (fourTermMultiplication A
      (constantColumn (.twoPow 8 i))) = constantColumn (.twoPow 8 i)) (b : Byte) :
    fourTermMultiplication A' (fourTermMultiplication A (constantColumn b)) = constantColumn b := by
  induction b using byte_induction with
  | bit i hi => exact h i hi
  | xor a b iha ihb =>
    rw [constantColumn_xor, fourTermMultiplication_xor, fourTermMultiplication_xor, iha, ihb]

lemma multiplyColumns_cancel {A A' : Vector Byte 4}
    (h : ∀ b, fourTermMultiplication A' (fourTermMultiplication A (constantColumn b)) =
      constantColumn b) (cipherState : CipherState) :
    multiplyColumns A' (multiplyColumns A cipherState) = cipherState := by
  apply stateColumn_injective
  funext i
  rw [stateColumn_multiplyColumns, stateColumn_multiplyColumns, fourTermMultiplication_cancel h]

/-! The steps of the cipher as permutations. -/

lemma invMix_mix (b : Byte) : fourTermMultiplication #v[0x0e,0x09,0x0d,0x0b]
    (fourTermMultiplication #v[0x02,0x01,0x01,0x03] (constantColumn b)) = constantColumn b :=
  constantColumn_cancel (by decide) b

lemma mix_invMix (b : Byte) : fourTermMultiplication #v[0x02,0x01,0x01,0x03]
    (fourTermMultiplication #v[0x0e,0x09,0x0d,0x0b] (constantColumn b)) = constantColumn b :=
  constantColumn_cancel (by decide) b

set_option maxRecDepth 4096 in
/-- The two tables, of different programs, undo each other. -/
lemma isbox_SBox : ∀ b : Byte, isbox.getD (SBox.getD b.toNat 0).toNat 0 = b ∧
    SBox.getD (isbox.getD b.toNat 0).toNat 0 = b := by decide

def subBytesPerm : Equiv.Perm CipherState where
  toFun := subBytes
  invFun := invSubBytes
  left_inv s := by
    refine Vector.ext fun i hi => Vector.ext fun j hj => ?_
    simp only [subBytes, invSubBytes, Vector.getElem_map]
    exact (isbox_SBox _).1
  right_inv s := by
    refine Vector.ext fun i hi => Vector.ext fun j hj => ?_
    simp only [subBytes, invSubBytes, Vector.getElem_map]
    exact (isbox_SBox _).2

def shiftRowsPerm : Equiv.Perm CipherState where
  toFun := shiftRows
  invFun := invShiftRows
  left_inv s := by
    refine Vector.ext fun i hi => Vector.ext fun j hj => ?_
    interval_cases i <;> interval_cases j <;> rfl
  right_inv s := by
    refine Vector.ext fun i hi => Vector.ext fun j hj => ?_
    interval_cases i <;> interval_cases j <;> rfl

def mixColumnsPerm : Equiv.Perm CipherState where
  toFun := mixColumns
  invFun := invMixColumns
  left_inv := multiplyColumns_cancel invMix_mix
  right_inv := multiplyColumns_cancel mix_invMix

lemma addRoundKey_cancel (wBias : Vector Byte 16) (s : CipherState) :
    addRoundKey wBias (addRoundKey wBias s) = s := by
  refine Vector.ext fun i hi => Vector.ext fun j hj => ?_
  simp [addRoundKey]

def addRoundKeyPerm (wBias : Vector Byte 16) : Equiv.Perm CipherState :=
  Function.Involutive.toPerm (addRoundKey wBias) (addRoundKey_cancel wBias)

/-- The bytes of a block as the columns of a state. -/
def stateEquiv : Vector Byte 16 ≃ CipherState where
  toFun input := .ofFn fun j => .ofFn fun i => input.getD (j + 4*i) 0
  invFun cipherState := .ofFn fun k => (cipherState.getD (k%4) (.replicate 4 0)).getD (k/4) 0
  left_inv input := by
    apply Vector.ext
    intro k hk
    have hrow : k%4 < 4 := Nat.mod_lt k (by decide)
    have hcolumn : k/4 < 4 := by omega
    simp only [Vector.getElem_ofFn, getD_ofFn _ _ hrow, getD_ofFn _ _ hcolumn, Nat.mod_add_div]
    exact getD_eq_getElem input 0 hk
  right_inv s := by
    refine Vector.ext fun j hj => Vector.ext fun i hi => ?_
    have hrow : (j + 4*i)%4 = j := by omega
    have hcolumn : (j + 4*i)/4 = i := by omega
    have hk : j + 4*i < 16 := by omega
    simp only [Vector.getElem_ofFn, getD_ofFn _ _ hk, hrow, hcolumn]
    rw [getD_eq_getElem s _ hj, getD_eq_getElem s[j] _ hi]

def roundPerm (w : RoundKeyTable) (round : ℕ) : Equiv.Perm CipherState :=
  subBytesPerm.trans (shiftRowsPerm.trans (mixColumnsPerm.trans
    (addRoundKeyPerm (w.getD round (.replicate 16 0)))))

lemma roundPerm_symm_apply (w : RoundKeyTable) (round : ℕ) (s : CipherState) :
    (roundPerm w round).symm s = invSubBytes (invShiftRows (invMixColumns
      (addRoundKey (w.getD round (.replicate 16 0)) s))) := rfl

def cipherPerm (w : RoundKeyTable) : Equiv.Perm (Vector Byte 16) :=
  stateEquiv.trans ((addRoundKeyPerm (w.getD 0 (.replicate 16 0))).trans ((steps (roundPerm w) (List.range' 1 9)).trans
    (subBytesPerm.trans (shiftRowsPerm.trans ((addRoundKeyPerm (w.getD 10 (.replicate 16 0))).trans stateEquiv.symm)))))

lemma cipherPerm_eq (w : RoundKeyTable) : cipherPerm w = aesCipher w := by
  have h0 : w[0] = w.getD 0 (.replicate 16 0) := (getD_eq_getElem w _ (by omega)).symm
  have h10 : w[10] = w.getD 10 (.replicate 16 0) := (getD_eq_getElem w _ (by omega)).symm
  funext input
  simp only [aesCipher, h0, h10]
  rfl

/-- The standard groups the steps of the inverse by its own rounds. -/
lemma cipherPerm_symm_eq (w : RoundKeyTable) : (cipherPerm w).symm = invCipher w := by
  funext output
  have hgroups : (steps (roundPerm w) (List.range' 1 9)).symm
        (invSubBytes (invShiftRows (addRoundKey (w.getD 10 (.replicate 16 0)) (stateEquiv output)))) =
      invSubBytes (invShiftRows ((List.range' 1 9).reverse.foldl (fun s round =>
        invMixColumns (addRoundKey (w.getD round (.replicate 16 0))
          (invSubBytes (invShiftRows s)))) (addRoundKey (w.getD 10 (.replicate 16 0)) (stateEquiv output)))) := by
    rw [steps_symm_apply]
    simp only [roundPerm_symm_apply]
    exact List.foldl_hom (fun s => invSubBytes (invShiftRows s)) fun _ _ => rfl
  have hsymm : (cipherPerm w).symm output = stateEquiv.symm (addRoundKey (w.getD 0 (.replicate 16 0))
      ((steps (roundPerm w) (List.range' 1 9)).symm
        (invSubBytes (invShiftRows (addRoundKey (w.getD 10 (.replicate 16 0)) (stateEquiv output)))))) := by
    simp only [cipherPerm, Equiv.symm_trans_apply, Equiv.symm_symm]
    rfl
  rw [hsymm, hgroups]
  rfl

/-- The inverse cipher undoes the cipher and the cipher the inverse cipher, for every table. -/
theorem aes_invertible (w : RoundKeyTable) :
    Function.LeftInverse (invCipher w) (aesCipher w) ∧
    Function.RightInverse (invCipher w) (aesCipher w) ∧ Function.Bijective (aesCipher w) := by
  rw [← cipherPerm_eq, ← cipherPerm_symm_eq]
  exact ⟨(cipherPerm w).left_inv, (cipherPerm w).right_inv, (cipherPerm w).bijective⟩

end EncryptionAccelerators.Net
