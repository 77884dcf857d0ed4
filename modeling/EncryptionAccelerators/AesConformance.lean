import EncryptionAccelerators.AesBytes
import EncryptionAccelerators.BitString

/-! `AES.cpp` and the key expansion of `main.cc` compute the AES of FIPS 197. -/
namespace EncryptionAccelerators.Net
open BitString

/-! The round transformations. -/

lemma subBytes_eq (s : CipherState) : subBytes s = Fips197.subBytes s := by
  refine Vector.ext fun r hr => Vector.ext fun c hc => ?_
  simp only [subBytes, Fips197.subBytes, Vector.getElem_map, Vector.getElem_ofFn]
  exact sBox_eq _

lemma shiftRows_eq (s : CipherState) : shiftRows s = Fips197.shiftRows s := by
  refine Vector.ext fun r hr => Vector.ext fun c hc => ?_
  interval_cases r <;> interval_cases c <;> rfl

/-- The four terms are the coefficients of the product modulo `x^4 + 1`. -/
lemma fourTermMultiplication_eq (B : Vector Byte 4) :
    fourTermMultiplication #v[0x02,0x01,0x01,0x03] B =
      Fips197.colMul Fips197.mixPolynomial B := by
  have h0 : fourTermMultiplication #v[0x02,0x01,0x01,0x03] B = #v[
      Fips197.mul 0x02 B[0] ^^^ Fips197.mul 0x03 B[1] ^^^ Fips197.mul 0x01 B[2] ^^^
        Fips197.mul 0x01 B[3],
      Fips197.mul 0x01 B[0] ^^^ Fips197.mul 0x02 B[1] ^^^ Fips197.mul 0x03 B[2] ^^^
        Fips197.mul 0x01 B[3],
      Fips197.mul 0x01 B[0] ^^^ Fips197.mul 0x01 B[1] ^^^ Fips197.mul 0x02 B[2] ^^^
        Fips197.mul 0x03 B[3],
      Fips197.mul 0x03 B[0] ^^^ Fips197.mul 0x01 B[1] ^^^ Fips197.mul 0x01 B[2] ^^^
        Fips197.mul 0x02 B[3]] := by
    simp only [← multiplication_two, ← multiplication_one, ← multiplication_three]
    rfl
  rw [h0]
  refine Vector.ext fun i hi => ?_
  -- the terms of one coefficient come in the order of the powers of the first factor
  interval_cases i
  · change _ = (0 ^^^ Fips197.mul 0x02 B[0] ^^^ Fips197.mul 0x01 B[3] ^^^ Fips197.mul 0x01 B[2] ^^^
      Fips197.mul 0x03 B[1] : Byte)
    simp
    ac_rfl
  · change _ = (0 ^^^ Fips197.mul 0x02 B[1] ^^^ Fips197.mul 0x01 B[0] ^^^ Fips197.mul 0x01 B[3] ^^^
      Fips197.mul 0x03 B[2] : Byte)
    simp
    ac_rfl
  · change _ = (0 ^^^ Fips197.mul 0x02 B[2] ^^^ Fips197.mul 0x01 B[1] ^^^ Fips197.mul 0x01 B[0] ^^^
      Fips197.mul 0x03 B[3] : Byte)
    simp
    ac_rfl
  · change _ = (0 ^^^ Fips197.mul 0x02 B[3] ^^^ Fips197.mul 0x01 B[2] ^^^ Fips197.mul 0x01 B[1] ^^^
      Fips197.mul 0x03 B[0] : Byte)
    simp
    ac_rfl

lemma mixColumns_eq (s : CipherState) : mixColumns s = Fips197.mixColumns s := by
  have hB (i : Fin 4) : #v[(s.get 0).get i,(s.get 1).get i,(s.get 2).get i,(s.get 3).get i] =
      Vector.ofFn fun r : Fin 4 => (s.get r).get i := by
    refine Vector.ext fun r hr => ?_
    interval_cases r <;> rfl
  simp only [mixColumns, Fips197.mixColumns, fourTermMultiplication_eq, hB]

/-- The rows of the core's table are the round keys made of the words `ws`. -/
def RowsAre (w : RoundKeyTable) (ws : List Fips197.Word) : Prop :=
  ∀ round < 11, ∀ (r : Fin 4) (c : Fin 4), (w.getD round (.replicate 16 0)).getD (r + c*4) 0 =
    (ws.getD (4*round + c) (.replicate 4 0)).get r

lemma addRoundKey_eq {w : RoundKeyTable} {ws : List Fips197.Word} (h : RowsAre w ws) {round : ℕ}
    (hr : round < 11) (s : CipherState) :
    addRoundKey (w.getD round (.replicate 16 0)) s = Fips197.addRoundKey ws round s := by
  refine Vector.ext fun r hr' => Vector.ext fun c hc => ?_
  have hw := h round hr ⟨r, hr'⟩ ⟨c, hc⟩
  simp only [addRoundKey, Fips197.addRoundKey, Vector.getElem_ofFn, hw]

lemma rounds_eq {w : RoundKeyTable} {ws : List Fips197.Word} (h : RowsAre w ws) (s : CipherState)
    {n : ℕ} (hn : n < 11) : (List.range' 1 n).foldl (fun cipherState round =>
      addRoundKey (w.getD round (.replicate 16 0)) (mixColumns (shiftRows (subBytes cipherState))))
      (addRoundKey (w.getD 0 (.replicate 16 0)) s) = Fips197.rounds ws s n := by
  induction n with
  | zero => exact addRoundKey_eq h (by omega) s
  | succ n ih =>
    rw [List.range'_concat, List.foldl_append, ih (by omega), Nat.one_mul, Nat.add_comm 1 n,
      List.foldl_cons, List.foldl_nil, addRoundKey_eq h hn, mixColumns_eq, shiftRows_eq,
      subBytes_eq, Fips197.rounds]

/-- With the round keys in its table the core computes `Cipher` with ten rounds. -/
lemma aesCipher_eq {w : RoundKeyTable} {ws : List Fips197.Word} (h : RowsAre w ws)
    (input : Vector Byte 16) : aesCipher w input = Fips197.cipher 10 ws input := by
  have hin : (Vector.ofFn fun j : Fin 4 => Vector.ofFn fun i : Fin 4 => input.getD (j + 4*i) 0) =
      Vector.ofFn fun r : Fin 4 => Vector.ofFn fun c : Fin 4 => input[r.val + 4*c.val] := by
    refine Vector.ext fun r hr => Vector.ext fun c hc => ?_
    simp only [Vector.getElem_ofFn]
    rw [getD_eq_getElem _ _ (by omega)]
  have h0 : w[0] = w.getD 0 (.replicate 16 0) := (getD_eq_getElem w _ (by omega)).symm
  have h10 : w[10] = w.getD 10 (.replicate 16 0) := (getD_eq_getElem w _ (by omega)).symm
  simp only [aesCipher, Fips197.cipher]
  rw [h0, h10, rounds_eq h _ (by omega), addRoundKey_eq h (by omega), shiftRows_eq, subBytes_eq,
    hin]
  refine Vector.ext fun k hk => ?_
  simp only [Vector.getElem_ofFn]
  rw [getD_eq_getElem _ _ (show k%4 < 4 by omega), getD_eq_getElem _ _ (show k/4 < 4 by omega)]

end EncryptionAccelerators.Net
