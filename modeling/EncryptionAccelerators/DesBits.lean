import EncryptionAccelerators.BitString
import EncryptionAccelerators.Des

/-! The byte loops of `des.cpp` as operations on bit strings. -/
namespace EncryptionAccelerators.Net
open BitString

lemma getMsbD_mask {k : ℕ} : (0x80#8).getMsbD k = decide (k = 0) := by
  rcases lt_or_ge k 8 with h | h
  · interval_cases k <;> rfl
  · simp [BitVec.getMsbD_of_ge _ _ h, show k ≠ 0 by omega]

/-- Only the selected bit survives, and it ends up at position `j`. -/
lemma getMsbD_selectBit (b : Byte) {s j k : ℕ} (hs : s < 8) (hk : k < 8) :
    (selectBit b s j).getMsbD k = (decide (k = j) && b.getMsbD s) := by
  simp only [selectBit, BitVec.getMsbD_ushiftRight, BitVec.getMsbD_shiftLeft, BitVec.getMsbD_and,
    getMsbD_mask, hk, decide_true, Bool.true_and]
  rcases lt_trichotomy k j with h | h | h
  · simp [h, h.ne]
  · subst h
    simp [hs]
  · simp [h.ne', show k - j ≠ 0 by omega]

/-- After `n` turns of the loop: the bits below `n` are the selected ones. -/
lemma getMsbD_orBits_aux (bitAt : ℕ → Byte × ℕ) (acc : Byte) (hs : ∀ j, (bitAt j).2 < 8) (n : ℕ)
    {k : ℕ} (hk : k < 8) :
    ((List.range n).foldl (fun acc j => acc ||| selectBit (bitAt j).1 (bitAt j).2 j) acc).getMsbD k =
      (acc.getMsbD k || (decide (k < n) && (bitAt k).1.getMsbD (bitAt k).2)) := by
  induction n with
  | zero => simp
  | succ n ih =>
    rw [List.range_succ, List.foldl_append, List.foldl_cons, List.foldl_nil, BitVec.getMsbD_or,
      ih]
    rw [getMsbD_selectBit _ (hs n) hk]
    rcases lt_trichotomy k n with h | h | h
    · simp [h, h.ne, show k < n + 1 by omega]
    · simp [← h]
    · simp [h.ne', show ¬ k < n by omega, show ¬ k < n + 1 by omega]

lemma getMsbD_orBits (bitAt : ℕ → Byte × ℕ) (acc : Byte) (hs : ∀ j, (bitAt j).2 < 8) {k : ℕ}
    (hk : k < 8) : (orBits bitAt acc).getMsbD k =
      (acc.getMsbD k || (bitAt k).1.getMsbD (bitAt k).2) := by
  have h := getMsbD_orBits_aux bitAt acc hs 8 hk
  simp only [hk, decide_true, Bool.true_and] at h
  exact h

lemma bitAt_lt {n : ℕ} (v : Vector Byte n) (shiftSize : ℕ) : (bitAt v shiftSize).2 < 8 :=
  Nat.mod_lt _ (by omega)

/-- `shift_size` denotes bit `shift_size - 1` of the bit string. -/
lemma getMsbD_bitAt {n : ℕ} (v : Vector Byte n) (shiftSize : ℕ) :
    (bitAt v shiftSize).1.getMsbD (bitAt v shiftSize).2 = (ofBytes v).getMsbD (shiftSize - 1) :=
  (getMsbD_ofBytes v _).symm

/-- A permutation loop picks the bits of its table. -/
lemma ofBytes_permute {n : ℕ} (table : List ℕ) (m : ℕ) (v : Vector Byte n) :
    ofBytes (permute table m v) = pick table (8*m) (ofBytes v) := by
  apply BitVec.eq_of_getMsbD_eq
  intro i hi
  have hm : i/8 < m := by omega
  rw [getMsbD_pick _ _ hi, getMsbD_ofBytes, permute, getD_ofFn _ _ hm,
    getMsbD_orBits _ _ (fun j => bitAt_lt v _) (Nat.mod_lt _ (by omega)), getMsbD_bitAt,
    Nat.div_add_mod]
  simp

lemma ofBytes_xorBytes {n : ℕ} (u v : Vector Byte n) :
    ofBytes (xorBytes u v) = ofBytes u ^^^ ofBytes v := by
  apply BitVec.eq_of_getMsbD_eq
  intro i hi
  have hn : i/8 < n := by omega
  simp [getMsbD_ofBytes, Vector.getD, xorBytes, hn]

end EncryptionAccelerators.Net
