import EncryptionAccelerators.DesConformance

/-! `generate_sub_keys` computes the key schedule of FIPS 46-3: a half is 28 bits at the left of
four bytes, the other four bits being zero. -/
namespace EncryptionAccelerators.Net
open BitString Fips46

/-- The half `x` packed in four bytes. -/
def Packed (half : Vector Byte 4) (x : BitVec 28) : Prop :=
  ∀ i < 32, (half.getD (i/8) 0).getMsbD (i%8) = (decide (i < 28) && x.getMsbD i)

lemma getMsbD_shiftMask {s k : ℕ} (hs : s = 1 ∨ s = 2) :
    (if s = 1 then 0x80#8 else 0xC0#8).getMsbD k = decide (k < s) := by
  rcases lt_or_ge k 8 with h | h
  · rcases hs with rfl | rfl <;> interval_cases k <;> rfl
  · rw [BitVec.getMsbD_of_ge _ _ h]
    simp
    omega

/-- A byte shifted left, filled from the byte after it. -/
lemma getMsbD_shift (a b : Byte) {s j : ℕ} (hs : s = 1 ∨ s = 2) (hj : j < 8) :
    ((a <<< s) ||| (((if s = 1 then 0x80#8 else 0xC0#8) &&& b) >>> (8 - s))).getMsbD j =
      if j + s < 8 then a.getMsbD (j + s) else b.getMsbD (j + s - 8) := by
  simp only [BitVec.getMsbD_or, BitVec.getMsbD_shiftLeft, BitVec.getMsbD_ushiftRight,
    BitVec.getMsbD_and, getMsbD_shiftMask hs, hj, decide_true, Bool.true_and]
  split_ifs with h
  · simp [show j < 8 - s by omega]
  · have hk : j - (8 - s) = j + s - 8 := by omega
    simp [BitVec.getMsbD_of_ge a _ (not_lt.mp h), show ¬ j < 8 - s by omega, hk,
      show j + s - 8 < s by omega]

/-- The last byte takes the first bits of the half into its upper nibble. -/
lemma getMsbD_shift_last (a b : Byte) {s j : ℕ} (hs : s = 1 ∨ s = 2) (hj : j < 8) :
    ((a <<< s) ||| (((if s = 1 then 0x80#8 else 0xC0#8) &&& b) >>> (4 - s))).getMsbD j =
      (a.getMsbD (j + s) || (decide (4 - s ≤ j ∧ j < 4) && b.getMsbD (j + s - 4))) := by
  simp only [BitVec.getMsbD_or, BitVec.getMsbD_shiftLeft, BitVec.getMsbD_ushiftRight,
    BitVec.getMsbD_and, getMsbD_shiftMask hs, hj, decide_true, Bool.true_and]
  by_cases h : 4 - s ≤ j
  · simp [h, show ¬ j < 4 - s by omega, show j - (4 - s) = j + s - 4 by omega,
      show j + s - 4 < s ↔ j < 4 by omega]
  · simp [h, show j < 4 - s by omega]

section RotateHalf
variable {half : Vector Byte 4} {x : BitVec 28} (h : Packed half x) {s j : ℕ}
include h

lemma Packed.getMsbD_byte {q : ℕ} (hq : q < 4) (hj : j < 8) :
    half[q].getMsbD j = (decide (8*q + j < 28) && x.getMsbD (8*q + j)) := by
  rw [← h (8*q + j) (by omega), show (8*q + j)/8 = q by omega, show (8*q + j)%8 = j by omega,
    getD_eq_getElem _ _ hq]

/-- Bits before the last byte move `s` places, across byte boundaries. -/
lemma Packed.getMsbD_front (hs : s = 1 ∨ s = 2) {q : ℕ} (hq : q < 3) (hj : j < 8) :
    ((rotateHalf s half).getD q 0).getMsbD j = x.getMsbD (8*q + j + s) := by
  have hbyte : (rotateHalf s half).getD q 0 =
      (half[q] <<< s) ||| (((if s = 1 then 0x80#8 else 0xC0#8) &&& half[q+1]) >>> (8 - s)) := by
    have hcases : q = 0 ∨ q = 1 ∨ q = 2 := by omega
    rcases hcases with rfl | rfl | rfl <;> rfl
  rw [hbyte, getMsbD_shift _ _ hs hj]
  split_ifs with hjs
  · rw [h.getMsbD_byte (by omega) hjs]
    simp [show 8*q + (j + s) < 28 by omega, Nat.add_assoc]
  · rw [h.getMsbD_byte (by omega) (show j + s - 8 < 8 by omega),
      show 8*(q+1) + (j + s - 8) = 8*q + j + s by omega]
    simp [show 8*q + j + s < 28 by omega]

/-- The bits shifted out at the left come back at the right of the 28. -/
lemma Packed.getMsbD_last (hs : s = 1 ∨ s = 2) (hj : j < 8) :
    ((rotateHalf s half).getD 3 0).getMsbD j =
      (decide (24 + j < 28) && x.getMsbD ((24 + j + s)%28)) := by
  refine (getMsbD_shift_last half[3] half[0] hs hj).trans ?_
  have h3 : half[3].getMsbD (j + s) = (decide (24 + j + s < 28) && x.getMsbD (24 + j + s)) := by
    rcases lt_or_ge (j + s) 8 with hjs | hjs
    · rw [h.getMsbD_byte (by omega) hjs, ← Nat.add_assoc]
    · simp [BitVec.getMsbD_of_ge _ _ hjs, show ¬ 24 + j + s < 28 by omega]
  rw [h3]
  by_cases hw : 4 - s ≤ j ∧ j < 4
  · rw [h.getMsbD_byte (q := 0) (by omega) (show j + s - 4 < 8 by omega)]
    simp [hw, show ¬ 24 + j + s < 28 by omega, show 24 + j < 28 by omega,
      show j + s - 4 < 28 by omega, show (24 + j + s)%28 = j + s - 4 by omega]
  · by_cases hj4 : j < 4
    · simp [show ¬ 4 - s ≤ j by omega, show 24 + j + s < 28 by omega, show 24 + j < 28 by omega,
        Nat.mod_eq_of_lt (show 24 + j + s < 28 by omega)]
    · simp [hj4, show ¬ 24 + j + s < 28 by omega, show ¬ 24 + j < 28 by omega]

lemma packed_rotateHalf (hs : s = 1 ∨ s = 2) : Packed (rotateHalf s half) (x.rotateLeft s) := by
  intro i hi
  rw [BitVec.getMsbD_rotateLeft]
  have hj : i%8 < 8 := Nat.mod_lt _ (by omega)
  rcases lt_or_ge i 24 with h24 | h24
  · rw [h.getMsbD_front hs (show i/8 < 3 by omega) hj, Nat.div_add_mod, Nat.add_comm s i,
      Nat.mod_eq_of_lt (show i + s < 28 by omega)]
    simp [show i < 28 by omega]
  · have hlast := h.getMsbD_last hs hj
    rw [show 24 + i%8 = i by omega] at hlast
    rw [show i/8 = 3 by omega, hlast, Nat.add_comm s i]
    simp

end RotateHalf

/-! Row 0. -/

lemma getMsbD_high (a : Byte) {j : ℕ} (hj : j < 8) :
    (a &&& 0xF0#8).getMsbD j = (decide (j < 4) && a.getMsbD j) := by
  have hm : (0xF0#8).getMsbD j = decide (j < 4) := by interval_cases j <;> rfl
  rw [BitVec.getMsbD_and, hm, Bool.and_comm]

lemma getMsbD_low (a : Byte) {j : ℕ} (hj : j < 8) :
    ((a &&& 0x0F#8) <<< 4).getMsbD j = (decide (j < 4) && a.getMsbD (j + 4)) := by
  rw [BitVec.getMsbD_shiftLeft, BitVec.getMsbD_and]
  rcases lt_or_ge j 4 with h | h
  · have hm : (0x0F#8).getMsbD (j + 4) = true := by interval_cases j <;> rfl
    simp [hm, h]
  · simp [BitVec.getMsbD_of_ge a _ (show 8 ≤ j + 4 by omega), show ¬ j < 4 by omega]

lemma getMsbD_nibbles (a b : Byte) {j : ℕ} (hj : j < 8) :
    (((a &&& 0x0F#8) <<< 4) ||| ((b &&& 0xF0#8) >>> 4)).getMsbD j =
      if j < 4 then a.getMsbD (j + 4) else b.getMsbD (j - 4) := by
  rw [BitVec.getMsbD_or, getMsbD_low a hj, BitVec.getMsbD_ushiftRight,
    getMsbD_high b (show j - 4 < 8 by omega)]
  split_ifs with h
  · simp [h]
  · simp [h, hj, show j - 4 < 4 by omega]

lemma getMsbD_firstKeySet (key : Vector Byte 8) {q j : ℕ} (hq : q < 7) (hj : j < 8) :
    ((firstKeySet key).k.getD q 0).getMsbD j =
      (pick PC1 56 (ofBytes key)).getMsbD (8*q + j) := by
  have hk : (firstKeySet key).k.getD q 0 =
      orBits (fun j => bitAt key (initialKeyPermutaion.getD (8*q + j) 0)) 0 :=
    (getD_ofFn _ _ (show q < 8 by omega)).trans (if_pos hq)
  rw [getMsbD_pick _ _ (show 8*q + j < 56 by omega), hk, getMsbD_orBits _ _ (fun j => bitAt_lt key _) hj, getMsbD_bitAt,
    show initialKeyPermutaion = PC1 from rfl]
  simp

lemma getElem_firstKeySet (key : Vector Byte 8) {q j : ℕ} (hq : q < 7) (hj : j < 8) :
    (firstKeySet key).k[q].getMsbD j = (pick PC1 56 (ofBytes key)).getMsbD (8*q + j) := by
  rw [← getMsbD_firstKeySet key hq hj, getD_eq_getElem _ _ (show q < 8 by omega)]

/-- The first halves are the two halves of the permuted key. -/
lemma getMsbD_CD_zero (key : BitVec 64) (i : ℕ) :
    (CD key 0).1.getMsbD i = (decide (i < 28) && (pick PC1 56 key).getMsbD i) ∧
      (CD key 0).2.getMsbD i = (decide (i < 28) && (pick PC1 56 key).getMsbD (28 + i)) := by
  simp only [CD, BitVec.getMsbD_extractLsb']
  rcases lt_or_ge i 28 with h | h
  · simp [h, show 56 - (28 + 28 - i) = i by omega, show 56 - (28 - i) = 28 + i by omega,
      show 28 ≤ 56 + i by omega]
  · simp [show ¬ i < 28 by omega]

lemma packed_firstKeySet_c (key : Vector Byte 8) :
    Packed (firstKeySet key).c (CD (ofBytes key) 0).1 := by
  intro i hi
  have hj : i%8 < 8 := Nat.mod_lt _ (by omega)
  rw [(getMsbD_CD_zero _ i).1]
  rcases lt_or_ge i 24 with h | h
  · have hb : ((firstKeySet key).c.getD (i/8) 0).getMsbD (i%8) =
        (pick PC1 56 (ofBytes key)).getMsbD (8*(i/8) + i%8) := by
      have hq : i/8 = 0 ∨ i/8 = 1 ∨ i/8 = 2 := by omega
      rcases hq with hq | hq | hq <;> rw [hq]
      · exact getElem_firstKeySet key (q := 0) (by omega) hj
      · exact getElem_firstKeySet key (q := 1) (by omega) hj
      · exact getElem_firstKeySet key (q := 2) (by omega) hj
    rw [hb, Nat.div_add_mod]
    simp [show i < 28 by omega]
  · have hb : ((firstKeySet key).c.getD 3 0).getMsbD (i%8) =
        (decide (i%8 < 4) && (pick PC1 56 (ofBytes key)).getMsbD (24 + i%8)) := by
      rw [← getElem_firstKeySet key (q := 3) (by omega) hj]
      exact getMsbD_high _ hj
    rw [show i/8 = 3 by omega, hb, show 24 + i%8 = i by omega]
    simp [show i%8 < 4 ↔ i < 28 by omega]

lemma packed_firstKeySet_d (key : Vector Byte 8) :
    Packed (firstKeySet key).d (CD (ofBytes key) 0).2 := by
  intro i hi
  have hj : i%8 < 8 := Nat.mod_lt _ (by omega)
  rw [(getMsbD_CD_zero _ i).2]
  rcases lt_or_ge i 24 with h | h
  · -- a byte of `d` is made of two neighbouring nibbles
    have hb : ((firstKeySet key).d.getD (i/8) 0).getMsbD (i%8) =
        if i%8 < 4 then (pick PC1 56 (ofBytes key)).getMsbD (8*(i/8 + 3) + (i%8 + 4))
        else (pick PC1 56 (ofBytes key)).getMsbD (8*(i/8 + 4) + (i%8 - 4)) := by
      have hq : i/8 = 0 ∨ i/8 = 1 ∨ i/8 = 2 := by omega
      split_ifs with h4
      · rcases hq with hq | hq | hq <;>
          rw [hq, ← getElem_firstKeySet key (by omega) (show i%8 + 4 < 8 by omega)]
          <;> exact (getMsbD_nibbles _ _ hj).trans (if_pos h4)
      · rcases hq with hq | hq | hq <;>
          rw [hq, ← getElem_firstKeySet key (by omega) (show i%8 - 4 < 8 by omega)]
          <;> exact (getMsbD_nibbles _ _ hj).trans (if_neg h4)
    rw [hb]
    simp only [show i < 28 by omega, decide_true, Bool.true_and]
    split_ifs with h4
    · rw [show 8*(i/8 + 3) + (i%8 + 4) = 28 + i by omega]
    · rw [show 8*(i/8 + 4) + (i%8 - 4) = 28 + i by omega]
  · have hb : ((firstKeySet key).d.getD 3 0).getMsbD (i%8) =
        (decide (i%8 < 4) && (firstKeySet key).k[6].getMsbD (i%8 + 4)) := getMsbD_low _ hj
    rw [show i/8 = 3 by omega, hb]
    by_cases h4 : i%8 < 4
    · rw [getElem_firstKeySet key (q := 6) (by omega) (by omega),
        show 8*6 + (i%8 + 4) = 28 + i by omega]
      simp [h4, show i < 28 by omega]
    · simp [h4, show ¬ i < 28 by omega]

/-! Rows 1 to 16. -/

lemma pc2_range : ∀ i < 48, 1 ≤ PC2.getD i 0 ∧ PC2.getD i 0 ≤ 56 := by decide

lemma subKeyBitAt_lt (c d : Vector Byte 4) (shiftSize : ℕ) : (subKeyBitAt c d shiftSize).2 < 8 := by
  unfold subKeyBitAt
  split_ifs
  · exact Nat.mod_lt _ (by omega)
  · exact Nat.mod_lt _ (by omega)

/-- Up to 28 the entries of the table address `c`, beyond it `d`. -/
lemma getMsbD_subKeyBitAt {c d : Vector Byte 4} {C D : BitVec 28} (hc : Packed c C)
    (hd : Packed d D) {t : ℕ} (h1 : 1 ≤ t) (h56 : t ≤ 56) :
    (subKeyBitAt c d t).1.getMsbD (subKeyBitAt c d t).2 = (C ++ D).getMsbD (t - 1) := by
  rw [BitVec.getMsbD_append]
  unfold subKeyBitAt
  by_cases h : t ≤ 28
  · rw [if_pos h, if_neg (by omega), hc (t - 1) (by omega)]
    simp [show t - 1 < 28 by omega]
  · rw [if_neg h, if_pos (by omega), hd (t - 29) (by omega)]
    simp [show t - 29 < 28 by omega, show t - 1 - 28 = t - 29 by omega]

/-- The key bit the table selects is or-ed into what the row held. -/
lemma getMsbD_nextKeySet {prev old : KeySet} {C D : BitVec 28} {s : ℕ}
    (hc : Packed (rotateHalf s prev.c) C) (hd : Packed (rotateHalf s prev.d) D) {i : ℕ}
    (hi : i < 48) : ((nextKeySet s prev old).k.getD (i/8) 0).getMsbD (i%8) =
      ((old.k.getD (i/8) 0).getMsbD (i%8) || (pick PC2 48 (C ++ D)).getMsbD i) := by
  have hq : i/8 < 6 := by omega
  have hj : i%8 < 8 := Nat.mod_lt _ (by omega)
  have hk : (nextKeySet s prev old).k.getD (i/8) 0 =
      orBits (fun j => subKeyBitAt (rotateHalf s prev.c) (rotateHalf s prev.d)
        (subKeyPermutation.getD (8*(i/8) + j) 0)) (old.k.getD (i/8) 0) :=
    (getD_ofFn _ _ (show i/8 < 8 by omega)).trans (if_pos hq)
  obtain ⟨h1, h56⟩ := pc2_range i hi
  rw [hk, getMsbD_orBits _ _ (fun j => subKeyBitAt_lt _ _ _) hj, Nat.div_add_mod,
    getMsbD_pick _ _ hi, show subKeyPermutation = PC2 from rfl, getMsbD_subKeyBitAt hc hd h1 h56]

/-- A row computed over zeros holds the round key in its first six bytes. -/
lemma keyBits_nextKeySet {prev old : KeySet} {C D : BitVec 28} {s : ℕ}
    (hc : Packed (rotateHalf s prev.c) C) (hd : Packed (rotateHalf s prev.d) D)
    (hold : ∀ q < 6, old.k.getD q 0 = 0) :
    keyBits (nextKeySet s prev old).k = pick PC2 48 (C ++ D) := by
  apply BitVec.eq_of_getMsbD_eq
  intro i hi
  have hq : i/8 < 6 := by omega
  rw [keyBits, getMsbD_ofBytes, getD_ofFn _ _ hq, getMsbD_nextKeySet hc hd hi, hold _ hq]
  simp

lemma keyShiftSizes_eq : ∀ n < 16,
    (keyShiftSizes.getD (n+1) 0).toNat = leftShifts.getD n 0 ∧
    (leftShifts.getD n 0 = 1 ∨ leftShifts.getD n 0 = 2) := by decide

/-- The halves of row `n` are those of iteration `n`, whatever the array held. -/
lemma packed_subKeyRow (key : Vector Byte 8) (keySets : ℕ → KeySet) {n : ℕ} (hn : n ≤ 16) :
    Packed (subKeyRow key keySets n).c (CD (ofBytes key) n).1 ∧
      Packed (subKeyRow key keySets n).d (CD (ofBytes key) n).2 := by
  induction n with
  | zero => exact ⟨packed_firstKeySet_c key, packed_firstKeySet_d key⟩
  | succ n ih =>
    obtain ⟨hc, hd⟩ := ih (by omega)
    obtain ⟨hs, h12⟩ := keyShiftSizes_eq n (by omega)
    rw [subKeyRow, hs]
    exact ⟨packed_rotateHalf hc h12, packed_rotateHalf hd h12⟩

lemma keyBits_subKeyRow (key : Vector Byte 8) (keySets : ℕ → KeySet)
    (hz : ∀ i, ∀ q < 6, (keySets i).k.getD q 0 = 0) {n : ℕ} (h1 : 1 ≤ n) (h16 : n ≤ 16) :
    keyBits (subKeyRow key keySets n).k = Fips46.K (ofBytes key) n := by
  obtain ⟨n, rfl⟩ := Nat.exists_eq_add_of_le' h1
  obtain ⟨hc, hd⟩ := packed_subKeyRow key keySets (show n ≤ 16 by omega)
  obtain ⟨hs, h12⟩ := keyShiftSizes_eq n (by omega)
  rw [subKeyRow, hs]
  exact keyBits_nextKeySet (packed_rotateHalf hc h12) (packed_rotateHalf hd h12) (hz (n+1))

/-- The rows' `k` bytes, as the cores take them. -/
def keyTable (keySets : Vector KeySet 17) : KeyTable := keySets.map KeySet.k

lemma getD_keyTable (key : Vector Byte 8) (keySets : Vector KeySet 17) {n : ℕ} (hn : n ≤ 16) :
    (keyTable (generateSubKeys key keySets)).getD n (.replicate 8 0) =
      (subKeyRow key (fun i => keySets.getD i .zero) n).k := by
  rw [getD_eq_getElem _ _ (show n < 17 by omega)]
  simp [keyTable, generateSubKeys]

lemma zero_k (i : ℕ) : ((Vector.replicate 17 KeySet.zero).getD i .zero).k = .replicate 8 0 := by
  rcases lt_or_ge i 17 with h | h
  · rw [getD_eq_getElem _ _ h, Vector.getElem_replicate]
    rfl
  · simp [Vector.getD, h, KeySet.zero]

/-- On a cleared array the rows of the key schedule are those of the standard. -/
lemma keyBits_keyTable (key : Vector Byte 8) {r : ℕ} (h1 : 1 ≤ r) (h16 : r ≤ 16) :
    keyBits ((keyTable (generateSubKeys key (.replicate 17 .zero))).getD r (.replicate 8 0)) =
      Fips46.K (ofBytes key) r := by
  have hz : ∀ i, ∀ q < 6, ((Vector.replicate 17 KeySet.zero).getD i .zero).k.getD q 0 = 0 := by
    intro i q hq
    rw [zero_k, getD_eq_getElem _ _ (show q < 8 by omega), Vector.getElem_replicate]
  rw [getD_keyTable key _ h16, keyBits_subKeyRow key _ hz h1 h16]

/-- The DES of FIPS 46-3, for every key, block and mode. -/
theorem des_conforms (key block : Vector Byte 8) :
    (∀ r : Fin 16, keyBits ((generateSubKeys key (.replicate 17 .zero)).getD (r + 1) .zero).k =
      Fips46.K (ofBytes key) (r + 1)) ∧
    ofBytes (processMessage (keyTable (generateSubKeys key (.replicate 17 .zero)))
      ENCRYPTION_MODE block) = Fips46.encrypt (ofBytes key) (ofBytes block) ∧
    ofBytes (processMessage (keyTable (generateSubKeys key (.replicate 17 .zero)))
      DECRYPTION_MODE block) = Fips46.decrypt (ofBytes key) (ofBytes block) := by
  refine ⟨fun r => ?_, ofBytes_processMessage _ _ _ (fun k hk => ?_) _,
    ofBytes_processMessage _ _ _ (fun k hk => ?_) _⟩
  · have h16 : r.val + 1 ≤ 16 := by omega
    have hrow := keyBits_keyTable key (Nat.le_add_left 1 r.val) h16
    rw [getD_keyTable key _ h16] at hrow
    rw [generateSubKeys, getD_ofFn _ _ (show r.val + 1 < 17 by omega)]
    exact hrow
  · obtain ⟨h1, h16⟩ := List.mem_range'_1.mp hk
    exact keyBits_keyTable key (r := k) h1 (by omega)
  · obtain ⟨h1, h16⟩ := List.mem_range'_1.mp hk
    exact keyBits_keyTable key (r := 17 - k) (by omega) (by omega)

end EncryptionAccelerators.Net
