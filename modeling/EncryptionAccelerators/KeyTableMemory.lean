import EncryptionAccelerators.DesKeySchedule

/-! What the key schedule leaves of the contents of `key_sets`: `generate_sub_keys` clears the bytes
`k` of row 0 and ors the bits of the other rows into what the array holds. -/
namespace EncryptionAccelerators.Net
open BitString Fips46

/-- The places the halves of row `n` have been rotated by. -/
def shiftTotal (n : ℕ) : ℕ := (((keyShiftSizes.drop 1).take n).map Int.toNat).sum

/-- The bit of the key that bit `i` of row `n` takes, both counted from 0. -/
def keyPosition (n i : ℕ) : ℕ :=
  let t := subKeyPermutation.getD i 0 - 1
  let source := if t < 28 then (t + shiftTotal n)%28 else 28 + (t - 28 + shiftTotal n)%28
  initialKeyPermutaion.getD source 0 - 1

/-- The two arrays hold the same where the schedule lets it stand: in the bits of rows 1 to 16 that
take a 0 of the key, and in the last two bytes of these rows. -/
structure SameLeftOver (mainKey : Vector Byte 8) (keySets keySets' : Vector KeySet 17) : Prop where
  bits : ∀ n, 1 ≤ n → n ≤ 16 → ∀ i < 48, (ofBytes mainKey).getMsbD (keyPosition n i) = false →
    ((keySets.getD n .zero).k.getD (i/8) 0).getMsbD (i%8) =
      ((keySets'.getD n .zero).k.getD (i/8) 0).getMsbD (i%8)
  bytes : ∀ n, 1 ≤ n → n ≤ 16 → ∀ q, 6 ≤ q → q < 8 →
    (keySets.getD n .zero).k.getD q 0 = (keySets'.getD n .zero).k.getD q 0

lemma shiftTotal_succ : ∀ n < 16, shiftTotal (n+1) = shiftTotal n + leftShifts.getD n 0 := by decide

/-- The halves of iteration `n` are those of the permuted key, rotated. -/
lemma getMsbD_CD (key : BitVec 64) {n : ℕ} (hn : n ≤ 16) {i : ℕ} (hi : i < 28) :
    (CD key n).1.getMsbD i = (pick PC1 56 key).getMsbD ((i + shiftTotal n)%28) ∧
      (CD key n).2.getMsbD i = (pick PC1 56 key).getMsbD (28 + (i + shiftTotal n)%28) := by
  induction n generalizing i with
  | zero =>
    have htotal : (i + shiftTotal 0)%28 = i := Nat.mod_eq_of_lt hi
    simpa [htotal, hi] using getMsbD_CD_zero key i
  | succ n ih =>
    have hlt : (leftShifts.getD n 0 + i)%28 < 28 := Nat.mod_lt _ (by omega)
    obtain ⟨hC, hD⟩ := ih (Nat.le_of_succ_le hn) hlt
    have hsum : ((leftShifts.getD n 0 + i)%28 + shiftTotal n)%28 = (i + shiftTotal (n+1))%28 := by
      rw [shiftTotal_succ n (by omega), Nat.mod_add_mod]
      congr 1
      omega
    rw [hsum] at hC hD
    rw [CD, BitVec.getMsbD_rotateLeft, BitVec.getMsbD_rotateLeft, hC, hD]
    simp [hi]

/-- Every bit of a round key is a bit of the key. -/
lemma getMsbD_K (key : BitVec 64) {n i : ℕ} (hn : n ≤ 16) (hi : i < 48) :
    (Fips46.K key n).getMsbD i = key.getMsbD (keyPosition n i) := by
  obtain ⟨h1, h56⟩ := pc2_range i hi
  have hmod : ∀ a, a%28 < 28 := fun a => Nat.mod_lt a (by omega)
  rw [Fips46.K, getMsbD_pick _ _ hi, BitVec.getMsbD_append, keyPosition,
    show subKeyPermutation = PC2 from rfl, show initialKeyPermutaion = PC1 from rfl]
  split_ifs with h hd hd
  · omega
  · have hpos : PC2.getD i 0 - 1 - 28 < 28 := by omega
    have hlt : 28 + (PC2.getD i 0 - 1 - 28 + shiftTotal n)%28 < 56 :=
      Nat.add_lt_add_left (hmod _) 28
    rw [(getMsbD_CD key hn hpos).2, getMsbD_pick _ _ hlt]
  · rw [(getMsbD_CD key hn hd).1, getMsbD_pick _ _ ((hmod _).trans (by omega))]
  · omega

section Rows
variable (mainKey : Vector Byte 8) (keySets keySets' : ℕ → KeySet)

/-- The halves do not depend on the contents of the array. -/
lemma subKeyRow_halves (n : ℕ) :
    (subKeyRow mainKey keySets n).c = (subKeyRow mainKey keySets' n).c ∧
      (subKeyRow mainKey keySets n).d = (subKeyRow mainKey keySets' n).d := by
  induction n with
  | zero => exact ⟨rfl, rfl⟩
  | succ n ih =>
    obtain ⟨hc, hd⟩ := ih
    simp only [subKeyRow, nextKeySet, hc, hd, and_self]

/-- The first six bytes hold the round key or-ed into the contents of the row. -/
lemma getMsbD_subKeyRow {n i : ℕ} (h1 : 1 ≤ n) (h16 : n ≤ 16) (hi : i < 48) :
    ((subKeyRow mainKey keySets n).k.getD (i/8) 0).getMsbD (i%8) =
      (((keySets n).k.getD (i/8) 0).getMsbD (i%8) ||
        (ofBytes mainKey).getMsbD (keyPosition n i)) := by
  rw [← getMsbD_K (ofBytes mainKey) h16 hi]
  obtain ⟨n, rfl⟩ := Nat.exists_eq_add_of_le' h1
  obtain ⟨hc, hd⟩ := packed_subKeyRow mainKey keySets (Nat.le_of_succ_le h16)
  obtain ⟨hs, h12⟩ := keyShiftSizes_eq n h16
  rw [subKeyRow, hs]
  exact getMsbD_nextKeySet (packed_rotateHalf hc h12) (packed_rotateHalf hd h12) hi

/-- The last two bytes stay. -/
lemma getD_subKeyRow {n q : ℕ} (h1 : 1 ≤ n) (h6 : 6 ≤ q) (h8 : q < 8) :
    (subKeyRow mainKey keySets n).k.getD q 0 = (keySets n).k.getD q 0 := by
  obtain ⟨n, rfl⟩ := Nat.exists_eq_add_of_le' h1
  exact (getD_ofFn _ _ h8).trans (if_neg (not_lt.mpr h6))

lemma ext_k {k k' : Vector Byte 8}
    (hbits : ∀ i < 48, (k.getD (i/8) 0).getMsbD (i%8) = (k'.getD (i/8) 0).getMsbD (i%8))
    (hbytes : ∀ q, 6 ≤ q → q < 8 → k.getD q 0 = k'.getD q 0) : k = k' := by
  apply Vector.ext
  intro q hq
  rw [← getD_eq_getElem k 0 hq, ← getD_eq_getElem k' 0 hq]
  obtain h6 | h6 := lt_or_ge q 6
  · apply BitVec.eq_of_getMsbD_eq
    intro j hj
    have hbit := hbits (8*q + j) (by omega)
    have hdiv : (8*q + j)/8 = q := by omega
    have hmod : (8*q + j)%8 = j := by omega
    rwa [hdiv, hmod] at hbit
  · exact hbytes q h6 hq

/-- Two rows agree exactly where nothing of the key covers what the array held. -/
lemma subKeyRow_eq_iff {n : ℕ} (h1 : 1 ≤ n) (h16 : n ≤ 16) :
    subKeyRow mainKey keySets n = subKeyRow mainKey keySets' n ↔
      (∀ i < 48, (ofBytes mainKey).getMsbD (keyPosition n i) = false →
        ((keySets n).k.getD (i/8) 0).getMsbD (i%8) =
          ((keySets' n).k.getD (i/8) 0).getMsbD (i%8)) ∧
      ∀ q, 6 ≤ q → q < 8 → (keySets n).k.getD q 0 = (keySets' n).k.getD q 0 := by
  constructor
  · intro h
    constructor
    · intro i hi hkey
      have hbit := congrArg (fun row => (row.k.getD (i/8) 0).getMsbD (i%8)) h
      simp only [getMsbD_subKeyRow mainKey _ h1 h16 hi, hkey, Bool.or_false] at hbit
      exact hbit
    · intro q h6 h8
      rw [← getD_subKeyRow mainKey keySets h1 h6 h8, h, getD_subKeyRow mainKey keySets' h1 h6 h8]
  · rintro ⟨hbits, hbytes⟩
    obtain ⟨hc, hd⟩ := subKeyRow_halves mainKey keySets keySets' n
    have hk : (subKeyRow mainKey keySets n).k = (subKeyRow mainKey keySets' n).k := by
      apply ext_k
      · intro i hi
        rw [getMsbD_subKeyRow mainKey _ h1 h16 hi, getMsbD_subKeyRow mainKey _ h1 h16 hi]
        cases hkey : (ofBytes mainKey).getMsbD (keyPosition n i) with
        | false => rw [hbits i hi hkey]
        | true => rw [Bool.or_true, Bool.or_true]
      · intro q h6 h8
        rw [getD_subKeyRow mainKey _ h1 h6 h8, getD_subKeyRow mainKey _ h1 h6 h8, hbytes q h6 h8]
    calc subKeyRow mainKey keySets n = ⟨_, _, _⟩ := rfl
      _ = subKeyRow mainKey keySets' n := by rw [hk, hc, hd]

end Rows

lemma generateSubKeys_eq_iff (mainKey : Vector Byte 8) (keySets keySets' : Vector KeySet 17) :
    generateSubKeys mainKey keySets = generateSubKeys mainKey keySets' ↔ ∀ n, 1 ≤ n → n ≤ 16 →
      subKeyRow mainKey (fun i => keySets.getD i .zero) n =
        subKeyRow mainKey (fun i => keySets'.getD i .zero) n := by
  constructor
  · intro h n _ h16
    have hrow := congrArg (fun rows => rows.getD n .zero) h
    simp only [generateSubKeys, getD_ofFn _ _ (Nat.lt_succ_of_le h16)] at hrow
    exact hrow
  · intro h
    apply Vector.ext
    intro n hn
    rw [generateSubKeys, generateSubKeys, Vector.getElem_ofFn, Vector.getElem_ofFn]
    obtain rfl | h1 := Nat.eq_zero_or_pos n
    · rfl
    · exact h n h1 (Nat.le_of_lt_succ hn)

/-- Over two arrays `generate_sub_keys` leaves the same rows exactly where they hold the same in
what it does not write. -/
theorem key_sets_agree (mainKey : Vector Byte 8) (keySets keySets' : Vector KeySet 17) :
    generateSubKeys mainKey keySets = generateSubKeys mainKey keySets' ↔
      SameLeftOver mainKey keySets keySets' := by
  rw [generateSubKeys_eq_iff]
  constructor
  · intro h
    constructor
    · intro n h1 h16
      exact ((subKeyRow_eq_iff mainKey _ _ h1 h16).mp (h n h1 h16)).1
    · intro n h1 h16
      exact ((subKeyRow_eq_iff mainKey _ _ h1 h16).mp (h n h1 h16)).2
  · intro h n h1 h16
    exact (subKeyRow_eq_iff mainKey _ _ h1 h16).mpr ⟨h.bits n h1 h16, h.bytes n h1 h16⟩

/-- A key of zeros over an array of zeros and over one of ones: the first bit of row 1 stays. -/
theorem key_sets_agree_fails : ¬ ∀ (mainKey : Vector Byte 8) (keySets keySets' : Vector KeySet 17),
    generateSubKeys mainKey keySets = generateSubKeys mainKey keySets' := by
  intro h
  have hrows := (generateSubKeys_eq_iff _ _ _).mp (h (.replicate 8 0) (.replicate 17 .zero)
    (.replicate 17 ⟨.replicate 8 0xFF,.replicate 4 0,.replicate 4 0⟩)) 1 le_rfl (by omega)
  have hkey : (ofBytes (.replicate 8 0)).getMsbD (keyPosition 1 0) = false := by
    rw [getMsbD_ofBytes]
    decide
  have hbit := ((subKeyRow_eq_iff _ _ _ le_rfl (by omega)).mp hrows).1 0 (by omega) hkey
  exact absurd hbit (by decide)

end EncryptionAccelerators.Net
