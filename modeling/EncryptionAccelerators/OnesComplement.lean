import Mathlib

/-! One's complement sums of words, and the 16-bit words of a byte string. A sum is all ones just
when the plain sum of the words is a positive multiple of the all-ones word. -/
namespace EncryptionAccelerators.OnesComplement

section Sum
variable {w : ℕ}

/-- Addition with an end-around carry. -/
def add (x y : BitVec w) : BitVec w := if x.toNat + y.toNat < 2^w then x + y else x + y + 1

def sum (ws : List (BitVec w)) : BitVec w := ws.foldr add 0

/-- The sum without carries. -/
def total (ws : List (BitVec w)) : ℕ := (ws.map BitVec.toNat).sum

@[simp] lemma total_nil : total ([] : List (BitVec w)) = 0 := rfl
@[simp] lemma total_cons (x : BitVec w) (ws : List (BitVec w)) :
    total (x::ws) = x.toNat + total ws := by simp [total]
@[simp] lemma total_append (ws us : List (BitVec w)) :
    total (ws ++ us) = total ws + total us := by simp [total]

lemma add_toNat (x y : BitVec w) : (add x y).toNat = x.toNat + y.toNat ∨
    2^w ≤ x.toNat + y.toNat ∧ (add x y).toNat + (2^w - 1) = x.toNat + y.toNat := by
  have hx := x.isLt
  have hy := y.isLt
  unfold add
  split_ifs with h
  · left
    rw [BitVec.toNat_add, Nat.mod_eq_of_lt h]
  · right
    refine ⟨by omega, ?_⟩
    have hsum : (x.toNat + y.toNat)%2^w = x.toNat + y.toNat - 2^w := by
      rw [Nat.mod_eq_sub_mod (by omega), Nat.mod_eq_of_lt (by omega)]
    have hone : (1 : BitVec w).toNat = 1%2^w := BitVec.toNat_ofNat 1 w
    rw [BitVec.toNat_add, BitVec.toNat_add, hsum, hone, Nat.add_mod_mod,
      Nat.mod_eq_of_lt (by omega)]
    omega

lemma add_modEq (x y : BitVec w) : (add x y).toNat ≡ x.toNat + y.toNat [MOD 2^w - 1] := by
  rcases add_toNat x y with h | ⟨-, h⟩
  · rw [h]
  · rw [← h]
    exact (Nat.add_mod_right _ _).symm

/-- No carry makes a sum zero. -/
lemma add_eq_zero (x y : BitVec w) : (add x y).toNat = 0 ↔ x.toNat + y.toNat = 0 := by
  have hpos : 0 < 2^w := by positivity
  rcases add_toNat x y with h | ⟨hle, h⟩
  · rw [h]
  · omega

lemma sum_modEq (ws : List (BitVec w)) : (sum ws).toNat ≡ total ws [MOD 2^w - 1] := by
  induction ws with
  | nil => simp [sum, total, Nat.ModEq]
  | cons x ws ih =>
    rw [total_cons]
    exact (add_modEq x (sum ws)).trans (ih.add_left x.toNat)

lemma sum_eq_zero (ws : List (BitVec w)) : (sum ws).toNat = 0 ↔ total ws = 0 := by
  induction ws with
  | nil => simp [sum]
  | cons x ws ih =>
    rw [total_cons, sum, List.foldr_cons, add_eq_zero]
    rw [sum] at ih
    omega

theorem sum_eq_allOnes (hw : 0 < w) (ws : List (BitVec w)) :
    sum ws = BitVec.allOnes w ↔ 2^w - 1 ∣ total ws ∧ 0 < total ws := by
  have hlt := (sum ws).isLt
  have hzero := sum_eq_zero ws
  have hdvd : 2^w - 1 ∣ (sum ws).toNat ↔ 2^w - 1 ∣ total ws := (sum_modEq ws).dvd_iff dvd_rfl
  have hpow : 1 < 2^w := Nat.one_lt_two_pow hw.ne'
  rw [← BitVec.toNat_inj, BitVec.toNat_allOnes, ← hdvd]
  constructor
  · intro h
    exact ⟨h ▸ dvd_rfl, by omega⟩
  · rintro ⟨h, hpos⟩
    have hle := Nat.le_of_dvd (by omega) h
    omega

end Sum

section Words

/-- The big-endian words of a byte string, zero-padded to even length. -/
def words16 : List (BitVec 8) → List (BitVec 16)
  | [] => []
  | [a] => [a ++ (0 : BitVec 8)]
  | a::b::l => (a ++ b)::words16 l

lemma words16_append (l r : List (BitVec 8)) (h : 2 ∣ l.length) :
    words16 (l ++ r) = words16 l ++ words16 r := by
  induction l using words16.induct with
  | case1 => rfl
  | case2 a => simp at h
  | case3 a b l ih =>
    rw [List.cons_append, List.cons_append, words16, words16, List.cons_append, ih]
    rw [List.length_cons, List.length_cons] at h
    omega

/-- A message with a valid Internet checksum. -/
def Valid (l : List (BitVec 8)) : Prop := sum (words16 l) = 0xFFFF

instance (l : List (BitVec 8)) : Decidable (Valid l) :=
  inferInstanceAs (Decidable (sum (words16 l) = 0xFFFF))

lemma valid_iff (l : List (BitVec 8)) :
    Valid l ↔ 65535 ∣ total (words16 l) ∧ 0 < total (words16 l) :=
  sum_eq_allOnes (by omega) (words16 l)

end Words

end EncryptionAccelerators.OnesComplement
