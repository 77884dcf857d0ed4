import Mathlib

/-! Byte arrays as bit strings, and permutation tables on bit strings. Bits are counted from
the most significant bit of byte 0; the entries of a table count from 1. -/
namespace EncryptionAccelerators.BitString
variable {n m w : ℕ}

def ofBytes (v : Vector (BitVec 8) n) : BitVec (8*n) :=
  .ofFnBE fun i => (v.getD (i/8) 0).getMsbD (i%8)

@[simp] lemma get_eq_getElem {α : Type} (v : Vector α n) (i : Fin n) : v.get i = v[i.val] := rfl

lemma getD_ofFn {α : Type} (f : Fin n → α) (d : α) {i : ℕ} (h : i < n) :
    (Vector.ofFn f).getD i d = f ⟨i, h⟩ := by
  simp [Vector.getD, h]

lemma getD_eq_getElem {α : Type} (v : Vector α n) (d : α) {i : ℕ} (h : i < n) :
    v.getD i d = v[i] := by
  simp [Vector.getD, h]

lemma getMsbD_ofFnBE' {f : ℕ → Bool} {i : ℕ} (h : i < w) :
    (BitVec.ofFnBE fun i : Fin w => f i).getMsbD i = f i := by
  rw [BitVec.getMsbD_ofFnBE, dif_pos h]

lemma getMsbD_ofBytes (v : Vector (BitVec 8) n) (i : ℕ) :
    (ofBytes v).getMsbD i = (v.getD (i/8) 0).getMsbD (i%8) := by
  by_cases h : i < 8*n
  · exact getMsbD_ofFnBE' (f := fun i => (v.getD (i/8) 0).getMsbD (i%8)) h
  · have hn : n ≤ i/8 := by omega
    simp [BitVec.getMsbD_of_ge _ _ (not_lt.mp h), Vector.getD, hn]

lemma ofBytes_injective : Function.Injective (ofBytes (n := n)) := by
  intro u v h
  ext i hi k hk
  have hb := congrArg (BitVec.getMsbD · (8*i + (7 - k))) h
  simp only [getMsbD_ofBytes] at hb
  rw [show (8*i + (7 - k))/8 = i by omega, show (8*i + (7 - k))%8 = 7 - k by omega] at hb
  simpa [Vector.getD, hi, BitVec.getMsbD, show 7 - k < 8 by omega, show 7 - (7 - k) = k by omega,
    BitVec.getLsbD_eq_getElem hk] using hb

/-- Byte `b` of a bit string. -/
def byteOf (x : BitVec w) (b : ℕ) : BitVec 8 := .ofFnBE fun i => x.getMsbD (8*b + i)

lemma byteOf_ofBytes (v : Vector (BitVec 8) n) (b : ℕ) : byteOf (ofBytes v) b = v.getD b 0 := by
  apply BitVec.eq_of_getMsbD_eq
  intro i hi
  rw [byteOf, getMsbD_ofFnBE' (f := fun i => (ofBytes v).getMsbD (8*b + i)) hi, getMsbD_ofBytes,
    show (8*b + i)/8 = b by omega, show (8*b + i)%8 = i by omega]

/-- Bit `i` of the result is bit `table[i]` of `x`. -/
def pick (table : List ℕ) (m : ℕ) (x : BitVec w) : BitVec m :=
  .ofFnBE fun i => x.getMsbD (table.getD i 0 - 1)

lemma getMsbD_pick (table : List ℕ) (x : BitVec w) {i : ℕ} (h : i < m) :
    (pick table m x).getMsbD i = x.getMsbD (table.getD i 0 - 1) :=
  getMsbD_ofFnBE' (f := fun i => x.getMsbD (table.getD i 0 - 1)) h

/-- Each table looks up the entries of the other. -/
def Inverse (m : ℕ) (s t : List ℕ) : Prop :=
  ∀ i < m, s.getD i 0 - 1 < m ∧ t.getD (s.getD i 0 - 1) 0 - 1 = i

instance (m : ℕ) (s t : List ℕ) : Decidable (Inverse m s t) :=
  inferInstanceAs (Decidable (∀ i < m, _))

lemma pick_pick {s t : List ℕ} (h : Inverse m s t) (x : BitVec m) :
    pick s m (pick t m x) = x := by
  apply BitVec.eq_of_getMsbD_eq
  intro i hi
  rw [getMsbD_pick _ _ hi, getMsbD_pick _ _ (h i hi).1, (h i hi).2]

end EncryptionAccelerators.BitString
