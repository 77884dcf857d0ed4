import Mathlib

/-! Feistel networks over any halves with a cancelling operation and any round function. -/
namespace EncryptionAccelerators.Feistel
variable {H K : Type*} (op : H → H → H) (F : K → H → H)

def round (p : H × H) (k : K) : H × H := (p.2,op p.1 (F k p.2))

def rounds (ks : List K) (p : H × H) : H × H := ks.foldl (round op F) p

/-- The rounds and the final exchange of the halves. -/
def network (ks : List K) (p : H × H) : H × H := (rounds op F ks p).swap

variable {op}

lemma round_swap_round (hop : ∀ a b, op (op a b) b = a) (p : H × H) (k : K) :
    round op F (round op F p k).swap k = p.swap := by
  simp [round, hop, Prod.swap]

/-- The rounds are undone by the same rounds with the keys reversed. -/
lemma rounds_reverse (hop : ∀ a b, op (op a b) b = a) (ks : List K) (p : H × H) :
    rounds op F ks.reverse (rounds op F ks p).swap = p.swap := by
  induction ks generalizing p with
  | nil => rfl
  | cons k ks ih =>
    have h := ih (round op F p k)
    simp only [rounds] at h
    simp only [rounds, List.reverse_cons, List.foldl_append, List.foldl_cons, List.foldl_nil, h]
    exact round_swap_round F hop p k

theorem network_reverse (hop : ∀ a b, op (op a b) b = a) (ks : List K) (p : H × H) :
    network op F ks.reverse (network op F ks p) = p := by
  rw [network, network, rounds_reverse F hop, Prod.swap_swap]

variable (op) {H' K' : Type*} (op' : H' → H' → H') (F' : K' → H' → H')

/-- A map of the halves that respects the operation and the round functions respects the
network. -/
lemma map_rounds (f : H → H') (g : K → K') (hop : ∀ a b, f (op a b) = op' (f a) (f b))
    (hF : ∀ k a, f (F k a) = F' (g k) (f a)) (ks : List K) (p : H × H) :
    Prod.map f f (rounds op F ks p) = rounds op' F' (ks.map g) (Prod.map f f p) := by
  induction ks generalizing p with
  | nil => rfl
  | cons k ks ih =>
    refine (ih (round op F p k)).trans ?_
    simp [rounds, round, hop, hF, Prod.map]

end EncryptionAccelerators.Feistel
