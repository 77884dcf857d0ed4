import Mathlib

/-! A memory as the history of its writes: what a cell holds is the latest write to it. -/
namespace EncryptionAccelerators.WriteHistory
variable {K I V : Type} [DecidableEq I] (index : K → I)

/-- The memory after the writes, the earliest first. -/
def replay (m : I → V) (history : List (K × V)) : I → V :=
  history.foldl (fun m p => Function.update m (index p.1) p.2) m

/-- The value of the latest write to the cell, or what it held before them all. -/
def latest (m : I → V) (history : List (K × V)) (a : I) : V :=
  ((history.reverse.find? fun p => index p.1 = a).map Prod.snd).getD (m a)

variable {index}

lemma latest_concat (m : I → V) (history : List (K × V)) (p : K × V) (a : I) :
    latest index m (history ++ [p]) a =
      if index p.1 = a then p.2 else latest index m history a := by
  by_cases h : index p.1 = a
  · simp [latest, h]
  · simp [latest, h]

/-- Replaying the writes and looking for the latest one agree. -/
lemma replay_eq_latest (m : I → V) (history : List (K × V)) (a : I) :
    replay index m history a = latest index m history a := by
  induction history using List.reverseRecOn with
  | nil => rfl
  | append_singleton history p ih =>
    rw [latest_concat, replay, List.foldl_append, List.foldl_cons, List.foldl_nil]
    by_cases h : index p.1 = a
    · rw [if_pos h, h, Function.update_self]
    · rw [if_neg h, Function.update_of_ne (Ne.symm h)]
      exact ih

end EncryptionAccelerators.WriteHistory
