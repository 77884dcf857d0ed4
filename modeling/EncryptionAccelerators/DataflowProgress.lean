import EncryptionAccelerators.DataflowOwned

/-! Progress in a network: where a state has no step the processes wait for words or for room, and on
owned memory one run that ends bounds them all. -/
namespace EncryptionAccelerators.Dataflow

/-! How long the runs of a relation are that has the diamond property. -/

section Diamond
variable {α : Type} {r : α → α → Prop}

/-- `n` steps of a relation. -/
inductive StepsTo (r : α → α → Prop) : ℕ → α → α → Prop
  | zero (a : α) : StepsTo r 0 a a
  | succ {n : ℕ} {a b c : α} (h : r a b) (g : StepsTo r n b c) : StepsTo r (n+1) a c

lemma exists_stepsTo {a b : α} (h : Relation.ReflTransGen r a b) : ∃ n, StepsTo r n a b := by
  induction h using Relation.ReflTransGen.head_induction_on with
  | refl => exact ⟨0, .zero b⟩
  | head hs _ ih =>
    obtain ⟨n, hn⟩ := ih
    exact ⟨n + 1, .succ hs hn⟩

/-- Every step leads one step closer to the final state. -/
lemma StepsTo.closer (hd : ∀ a b c, r a b → r a c → b = c ∨ ∃ d, r b d ∧ r c d) {f : α}
    (hf : ∀ b, ¬ r f b) {n : ℕ} {a b : α} (h : StepsTo r n a f) (hb : r a b) :
    ∃ m, n = m + 1 ∧ StepsTo r m b f := by
  induction h generalizing b with
  | zero => exact absurd hb (hf b)
  | @succ n a c _ hc g ih =>
    rcases hd a b c hb hc with rfl | ⟨d, hbd, hcd⟩
    · exact ⟨n, rfl, g⟩
    · obtain ⟨m, rfl, hm⟩ := ih hf hcd
      exact ⟨m + 1, rfl, .succ hbd hm⟩

/-- One run that ends makes every run end. -/
lemma StepsTo.no_infinite (hd : ∀ a b c, r a b → r a c → b = c ∨ ∃ d, r b d ∧ r c d) {f : α}
    (hf : ∀ b, ¬ r f b) {n : ℕ} {x : ℕ → α} (h : StepsTo r n (x 0) f) :
    ¬ ∀ k, r (x k) (x (k+1)) := by
  intro hx
  have hleft : ∀ k, ∃ m, n = k + m ∧ StepsTo r m (x k) f := by
    intro k
    induction k with
    | zero => exact ⟨n, (Nat.zero_add n).symm, h⟩
    | succ k ih =>
      obtain ⟨m, hm, hk⟩ := ih
      obtain ⟨m', rfl, hk'⟩ := hk.closer hd hf (hx k)
      exact ⟨m', by omega, hk'⟩
  obtain ⟨m, hm, -⟩ := hleft (n+1)
  omega

lemma exists_stuck {a : α} (h : Acc (flip r) a) :
    ∃ b, Relation.ReflTransGen r a b ∧ ∀ c, ¬ r b c := by
  induction h with
  | intro a _ ih =>
    by_cases hs : ∃ b, r a b
    · obtain ⟨b, hb⟩ := hs
      obtain ⟨c, hc, hstuck⟩ := ih b hb
      exact ⟨c, .head hb hc, hstuck⟩
    · exact ⟨a, .refl, not_exists.mp hs⟩

end Diamond

namespace Network
variable {ι C W A : Type} {V : A → Type} {N : Network ι C W V} [DecidableEq ι] [DecidableEq C]
  {cap : C → ℕ∞}

section Stuck
variable {mem : Memory ι V} {s : N.State mem.State}

/-- Process `i` waits for a word. -/
def Waits {M : Type} (s : N.State M) (i : ι) : Prop :=
  ∃ p k, s.code i = .recv p k ∧ s.fifo (N.src i p) = []

/-- A process that cannot take a step waits for a word or for room. -/
lemma waits_or_full (h : ∀ t, ¬ N.Step mem cap s t) (i : ι) : Waits s i ∨
    ∃ q w k, s.code i = .send q w k ∧ cap (N.dst i q) ≤ ((s.fifo (N.dst i q)).length : ℕ∞) := by
  cases hc : s.code i with
  | ret l => exact absurd ⟨i, .call hc⟩ (h _)
  | recv p k =>
    cases hf : s.fifo (N.src i p) with
    | nil => exact .inl ⟨p, k, hc, hf⟩
    | cons w ws => exact absurd ⟨i, .read hc hf⟩ (h _)
  | send q w k =>
    by_cases room : ((s.fifo (N.dst i q)).length : ℕ∞) < cap (N.dst i q)
    · exact absurd ⟨i, .write hc room⟩ (h _)
    · exact .inr ⟨q, w, k, rfl, not_lt.mp room⟩
  | peek a k => exact absurd ⟨i, .load hc⟩ (h _)
  | poke a v k => exact absurd ⟨i, .store hc⟩ (h _)

/-- Process `i` is not held up by a full FIFO: nothing bounds it, or its reader, which reads
nothing else, waits. -/
lemma Waits.of_readers (h : ∀ t, ¬ N.Step mem cap s t) (i : ι)
    (hread : ∀ q, cap (N.dst i q) = ⊤ ∨ 1 ≤ cap (N.dst i q) ∧
      ∃ j, (∀ p, N.src j p = N.dst i q) ∧ Waits s j) : Waits s i := by
  rcases waits_or_full h i with hi | ⟨q, w, k, -, hfull⟩
  · exact hi
  rcases hread q with htop | ⟨hroom, j, hj, p, k', -, hempty⟩
  · rw [htop] at hfull
    exact absurd hfull (not_le.mpr (ENat.natCast_lt_top _))
  · rw [← hj p, hempty] at hfull
    rw [← hj p] at hroom
    exact absurd (hroom.trans hfull) (by simp)

/-- Whether a step is possible is up to the code and the FIFOs. -/
lemma exists_step_of {mem' : Memory ι V} {s' t' : N.State mem'.State} (h : N.Step mem' cap s' t')
    (hc : s'.code = s.code) (hf : s'.fifo = s.fifo) : ∃ t, N.Step mem cap s t := by
  obtain ⟨i, hi⟩ := h
  cases hi with
  | call h => exact ⟨_, i, .call ((congrFun hc i).symm.trans h)⟩
  | read h hw => exact ⟨_, i, .read ((congrFun hc i).symm.trans h) ((congrFun hf _).symm.trans hw)⟩
  | write h room => exact ⟨_, i, .write ((congrFun hc i).symm.trans h) (congrFun hf _ ▸ room)⟩
  | load h => exact ⟨_, i, .load ((congrFun hc i).symm.trans h)⟩
  | store h => exact ⟨_, i, .store ((congrFun hc i).symm.trans h)⟩

end Stuck

variable [DecidableEq A] {own : A → Option ι}

/-- On shared memory every run comes to an end, if on owned memory each script has a run that ends
with every process starved. -/
theorem acc_step {s : N.State (Memory.shared ι V).State}
    (hbody : ∀ i l, (N.body i l).Accesses (fun _ => True) fun a => own a = none ∨ own a = some i)
    (hs : Keeps own s) (m₀ : (a : A) → V a) (hend : ∀ m, ∃ f,
      N.Run (Memory.owned V own) (fun _ => ⊤) (s.owned own m₀ m) f ∧ N.Starved f) :
    Acc (flip (N.Step (Memory.shared ι V) cap)) s := by
  by_contra hna
  obtain ⟨x, rfl, hx⟩ := not_acc_iff_exists_descending_chain.mp hna
  choose act hact using hx
  have hkeeps (n : ℕ) : Keeps own (x n) := by
    induction n with
    | zero => exact hs
    | succ n ih => exact (hact n).keeps hbody ih
  obtain ⟨f, hf, hstarved⟩ := hend fun i k => scriptFrom own x act i k 0
  obtain ⟨n, hn⟩ := exists_stepsTo hf
  refine StepsTo.no_infinite (x := fun n => (x n).owned own m₀ fun i k =>
    scriptFrom own x act i k n) (fun a b c => Step.diamond owned_independent)
    (fun b => hstarved.no_step) hn fun k => ⟨act k, ?_⟩
  rw [scriptFrom_rewind]
  exact ((hact k).owned (hkeeps k) _ _).unbounded

end Network

end EncryptionAccelerators.Dataflow
