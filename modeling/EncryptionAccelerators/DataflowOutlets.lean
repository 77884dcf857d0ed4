import EncryptionAccelerators.DataflowProgress
import EncryptionAccelerators.DataflowSupervised

/-! FIFOs at the edge of a system, from which somebody outside takes words at any time. The list of
such a FIFO keeps the words taken, so it is full when as many more are in it as fit. -/
namespace EncryptionAccelerators.Dataflow

section Outlets
variable {σ C W : Type} [DecidableEq C] (step : (C → ℕ∞) → σ → σ → Prop) (fifo : σ → C → List W)
  (outlets : Finset C) (cap : C → ℕ∞)

/-- A step of the system, or the next word of an outlet leaves it. -/
inductive OutletStep : σ × (C → ℕ) → σ × (C → ℕ) → Prop
  | step {s t taken} (h : step (fun c => cap c + taken c) s t) : OutletStep (s,taken) (t,taken)
  | take {s taken c} (hc : c ∈ outlets) (h : taken c < (fifo s c).length) :
      OutletStep (s,taken) (s,Function.update taken c (taken c + 1))

def OutletRun : σ × (C → ℕ) → σ × (C → ℕ) → Prop :=
  Relation.ReflTransGen (OutletStep step fifo outlets cap)

/-- The same system with outlets that are never full. -/
def opened (c : C) : ℕ∞ := if c ∈ outlets then ⊤ else cap c

/-- A step asks for nothing but room in FIFOs. -/
structure AsksRoom : Prop where
  mono : ∀ {cap cap' s t}, (∀ c, cap c ≤ cap' c) → step cap s t → step cap' s t
  room : ∀ {cap s t}, step cap s t → ∀ cap' : C → ℕ∞,
    (∀ c, cap c ≤ cap' c ∨ ((fifo s c).length : ℕ∞) < cap' c) → ∃ t', step cap' s t'

variable {step fifo outlets cap} (hstep : AsksRoom step fifo) {s t : σ} {taken : C → ℕ}

/-- A run in which nothing is taken. -/
lemma OutletRun.of_steps (h : Relation.ReflTransGen (step fun c => cap c + taken c) s t) :
    OutletRun step fifo outlets cap (s,taken) (t,taken) :=
  h.lift (fun s => (s,taken)) fun _ _ hs => .step hs

lemma OutletRun.of_run (h : Relation.ReflTransGen (step cap) s t) :
    OutletRun step fifo outlets cap (s,fun _ => 0) (t,fun _ => 0) := by
  have hcap : cap = fun c => cap c + ((0 : ℕ) : ℕ∞) := by simp
  rw [hcap] at h
  exact .of_steps h

lemma cap_le_opened (htaken : ∀ c ∉ outlets, taken c = 0) (c : C) :
    cap c + taken c ≤ opened outlets cap c := by
  unfold opened
  split_ifs with hc
  · exact le_top
  · simp [htaken c hc]

/-- While the lists stay as they are nothing more leaves outlets from which all words are taken. -/
lemma OutletRun.taken_eq {y : σ × (C → ℕ)} (h : OutletRun step fifo outlets cap (s,taken) y)
    (hfifo : ∀ z, OutletRun step fifo outlets cap (s,taken) z → fifo z.1 = fifo s)
    (hall : ∀ c ∈ outlets, (fifo s c).length ≤ taken c) : y.2 = taken := by
  induction h with
  | refl => rfl
  | @tail y z hy hs ih =>
    cases hs with
    | step => exact ih
    | @take t taken' c hc hlt =>
      obtain rfl : taken' = taken := ih
      rw [hfifo _ hy] at hlt
      exact absurd hlt (not_lt.mpr (hall c hc))

include hstep

lemma OutletStep.opened {x y : σ × (C → ℕ)} (h : OutletStep step fifo outlets cap x y)
    (hx : ∀ c ∉ outlets, x.2 c = 0) :
    (y.1 = x.1 ∨ step (opened outlets cap) x.1 y.1) ∧ ∀ c ∉ outlets, y.2 c = 0 := by
  cases h with
  | step h => exact ⟨.inr (hstep.mono (cap_le_opened hx) h), hx⟩
  | @take s taken c hc h =>
    refine ⟨.inl rfl, fun c' hc' => ?_⟩
    have hne : c' ≠ c := fun he => hc' (he ▸ hc)
    exact (Function.update_of_ne hne _ _).trans (hx c' hc')

/-- What the system does here it does with outlets that are never full. -/
theorem OutletRun.opened {x y : σ × (C → ℕ)} (h : OutletRun step fifo outlets cap x y)
    (hx : ∀ c ∉ outlets, x.2 c = 0) :
    Relation.ReflTransGen (step (opened outlets cap)) x.1 y.1 ∧ ∀ c ∉ outlets, y.2 c = 0 := by
  induction h with
  | refl => exact ⟨.refl, hx⟩
  | tail _ hs ih =>
    obtain ⟨hrun, hy⟩ := ih
    obtain ⟨he | hs', hz⟩ := hs.opened hstep hy
    · exact ⟨he ▸ hrun, hz⟩
    · exact ⟨hrun.tail hs', hz⟩

/-- Where the system can do something with open outlets it can, or a word can leave an outlet. -/
lemma exists_outletStep (hcap : ∀ c, 1 ≤ cap c) (h : step (opened outlets cap) s t) :
    ∃ y, OutletStep step fifo outlets cap (s,taken) y := by
  by_cases htake : ∃ c ∈ outlets, taken c < (fifo s c).length
  · obtain ⟨c, hc, hlt⟩ := htake
    exact ⟨_, .take hc hlt⟩
  push Not at htake
  have hroom (c : C) : opened outlets cap c ≤ cap c + taken c ∨
      ((fifo s c).length : ℕ∞) < cap c + taken c := by
    by_cases hc : c ∈ outlets
    · -- everything in this outlet has left it
      refine .inr ?_
      have hle : ((fifo s c).length : ℕ∞) ≤ taken c := Nat.cast_le.mpr (htake c hc)
      have hone : (taken c : ℕ∞) < 1 + taken c := by
        rw [add_comm]
        exact_mod_cast Nat.lt_succ_self (taken c)
      exact lt_of_le_of_lt hle (hone.trans_le (by gcongr; exact hcap c))
    · refine .inl ?_
      rw [Dataflow.opened, if_neg hc]
      exact le_self_add
  obtain ⟨t', ht'⟩ := hstep.room h _ hroom
  exact ⟨_, .step ht'⟩

lemma outletStep_stuck (hcap : ∀ c, 1 ≤ cap c)
    (h : ∀ y, ¬ OutletStep step fifo outlets cap (s,taken) y) :
    (∀ t, ¬ step (opened outlets cap) s t) ∧ ∀ c ∈ outlets, (fifo s c).length ≤ taken c := by
  refine ⟨fun t ht => ?_, fun c hc => not_lt.mp fun hlt => h _ (.take hc hlt)⟩
  obtain ⟨y, hy⟩ := exists_outletStep hstep hcap ht
  exact h y hy

/-- Runs that end with open outlets end when the words that leave are counted too. -/
theorem acc_outletStep (h : Acc (flip (step (opened outlets cap))) s)
    (htaken : ∀ c ∉ outlets, taken c = 0) :
    Acc (flip (OutletStep step fifo outlets cap)) (s,taken) := by
  induction h generalizing taken with
  | intro s _ ih =>
    induction hn : ∑ c ∈ outlets, ((fifo s c).length - taken c) using Nat.strong_induction_on
      generalizing taken with
    | _ n ihn =>
      refine Acc.intro _ fun y hy => ?_
      have hy' : OutletStep step fifo outlets cap (s,taken) y := hy
      obtain ⟨-, hnext⟩ := hy'.opened hstep htaken
      cases hy' with
      | step hs => exact ih _ (hstep.mono (cap_le_opened htaken) hs) htaken
      | @take _ _ c hc hlt =>
        refine ihn _ ?_ hnext rfl
        rw [← hn]
        refine Finset.sum_lt_sum (fun c' _ => ?_) ⟨c, hc, ?_⟩
        · refine Nat.sub_le_sub_left ?_ _
          by_cases he : c' = c
          · subst he
            simp
          · rw [Function.update_of_ne he]
        · rw [Function.update_self]
          omega

/-- Then some run ends with all words taken. -/
lemma exists_outletRun (hcap : ∀ c, 1 ≤ cap c) (h : Acc (flip (step (opened outlets cap))) s)
    (htaken : ∀ c ∉ outlets, taken c = 0) :
    ∃ t taken', OutletRun step fifo outlets cap (s,taken) (t,taken') ∧
      (∀ u, ¬ step (opened outlets cap) t u) ∧ ∀ c ∈ outlets, (fifo t c).length ≤ taken' c := by
  obtain ⟨⟨t, taken'⟩, hrun, hstuck⟩ := exists_stuck (acc_outletStep hstep h htaken)
  exact ⟨t, taken', hrun, outletStep_stuck hstep hcap hstuck⟩

end Outlets

section Systems
variable {ι C W A L : Type} {V : A → Type} {N : Network ι C W V} [DecidableEq ι] [DecidableEq C]
  {mem : Memory ι V}

lemma Network.StepAt.widen {cap cap' : C → ℕ∞} {i : ι} {s t : N.State mem.State}
    (h : N.StepAt mem cap i s t) (hcap : ∀ c, cap c ≤ cap' c) : N.StepAt mem cap' i s t := by
  cases h with
  | call hc => exact .call hc
  | read hc hf => exact .read hc hf
  | write hc room => exact .write hc (room.trans_le (hcap _))
  | load hc => exact .load hc
  | store hc => exact .store hc

lemma Network.asksRoom : AsksRoom (N.Step mem) Network.State.fifo where
  mono := fun hcap ⟨i, hi⟩ => ⟨i, hi.widen hcap⟩
  room := by
    rintro cap s t ⟨i, hi⟩ cap' hroom
    cases hi with
    | call hc => exact ⟨_, i, .call hc⟩
    | read hc hf => exact ⟨_, i, .read hc hf⟩
    | write hc room => exact ⟨_, i, .write hc ((hroom _).elim room.trans_le id)⟩
    | load hc => exact ⟨_, i, .load hc⟩
    | store hc => exact ⟨_, i, .store hc⟩

variable [DecidableEq A] {supervisor : L → Cmd Empty Empty W V L}

lemma Supervised.asksRoom : AsksRoom (Supervised.Step (N := N) supervisor) fun s => s.net.fifo where
  mono hcap h := by
    cases h with
    | net h => exact .net (Network.asksRoom.mono hcap h)
    | call => exact .call
    | load => exact .load
    | store => exact .store
  room h cap' hroom := by
    cases h with
    | net h =>
      obtain ⟨t, ht⟩ := Network.asksRoom.room h cap' hroom
      exact ⟨_, .net ht⟩
    | call => exact ⟨_, .call⟩
    | load => exact ⟨_, .load⟩
    | store => exact ⟨_, .store⟩

/-- The network and its outlets may run while the supervisor rests. -/
lemma OutletRun.supervised {outlets : Finset C} {cap : C → ℕ∞}
    {s t : N.State (Memory.shared ι V).State} {taken taken' : C → ℕ}
    (h : OutletRun (N.Step (Memory.shared ι V)) Network.State.fifo outlets cap (s,taken) (t,taken'))
    (c : Cmd Empty Empty W V L) :
    OutletRun (Supervised.Step (N := N) supervisor) (fun s => s.net.fifo) outlets cap
      (⟨s,c⟩,taken) (⟨t,c⟩,taken') := by
  let withControl (x : N.State (Memory.shared ι V).State × (C → ℕ)) : Supervised N L × (C → ℕ) :=
    (⟨x.1,c⟩,x.2)
  refine Relation.ReflTransGen.lift withControl (fun x y hs => ?_) _ _ h
  cases hs with
  | step h => exact .step (.net h)
  | take hc h => exact .take hc h

end Systems
end EncryptionAccelerators.Dataflow
