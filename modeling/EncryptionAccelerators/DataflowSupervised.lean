import EncryptionAccelerators.DataflowSettled

/-! Networks with a supervising process that has no ports and only loads and stores. As long as what
it stores is what the cells hold already, the network runs as if these cells were constants. -/
namespace EncryptionAccelerators.Dataflow
variable {ι C W A L : Type} {V : A → Type}

lemma Holds.update [DecidableEq A] {known : (a : A) → Option (V a)} {m : (a : A) → V a}
    (h : Holds known m) {a : A} {v : V a} (hv : v ∈ known a) : Function.update m a v = m := by
  have ha := h a v hv
  subst ha
  exact Function.update_eq_self a m

section Steady
variable {In Out α β γ : Type}

/-- In a memory that holds the known values the command stores no others, and only to their cells. -/
inductive Cmd.Steady (known : (a : A) → Option (V a)) : Cmd In Out W V α → Prop
  | ret (a : α) : Steady known (.ret a)
  | recv {p k} (h : ∀ w, Steady known (k w)) : Steady known (.recv p k)
  | send {q w k} (h : Steady known k) : Steady known (.send q w k)
  | peek {a k} (h : ∀ v, (∀ w ∈ known a, v = w) → Steady known (k v)) : Steady known (.peek a k)
  | poke {a v k} (hv : v ∈ known a) (h : Steady known k) : Steady known (.poke a v k)

lemma steady_forEach_bind {known : (a : A) → Option (V a)} (cell : γ → A)
    (value : (x : γ) → V (cell x)) (l : List γ) (hv : ∀ x ∈ l, value x ∈ known (cell x))
    {k : Unit → Cmd In Out W V β} (hk : (k ()).Steady known) :
    (forEach l (fun x => storeCell (cell x) (value x)) >>= k).Steady known := by
  induction l with
  | nil => exact hk
  | cons x l ih =>
    rw [forEach, storeCell_bind]
    exact .poke (hv x (by simp)) (ih fun y hy => hv y (by simp [hy]))

end Steady

/-- The state of the network and what its supervisor still has to do before its next block. -/
structure Supervised (N : Network ι C W V) [DecidableEq A] (L : Type) where
  net : N.State (Memory.shared ι V).State
  control : Cmd Empty Empty W V L

namespace Supervised
variable [DecidableEq ι] [DecidableEq C] [DecidableEq A] {N : Network ι C W V}

section Run
variable (supervisor : L → Cmd Empty Empty W V L) (cap : C → ℕ∞)

/-- One atomic step of a process of the network or of the supervisor. -/
inductive Step : Supervised N L → Supervised N L → Prop
  | net {s t c} (h : N.Step (Memory.shared ι V) cap s t) : Step ⟨s,c⟩ ⟨t,c⟩
  | call {s l} : Step ⟨s,.ret l⟩ ⟨s,supervisor l⟩
  | load {s a k} : Step ⟨s,.peek a k⟩ ⟨s,k (s.mem a)⟩
  | store {s a v k} : Step ⟨s,.poke a v k⟩ ⟨⟨s.code,s.fifo,Function.update s.mem a v⟩,k⟩

def Run : Supervised N L → Supervised N L → Prop := Relation.ReflTransGen (Step supervisor cap)

end Run

variable {supervisor : L → Cmd Empty Empty W V L} {cap : C → ℕ∞}

/-- The network may run while its supervisor rests. -/
lemma Run.of_net {s : Supervised N L} {t : N.State (Memory.shared ι V).State}
    (h : N.Run (Memory.shared ι V) cap s.net t) : Run supervisor cap s ⟨t,s.control⟩ := by
  induction h with
  | refl => exact .refl
  | tail _ hs ih => exact ih.tail (.net hs)

variable
  {fixed known : (a : A) → Option (V a)} {s t : Supervised N L}
  {body : (i : ι) → N.Label i → Cmd (N.In i) (N.Out i) W V (N.Label i)}

variable (fixed known) in
/-- The processes store to no fixed cell and the supervisor stores only known values. -/
structure Quiet (s : Supervised N L) : Prop where
  net : ∀ i, (s.net.code i).Accesses (fun _ => True) (fixed · = none)
  control : s.control.Steady known

/-- A step keeps what is fixed, and is a step with constants or none at all. -/
lemma Step.settle (hsettle : ∀ i l, (N.body i l).settle fixed = body i l)
    (hbody : ∀ i l, (N.body i l).Accesses (fun _ => True) (fixed · = none))
    (hsupervisor : ∀ l, (supervisor l).Steady known) (hfixed : ∀ a, ∀ v ∈ fixed a, v ∈ known a)
    (h : Step supervisor cap s t) (hq : Quiet fixed known s) (hm : Holds known s.net.mem) :
    Quiet fixed known t ∧ (∀ a, fixed a ≠ none → t.net.mem a = s.net.mem a) ∧
      (t.net.settle fixed body = s.net.settle fixed body ∨
        (N.withBody body).Step (Memory.shared ι V) cap (s.net.settle fixed body)
          (t.net.settle fixed body)) := by
  obtain ⟨hnet, hcontrol⟩ := hq
  cases h with
  | net h =>
    obtain ⟨i, hi⟩ := h
    refine ⟨⟨hi.accesses hbody hnet, hcontrol⟩, fun a ha => hi.mem_eq (hnet i) ha, ?_⟩
    exact (hi.settle hsettle fun a v hv => hm a v (hfixed a v hv)).imp_right fun hs => ⟨i, hs⟩
  | call => exact ⟨⟨hnet, hsupervisor _⟩, fun a _ => rfl, .inl rfl⟩
  | @load s a k =>
    cases hcontrol with
    | peek hk => exact ⟨⟨hnet, hk _ fun w hw => hm a w hw⟩, fun a _ => rfl, .inl rfl⟩
  | @store s a v k =>
    cases hcontrol with
    | poke hv hk =>
      have hsame : Function.update s.mem a v = s.mem := hm.update hv
      exact ⟨⟨hnet, hk⟩, fun b _ => congrFun hsame b, .inl (Network.State.ext rfl rfl hsame)⟩

/-- As long as the network keeps the known values that are not fixed, its part of a supervised run is
a run with constants. -/
theorem Run.settle (hsettle : ∀ i l, (N.body i l).settle fixed = body i l)
    (hbody : ∀ i l, (N.body i l).Accesses (fun _ => True) (fixed · = none))
    (hsupervisor : ∀ l, (supervisor l).Steady known) (hfixed : ∀ a, ∀ v ∈ fixed a, v ∈ known a)
    (hs : Quiet fixed known s) (hm : Holds known s.net.mem)
    (hkeep : ∀ u, (N.withBody body).Run (Memory.shared ι V) cap (s.net.settle fixed body) u →
      ∀ a, fixed a = none → ∀ v ∈ known a, u.mem a = v) (h : Run supervisor cap s t) :
    (N.withBody body).Run (Memory.shared ι V) cap (s.net.settle fixed body)
      (t.net.settle fixed body) ∧ Quiet fixed known t ∧ Holds known t.net.mem := by
  induction h with
  | refl => exact ⟨.refl, hs, hm⟩
  | @tail t u _ hstep ih =>
    obtain ⟨hrun, hq, ht⟩ := ih
    obtain ⟨hq', hmem, hstep'⟩ := hstep.settle hsettle hbody hsupervisor hfixed hq ht
    have hrun' : (N.withBody body).Run (Memory.shared ι V) cap (s.net.settle fixed body)
        (u.net.settle fixed body) := by
      rcases hstep' with he | hstep'
      · rwa [he]
      · exact hrun.tail hstep'
    refine ⟨hrun', hq', fun a v hv => ?_⟩
    by_cases ha : fixed a = none
    · exact hkeep _ hrun' a ha v hv
    · exact (hmem a ha).trans (ht a v hv)

/-- Where all processes wait and the supervisor stores only known values, nothing changes. -/
lemma Run.rests (hsupervisor : ∀ l, (supervisor l).Steady known) (hst : N.Starved s.net)
    (hc : s.control.Steady known) (hm : Holds known s.net.mem) (h : Run supervisor cap s t) :
    t.net = s.net ∧ t.control.Steady known := by
  induction h with
  | refl => exact ⟨rfl, hc⟩
  | @tail t u _ hstep ih =>
    obtain ⟨hnet, hcontrol⟩ := ih
    cases hstep with
    | net h =>
      rw [← hnet] at hst
      exact absurd h hst.no_step
    | call => exact ⟨hnet, hsupervisor _⟩
    | @load t a k =>
      cases hcontrol with
      | peek hk =>
        have hmem : t.mem a = s.net.mem a := congrArg (fun u => u.mem a) hnet
        exact ⟨hnet, hk _ fun w hw => hmem.trans (hm a w hw)⟩
    | @store t a v k =>
      cases hcontrol with
      | poke hv hk =>
        have hnet' : t = s.net := hnet
        subst hnet'
        exact ⟨Network.State.ext rfl rfl (hm.update hv), hk⟩

/-! The supervisor by itself. -/

lemma Step.starved (h : Step supervisor cap s t) (hst : N.Starved s.net) : N.Starved t.net := by
  cases h with
  | net h => exact absurd h hst.no_step
  | call | load | store => exact hst

variable (supervisor cap) in
lemma exists_finished (s : N.State (Memory.shared ι V).State) (c : Cmd Empty Empty W V L) :
    ∃ m l, Run supervisor cap ⟨s,c⟩ ⟨⟨s.code,s.fifo,m⟩,.ret l⟩ := by
  induction c generalizing s with
  | ret l => exact ⟨s.mem, l, .refl⟩
  | recv p => exact p.elim
  | send q => exact q.elim
  | peek a k ih =>
    obtain ⟨m, l, h⟩ := ih (s.mem a) s
    exact ⟨m, l, .head .load h⟩
  | poke a v k ih =>
    obtain ⟨m, l, h⟩ := ih ⟨s.code,s.fifo,Function.update s.mem a v⟩
    exact ⟨m, l, .head .store h⟩

lemma run_exec (i : ι) {s : N.State (Memory.shared ι V).State} {c : Cmd Empty Empty W V L}
    {inp out : Empty → List W} {l : L} {io : Io Empty Empty W (Memory.shared ι V).State}
    (h : exec (Memory.shared ι V) i c ⟨inp,out,s.mem⟩ = some (l,io)) :
    Run supervisor cap ⟨s,c⟩ ⟨⟨s.code,s.fifo,io.mem⟩,.ret l⟩ := by
  induction c generalizing s with
  | ret l' =>
    obtain ⟨rfl, rfl⟩ := Prod.mk.inj (Option.some.inj h)
    exact .refl
  | recv p => exact p.elim
  | send q => exact q.elim
  | peek a k ih => exact .head .load (ih (s.mem a) h)
  | poke a v k ih => exact .head .store (ih (s := ⟨s.code,s.fifo,Function.update s.mem a v⟩) h)

/-! A supervisor that stores to no cell of a process. -/

section Owned
variable {own : A → Option ι}

variable (own) in
/-- Neither the processes nor the supervisor are about to store to a cell of another process. -/
structure Keeps (s : Supervised N L) : Prop where
  net : Network.Keeps own s.net
  control : s.control.Accesses (fun _ => True) (own · = none)

variable (hbody : ∀ i l, (N.body i l).Accesses (fun _ => True) fun a => own a = none ∨ own a = some i)
  (hsupervisor : ∀ l, (supervisor l).Accesses (fun _ => True) (own · = none))
include hbody hsupervisor

lemma Step.keeps (h : Step supervisor cap s t) (hs : Keeps own s) : Keeps own t := by
  obtain ⟨hnet, hcontrol⟩ := hs
  cases h with
  | net h =>
    obtain ⟨i, hi⟩ := h
    exact ⟨hi.keeps hbody hnet, hcontrol⟩
  | call => exact ⟨hnet, hsupervisor _⟩
  | load => exact ⟨hnet, (accesses_peek.mp hcontrol).2 _⟩
  | store => exact ⟨hnet, (accesses_poke.mp hcontrol).2⟩

/-- Whatever the supervisor does, its network runs as it may run on the memory its processes own. -/
theorem Run.owned (h : Run supervisor cap s t) (hs : Keeps own s) : Keeps own t ∧
    ∀ (m₀ : (a : A) → V a) (script : ι → ℕ → (a : A) → V a), ∃ m,
      N.Run (Memory.owned V own) cap (s.net.owned own m₀ m) (t.net.owned own m₀ script) := by
  induction h with
  | refl => exact ⟨hs, fun m₀ script => ⟨script, .refl⟩⟩
  | @tail u t _ hstep ih =>
    obtain ⟨hu, hrun⟩ := ih
    refine ⟨hstep.keeps hbody hsupervisor hu, fun m₀ script => ?_⟩
    cases hstep with
    | @net s t c h =>
      obtain ⟨i, hi⟩ := h
      obtain ⟨m, hm⟩ := hrun m₀ (Network.rewind own s i script)
      exact ⟨m, hm.tail ⟨i, hi.owned hu.net m₀ script⟩⟩
    | call => exact hrun m₀ script
    | load => exact hrun m₀ script
    | @store s a v k =>
      obtain ⟨m, hm⟩ := hrun m₀ script
      have hcells : ownedCells own m₀ (Function.update s.mem a v) = ownedCells own m₀ s.mem :=
        ownedCells_update (accesses_poke.mp hu.control).1 v
      have hsame : Network.State.owned own m₀ ⟨s.code,s.fifo,Function.update s.mem a v⟩ script =
          s.owned own m₀ script := congrArg (fun cells => Network.State.mk _ _ (script,cells)) hcells
      exact ⟨m, hsame ▸ hm⟩

end Owned

end Supervised
end EncryptionAccelerators.Dataflow
