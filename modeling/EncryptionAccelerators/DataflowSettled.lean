import EncryptionAccelerators.DataflowProgress

/-! Networks in which some cells keep their values: they run as if these cells were constants. -/
namespace EncryptionAccelerators.Dataflow
variable {ι C W A : Type} {V : A → Type}

/-! Cells that hold known values. -/

/-- The memory holds the known values. -/
def Holds (known : (a : A) → Option (V a)) (m : (a : A) → V a) : Prop := ∀ a, ∀ v ∈ known a, m a = v

section Settle
variable {In Out α β γ : Type} (fixed : (a : A) → Option (V a))

/-- The command with the loads of the fixed cells resolved. -/
def Cmd.settle : Cmd In Out W V α → Cmd In Out W V α
  | ret a => ret a
  | recv p k => recv p fun w => (k w).settle
  | send q w k => send q w k.settle
  | peek a k => (fixed a).elim (peek a fun v => (k v).settle) fun v => (k v).settle
  | poke a v k => poke a v k.settle

variable {fixed}

lemma settle_peek {a : A} {v : V a} (h : v ∈ fixed a) (k : V a → Cmd In Out W V α) :
    (Cmd.peek a k).settle fixed = (k v).settle fixed := by
  rw [Cmd.settle, Option.mem_def.mp h, Option.elim_some]

lemma settle_peek_none {a : A} (h : fixed a = none) (k : V a → Cmd In Out W V α) :
    (Cmd.peek a k).settle fixed = .peek a fun v => (k v).settle fixed := by
  rw [Cmd.settle, h, Option.elim_none]

lemma settle_bind (c : Cmd In Out W V α) (f : α → Cmd In Out W V β) :
    (c >>= f).settle fixed = c.settle fixed >>= fun a => (f a).settle fixed := by
  induction c with
  | ret a => rfl
  | recv p k ih => exact congrArg (Cmd.recv p) (funext ih)
  | send q w k ih => exact congrArg (Cmd.send q w) ih
  | peek a k ih =>
    rw [Cmd.peek_bind]
    cases hv : fixed a with
    | none =>
      rw [settle_peek_none hv, settle_peek_none hv]
      exact congrArg (Cmd.peek a) (funext ih)
    | some v =>
      rw [settle_peek hv, settle_peek hv]
      exact ih v
  | poke a v k ih => exact congrArg (Cmd.poke a v) ih

/-- A loop whose turns only load from fixed cells is a computation. -/
lemma settle_foldlM {f : β → γ → Cmd In Out W V β} {g : β → γ → β}
    (hf : ∀ b x, (f b x).settle fixed = .ret (g b x)) (l : List γ) (b : β) :
    (l.foldlM f b).settle fixed = .ret (l.foldl g b) := by
  induction l generalizing b with
  | nil => rfl
  | cons x l ih =>
    rw [List.foldlM_cons, settle_bind, hf, List.foldl_cons]
    exact ih (g b x)

lemma settle_mapM {f : γ → Cmd In Out W V β} {g : γ → β}
    (hf : ∀ x, (f x).settle fixed = .ret (g x)) (l : List γ) :
    (l.mapM f).settle fixed = .ret (l.map g) := by
  induction l with
  | nil => rfl
  | cons x l ih =>
    rw [List.mapM_cons, settle_bind, hf, Cmd.ret_bind, settle_bind, ih]
    rfl

lemma settle_writeAll (q : Out) (ws : List W) :
    (writeAll q ws : Cmd In Out W V Unit).settle fixed = writeAll q ws := by
  induction ws with
  | nil => rfl
  | cons w ws ih => exact congrArg (Cmd.send q w) ih

/-- A command that loads from no fixed cell stays as it is. -/
lemma Cmd.Accesses.settle_eq {st : A → Prop} {c : Cmd In Out W V α}
    (h : c.Accesses (fixed · = none) st) : c.settle fixed = c := by
  induction h with
  | ret a => rfl
  | recv _ ih => exact congrArg (Cmd.recv _) (funext ih)
  | send _ ih => exact congrArg (Cmd.send _ _) ih
  | peek ha _ ih => exact (settle_peek_none ha _).trans (congrArg (Cmd.peek _) (funext ih))
  | poke _ _ ih => exact congrArg (Cmd.poke _ _) ih

/-- With the fixed values in memory, a command that needs no more gives its result. -/
lemma exec_of_settle {ι : Type} [DecidableEq ι] [DecidableEq A] [DecidableEq In] [DecidableEq Out]
    (i : ι) {c : Cmd In Out W V α} {a : α} (h : c.settle fixed = .ret a)
    {s : Io In Out W ((a : A) → V a)} (hm : Holds fixed s.mem) :
    exec (Memory.shared ι V) i c s = some (a,s) := by
  induction c with
  | ret b =>
    obtain rfl := Cmd.ret.inj h
    rfl
  | recv p k => cases h
  | send q w k => cases h
  | peek b k ih =>
    cases hv : fixed b with
    | none =>
      rw [settle_peek_none hv] at h
      cases h
    | some v =>
      rw [settle_peek hv] at h
      have hload : s.mem b = v := hm b v hv
      rw [← hload] at h
      exact ih (s.mem b) h
  | poke b v k => cases h

end Settle

/-! The network in which these cells are constants. -/

namespace Network
variable {fixed : (a : A) → Option (V a)} {N : Network ι C W V}

/-- The network with other processes on the same ports and labels. -/
@[reducible] def withBody (N : Network ι C W V)
    (body : (i : ι) → N.Label i → Cmd (N.In i) (N.Out i) W V (N.Label i)) : Network ι C W V where
  In := N.In
  Out := N.Out
  Label := N.Label
  body := body
  src := N.src
  dst := N.dst
  src_inj := N.src_inj
  dst_inj := N.dst_inj
  loopless := N.loopless

variable {body : (i : ι) → N.Label i → Cmd (N.In i) (N.Out i) W V (N.Label i)}

variable (fixed body) in
/-- A state of the network as one of a network with constants. -/
def State.settle {M : Type} (s : N.State M) : (N.withBody body).State M where
  code i := (s.code i).settle fixed
  fifo := s.fifo
  mem := s.mem

lemma starved_settle {M : Type} {s : N.State M} (h : N.Starved s) :
    Starved (s.settle fixed body) := by
  intro i
  obtain ⟨p, k, hc, hf⟩ := h i
  exact ⟨p, fun w => (k w).settle fixed, congrArg (Cmd.settle fixed) hc, hf⟩

variable [DecidableEq ι] [DecidableEq C] [DecidableEq A] {cap : C → ℕ∞}

omit [DecidableEq C] [DecidableEq A] in
lemma settle_update {M : Type} (code : (i : ι) → Cmd (N.In i) (N.Out i) W V (N.Label i)) (i : ι)
    (c : Cmd (N.In i) (N.Out i) W V (N.Label i)) (fifo : C → List W) (m : M) :
    (⟨Function.update code i c,fifo,m⟩ : N.State M).settle fixed body =
      ⟨Function.update (fun j => (code j).settle fixed) i (c.settle fixed),fifo,m⟩ := by
  refine State.ext (funext fun j => ?_) rfl rfl
  by_cases hj : j = i
  · subst hj
    simp [State.settle]
  · simp [State.settle, hj]

omit [DecidableEq C] [DecidableEq A] in
/-- The load of a constant changes nothing. -/
lemma settle_loaded {M : Type} {s : N.State M} {i : ι} {a : A}
    {k : V a → Cmd (N.In i) (N.Out i) W V (N.Label i)} {v : V a} (hc : s.code i = .peek a k)
    (hv : v ∈ fixed a) : (⟨Function.update s.code i (k v),s.fifo,s.mem⟩ : N.State M).settle fixed body =
      s.settle fixed body := by
  have hload : (s.code i).settle fixed = (k v).settle fixed :=
    (congrArg (Cmd.settle fixed) hc).trans (settle_peek hv k)
  rw [settle_update]
  refine State.ext ?_ rfl rfl
  exact (congrArg (Function.update _ i) hload.symm).trans (Function.update_eq_self _ _)

/-- Where the fixed cells hold their values a step of the network is one with the constants, or the
load of a constant. -/
lemma StepAt.settle {i : ι} {s t : N.State (Memory.shared ι V).State}
    (hsettle : ∀ i l, (N.body i l).settle fixed = body i l)
    (h : N.StepAt (Memory.shared ι V) cap i s t) (hm : Holds fixed s.mem) :
    t.settle fixed body = s.settle fixed body ∨
      (N.withBody body).StepAt (Memory.shared ι V) cap i (s.settle fixed body)
        (t.settle fixed body) := by
  cases h with
  | call hc =>
    rw [settle_update, hsettle]
    exact .inr (.call (congrArg (Cmd.settle fixed) hc))
  | @read p k _ _ hc hf =>
    have hcode : (s.settle fixed body).code i = .recv p fun w => (k w).settle fixed :=
      congrArg (Cmd.settle fixed) hc
    rw [settle_update]
    exact .inr (.read hcode hf)
  | write hc room =>
    rw [settle_update]
    exact .inr (.write (congrArg (Cmd.settle fixed) hc) room)
  | @load a k hc =>
    cases hv : fixed a with
    | none =>
      have hcode : (s.settle fixed body).code i = .peek a fun v => (k v).settle fixed :=
        (congrArg (Cmd.settle fixed) hc).trans (settle_peek_none hv k)
      rw [settle_update]
      exact .inr (.load_of hcode rfl)
    | some v =>
      have hvalue : s.mem a = v := hm a v hv
      exact .inl (settle_loaded hc (show s.mem a ∈ fixed a by rw [hvalue]; exact hv))
  | store hc =>
    rw [settle_update]
    exact .inr (.store (congrArg (Cmd.settle fixed) hc))

end Network

end EncryptionAccelerators.Dataflow
