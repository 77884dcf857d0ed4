import EncryptionAccelerators.DataflowNetwork

/-! Two kinds of processes in a network whose other processes may share their memory: one whose
input is all there from the start, and one that answers each word it reads with words it writes. -/
namespace EncryptionAccelerators.Dataflow

/-- A step the other processes can see. -/
inductive Event (Out W : Type) {A : Type} (V : A → Type)
  | send (q : Out) (w : W)
  | poke (a : A) (v : V a)

section Trace
variable {In Out W A L : Type} {V : A → Type} [DecidableEq In] (body : L → Cmd In Out W V L)

/-- With the words `inp` on its inputs the process goes on with the events `evs` and then waits. It
loads nothing. -/
inductive Trace : Cmd In Out W V L → (In → List W) → List (Event Out W V) → Prop
  | call {l inp evs} (h : Trace (body l) inp evs) : Trace (.ret l) inp evs
  | starve {p k inp} (h : inp p = []) : Trace (.recv p k) inp []
  | recv {p k inp w ws evs} (hw : inp p = w::ws) (h : Trace (k w) (Function.update inp p ws) evs) :
      Trace (.recv p k) inp evs
  | send {q w k inp evs} (h : Trace k inp evs) : Trace (.send q w k) inp (.send q w::evs)
  | poke {a v k inp evs} (h : Trace k inp evs) : Trace (.poke a v k) inp (.poke a v::evs)

variable {body}

lemma Trace.readInto_bind (p : In) (n : ℕ) (ws : List W) {f : List W → Cmd In Out W V L}
    {inp : In → List W} {evs : List (Event Out W V)} (hn : n ≤ (inp p).length)
    (h : Trace body (f (ws ++ (inp p).take n)) (Function.update inp p ((inp p).drop n)) evs) :
    Trace body (readInto p n ws >>= f) inp evs := by
  induction n generalizing ws inp with
  | zero => simpa using h
  | succ n ih =>
    cases hp : inp p with
    | nil => simp [hp] at hn
    | cons w us =>
      refine .recv hp (ih (ws ++ [w]) ?_ ?_)
      · simpa [hp] using hn
      · simpa [hp] using h

lemma Trace.passInto_bind (p : In) (q : Out) (n : ℕ) (ws : List W)
    {f : List W → Cmd In Out W V L} {inp : In → List W} {evs : List (Event Out W V)}
    (hn : n ≤ (inp p).length)
    (h : Trace body (f (ws ++ (inp p).take n)) (Function.update inp p ((inp p).drop n)) evs) :
    Trace body (passInto p q n ws >>= f) inp (((inp p).take n).map (.send q) ++ evs) := by
  induction n generalizing ws inp with
  | zero => simpa using h
  | succ n ih =>
    cases hp : inp p with
    | nil => simp [hp] at hn
    | cons w us =>
      have hrest : Trace body (passInto p q n (ws ++ [w]) >>= f) (Function.update inp p us)
          (((Function.update inp p us p).take n).map (.send q) ++ evs) :=
        ih (ws ++ [w]) (by simpa [hp] using hn) (by simpa [hp] using h)
      rw [Function.update_self] at hrest
      exact .recv hp (.send hrest)

end Trace

namespace Network
variable {ι C W A : Type} {V : A → Type} {N : Network ι C W V} [DecidableEq ι] [DecidableEq C]
  {mem : Memory ι V} {cap : C → ℕ∞} {i : ι} {s t : N.State mem.State}

/-- A step of a process with a trace is its next event, or one that the others cannot see. -/
lemma StepAt.traced [DecidableEq (N.In i)] {evs : List (Event (N.Out i) W V)}
    (h : N.StepAt mem cap i s t)
    (ht : Trace (N.body i) (s.code i) (fun p => s.fifo (N.src i p)) evs) :
    (Trace (N.body i) (t.code i) (fun p => t.fifo (N.src i p)) evs ∧ t.mem = s.mem ∧
      ∀ c, (∀ p, N.src i p ≠ c) → t.fifo c = s.fifo c) ∨
    (∃ q w evs', evs = .send q w::evs' ∧
      Trace (N.body i) (t.code i) (fun p => t.fifo (N.src i p)) evs' ∧ t.mem = s.mem ∧
      t.fifo = Function.update s.fifo (N.dst i q) (s.fifo (N.dst i q) ++ [w])) ∨
    ∃ a v k evs', s.code i = .poke a v k ∧ evs = .poke a v::evs' ∧
      Trace (N.body i) (t.code i) (fun p => t.fifo (N.src i p)) evs' ∧
      t.mem = mem.store i a v s.mem ∧ t.fifo = s.fifo := by
  cases h with
  | call hc =>
    rw [hc] at ht
    cases ht with
    | call ht => exact .inl ⟨by simpa using ht, rfl, fun _ _ => rfl⟩
  | @read p k w ws hc hf =>
    rw [hc] at ht
    cases ht with
    | starve he => simp [hf] at he
    | recv hw ht =>
      obtain ⟨rfl, rfl⟩ := List.cons.inj (hf.symm.trans hw)
      refine .inl ⟨?_, rfl, fun c hs => Function.update_of_ne (hs p).symm _ _⟩
      have hinp : (fun p' => Function.update s.fifo (N.src i p) ws (N.src i p')) =
          Function.update (fun p' => s.fifo (N.src i p')) p ws := by
        funext p'
        by_cases hp : p' = p
        · subst hp
          simp
        · have hne : N.src i p' ≠ N.src i p := fun he => hp (by simpa using N.src_inj he)
          simp [hp, hne]
      simpa [hinp] using ht
  | @write q w k hc _ =>
    rw [hc] at ht
    cases ht with
    | @send _ _ _ _ evs' ht =>
      refine .inr (.inl ⟨q, w, evs', rfl, ?_, rfl, rfl⟩)
      simpa [N.loopless _ q] using ht
  | load hc =>
    rw [hc] at ht
    cases ht
  | @store a v k hc =>
    rw [hc] at ht
    cases ht with
    | @poke _ _ _ _ evs' ht => exact .inr (.inr ⟨a, v, k, evs', hc, rfl, by simpa using ht, rfl, rfl⟩)

omit [DecidableEq ι] [DecidableEq C] in
/-- A process with a trace is ready unless it waits for a word, for room, or for the memory. -/
lemma Ready.of_trace [DecidableEq (N.In i)] {evs : List (Event (N.Out i) W V)}
    (hb : ∀ l l', N.body i l ≠ .ret l')
    (ht : Trace (N.body i) (s.code i) (fun p => s.fifo (N.src i p)) evs) : N.Ready cap s i ∨
      (evs = [] ∧ ∃ p, s.fifo (N.src i p) = []) ∨
      (∃ q w evs', evs = .send q w::evs' ∧
        cap (N.dst i q) ≤ ((s.fifo (N.dst i q)).length : ℕ∞)) ∨
      ∃ a v evs', evs = .poke a v::evs' := by
  obtain ⟨c, hc, htc⟩ : ∃ c, (s.code i = c ∨ ∃ l, s.code i = .ret l ∧ N.body i l = c) ∧
      Trace (N.body i) c (fun p => s.fifo (N.src i p)) evs ∧ ∀ l, c ≠ .ret l := by
    cases hcode : s.code i with
    | ret l =>
      rw [hcode] at ht
      cases ht with
      | call ht => exact ⟨_, .inr ⟨l, rfl, rfl⟩, ht, hb l⟩
    | _ => exact ⟨_, .inl rfl, hcode ▸ ht, by simp⟩
  obtain ⟨htc, hret⟩ := htc
  cases htc with
  | call => exact absurd rfl (hret _)
  | @starve p k _ hp => exact .inr (.inl ⟨rfl, p, hp⟩)
  | @recv p k _ w ws _ hw => exact .inl ⟨_, hc, .inl ⟨p, k, w, ws, rfl, hw⟩⟩
  | @send q w k _ evs =>
    by_cases room : ((s.fifo (N.dst i q)).length : ℕ∞) < cap (N.dst i q)
    · exact .inl ⟨_, hc, .inr ⟨q, w, k, rfl, room⟩⟩
    · exact .inr (.inr (.inl ⟨q, w, evs, rfl, not_lt.mp room⟩))
  | @poke a v _ _ evs => exact .inr (.inr (.inr ⟨a, v, evs, rfl⟩))

end Network

section Mealy
variable {In Out W A L : Type} {V : A → Type}

/-- A process that reads a word and writes words in return, turn after turn. -/
def mealy (p : In) (q : Out) (next : L → W → L) (reply : L → W → List W) (l : L) :
    Cmd In Out W V L :=
  .recv p fun w => writeAll q (reply l w) >>= fun _ => .ret (next l w)

/-- Such a process with the words `us` left to write before it enters its body at `l`. -/
def MealyAt (body : L → Cmd In Out W V L) (q : Out) (us : List W) (l : L)
    (c : Cmd In Out W V L) : Prop :=
  c = (writeAll q us >>= fun _ => .ret l) ∨ us = [] ∧ c = body l

/-- What is left to write can be read off a command. -/
lemma writeAll_ret_inj {q : Out} {us us' : List W} {l l' : L}
    (h : (writeAll q us >>= fun _ => .ret l : Cmd In Out W V L) =
      writeAll q us' >>= fun _ => .ret l') : us = us' ∧ l = l' := by
  induction us generalizing us' with
  | nil => cases us' with
    | nil => exact ⟨rfl, Cmd.ret.inj h⟩
    | cons w us' => cases h
  | cons w us ih => cases us' with
    | nil => cases h
    | cons w' us' =>
      obtain ⟨-, rfl, hrest⟩ := Cmd.send.inj h
      obtain ⟨rfl, rfl⟩ := ih hrest
      exact ⟨rfl, rfl⟩

/-- Two labels that a Mealy process does not tell apart. -/
lemma mealy_eq {p : In} {q : Out} {next : L → W → L} {reply : L → W → List W} {l l' : L}
    (h : (mealy p q next reply l : Cmd In Out W V L) = mealy p q next reply l') (w : W) :
    reply l w = reply l' w ∧ next l w = next l' w :=
  writeAll_ret_inj (congrFun (Cmd.recv.inj h).2 w)

/-- A Mealy process about to enter its body has nothing left to write. -/
lemma MealyAt.settled {p : In} {q : Out} {next : L → W → L} {reply : L → W → List W}
    {us : List W} {l l' : L} {c : Cmd In Out W V L}
    (h : MealyAt (mealy p q next reply) q us l c) (hc : c = .ret l' ∨ c = mealy p q next reply l') :
    us = [] ∧ (l = l' ∨ (mealy p q next reply l : Cmd In Out W V L) = mealy p q next reply l') := by
  rcases h with h | ⟨rfl, h⟩ <;> rcases hc with hc | hc
  · have hret : (writeAll q us >>= fun _ => .ret l : Cmd In Out W V L) =
        writeAll q [] >>= fun _ => .ret l' := h.symm.trans hc
    obtain ⟨rfl, rfl⟩ := writeAll_ret_inj hret
    exact ⟨rfl, .inl rfl⟩
  · cases us with
    | nil => cases h.symm.trans hc
    | cons w us => cases h.symm.trans hc
  · cases h.symm.trans hc
  · exact ⟨rfl, .inr (h.symm.trans hc)⟩

end Mealy

namespace Network
variable {ι C W A : Type} {V : A → Type} {N : Network ι C W V} [DecidableEq ι] [DecidableEq C]
  {mem : Memory ι V} {cap : C → ℕ∞} {i : ι} {s t : N.State mem.State}

/-- A step of a Mealy process reads a word, writes one, or is not seen by the others. -/
lemma StepAt.mealy {p : N.In i} {q : N.Out i} {next : N.Label i → W → N.Label i}
    {reply : N.Label i → W → List W} (hb : N.body i = Dataflow.mealy p q next reply)
    (h : N.StepAt mem cap i s t) {us : List W} {l : N.Label i}
    (ha : MealyAt (N.body i) q us l (s.code i)) : t.mem = s.mem ∧
    ((MealyAt (N.body i) q us l (t.code i) ∧ t.fifo = s.fifo) ∨
    (∃ w ws, us = [] ∧ s.fifo (N.src i p) = w::ws ∧
      MealyAt (N.body i) q (reply l w) (next l w) (t.code i) ∧
      t.fifo = Function.update s.fifo (N.src i p) ws) ∨
    ∃ w us', us = w::us' ∧ MealyAt (N.body i) q us' l (t.code i) ∧
      t.fifo = Function.update s.fifo (N.dst i q) (s.fifo (N.dst i q) ++ [w])) := by
  rcases ha with hc | ⟨rfl, hc⟩
  · cases us with
    | nil =>
      cases h with
      | call hr =>
        obtain rfl : l = _ := Cmd.ret.inj (hc.symm.trans hr)
        exact ⟨rfl, .inl ⟨.inr ⟨rfl, Function.update_self _ _ _⟩, rfl⟩⟩
      | _ hr => cases hc.symm.trans hr
    | cons w us =>
      cases h with
      | write hr _ =>
        cases hc.symm.trans hr
        exact ⟨rfl, .inr (.inr ⟨w, us, rfl, .inl (Function.update_self _ _ _), rfl⟩)⟩
      | _ hr => cases hc.symm.trans hr
  · rw [hb] at hc
    cases h with
    | @read _ _ w ws hr hf =>
      cases hc.symm.trans hr
      exact ⟨rfl, .inr (.inl ⟨w, ws, rfl, hf, .inl (Function.update_self _ _ _), rfl⟩)⟩
    | _ hr => cases hc.symm.trans hr

end Network

end EncryptionAccelerators.Dataflow
