import Mathlib

/-! Straight-line commands of a stream process: blocking reads and writes on the
process's own ports, loads and stores on a memory. A loop is a block that ends in the
label of the block to run next, so a process is a function from labels to commands. -/
namespace EncryptionAccelerators.Dataflow

/-- A command with input ports `In`, output ports `Out`, stream words `W` and memory
cells `V a`; it ends in a value of type `α`. -/
inductive Cmd (In Out W : Type) {A : Type} (V : A → Type) (α : Type) : Type
  | ret (a : α)
  | recv (p : In) (k : W → Cmd In Out W V α)
  | send (q : Out) (w : W) (k : Cmd In Out W V α)
  | peek (a : A) (k : V a → Cmd In Out W V α)
  | poke (a : A) (v : V a) (k : Cmd In Out W V α)

variable {ι In Out W A : Type} {V : A → Type} {α β : Type}

namespace Cmd

def bind : Cmd In Out W V α → (α → Cmd In Out W V β) → Cmd In Out W V β
  | ret a, f => f a
  | recv p k, f => recv p fun w => (k w).bind f
  | send q w k, f => send q w (k.bind f)
  | peek a k, f => peek a fun v => (k v).bind f
  | poke a v k, f => poke a v (k.bind f)

instance : Monad (Cmd In Out W V) where
  pure := ret
  bind := bind

@[simp] lemma pure_def (a : α) : (pure a : Cmd In Out W V α) = ret a := rfl
@[simp] lemma ret_bind (a : α) (f : α → Cmd In Out W V β) : (ret a >>= f) = f a := rfl
@[simp] lemma recv_bind (p : In) (k : W → Cmd In Out W V α) (f : α → Cmd In Out W V β) :
    (recv p k >>= f) = recv p fun w => k w >>= f := rfl
@[simp] lemma send_bind (q : Out) (w : W) (k : Cmd In Out W V α) (f : α → Cmd In Out W V β) :
    (send q w k >>= f) = send q w (k >>= f) := rfl
@[simp] lemma peek_bind (a : A) (k : V a → Cmd In Out W V α) (f : α → Cmd In Out W V β) :
    (peek a k >>= f) = peek a fun v => k v >>= f := rfl
@[simp] lemma poke_bind (a : A) (v : V a) (k : Cmd In Out W V α) (f : α → Cmd In Out W V β) :
    (poke a v k >>= f) = poke a v (k >>= f) := rfl

lemma bind_ret (c : Cmd In Out W V α) : (c >>= ret) = c := by
  induction c with
  | ret a => rfl
  | recv p k ih => simp only [recv_bind, ih]
  | send q w k ih => simp only [send_bind, ih]
  | peek a k ih => simp only [peek_bind, ih]
  | poke a v k ih => simp only [poke_bind, ih]

lemma bind_bind {γ : Type} (c : Cmd In Out W V α) (f : α → Cmd In Out W V β)
    (g : β → Cmd In Out W V γ) : ((c >>= f) >>= g) = c >>= fun a => f a >>= g := by
  induction c with
  | ret a => rfl
  | recv p k ih => simp only [recv_bind, ih]
  | send q w k ih => simp only [send_bind, ih]
  | peek a k ih => simp only [peek_bind, ih]
  | poke a v k ih => simp only [poke_bind, ih]

/-- The command that also writes each word it reads to `q`, as soon as it is read. -/
def forwarding (q : Out) : Cmd In Out W V α → Cmd In Out W V α
  | ret a => ret a
  | recv p k => recv p fun w => send q w ((k w).forwarding q)
  | send r w k => send r w (k.forwarding q)
  | peek a k => peek a fun v => (k v).forwarding q
  | poke a v k => poke a v (k.forwarding q)

instance : LawfulMonad (Cmd In Out W V) := LawfulMonad.mk' _ bind_ret (fun _ _ => rfl) bind_bind

end Cmd

/-! The operations a process body is written with. -/

def readWord (p : In) : Cmd In Out W V W := .recv p .ret
def writeWord (q : Out) (w : W) : Cmd In Out W V Unit := .send q w (.ret ())
def loadCell (a : A) : Cmd In Out W V (V a) := .peek a .ret
def storeCell (a : A) (v : V a) : Cmd In Out W V Unit := .poke a v (.ret ())

@[simp] lemma readWord_bind (p : In) (f : W → Cmd In Out W V β) :
    (readWord p >>= f) = .recv p f := rfl
@[simp] lemma writeWord_bind (q : Out) (w : W) (f : Unit → Cmd In Out W V β) :
    (writeWord q w >>= f) = .send q w (f ()) := rfl
@[simp] lemma loadCell_bind (a : A) (f : V a → Cmd In Out W V β) :
    (loadCell a >>= f) = .peek a f := rfl
@[simp] lemma storeCell_bind (a : A) (v : V a) (f : Unit → Cmd In Out W V β) :
    (storeCell a v >>= f) = .poke a v (f ()) := rfl

/-- `n` reads in a row, after the words `ws` already read. -/
def readInto (p : In) : ℕ → List W → Cmd In Out W V (List W)
  | 0, ws => .ret ws
  | n+1, ws => .recv p fun w => readInto p n (ws ++ [w])

/-- `n` words, each written as soon as it is read. -/
def passInto (p : In) (q : Out) : ℕ → List W → Cmd In Out W V (List W)
  | 0, ws => .ret ws
  | n+1, ws => .recv p fun w => .send q w (passInto p q n (ws ++ [w]))

@[simp] lemma readInto_zero_bind (p : In) (ws : List W) (f : List W → Cmd In Out W V β) :
    (readInto p 0 ws >>= f) = f ws := rfl
@[simp] lemma readInto_succ_bind (p : In) (n : ℕ) (ws : List W) (f : List W → Cmd In Out W V β) :
    (readInto p (n+1) ws >>= f) = .recv p fun w => readInto p n (ws ++ [w]) >>= f := rfl
@[simp] lemma passInto_zero_bind (p : In) (q : Out) (ws : List W) (f : List W → Cmd In Out W V β) :
    (passInto p q 0 ws >>= f) = f ws := rfl
@[simp] lemma passInto_succ_bind (p : In) (q : Out) (n : ℕ) (ws : List W)
    (f : List W → Cmd In Out W V β) : (passInto p q (n+1) ws >>= f) =
      .recv p fun w => .send q w (passInto p q n (ws ++ [w]) >>= f) := rfl

/-- `passInto` is `readInto` with each word forwarded. -/
lemma forwarding_readInto (p : In) (q : Out) (n : ℕ) (ws : List W) (f : List W → α) :
    (readInto p n ws >>= fun us => (.ret (f us) : Cmd In Out W V α)).forwarding q =
      passInto p q n ws >>= fun us => .ret (f us) := by
  induction n generalizing ws with
  | zero => rfl
  | succ n ih =>
    rw [readInto_succ_bind, passInto_succ_bind, Cmd.forwarding]
    simp only [ih]

def writeAll (q : Out) : List W → Cmd In Out W V Unit
  | [] => .ret ()
  | w::ws => .send q w (writeAll q ws)

/-- A command for each element of a list. -/
def forEach {β : Type} : List β → (β → Cmd In Out W V Unit) → Cmd In Out W V Unit
  | [], _ => .ret ()
  | x::xs, f => f x >>= fun _ => forEach xs f

lemma writeAll_append_bind (q : Out) (ws us : List W) (f : Unit → Cmd In Out W V β) :
    (writeAll q ws >>= fun _ => writeAll q us >>= f) = writeAll q (ws ++ us) >>= f := by
  induction ws with
  | nil => rfl
  | cons w ws ih => simpa [writeAll] using ih

/-- A memory shared by the processes `ι`: what a load returns and what it leaves behind. -/
structure Memory (ι : Type) {A : Type} (V : A → Type) where
  State : Type
  load : ι → (a : A) → State → V a × State
  store : ι → (a : A) → V a → State → State

/-- Plain shared memory: a load returns the last value stored in the cell. -/
def Memory.shared (ι : Type) {A : Type} (V : A → Type) [DecidableEq A] : Memory ι V where
  State := (a : A) → V a
  load _ a m := (m a,m)
  store _ a v m := Function.update m a v

/-- Each process has its own script of load results; stores are forgotten. -/
def Memory.script (ι : Type) {A : Type} (V : A → Type) [DecidableEq ι] : Memory ι V where
  State := ι → ℕ → (a : A) → V a
  load i a m := (m i 0 a,Function.update m i fun n => m i (n+1))
  store _ _ _ m := m

/-- No memory at all. -/
def Memory.none : Memory Unit fun _ : Empty => Unit := Memory.shared Unit _

/-- What a process alone sees: the words waiting on its inputs, the words it has put on
its outputs, and the memory. -/
@[ext] structure Io (In Out W M : Type) where
  inp : In → List W
  out : Out → List W
  mem : M

section Exec
variable [DecidableEq In] [DecidableEq Out] (mem : Memory ι V) (i : ι)

/-- Run a command to its end, or fail where it would wait for input. -/
def exec : Cmd In Out W V α → Io In Out W mem.State → Option (α × Io In Out W mem.State)
  | .ret a, s => some (a,s)
  | .recv p k, s =>
    match s.inp p with
    | [] => none
    | w::ws => exec (k w) ⟨Function.update s.inp p ws,s.out,s.mem⟩
  | .send q w k, s => exec k ⟨s.inp,Function.update s.out q (s.out q ++ [w]),s.mem⟩
  | .peek a k, s =>
    exec (k (mem.load i a s.mem).1) ⟨s.inp,s.out,(mem.load i a s.mem).2⟩
  | .poke a v k, s => exec k ⟨s.inp,s.out,mem.store i a v s.mem⟩

@[simp] lemma exec_ret (a : α) (s : Io In Out W mem.State) :
    exec mem i (.ret a : Cmd In Out W V α) s = some (a,s) := rfl

lemma exec_recv (p : In) (k : W → Cmd In Out W V α) (s : Io In Out W mem.State) {w : W}
    {ws : List W} (h : s.inp p = w::ws) : exec mem i (.recv p k) s =
      exec mem i (k w) ⟨Function.update s.inp p ws,s.out,s.mem⟩ := by simp [exec, h]

lemma exec_recv_none (p : In) (k : W → Cmd In Out W V α) (s : Io In Out W mem.State)
    (h : s.inp p = []) : exec mem i (.recv p k) s = none := by simp [exec, h]

/-- A command that reads and ends has found a word. -/
lemma exists_of_exec_recv {p : In} {k : W → Cmd In Out W V α} {s : Io In Out W mem.State}
    {r : α × Io In Out W mem.State} (h : exec mem i (.recv p k) s = some r) :
    ∃ w ws, s.inp p = w::ws ∧
      exec mem i (k w) ⟨Function.update s.inp p ws,s.out,s.mem⟩ = some r := by
  cases hs : s.inp p with
  | nil =>
    rw [exec_recv_none mem i p k s hs] at h
    cases h
  | cons w ws =>
    rw [exec_recv mem i p k s hs] at h
    exact ⟨w, ws, rfl, h⟩

@[simp] lemma exec_send (q : Out) (w : W) (k : Cmd In Out W V α) (s : Io In Out W mem.State) :
    exec mem i (.send q w k) s =
      exec mem i k ⟨s.inp,Function.update s.out q (s.out q ++ [w]),s.mem⟩ := rfl

@[simp] lemma exec_peek (a : A) (k : V a → Cmd In Out W V α) (s : Io In Out W mem.State) :
    exec mem i (.peek a k) s =
      exec mem i (k (mem.load i a s.mem).1) ⟨s.inp,s.out,(mem.load i a s.mem).2⟩ := rfl

@[simp] lemma exec_poke (a : A) (v : V a) (k : Cmd In Out W V α) (s : Io In Out W mem.State) :
    exec mem i (.poke a v k) s = exec mem i k ⟨s.inp,s.out,mem.store i a v s.mem⟩ := rfl

/-- Running a sequence runs its first part and then the rest. -/
lemma exec_bind (c : Cmd In Out W V α) (f : α → Cmd In Out W V β) (s : Io In Out W mem.State) :
    exec mem i (c >>= f) s = (exec mem i c s).bind fun r => exec mem i (f r.1) r.2 := by
  induction c generalizing s with
  | ret a => rfl
  | recv p k ih =>
    cases h : s.inp p with
    | nil => simp [exec_recv_none, h]
    | cons w ws => rw [Cmd.recv_bind, exec_recv mem i p _ s h, exec_recv mem i p _ s h, ih]
  | send q w k ih => simp [ih]
  | peek a k ih => simp [ih]
  | poke a v k ih => simp [ih]

lemma exec_readInto (p : In) (ws us rest : List W) (s : Io In Out W mem.State)
    (h : s.inp p = us ++ rest) : exec mem i (readInto p us.length ws : Cmd In Out W V _) s =
      some (ws ++ us,⟨Function.update s.inp p rest,s.out,s.mem⟩) := by
  induction us generalizing ws s with
  | nil =>
    have he : Function.update s.inp p rest = s.inp := by
      rw [show rest = s.inp p from h.symm, Function.update_eq_self]
    simp [readInto, he]
  | cons u us ih =>
    simp only [List.length_cons, readInto]
    rw [exec_recv mem i p _ s h, ih]
    · simp
    · simp

lemma exec_passInto (p : In) (q : Out) (ws us rest : List W) (s : Io In Out W mem.State)
    (h : s.inp p = us ++ rest) : exec mem i (passInto p q us.length ws : Cmd In Out W V _) s =
      some (ws ++ us,
        ⟨Function.update s.inp p rest,Function.update s.out q (s.out q ++ us),s.mem⟩) := by
  induction us generalizing ws s with
  | nil =>
    have he : Function.update s.inp p rest = s.inp := by
      rw [show rest = s.inp p from h.symm, Function.update_eq_self]
    simp [passInto, he]
  | cons u us ih =>
    simp only [List.length_cons, passInto]
    rw [exec_recv mem i p _ s h, exec_send, ih]
    · simp
    · simp

lemma exec_readInto_bind (p : In) (n : ℕ) (ws : List W) (f : List W → Cmd In Out W V β)
    (s : Io In Out W mem.State) (h : n ≤ (s.inp p).length) :
    exec mem i (readInto p n ws >>= f) s = exec mem i (f (ws ++ (s.inp p).take n))
      ⟨Function.update s.inp p ((s.inp p).drop n),s.out,s.mem⟩ := by
  have hr := exec_readInto mem i p ws _ _ s (List.take_append_drop n (s.inp p)).symm
  rw [List.length_take_of_le h] at hr
  simp only [exec_bind, hr, Option.bind_some]

/-- A command that starts with `n` reads and ends has found `n` words. -/
lemma length_of_exec_readInto_bind {p : In} {n : ℕ} {ws : List W}
    {f : List W → Cmd In Out W V β} {s : Io In Out W mem.State} {r : β × Io In Out W mem.State}
    (h : exec mem i (readInto p n ws >>= f) s = some r) : n ≤ (s.inp p).length := by
  induction n generalizing ws s with
  | zero => exact Nat.zero_le _
  | succ n ih =>
    rw [readInto_succ_bind] at h
    cases hs : s.inp p with
    | nil =>
      rw [exec_recv_none mem i p _ s hs] at h
      cases h
    | cons w us =>
      rw [exec_recv mem i p _ s hs] at h
      have hn : n ≤ (Function.update s.inp p us p).length := ih h
      rw [Function.update_self] at hn
      rw [List.length_cons]
      omega

/-- The words it has found, and the rest of its run. -/
lemma exists_of_exec_readInto_bind {p : In} {n : ℕ} {f : List W → Cmd In Out W V β}
    {s : Io In Out W mem.State} {r : β × Io In Out W mem.State}
    (h : exec mem i (readInto p n [] >>= f) s = some r) :
    ∃ ws rest, ws.length = n ∧ s.inp p = ws ++ rest ∧
      exec mem i (f ws) ⟨Function.update s.inp p rest,s.out,s.mem⟩ = some r := by
  have hn := length_of_exec_readInto_bind mem i h
  rw [exec_readInto_bind mem i p _ _ _ _ hn, List.nil_append] at h
  exact ⟨_, _, List.length_take_of_le hn, (List.take_append_drop n (s.inp p)).symm, h⟩

/-- Reading takes words from the front. -/
lemma exec_inp_suffix (c : Cmd In Out W V α) {s t : Io In Out W mem.State} {a : α}
    (h : exec mem i c s = some (a,t)) (p : In) : t.inp p <:+ s.inp p := by
  induction c generalizing s with
  | ret b =>
    obtain ⟨rfl, rfl⟩ := Prod.mk.inj (Option.some.inj h)
    exact List.suffix_rfl
  | recv q k ih =>
    cases hs : s.inp q with
    | nil =>
      rw [exec_recv_none mem i q k s hs] at h
      cases h
    | cons w ws =>
      rw [exec_recv mem i q k s hs] at h
      refine (ih w h).trans ?_
      by_cases hp : p = q
      · subst hp
        simp [hs]
      · simp [hp]
  | send q w k ih => exact (ih ((exec_send mem i q w k s).symm.trans h) :)
  | peek b k ih => exact (ih _ ((exec_peek mem i b k s).symm.trans h) :)
  | poke b v k ih => exact (ih ((exec_poke mem i b v k s).symm.trans h) :)

lemma exec_passInto_bind (p : In) (q : Out) (n : ℕ) (ws : List W) (f : List W → Cmd In Out W V β)
    (s : Io In Out W mem.State) (h : n ≤ (s.inp p).length) :
    exec mem i (passInto p q n ws >>= f) s = exec mem i (f (ws ++ (s.inp p).take n))
      ⟨Function.update s.inp p ((s.inp p).drop n),
        Function.update s.out q (s.out q ++ (s.inp p).take n),s.mem⟩ := by
  have hr := exec_passInto mem i p q ws _ _ s (List.take_append_drop n (s.inp p)).symm
  rw [List.length_take_of_le h] at hr
  simp only [exec_bind, hr, Option.bind_some]

/-- So does one that forwards the words as it reads them. -/
lemma length_of_exec_passInto_bind {p : In} {q : Out} {n : ℕ} {ws : List W}
    {f : List W → Cmd In Out W V β} {s : Io In Out W mem.State} {r : β × Io In Out W mem.State}
    (h : exec mem i (passInto p q n ws >>= f) s = some r) : n ≤ (s.inp p).length := by
  induction n generalizing ws s with
  | zero => exact Nat.zero_le _
  | succ n ih =>
    rw [passInto_succ_bind] at h
    cases hs : s.inp p with
    | nil =>
      rw [exec_recv_none mem i p _ s hs] at h
      cases h
    | cons w us =>
      rw [exec_recv mem i p _ s hs, exec_send] at h
      have hn : n ≤ (Function.update s.inp p us p).length := ih h
      rw [Function.update_self] at hn
      rw [List.length_cons]
      omega

lemma exec_writeAll (q : Out) (ws : List W) (s : Io In Out W mem.State) :
    exec mem i (writeAll q ws : Cmd In Out W V _) s =
      some ((),⟨s.inp,Function.update s.out q (s.out q ++ ws),s.mem⟩) := by
  induction ws generalizing s with
  | nil => simp [writeAll]
  | cons w ws ih => simp [writeAll, ih]

lemma exec_writeAll_bind (q : Out) (ws : List W) (f : Unit → Cmd In Out W V β)
    (s : Io In Out W mem.State) : exec mem i (writeAll q ws >>= f) s =
      exec mem i (f ()) ⟨s.inp,Function.update s.out q (s.out q ++ ws),s.mem⟩ := by
  simp only [exec_bind, exec_writeAll, Option.bind_some]

/-- A loop of commands that only change the memory. -/
lemma exec_forEach_bind {γ : Type} (xs : List γ) (f : γ → Cmd In Out W V Unit)
    (step : mem.State → γ → mem.State)
    (hf : ∀ x s, exec mem i (f x) s = some ((),⟨s.inp,s.out,step s.mem x⟩))
    (k : Unit → Cmd In Out W V β) (s : Io In Out W mem.State) :
    exec mem i (forEach xs f >>= k) s =
      exec mem i (k ()) ⟨s.inp,s.out,xs.foldl step s.mem⟩ := by
  induction xs generalizing s with
  | nil => rfl
  | cons x xs ih =>
    rw [forEach, Cmd.bind_bind, exec_bind, hf x s, Option.bind_some]
    exact ih _

/-! Commands that use no FIFO. -/

/-- The command runs through, leaves the FIFOs as they are and returns a value with `P`. -/
def Yields (P : α → Prop) (c : Cmd In Out W V α) : Prop :=
  ∀ s, ∃ a m, P a ∧ exec mem i c s = some (a,⟨s.inp,s.out,m⟩)

variable {mem i} {P : α → Prop} {Q : β → Prop}

lemma yields_ret {a : α} (h : P a) : Yields mem i P (.ret a : Cmd In Out W V α) :=
  fun s => ⟨a, s.mem, h, rfl⟩

lemma yields_peek {a : A} {k : V a → Cmd In Out W V α} (hk : ∀ v, Yields mem i P (k v)) :
    Yields mem i P (.peek a k) := by
  intro s
  rw [exec_peek]
  exact hk _ _

lemma Yields.bind {c : Cmd In Out W V α} (hc : Yields mem i P c) {f : α → Cmd In Out W V β}
    (hf : ∀ a, P a → Yields mem i Q (f a)) : Yields mem i Q (c >>= f) := by
  intro s
  obtain ⟨a, m, ha, h⟩ := hc s
  rw [exec_bind, h, Option.bind_some]
  exact hf a ha _

lemma yields_mapM {γ : Type} {f : γ → Cmd In Out W V β} (hf : ∀ x, Yields mem i Q (f x))
    (l : List γ) : Yields mem i (fun bs => ∀ b ∈ bs, Q b) (l.mapM f) := by
  induction l with
  | nil => exact yields_ret fun b hb => absurd hb List.not_mem_nil
  | cons x l ih =>
    rw [List.mapM_cons]
    refine (hf x).bind fun b hb => ih.bind fun bs hbs => yields_ret ?_
    exact List.forall_mem_cons.mpr ⟨hb, hbs⟩

/-- A loop whose turns are turns of `step`, each with data that it loads. -/
lemma yields_foldlM {γ δ : Type} [DecidableEq γ] [Inhabited δ] (step : δ → β → γ → β)
    {f : β → γ → Cmd In Out W V β} (hf : ∀ b x, Yields mem i (fun b' => ∃ d, b' = step d b x) (f b x))
    (l : List γ) (hl : l.Nodup) (b : β) :
    Yields mem i (fun b' => ∃ d : γ → δ, b' = l.foldl (fun b x => step (d x) b x) b)
      (l.foldlM f b) := by
  induction l generalizing b with
  | nil => exact yields_ret ⟨fun _ => default, rfl⟩
  | cons x l ih =>
    obtain ⟨hx, hl⟩ := List.nodup_cons.mp hl
    rw [List.foldlM_cons]
    refine (hf b x).bind fun b₁ hb₁ => ?_
    obtain ⟨d₀, rfl⟩ := hb₁
    intro s
    obtain ⟨b', m, ⟨d, rfl⟩, hrun⟩ := ih hl (step d₀ b x) s
    refine ⟨_, m, ⟨Function.update d x d₀, ?_⟩, hrun⟩
    -- `x` comes only once, so the turns behind it keep their data
    rw [List.foldl_cons, Function.update_self]
    refine List.foldl_ext _ _ _ fun b y hy => ?_
    have hyx : y ≠ x := fun h => hx (h ▸ hy)
    rw [Function.update_of_ne hyx]

end Exec

section Cells
variable [DecidableEq A] {γ : Type} (cell : γ → A) (v : (j : γ) → V (cell j))

/-- A cell stored to by one of a series of stores, each to a cell of its own. -/
lemma foldl_update (hc : Function.Injective cell) (xs : List γ) (m : (a : A) → V a) {j : γ}
    (hj : j ∈ xs) : xs.foldl (fun m j => Function.update m (cell j) (v j)) m (cell j) = v j := by
  induction xs using List.reverseRecOn with
  | nil => simp at hj
  | append_singleton xs x ih =>
    rw [List.foldl_append, List.foldl_cons, List.foldl_nil]
    by_cases h : j = x
    · subst h
      exact Function.update_self _ _ _
    · have hne : cell j ≠ cell x := fun he => h (hc he)
      rw [Function.update_of_ne hne]
      exact ih (by simpa [h] using hj)

/-- Other cells are left alone. -/
lemma foldl_update_of_ne (xs : List γ) (m : (a : A) → V a) {a : A} (ha : ∀ j ∈ xs, a ≠ cell j) :
    xs.foldl (fun m j => Function.update m (cell j) (v j)) m a = m a := by
  induction xs using List.reverseRecOn with
  | nil => rfl
  | append_singleton xs x ih =>
    rw [List.foldl_append, List.foldl_cons, List.foldl_nil,
      Function.update_of_ne (ha x (by simp))]
    exact ih fun j hj => ha j (by simp [hj])

end Cells

section Blocks
variable {L : Type} [DecidableEq In] [DecidableEq Out] (mem : Memory ι V) (i : ι)
  (body : L → Cmd In Out W V L)

/-- One block of a process run to its end. -/
def Block (x y : L × Io In Out W mem.State) : Prop := exec mem i (body x.1) x.2 = some y

/-- Any number of blocks of a process. -/
def Blocks : L × Io In Out W mem.State → L × Io In Out W mem.State → Prop :=
  Relation.ReflTransGen (Block mem i body)

/-- Blocks up to the next time the entry label is reached. -/
def Until (entry : L) : L × Io In Out W mem.State → L × Io In Out W mem.State → Prop :=
  Relation.ReflTransGen fun x y => x.1 ≠ entry ∧ Block mem i body x y

/-- One invocation: a block from the entry label and the blocks up to the next time it is
reached. -/
def Invokes (entry : L) (s t : Io In Out W mem.State) : Prop :=
  ∃ x, Block mem i body (entry,s) x ∧ Until mem i body entry x (entry,t)

variable {mem i body}

lemma Blocks.head {x y z : L × Io In Out W mem.State} (h : Block mem i body x y)
    (g : Blocks mem i body y z) : Blocks mem i body x z := Relation.ReflTransGen.head h g

lemma Blocks.trans {x y z : L × Io In Out W mem.State} (h : Blocks mem i body x y)
    (g : Blocks mem i body y z) : Blocks mem i body x z := Relation.ReflTransGen.trans h g

lemma Blocks.to {x y z : L × Io In Out W mem.State} (h : Blocks mem i body x y) (e : y = z) :
    Blocks mem i body x z := e ▸ h

lemma Block.deterministic {x y z : L × Io In Out W mem.State} (h : Block mem i body x y)
    (g : Block mem i body x z) : y = z := Option.some.inj (h.symm.trans g)

/-- A run that ends where no block can follow passes every state that can be reached. -/
lemma Blocks.passes {x y z : L × Io In Out W mem.State} (h : Blocks mem i body x y)
    (g : Blocks mem i body x z) (hz : ∀ u, ¬ Block mem i body z u) : Blocks mem i body y z := by
  induction h using Relation.ReflTransGen.head_induction_on with
  | refl => exact g
  | head hs _ ih =>
    rcases g.cases_head with he | ⟨u, hu, gu⟩
    · exact absurd (he ▸ hs) (hz _)
    · exact ih (Block.deterministic hs hu ▸ gu)

/-- Two runs that both end where no block can follow end in the same state. -/
lemma Blocks.stuck_unique {x y z : L × Io In Out W mem.State} (h : Blocks mem i body x y)
    (g : Blocks mem i body x z) (hy : ∀ u, ¬ Block mem i body y u)
    (hz : ∀ u, ¬ Block mem i body z u) : y = z := by
  rcases (h.passes g hz).cases_head with he | ⟨u, hu, _⟩
  · exact he
  · exact absurd hu (hy u)

lemma Until.head {entry : L} {x y z : L × Io In Out W mem.State} (hx : x.1 ≠ entry)
    (h : Block mem i body x y) (g : Until mem i body entry y z) : Until mem i body entry x z :=
  Relation.ReflTransGen.head ⟨hx, h⟩ g

lemma Blocks.inp_suffix {x y : L × Io In Out W mem.State} (h : Blocks mem i body x y) (p : In) :
    y.2.inp p <:+ x.2.inp p := by
  induction h with
  | refl => exact List.suffix_rfl
  | tail _ hb ih => exact (exec_inp_suffix mem i _ hb p).trans ih

lemma Until.to {entry : L} {x y z : L × Io In Out W mem.State} (h : Until mem i body entry x y)
    (e : y = z) : Until mem i body entry x z := e ▸ h

lemma Until.trans {entry : L} {x y z : L × Io In Out W mem.State} (h : Until mem i body entry x y)
    (g : Until mem i body entry y z) : Until mem i body entry x z :=
  Relation.ReflTransGen.trans h g

lemma Until.blocks {entry : L} {x y : L × Io In Out W mem.State}
    (h : Until mem i body entry x y) : Blocks mem i body x y :=
  Relation.ReflTransGen.mono (fun _ _ hh => hh.2) _ _ h

lemma Invokes.blocks {entry : L} {s t : Io In Out W mem.State}
    (h : Invokes mem i body entry s t) : Blocks mem i body (entry,s) (entry,t) := by
  obtain ⟨x, hx, hr⟩ := h
  exact .head hx hr.blocks

/-- The first block on the way back to the entry. -/
lemma Until.next {entry l : L} {s t : Io In Out W mem.State}
    (h : Until mem i body entry (l,s) (entry,t)) (hl : l ≠ entry) :
    ∃ y, Block mem i body (l,s) y ∧ Until mem i body entry y (entry,t) := by
  rcases h.cases_head with he | ⟨y, hy, g⟩
  · exact absurd (congrArg Prod.fst he) hl
  · exact ⟨y, hy.2, g⟩

/-- What each block away from the entry keeps holds up to the entry. -/
lemma Until.invariant {entry : L} {Inv : L × Io In Out W mem.State → Prop}
    (hstep : ∀ x y, x.1 ≠ entry → Block mem i body x y → Inv x → Inv y)
    {x y : L × Io In Out W mem.State} (h : Until mem i body entry x y) (hx : Inv x) : Inv y := by
  induction h with
  | refl => exact hx
  | tail _ hs ih => exact hstep _ _ hs.1 hs.2 ih

/-- The words a process reads on its way, where each label has a number of words still to read. -/
lemma Until.consumes {entry : L} (need : L → ℕ) (p : In)
    (hstep : ∀ x y, x.1 ≠ entry → Block mem i body x y →
      need x.1 + (y.2.inp p).length ≤ need y.1 + (x.2.inp p).length)
    {x y : L × Io In Out W mem.State} (h : Until mem i body entry x y) :
    need x.1 + (y.2.inp p).length ≤ need y.1 + (x.2.inp p).length := by
  induction h with
  | refl => exact le_rfl
  | tail _ hs ih =>
    have hb := hstep _ _ hs.1 hs.2
    omega

/-- A process is deterministic, so an invocation has one outcome. -/
lemma Invokes.deterministic {entry : L} {s t u : Io In Out W mem.State}
    (h : Invokes mem i body entry s t) (g : Invokes mem i body entry s u) : t = u := by
  obtain ⟨x, hx, hr⟩ := h
  obtain ⟨y, hy, gr⟩ := g
  obtain rfl := Block.deterministic hx hy
  clear hx hy
  induction hr using Relation.ReflTransGen.head_induction_on with
  | refl =>
    rcases gr.cases_head with he | ⟨z, hz, _⟩
    · exact (Prod.mk.inj he).2
    · exact absurd rfl hz.1
  | head hs _ ih =>
    rcases gr.cases_head with he | ⟨z, hz, gz⟩
    · exact absurd (congrArg Prod.fst he) hs.1
    · exact ih (Block.deterministic hs.2 hz.2 ▸ gz)

variable (mem i body) in
/-- `n` invocations in a row. -/
inductive InvokesN (entry : L) : ℕ → Io In Out W mem.State → Io In Out W mem.State → Prop
  | zero (s : Io In Out W mem.State) : InvokesN entry 0 s s
  | succ {n : ℕ} {s t u : Io In Out W mem.State} (h : InvokesN entry n s t)
      (g : Invokes mem i body entry t u) : InvokesN entry (n+1) s u

/-- Whatever a process has reached, it is at the entry or on its way back there, after some number
of invocations. -/
lemma Blocks.invocations {entry : L} {s : Io In Out W mem.State} {x : L × Io In Out W mem.State}
    (h : Blocks mem i body (entry,s) x) : ∃ n u, InvokesN mem i body entry n s u ∧
      (x = (entry,u) ∨ ∃ y, Block mem i body (entry,u) y ∧ Until mem i body entry y x) := by
  induction h with
  | refl => exact ⟨0, s, .zero s, .inl rfl⟩
  | @tail a b _ hb ih =>
    obtain ⟨n, u, hn, rfl | ⟨y, hy, hr⟩⟩ := ih
    · exact ⟨n, u, hn, .inr ⟨b, hb, .refl⟩⟩
    · by_cases ha : a.1 = entry
      · obtain ⟨l, v⟩ := a
        obtain rfl : l = entry := ha
        exact ⟨n+1, v, .succ hn ⟨y, hy, hr⟩, .inr ⟨b, hb, .refl⟩⟩
      · exact ⟨n, u, hn, .inr ⟨y, hy, hr.tail ⟨ha, hb⟩⟩⟩

lemma InvokesN.blocks {entry : L} {n : ℕ} {s t : Io In Out W mem.State}
    (h : InvokesN mem i body entry n s t) : Blocks mem i body (entry,s) (entry,t) := by
  induction h with
  | zero => exact .refl
  | succ _ g ih => exact ih.trans g.blocks

lemma InvokesN.deterministic {entry : L} {n : ℕ} {s t u : Io In Out W mem.State}
    (h : InvokesN mem i body entry n s t) (g : InvokesN mem i body entry n s u) : t = u := by
  induction h generalizing u with
  | zero =>
    cases g
    rfl
  | succ _ hs ih =>
    cases g with
    | succ g gs =>
      obtain rfl := ih g
      exact hs.deterministic gs

/-- A chain of `k` invocations is the only one of its length. -/
lemma invokesN_iff_of_le {entry : L} {k : ℕ} {s : ℕ → Io In Out W mem.State}
    {u : Io In Out W mem.State} (h0 : s 0 = u)
    (hs : ∀ n < k, Invokes mem i body entry (s n) (s (n+1))) {n : ℕ} (hn : n ≤ k)
    (t : Io In Out W mem.State) : InvokesN mem i body entry n u t ↔ t = s n := by
  induction n generalizing t with
  | zero =>
    rw [h0]
    constructor
    · rintro ⟨⟩
      rfl
    · rintro rfl
      exact .zero _
  | succ n ih =>
    constructor
    · rintro (_ | ⟨h, g⟩)
      obtain rfl := (ih (by omega) _).mp h
      exact g.deterministic (hs n hn)
    · rintro rfl
      exact .succ ((ih (by omega) _).mpr rfl) (hs n hn)

/-- A process with a chain of `k` invocations and no more has just the runs along that chain. -/
lemma invokesN_iff {entry : L} {k : ℕ} {s : ℕ → Io In Out W mem.State}
    {u : Io In Out W mem.State} (h0 : s 0 = u)
    (hs : ∀ n < k, Invokes mem i body entry (s n) (s (n+1)))
    (hk : ∀ t, ¬ Invokes mem i body entry (s k) t) (n : ℕ) (t : Io In Out W mem.State) :
    InvokesN mem i body entry n u t ↔ n ≤ k ∧ t = s n := by
  have hle : ∀ n t, InvokesN mem i body entry n u t → n ≤ k := by
    intro n t h
    induction h with
    | zero => exact Nat.zero_le k
    | succ h g ih =>
      have hn := ih h0
      refine lt_of_le_of_ne hn fun he => ?_
      obtain rfl := (invokesN_iff_of_le h0 hs hn _).mp h
      exact hk _ (he ▸ g)
  constructor
  · intro h
    exact ⟨hle n t h, (invokesN_iff_of_le h0 hs (hle n t h) t).mp h⟩
  · rintro ⟨hn, ht⟩
    exact (invokesN_iff_of_le h0 hs hn t).mpr ht

end Blocks

/-! The cells a command uses. -/

section Accesses
variable {In Out W A : Type} {V : A → Type} {α β : Type}

/-- The command loads only from cells in `ld` and stores only to cells in `st`. -/
inductive Cmd.Accesses (ld st : A → Prop) : Cmd In Out W V α → Prop
  | ret (a : α) : Accesses ld st (.ret a)
  | recv {p k} (h : ∀ w, Accesses ld st (k w)) : Accesses ld st (.recv p k)
  | send {q w k} (h : Accesses ld st k) : Accesses ld st (.send q w k)
  | peek {a k} (ha : ld a) (h : ∀ v, Accesses ld st (k v)) : Accesses ld st (.peek a k)
  | poke {a v k} (ha : st a) (h : Accesses ld st k) : Accesses ld st (.poke a v k)

variable {ld st : A → Prop}

@[simp] lemma accesses_ret (a : α) : (.ret a : Cmd In Out W V α).Accesses ld st := .ret a

@[simp] lemma accesses_recv {p : In} {k : W → Cmd In Out W V α} :
    (Cmd.recv p k).Accesses ld st ↔ ∀ w, (k w).Accesses ld st :=
  ⟨fun h => by cases h; assumption, .recv⟩

@[simp] lemma accesses_send {q : Out} {w : W} {k : Cmd In Out W V α} :
    (Cmd.send q w k).Accesses ld st ↔ k.Accesses ld st :=
  ⟨fun h => by cases h; assumption, .send⟩

@[simp] lemma accesses_peek {a : A} {k : V a → Cmd In Out W V α} :
    (Cmd.peek a k).Accesses ld st ↔ ld a ∧ ∀ v, (k v).Accesses ld st :=
  ⟨fun h => by cases h; exact ⟨‹_›, ‹_›⟩, fun h => .peek h.1 h.2⟩

@[simp] lemma accesses_poke {a : A} {v : V a} {k : Cmd In Out W V α} :
    (Cmd.poke a v k).Accesses ld st ↔ st a ∧ k.Accesses ld st :=
  ⟨fun h => by cases h; exact ⟨‹_›, ‹_›⟩, fun h => .poke h.1 h.2⟩

lemma Cmd.Accesses.mono {ld' st' : A → Prop} (hld : ∀ a, ld a → ld' a) (hst : ∀ a, st a → st' a)
    {c : Cmd In Out W V α} (h : c.Accesses ld st) : c.Accesses ld' st' := by
  induction h with
  | ret a => exact .ret a
  | recv _ ih => exact .recv ih
  | send _ ih => exact .send ih
  | peek ha _ ih => exact .peek (hld _ ha) ih
  | poke ha _ ih => exact .poke (hst _ ha) ih

lemma Cmd.accesses_any (c : Cmd In Out W V α) : c.Accesses (fun _ => True) fun _ => True := by
  induction c with
  | ret a => exact .ret a
  | recv p k ih => exact .recv ih
  | send q w k ih => exact .send ih
  | peek a k ih => exact .peek trivial ih
  | poke a v k ih => exact .poke trivial ih

lemma Cmd.Accesses.bind {c : Cmd In Out W V α} (h : c.Accesses ld st) {f : α → Cmd In Out W V β}
    (hf : ∀ a, (f a).Accesses ld st) : (c >>= f).Accesses ld st := by
  induction h with
  | ret a => exact hf a
  | recv _ ih => exact .recv ih
  | send _ ih => exact .send ih
  | peek ha _ ih => exact .peek ha ih
  | poke ha _ ih => exact .poke ha ih

lemma accesses_foldlM {γ : Type} {f : β → γ → Cmd In Out W V β}
    (hf : ∀ b x, (f b x).Accesses ld st) (l : List γ) (b : β) : (l.foldlM f b).Accesses ld st := by
  induction l generalizing b with
  | nil => exact .ret b
  | cons x l ih =>
    rw [List.foldlM_cons]
    exact (hf b x).bind ih

lemma accesses_mapM {γ : Type} {f : γ → Cmd In Out W V β} (hf : ∀ x, (f x).Accesses ld st)
    (l : List γ) : (l.mapM f).Accesses ld st := by
  induction l with
  | nil => exact .ret []
  | cons x l ih =>
    rw [List.mapM_cons]
    exact (hf x).bind fun _ => ih.bind fun _ => .ret _

lemma accesses_readInto_bind (p : In) (n : ℕ) (ws : List W) {f : List W → Cmd In Out W V β}
    (hf : ∀ us, (f us).Accesses ld st) : (readInto p n ws >>= f).Accesses ld st := by
  induction n generalizing ws with
  | zero => exact hf ws
  | succ n ih => exact .recv fun w => ih _

lemma accesses_passInto_bind (p : In) (q : Out) (n : ℕ) (ws : List W)
    {f : List W → Cmd In Out W V β} (hf : ∀ us, (f us).Accesses ld st) :
    (passInto p q n ws >>= f).Accesses ld st := by
  induction n generalizing ws with
  | zero => exact hf ws
  | succ n ih => exact .recv fun w => .send (ih _)

lemma accesses_writeAll_bind (q : Out) (ws : List W) {f : Unit → Cmd In Out W V β}
    (hf : (f ()).Accesses ld st) : (writeAll q ws >>= f).Accesses ld st := by
  induction ws with
  | nil => exact hf
  | cons w ws ih => exact .send ih

lemma accesses_forEach_bind {γ : Type} (cell : γ → A) (value : (x : γ) → V (cell x)) (l : List γ)
    (hst : ∀ x, st (cell x)) {f : Unit → Cmd In Out W V β} (hf : (f ()).Accesses ld st) :
    (forEach l (fun x => storeCell (cell x) (value x)) >>= f).Accesses ld st := by
  induction l with
  | nil => exact hf
  | cons x l ih =>
    rw [forEach, storeCell_bind]
    exact .poke (hst x) ih

end Accesses

end EncryptionAccelerators.Dataflow
