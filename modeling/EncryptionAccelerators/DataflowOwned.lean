import EncryptionAccelerators.DataflowTrace

/-! Networks whose processes share a memory of which each owns some cells. A process finds in its own
cells what it has stored there; what it finds in the others is up to the order of the steps. -/
namespace EncryptionAccelerators.Dataflow

variable {ι W A : Type} {V : A → Type}

/-- A cell with an owner holds what the owner stored last. The other loads follow a script, one for
each process, and the other stores are forgotten. -/
def Memory.owned (V : A → Type) [DecidableEq ι] [DecidableEq A] (own : A → Option ι) :
    Memory ι V where
  State := (ι → ℕ → (a : A) → V a) × ((a : A) → V a)
  load i a m :=
    if own a = some i then (m.2 a,m)
    else (m.1 i 0 a,(Function.update m.1 i fun n => m.1 i (n+1),m.2))
  store i a v m := if own a = some i then (m.1,Function.update m.2 a v) else m

section Cells
variable {own : A → Option ι}

/-- The cells with an owner from `m`, the others from `m₀`. -/
def ownedCells (own : A → Option ι) (m₀ m : (a : A) → V a) : (a : A) → V a :=
  fun a => if own a = none then m₀ a else m a

lemma ownedCells_self (m : (a : A) → V a) : ownedCells own m m = m := funext fun _ => ite_self _

lemma ownedCells_of_owner {m₀ m : (a : A) → V a} {a : A} {i : ι} (ha : own a = some i) :
    ownedCells own m₀ m a = m a := by simp [ownedCells, ha]

lemma ownedCells_update [DecidableEq A] {m₀ m : (a : A) → V a} {a : A} (ha : own a = none) (v : V a) :
    ownedCells own m₀ (Function.update m a v) = ownedCells own m₀ m := by
  funext b
  by_cases hb : b = a
  · subst hb
    simp [ownedCells, ha]
  · simp [ownedCells, hb]

end Cells

section Owned
variable [DecidableEq ι] [DecidableEq A] {own : A → Option ι}

lemma owned_load {i : ι} {a : A} (h : own a = some i) (m : (Memory.owned V own).State) :
    (Memory.owned V own).load i a m = (m.2 a,m) := if_pos h

lemma owned_load_script {i : ι} {a : A} (h : own a ≠ some i) (m : (Memory.owned V own).State) :
    (Memory.owned V own).load i a m =
      (m.1 i 0 a,(Function.update m.1 i fun n => m.1 i (n+1),m.2)) := if_neg h

lemma owned_store {i : ι} {a : A} (h : own a = some i) (v : V a) (m : (Memory.owned V own).State) :
    (Memory.owned V own).store i a v m = (m.1,Function.update m.2 a v) := if_pos h

lemma owned_store_other {i : ι} {a : A} (h : own a ≠ some i) (v : V a)
    (m : (Memory.owned V own).State) : (Memory.owned V own).store i a v m = m := if_neg h

/-- A store to a cell without an owner is forgotten. -/
lemma owned_store_cells {i : ι} {a : A} (ha : own a = none ∨ own a = some i) (v : V a)
    (script : ι → ℕ → (a : A) → V a) (m₀ m : (a : A) → V a) :
    (Memory.owned V own).store i a v (script,ownedCells own m₀ m) =
      (script,ownedCells own m₀ (Function.update m a v)) := by
  have hcell (b : A) : (if own a = some i then Function.update (ownedCells own m₀ m) a v
      else ownedCells own m₀ m) b = ownedCells own m₀ (Function.update m a v) b := by
    by_cases hb : b = a
    · subst hb
      rcases ha with ha | ha <;> simp [ownedCells, ha]
    · split_ifs <;> simp [ownedCells, hb]
  rcases ha with ha | ha
  · refine (owned_store_other (by simp [ha]) v _).trans (Prod.ext rfl (funext fun b => ?_))
    simpa [ha] using hcell b
  · refine (owned_store ha v _).trans (Prod.ext rfl (funext fun b => ?_))
    simpa [ha] using hcell b

/-- A cell has one owner, and each process a script of its own. -/
lemma owned_independent : (Memory.owned V own).Independent where
  load_load {i j} hij a b m := by
    by_cases ha : own a = some i <;> by_cases hb : own b = some j
    · simp [Memory.owned, ha, hb]
      rfl
    · simp [Memory.owned, ha, hb]
    · simp [Memory.owned, ha, hb]
    · simp [Memory.owned, ha, hb, hij, hij.symm, Function.update_comm hij]
  load_store {i j} hij a b v m := by
    by_cases ha : own a = some i <;> by_cases hb : own b = some j
    · have hne : b ≠ a := by
        rintro rfl
        exact hij (Option.some.inj (ha.symm.trans hb))
      simp [Memory.owned, ha, hb, hne]
    · simp [Memory.owned, ha, hb]
    · simp [Memory.owned, ha, hb]
      rfl
    · simp [Memory.owned, ha, hb]
  store_store {i j} hij a b v w m := by
    by_cases ha : own a = some i <;> by_cases hb : own b = some j
    · have hne : a ≠ b := by
        rintro rfl
        exact hij (Option.some.inj (ha.symm.trans hb))
      simp [Memory.owned, ha, hb, Function.update_comm hne]
    · simp [Memory.owned, ha, hb]
    · simp [Memory.owned, ha, hb]
    · simp [Memory.owned, ha, hb]
      rfl

/-- A process that accesses no cell of its own leaves the owned cells alone. -/
lemma exec_owned_frame {In Out α : Type} [DecidableEq In] [DecidableEq Out] (i : ι)
    {c : Cmd In Out W V α} (hc : c.Accesses (own · ≠ some i) (own · ≠ some i))
    {s t : Io In Out W (Memory.owned V own).State} {a : α}
    (h : exec (Memory.owned V own) i c s = some (a,t)) : t.mem.2 = s.mem.2 := by
  induction c generalizing s with
  | ret b =>
    obtain ⟨rfl, rfl⟩ := Prod.mk.inj (Option.some.inj h)
    rfl
  | recv p k ih =>
    obtain ⟨w, ws, -, he⟩ := exists_of_exec_recv _ _ h
    exact (ih w (accesses_recv.mp hc w) he :)
  | send q w k ih =>
    exact (ih (accesses_send.mp hc) ((exec_send _ _ q w k s).symm.trans h) :)
  | peek b k ih =>
    obtain ⟨hb, hk⟩ := accesses_peek.mp hc
    rw [exec_peek, owned_load_script hb] at h
    exact (ih _ (hk _) h :)
  | poke b v k ih =>
    obtain ⟨hb, hk⟩ := accesses_poke.mp hc
    rw [exec_poke, owned_store_other hb] at h
    exact ih hk h

lemma blocks_owned_frame {In Out L : Type} [DecidableEq In] [DecidableEq Out] (i : ι)
    {body : L → Cmd In Out W V L} (hb : ∀ l, (body l).Accesses (own · ≠ some i) (own · ≠ some i))
    {x y : L × Io In Out W (Memory.owned V own).State}
    (h : Blocks (Memory.owned V own) i body x y) : y.2.mem.2 = x.2.mem.2 := by
  induction h with
  | refl => rfl
  | tail _ hs ih => exact (exec_owned_frame i (hb _) hs).trans ih

end Owned

/-! Runs on shared memory as runs on owned memory. -/

namespace Network
variable {C : Type} {N : Network ι C W V} [DecidableEq ι] [DecidableEq C] [DecidableEq A]
  {cap : C → ℕ∞} (own : A → Option ι)

omit [DecidableEq A] in
/-- What the bodies access at most is all that is left to access. -/
lemma StepAt.accesses {mem : Memory ι V} {ld st : ι → A → Prop} {i : ι} {s t : N.State mem.State}
    (hbody : ∀ i l, (N.body i l).Accesses (ld i) (st i)) (h : N.StepAt mem cap i s t)
    (hs : ∀ j, (s.code j).Accesses (ld j) (st j)) (j : ι) : (t.code j).Accesses (ld j) (st j) := by
  by_cases hj : j = i
  · subst hj
    have hcode := hs j
    cases h with
    | call hc =>
      simp only [Function.update_self]
      exact hbody j _
    | read hc hf =>
      rw [hc, accesses_recv] at hcode
      simp only [Function.update_self]
      exact hcode _
    | write hc room =>
      rw [hc, accesses_send] at hcode
      simp only [Function.update_self]
      exact hcode
    | load hc =>
      rw [hc, accesses_peek] at hcode
      simp only [Function.update_self]
      exact hcode.2 _
    | store hc =>
      rw [hc, accesses_poke] at hcode
      simp only [Function.update_self]
      exact hcode.2
  · rw [h.code_ne hj]
    exact hs j

/-- No process is about to store to a cell that another one owns. -/
def Keeps {M : Type} (s : N.State M) : Prop :=
  ∀ i, (s.code i).Accesses (fun _ => True) fun a => own a = none ∨ own a = some i

variable {own}

omit [DecidableEq A] in
lemma StepAt.keeps {mem : Memory ι V} {i : ι} {s t : N.State mem.State}
    (hbody : ∀ i l, (N.body i l).Accesses (fun _ => True) fun a => own a = none ∨ own a = some i)
    (h : N.StepAt mem cap i s t) (hs : Keeps own s) : Keeps own t := h.accesses hbody hs

omit [DecidableEq A] in
lemma Run.keeps {mem : Memory ι V} {s t : N.State mem.State}
    (hbody : ∀ i l, (N.body i l).Accesses (fun _ => True) fun a => own a = none ∨ own a = some i)
    (h : N.Run mem cap s t) (hs : Keeps own s) : Keeps own t := by
  induction h with
  | refl => exact hs
  | tail _ hstep ih =>
    obtain ⟨i, hi⟩ := hstep
    exact hi.keeps hbody ih

section Script
variable (own)

/-- The state on owned memory, with a script for the loads still to come. -/
def State.owned (m₀ : (a : A) → V a) (s : N.State (Memory.shared ι V).State)
    (script : ι → ℕ → (a : A) → V a) : N.State (Memory.owned V own).State where
  code := s.code
  fifo := s.fifo
  mem := (script,ownedCells own m₀ s.mem)

/-- Process `i` is about to load from a cell that is not its own. -/
def LoadsOther {M : Type} (s : N.State M) (i : ι) : Prop := ∃ a k, s.code i = .peek a k ∧ own a ≠ some i

open Classical in
/-- The script before a step of process `i` from `s`, given the script after it. -/
noncomputable def rewind (s : N.State (Memory.shared ι V).State) (i : ι)
    (script : ι → ℕ → (a : A) → V a) : ι → ℕ → (a : A) → V a :=
  if LoadsOther own s i then Function.update script i fun
    | 0 => s.mem
    | k+1 => script i k
  else script

variable {own}

/-- A step on shared memory is one on owned memory, for every script of what follows. -/
lemma StepAt.owned {i : ι} {s t : N.State (Memory.shared ι V).State}
    (h : N.StepAt (Memory.shared ι V) cap i s t) (hs : Keeps own s) (m₀ : (a : A) → V a)
    (script : ι → ℕ → (a : A) → V a) : N.StepAt (Memory.owned V own) cap i
      (s.owned own m₀ (rewind own s i script)) (t.owned own m₀ script) := by
  have hkeep := hs i
  -- only a load from a cell that is not its own takes an entry of the script
  have hsame (hl : ¬ LoadsOther own s i) : rewind own s i script = script := if_neg hl
  cases h with
  | call hc =>
    rw [hsame (by simp [LoadsOther, hc])]
    exact .call hc
  | read hc hf =>
    rw [hsame (by simp [LoadsOther, hc])]
    exact .read hc hf
  | write hc room =>
    rw [hsame (by simp [LoadsOther, hc])]
    exact .write hc room
  | @load a k hc =>
    by_cases ha : own a = some i
    · have hl : ¬ LoadsOther own s i := by
        rintro ⟨b, k', hc', hb⟩
        cases hc.symm.trans hc'
        exact hb ha
      rw [hsame hl]
      refine .load_of hc ((owned_load ha _).trans ?_)
      exact Prod.ext (ownedCells_of_owner ha) rfl
    · have hl : LoadsOther own s i := ⟨a, k, hc, ha⟩
      refine .load_of hc ((owned_load_script ha _).trans ?_)
      simp only [State.owned, rewind, if_pos hl, Function.update_self, Function.update_idem,
        Function.update_eq_self]
      rfl
  | @store a v k hc =>
    rw [hc, accesses_poke] at hkeep
    rw [hsame (by simp [LoadsOther, hc])]
    have hend : State.owned own m₀ (⟨Function.update s.code i k,s.fifo,
        (Memory.shared ι V).store i a v s.mem⟩ : N.State (Memory.shared ι V).State) script =
          ⟨Function.update s.code i k,s.fifo,
            (Memory.owned V own).store i a v (s.owned own m₀ script).mem⟩ :=
      congrArg (State.mk _ _) (owned_store_cells hkeep.1 v script m₀ s.mem).symm
    rw [hend]
    exact .store hc

/-- A run on shared memory is a run on owned memory, for every script of what follows. -/
theorem Run.owned {s t : N.State (Memory.shared ι V).State}
    (hbody : ∀ i l, (N.body i l).Accesses (fun _ => True) fun a => own a = none ∨ own a = some i)
    (h : N.Run (Memory.shared ι V) cap s t) (hs : Keeps own s) (m₀ : (a : A) → V a)
    (script : ι → ℕ → (a : A) → V a) :
    ∃ m, N.Run (Memory.owned V own) cap (s.owned own m₀ m) (t.owned own m₀ script) := by
  induction h generalizing script with
  | refl => exact ⟨script, .refl⟩
  | @tail u t hr hstep ih =>
    obtain ⟨i, hi⟩ := hstep
    obtain ⟨m, hm⟩ := ih (rewind own u i script)
    exact ⟨m, hm.tail ⟨i, hi.owned (Run.keeps hbody hr hs) m₀ script⟩⟩

/-! The script of a run without an end. -/

section Endless
variable (own) (x : ℕ → N.State (Memory.shared ι V).State) (act : ℕ → ι)

/-- Step `n` of the run is a load of process `i` from a cell that is not its own. -/
def Loads (i : ι) (n : ℕ) : Prop := act n = i ∧ LoadsOther own (x n) i

/-- The first of these steps from `n` on. -/
noncomputable def nextLoad (i : ι) (n : ℕ) : ℕ := sInf {t | n ≤ t ∧ Loads own x act i t}

/-- What process `i` finds at its loads from step `n` on. -/
noncomputable def scriptFrom (i : ι) : ℕ → ℕ → (a : A) → V a
  | 0, n => (x (nextLoad own x act i n)).mem
  | k+1, n => scriptFrom i k (nextLoad own x act i n + 1)

variable {own x act}

omit [DecidableEq ι] [DecidableEq C] in
lemma nextLoad_self {i : ι} {n : ℕ} (h : Loads own x act i n) : nextLoad own x act i n = n := by
  have hmem : n ∈ {t | n ≤ t ∧ Loads own x act i t} := ⟨le_rfl, h⟩
  exact le_antisymm (Nat.sInf_le hmem) (Nat.sInf_mem ⟨n, hmem⟩).1

omit [DecidableEq ι] [DecidableEq C] in
lemma nextLoad_succ {i : ι} {n : ℕ} (h : ¬ Loads own x act i n) :
    nextLoad own x act i n = nextLoad own x act i (n+1) := by
  refine congrArg sInf (Set.ext fun t => ?_)
  constructor
  · rintro ⟨ht, hl⟩
    refine ⟨lt_of_le_of_ne ht ?_, hl⟩
    rintro rfl
    exact h hl
  · rintro ⟨ht, hl⟩
    exact ⟨Nat.le_of_succ_le ht, hl⟩

omit [DecidableEq ι] [DecidableEq C] in
/-- Other steps leave the script as it is. -/
lemma scriptFrom_succ {i : ι} {n : ℕ} (h : ¬ Loads own x act i n) (k : ℕ) :
    scriptFrom own x act i k n = scriptFrom own x act i k (n+1) := by
  cases k with
  | zero => rw [scriptFrom, scriptFrom, nextLoad_succ h]
  | succ k => rw [scriptFrom, scriptFrom, nextLoad_succ h]

omit [DecidableEq C] in
/-- The script is the one that the script after the next step leads back to. -/
lemma scriptFrom_rewind (n : ℕ) : (fun i k => scriptFrom own x act i k n) =
    rewind own (x n) (act n) fun i k => scriptFrom own x act i k (n+1) := by
  funext i
  by_cases hl : LoadsOther own (x n) (act n)
  · rw [rewind, if_pos hl]
    by_cases hi : i = act n
    · subst hi
      have hload : Loads own x act (act n) n := ⟨rfl, hl⟩
      rw [Function.update_self]
      funext k
      cases k with
      | zero => rw [scriptFrom, nextLoad_self hload]
      | succ k => rw [scriptFrom, nextLoad_self hload]
    · rw [Function.update_of_ne hi]
      exact funext (scriptFrom_succ fun h => hi h.1.symm)
  · rw [rewind, if_neg hl]
    refine funext (scriptFrom_succ fun h => hl ?_)
    obtain rfl := h.1
    exact h.2

end Endless

end Script

end Network

end EncryptionAccelerators.Dataflow
