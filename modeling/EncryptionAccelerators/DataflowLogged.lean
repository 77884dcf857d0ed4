import EncryptionAccelerators.DataflowOwned

/-! Memories that keep a log of the stores of each process: what a process has stored at some point
of a run is the start of what it stores in the run that goes on until all processes wait. -/
namespace EncryptionAccelerators.Dataflow
variable {ι W A : Type} {V : A → Type} [DecidableEq ι]

/-- The memory with the stores each process has made, in their order. -/
@[reducible] def Memory.logged (mem : Memory ι V) : Memory ι V where
  State := mem.State × (ι → List (Sigma V))
  load i a m := ((mem.load i a m.1).1,((mem.load i a m.1).2,m.2))
  store i a v m := (mem.store i a v m.1,Function.update m.2 i (m.2 i ++ [⟨a,v⟩]))

/-- The cells after a list of stores. -/
def afterStores [DecidableEq A] (cells : (a : A) → V a) (stores : List (Sigma V)) : (a : A) → V a :=
  stores.foldl (fun cells e => Function.update cells e.1 e.2) cells

lemma afterStores_concat [DecidableEq A] (cells : (a : A) → V a) (stores : List (Sigma V)) (a : A)
    (v : V a) : afterStores cells (stores ++ [⟨a,v⟩]) =
      Function.update (afterStores cells stores) a v := List.foldl_concat ..

/-- What a command is about to store. -/
def Cmd.nextStore {In Out α : Type} : Cmd In Out W V α → Option (Sigma V)
  | poke a v _ => some ⟨a,v⟩
  | _ => none

lemma Cmd.Accesses.nextStore {In Out α : Type} {ld st : A → Prop} {c : Cmd In Out W V α}
    (h : c.Accesses ld st) {e : Sigma V} (he : c.nextStore = some e) : st e.1 := by
  cases h with
  | poke ha => exact Option.some.inj he ▸ ha
  | ret | recv | send | peek => cases he

section Logged
variable {mem : Memory ι V}

lemma logged_independent (hm : mem.Independent) : mem.logged.Independent where
  load_load hij a b m :=
    ⟨(hm.load_load hij a b m.1).1, Prod.ext (hm.load_load hij a b m.1).2 rfl⟩
  load_store hij a b v m :=
    ⟨(hm.load_store hij a b v m.1).1, Prod.ext (hm.load_store hij a b v m.1).2 rfl⟩
  store_store {i j} hij a b v w m := by
    refine Prod.ext (hm.store_store hij a b v w m.1) ?_
    simp [hij, hij.symm, Function.update_comm hij]

lemma log_store (i : ι) (a : A) (v : V a) (m : mem.logged.State) :
    (mem.logged.store i a v m).2 i = m.2 i ++ [⟨a,v⟩] := Function.update_self ..

lemma log_prefix (i j : ι) (a : A) (v : V a) (m : mem.logged.State) :
    m.2 j <+: (mem.logged.store i a v m).2 j := by
  by_cases hj : j = i
  · subst hj
    simp
  · simp [hj]

section Exec
variable {In Out α : Type} [DecidableEq In] [DecidableEq Out] {i : ι} {c : Cmd In Out W V α}
  {s t : Io In Out W mem.logged.State} {a : α}

/-- The logs of the other processes stay. -/
lemma exec_log_frame {j : ι} (hj : j ≠ i) (h : exec mem.logged i c s = some (a,t)) :
    t.mem.2 j = s.mem.2 j := by
  induction c generalizing s with
  | ret b =>
    obtain ⟨rfl, rfl⟩ := Prod.mk.inj (Option.some.inj h)
    rfl
  | recv p k ih =>
    obtain ⟨w, ws, -, he⟩ := exists_of_exec_recv _ _ h
    exact (ih w he :)
  | send q w k ih => exact (ih ((exec_send _ _ q w k s).symm.trans h) :)
  | peek b k ih => exact (ih _ ((exec_peek _ _ b k s).symm.trans h) :)
  | poke b v k ih =>
    exact (ih ((exec_poke _ _ b v k s).symm.trans h)).trans (Function.update_of_ne hj _ _)

variable {L : Type} {body : L → Cmd In Out W V L} {x y : L × Io In Out W mem.logged.State}

lemma blocks_log_frame {j : ι} (hj : j ≠ i) (h : Blocks mem.logged i body x y) :
    y.2.mem.2 j = x.2.mem.2 j := by
  induction h with
  | refl => rfl
  | tail _ hs ih => exact (exec_log_frame hj hs).trans ih

end Exec

namespace Network
variable {C : Type} {N : Network ι C W V} [DecidableEq C] {cap : C → ℕ∞}

/-- A step adds to the log of its process what this was about to store. -/
lemma StepAt.logged {i : ι} {s t : N.State mem.State} (h : N.StepAt mem cap i s t)
    (log : ι → List (Sigma V)) : N.StepAt mem.logged cap i ⟨s.code,s.fifo,(s.mem,log)⟩
      ⟨t.code,t.fifo,(t.mem,Function.update log i (log i ++ (s.code i).nextStore.toList))⟩ := by
  have hsame (hn : (s.code i).nextStore = none) :
      Function.update log i (log i ++ (s.code i).nextStore.toList) = log := by simp [hn]
  cases h with
  | call hc =>
    rw [hsame (congrArg Cmd.nextStore hc)]
    exact .call hc
  | read hc hf =>
    rw [hsame (congrArg Cmd.nextStore hc)]
    exact .read hc hf
  | write hc room =>
    rw [hsame (congrArg Cmd.nextStore hc)]
    exact .write hc room
  | load hc =>
    rw [hsame (congrArg Cmd.nextStore hc)]
    exact .load_of hc rfl
  | @store a v k hc =>
    have hn : (s.code i).nextStore = some ⟨a,v⟩ := congrArg Cmd.nextStore hc
    rw [hn]
    exact .store hc

/-- Every run is one with a log. -/
lemma Run.logged {s t : N.State mem.State} (h : N.Run mem cap s t) (log : ι → List (Sigma V)) :
    ∃ log', N.Run mem.logged cap ⟨s.code,s.fifo,(s.mem,log)⟩ ⟨t.code,t.fifo,(t.mem,log')⟩ := by
  induction h with
  | refl => exact ⟨log, .refl⟩
  | tail _ hs ih =>
    obtain ⟨log', hr⟩ := ih
    obtain ⟨i, hi⟩ := hs
    exact ⟨_, hr.tail ⟨i, hi.logged log'⟩⟩

lemma Run.log_grows {s t : N.State mem.logged.State} (h : N.Run mem.logged cap s t) (j : ι) :
    s.mem.2 j <+: t.mem.2 j := by
  induction h with
  | refl => exact List.prefix_rfl
  | tail _ hs ih =>
    obtain ⟨i, hi⟩ := hs
    refine ih.trans ?_
    cases hi with
    | call => exact List.prefix_rfl
    | read => exact List.prefix_rfl
    | write => exact List.prefix_rfl
    | load => exact List.prefix_rfl
    | store => exact log_prefix _ _ _ _ _

end Network

end Logged

/-! What a process has stored in the cells it owns. -/

section Owned
variable [DecidableEq A] {own : A → Option ι}

/-- The owned cells hold what their owners have stored, from the cells `cells` on. -/
def Tracks (own : A → Option ι) (cells : (a : A) → V a) (m : (Memory.owned V own).logged.State) : Prop :=
  ∀ a i, own a = some i → m.1.2 a = afterStores cells (m.2 i) a

lemma owned_load_cells (i : ι) (a : A) (m : (Memory.owned V own).State) :
    ((Memory.owned V own).load i a m).2.2 = m.2 := by
  by_cases ha : own a = some i
  · rw [owned_load ha]
  · rw [owned_load_script ha]

lemma Tracks.store {cells : (a : A) → V a} {m : (Memory.owned V own).logged.State}
    (h : Tracks own cells m) (i : ι) (a : A) (v : V a) :
    Tracks own cells ((Memory.owned V own).logged.store i a v m) := by
  intro b j hb
  have hbj := h b j hb
  by_cases hj : j = i
  · subst hj
    rw [log_store, afterStores_concat]
    by_cases ha : own a = some j
    · have hcells : ((Memory.owned V own).logged.store j a v m).1.2 = Function.update m.1.2 a v :=
        congrArg Prod.snd (owned_store ha v m.1)
      rw [hcells]
      by_cases hab : b = a
      · subst hab
        simp
      · rw [Function.update_of_ne hab, Function.update_of_ne hab, hbj]
    · have hcells : ((Memory.owned V own).logged.store j a v m).1.2 = m.1.2 :=
        congrArg Prod.snd (owned_store_other ha v m.1)
      have hab : b ≠ a := by
        rintro rfl
        exact ha hb
      rw [hcells, Function.update_of_ne hab, hbj]
  · have hlog : ((Memory.owned V own).logged.store i a v m).2 j = m.2 j := Function.update_of_ne hj ..
    rw [hlog, ← hbj]
    by_cases ha : own a = some i
    · have hab : b ≠ a := by
        rintro rfl
        exact hj (Option.some.inj (hb.symm.trans ha))
      have hcells : ((Memory.owned V own).logged.store i a v m).1.2 = Function.update m.1.2 a v :=
        congrArg Prod.snd (owned_store ha v m.1)
      rw [hcells, Function.update_of_ne hab]
    · exact congrFun (congrArg Prod.snd (owned_store_other ha v m.1)) b

namespace Network
variable {C : Type} {N : Network ι C W V} [DecidableEq C] {cap : C → ℕ∞}

lemma Run.tracks {cells : (a : A) → V a} {s t : N.State (Memory.owned V own).logged.State}
    (h : N.Run (Memory.owned V own).logged cap s t) (hs : Tracks own cells s.mem) :
    Tracks own cells t.mem := by
  induction h with
  | refl => exact hs
  | tail _ hs ih =>
    obtain ⟨i, hi⟩ := hs
    cases hi with
    | call => exact ih
    | read => exact ih
    | write => exact ih
    | load =>
      intro b j hb
      exact (congrFun (owned_load_cells _ _ _) b).trans (ih b j hb)
    | store => exact ih.store _ _ _

/-- In every run each process has stored in its cells the start of what it stores in a run that goes on
until all processes wait. -/
theorem Run.stores {s t : N.State (Memory.owned V own).State} (h : N.Run (Memory.owned V own) cap s t)
    {f : N.State (Memory.owned V own).logged.State} (hf : N.Run (Memory.owned V own).logged (fun _ => ⊤)
      ⟨s.code,s.fifo,(s.mem,fun _ => [])⟩ f) (hst : N.Starved f) (i : ι) :
    ∃ l, l <+: f.mem.2 i ∧ ∀ a, own a = some i → t.mem.2 a = afterStores s.mem.2 l a := by
  obtain ⟨log, hlog⟩ := Run.logged h fun _ => []
  have hind : (Memory.owned V own).logged.Independent := logged_independent owned_independent
  refine ⟨log i, (hlog.unbounded.to_final hind hf hst).log_grows i, fun a ha => ?_⟩
  have hstart : Tracks own s.mem.2 (s.mem,fun _ => ([] : List (Sigma V))) := fun b j hb => rfl
  exact hlog.tracks hstart a i ha

/-- The step of a process changes the shared memory by what the process was about to store. -/
lemma StepAt.mem_store {i : ι} {s t : N.State (Memory.shared ι V).State}
    (h : N.StepAt (Memory.shared ι V) cap i s t) :
    t.mem = afterStores s.mem (s.code i).nextStore.toList := by
  cases h with
  | call hc => rw [hc]; rfl
  | read hc hf => rw [hc]; rfl
  | write hc room => rw [hc]; rfl
  | load hc => rw [hc]; rfl
  | store hc => rw [hc]; rfl

variable (own cap) in
/-- On the way from `s` to `t` the processes have stored `log`, whatever the loads still to come find in
the cells of nobody. -/
def Logged (s t : N.State (Memory.shared ι V).State) (log : ι → List (Sigma V)) : Prop :=
  ∀ m₀ script, ∃ m, N.Run (Memory.owned V own).logged cap
    ⟨s.code,s.fifo,((m,ownedCells own m₀ s.mem),fun _ => [])⟩
    ⟨t.code,t.fifo,((script,ownedCells own m₀ t.mem),log)⟩

variable {s t u : N.State (Memory.shared ι V).State} {log : ι → List (Sigma V)}

lemma Logged.refl : Logged own cap s s fun _ => [] := fun _ script => ⟨script, .refl⟩

lemma Logged.step (h : Logged own cap s t log) (hkeeps : Keeps own t) {i : ι}
    (hi : N.StepAt (Memory.shared ι V) cap i t u) :
    Logged own cap s u (Function.update log i (log i ++ (t.code i).nextStore.toList)) := by
  intro m₀ script
  obtain ⟨m, hm⟩ := h m₀ (rewind own t i script)
  exact ⟨m, hm.tail ⟨i, (hi.owned hkeeps m₀ script).logged log⟩⟩

/-- Somebody else stores to a cell without an owner. -/
lemma Logged.store (h : Logged own cap s t log) {a : A} (ha : own a = none) (v : V a) :
    Logged own cap s ⟨t.code,t.fifo,Function.update t.mem a v⟩ log := by
  intro m₀ script
  obtain ⟨m, hm⟩ := h m₀ script
  have hcells : ownedCells own m₀ (Function.update t.mem a v) = ownedCells own m₀ t.mem :=
    ownedCells_update ha v
  exact ⟨m, hcells.symm ▸ hm⟩

/-- The log is the start of the one of a run that goes on until all processes wait, and all of it once
they do. -/
lemma Logged.le_final (h : Logged own cap s t log) {i : ι} {stores : List (Sigma V)}
    (hf : ∀ m, ∃ f, N.Run (Memory.owned V own).logged (fun _ => ⊤)
      ⟨s.code,s.fifo,((m,s.mem),fun _ => [])⟩ f ∧ N.Starved f ∧ f.mem.2 i = stores) :
    log i <+: stores ∧ (N.Starved t → log i = stores) := by
  obtain ⟨m, hm⟩ := h s.mem fun _ _ => s.mem
  have hcells : ownedCells own s.mem s.mem = s.mem := ownedCells_self s.mem
  obtain ⟨f, hrun, hst, hlog⟩ := hf m
  rw [← hcells] at hrun
  have hind : (Memory.owned V own).logged.Independent := logged_independent owned_independent
  have hend := hm.unbounded.to_final hind hrun hst
  rw [← hlog]
  refine ⟨hend.log_grows i, fun ht => ?_⟩
  have hstarved : N.Starved (⟨t.code,t.fifo,((fun _ _ => s.mem,ownedCells own s.mem t.mem),log)⟩ :
    N.State (Memory.owned V own).logged.State) := ht
  exact congrArg (fun u => u.mem.2 i) (hstarved.run_eq hend).symm

end Network

end Owned
end EncryptionAccelerators.Dataflow
