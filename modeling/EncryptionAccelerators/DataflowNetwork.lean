import EncryptionAccelerators.DataflowCommand

/-! Networks of stream processes joined by FIFOs, stepped one operation at a time in any
order. Every FIFO has at most one reader and one writer, so the steps of two processes
commute: a run that ends with every process starved of input decides what every other run
can put on a FIFO nobody reads. -/
namespace EncryptionAccelerators.Dataflow

/-- Processes `ι` and FIFOs `C`; each port of each process has a FIFO of its own. -/
structure Network (ι C W : Type) {A : Type} (V : A → Type) where
  In : ι → Type
  Out : ι → Type
  Label : ι → Type
  body : (i : ι) → Label i → Cmd (In i) (Out i) W V (Label i)
  src : (i : ι) → In i → C
  dst : (i : ι) → Out i → C
  src_inj : ∀ {i j} {p : In i} {q : In j}, src i p = src j q → (⟨i,p⟩ : Sigma In) = ⟨j,q⟩
  dst_inj : ∀ {i j} {p : Out i} {q : Out j}, dst i p = dst j q → (⟨i,p⟩ : Sigma Out) = ⟨j,q⟩
  loopless : ∀ {i} (p : In i) (q : Out i), src i p ≠ dst i q

namespace Network
variable {ι C W A : Type} {V : A → Type} (N : Network ι C W V)

/-- What each process still has to do before its next block, the FIFO contents and the memory. -/
@[ext] structure State (M : Type) where
  code : (i : ι) → Cmd (N.In i) (N.Out i) W V (N.Label i)
  fifo : C → List W
  mem : M

variable {N} {M : Type}

lemma src_ne {i j : ι} (h : i ≠ j) (p : N.In i) (q : N.In j) : N.src i p ≠ N.src j q :=
  fun he => h (congrArg Sigma.fst (N.src_inj he))

lemma dst_ne {i j : ι} (h : i ≠ j) (p : N.Out i) (q : N.Out j) : N.dst i p ≠ N.dst j q :=
  fun he => h (congrArg Sigma.fst (N.dst_inj he))

section Step
variable (N) [DecidableEq ι] [DecidableEq C] (mem : Memory ι V) (cap : C → ℕ∞)

/-- One atomic step of process `i`; a write needs room in its FIFO. -/
inductive StepAt (i : ι) : N.State mem.State → N.State mem.State → Prop
  | call {s l} (hc : s.code i = .ret l) :
      StepAt i s ⟨Function.update s.code i (N.body i l),s.fifo,s.mem⟩
  | read {s p k w ws} (hc : s.code i = .recv p k) (hf : s.fifo (N.src i p) = w::ws) :
      StepAt i s ⟨Function.update s.code i (k w),Function.update s.fifo (N.src i p) ws,s.mem⟩
  | write {s q w k} (hc : s.code i = .send q w k)
      (room : ((s.fifo (N.dst i q)).length : ℕ∞) < cap (N.dst i q)) :
      StepAt i s ⟨Function.update s.code i k,
        Function.update s.fifo (N.dst i q) (s.fifo (N.dst i q) ++ [w]),s.mem⟩
  | load {s a k} (hc : s.code i = .peek a k) :
      StepAt i s ⟨Function.update s.code i (k (mem.load i a s.mem).1),s.fifo,
        (mem.load i a s.mem).2⟩
  | store {s a v k} (hc : s.code i = .poke a v k) :
      StepAt i s ⟨Function.update s.code i k,s.fifo,mem.store i a v s.mem⟩

def Step (s t : N.State mem.State) : Prop := ∃ i, N.StepAt mem cap i s t

/-- Any interleaving of steps of the processes. -/
def Run : N.State mem.State → N.State mem.State → Prop := Relation.ReflTransGen (N.Step mem cap)

end Step

/-- Every process waits for a word on an empty FIFO. -/
def Starved (s : N.State M) : Prop :=
  ∀ i, ∃ p k, s.code i = .recv p k ∧ s.fifo (N.src i p) = []

/-- Process `i` can read a word or write one, at once or after it enters its next block. -/
def Ready (cap : C → ℕ∞) (s : N.State M) (i : ι) : Prop :=
  ∃ c, (s.code i = c ∨ ∃ l, s.code i = .ret l ∧ N.body i l = c) ∧
    ((∃ p k w ws, c = .recv p k ∧ s.fifo (N.src i p) = w::ws) ∨
      ∃ q w k, c = .send q w k ∧ ((s.fifo (N.dst i q)).length : ℕ∞) < cap (N.dst i q))

end Network

/-- Loads and stores of different processes commute. -/
structure Memory.Independent {ι A : Type} {V : A → Type} (mem : Memory ι V) : Prop where
  load_load : ∀ {i j}, i ≠ j → ∀ a b m,
    (mem.load j b (mem.load i a m).2).1 = (mem.load j b m).1 ∧
    (mem.load j b (mem.load i a m).2).2 = (mem.load i a (mem.load j b m).2).2
  load_store : ∀ {i j}, i ≠ j → ∀ a b v m,
    (mem.load j b (mem.store i a v m)).1 = (mem.load j b m).1 ∧
    (mem.load j b (mem.store i a v m)).2 = mem.store i a v (mem.load j b m).2
  store_store : ∀ {i j}, i ≠ j → ∀ a b v w m,
    mem.store j b w (mem.store i a v m) = mem.store i a v (mem.store j b w m)

namespace Network
variable {ι C W A : Type} {V : A → Type} {N : Network ι C W V} [DecidableEq ι] [DecidableEq C]
  {mem : Memory ι V} {cap : C → ℕ∞}

lemma StepAt.deterministic {i : ι} {s t u : N.State mem.State} (h : N.StepAt mem cap i s t)
    (g : N.StepAt mem cap i s u) : t = u := by
  cases h with
  | call hc => cases g <;> simp_all
  | read hc hf => cases g <;> simp_all
  | write hc => cases g <;> simp_all
  | load hc => cases g with
    | load hg => cases hc.symm.trans hg; rfl
    | _ => simp_all
  | store hc => cases g with
    | store hg => cases hc.symm.trans hg; rfl
    | _ => simp_all

lemma StepAt.load_of {i : ι} {s : N.State mem.State} {a : A}
    {k : V a → Cmd (N.In i) (N.Out i) W V (N.Label i)} {v : V a} {m : mem.State}
    (hc : s.code i = .peek a k) (hv : mem.load i a s.mem = (v,m)) :
    N.StepAt mem cap i s ⟨Function.update s.code i (k v),s.fifo,m⟩ := by
  have h : N.StepAt mem cap i s _ := .load hc
  rwa [hv] at h

lemma StepAt.to {i : ι} {s t u : N.State mem.State} (h : N.StepAt mem cap i s t) (e : t = u) :
    N.StepAt mem cap i s u := e ▸ h

lemma StepAt.code_ne {i j : ι} (hij : i ≠ j) {s t : N.State mem.State}
    (h : N.StepAt mem cap j s t) : t.code i = s.code i := by
  cases h <;> simp [hij]

lemma Ready.step {s : N.State mem.State} {i : ι} (h : N.Ready cap s i) :
    ∃ t, N.StepAt mem cap i s t := by
  obtain ⟨c, hc | ⟨l, hc, -⟩, hio⟩ := h
  · rcases hio with ⟨p, k, w, ws, rfl, hf⟩ | ⟨q, w, k, rfl, room⟩
    · exact ⟨_, .read hc hf⟩
    · exact ⟨_, .write hc room⟩
  · exact ⟨_, .call hc⟩

/-! Frame lemmas: what another process `i` does leaves a step of process `j` possible. -/

lemma StepAt.frame_code {i j : ι} (hij : i ≠ j) {s t : N.State mem.State}
    (h : N.StepAt mem cap j s t) (c : Cmd (N.In i) (N.Out i) W V (N.Label i)) :
    N.StepAt mem cap j ⟨Function.update s.code i c,s.fifo,s.mem⟩
      ⟨Function.update t.code i c,t.fifo,t.mem⟩ := by
  have hcode : Function.update s.code i c j = s.code j := Function.update_of_ne hij.symm _ _
  cases h with
  | call hc => rw [Function.update_comm hij.symm]; exact .call (hcode.trans hc)
  | read hc hf => rw [Function.update_comm hij.symm]; exact .read (hcode.trans hc) hf
  | write hc room => rw [Function.update_comm hij.symm]; exact .write (hcode.trans hc) room
  | load hc => rw [Function.update_comm hij.symm]; exact .load (hcode.trans hc)
  | store hc => rw [Function.update_comm hij.symm]; exact .store (hcode.trans hc)

/-- Taking the first word of another process's input FIFO leaves a write to it possible. -/
lemma StepAt.frame_read {i j : ι} (hij : i ≠ j) {s t : N.State mem.State} {p : N.In i} {w : W}
    {ws : List W} (hf : s.fifo (N.src i p) = w::ws) (h : N.StepAt mem cap j s t) :
    ∃ us, t.fifo (N.src i p) = w::us ∧
      N.StepAt mem cap j ⟨s.code,Function.update s.fifo (N.src i p) ws,s.mem⟩
        ⟨t.code,Function.update t.fifo (N.src i p) us,t.mem⟩ := by
  cases h with
  | call hc => exact ⟨ws, hf, .call hc⟩
  | load hc => exact ⟨ws, hf, .load hc⟩
  | store hc => exact ⟨ws, hf, .store hc⟩
  | @read q k x xs hc hx =>
    have hne : N.src i p ≠ N.src j q := src_ne hij p q
    refine ⟨ws, by simpa [hne] using hf, ?_⟩
    rw [Function.update_comm hne.symm]
    exact .read hc (by simpa [hne.symm] using hx)
  | @write q x k hc room =>
    by_cases he : N.dst j q = N.src i p
    · refine ⟨ws ++ [x], by simp [he, hf], ?_⟩
      have hroom : ((ws.length : ℕ) : ℕ∞) < cap (N.dst j q) := by
        refine lt_of_le_of_lt ?_ room
        rw [he, hf]
        exact_mod_cast Nat.le_succ _
      have hs : N.StepAt mem cap j ⟨s.code,Function.update s.fifo (N.src i p) ws,s.mem⟩ _ :=
        .write hc (by simpa [he] using hroom)
      simpa [he] using hs
    · refine ⟨ws, by simpa [Ne.symm he] using hf, ?_⟩
      rw [Function.update_comm he]
      have hs : N.StepAt mem cap j ⟨s.code,Function.update s.fifo (N.src i p) ws,s.mem⟩ _ :=
        .write hc (by simpa [he] using room)
      simpa [he] using hs

/-- Putting a word on a FIFO leaves another process's read of that FIFO possible. -/
lemma StepAt.frame_write {i j : ι} (hij : i ≠ j) {s t : N.State mem.State} {q : N.Out i} {w : W}
    (room : ((s.fifo (N.dst i q)).length : ℕ∞) < cap (N.dst i q)) (h : N.StepAt mem cap j s t) :
    ((t.fifo (N.dst i q)).length : ℕ∞) < cap (N.dst i q) ∧
      N.StepAt mem cap j
        ⟨s.code,Function.update s.fifo (N.dst i q) (s.fifo (N.dst i q) ++ [w]),s.mem⟩
        ⟨t.code,Function.update t.fifo (N.dst i q) (t.fifo (N.dst i q) ++ [w]),t.mem⟩ := by
  cases h with
  | call hc => exact ⟨room, .call hc⟩
  | load hc => exact ⟨room, .load hc⟩
  | store hc => exact ⟨room, .store hc⟩
  | @write r x k hc hr =>
    have hne : N.dst i q ≠ N.dst j r := dst_ne hij q r
    refine ⟨by simpa [hne] using room, ?_⟩
    have hs : N.StepAt mem cap j ⟨s.code,Function.update s.fifo (N.dst i q) (s.fifo (N.dst i q) ++ [w]),s.mem⟩ _ :=
      .write hc
      (by simpa [hne.symm] using hr)
    simpa [hne, hne.symm, Function.update_comm hne] using hs
  | @read p k x xs hc hx =>
    by_cases he : N.dst i q = N.src j p
    · refine ⟨?_, ?_⟩
      · refine lt_of_le_of_lt ?_ room
        simp [he, hx]
      · have hs : N.StepAt mem cap j ⟨s.code,Function.update s.fifo (N.dst i q) (s.fifo (N.dst i q) ++ [w]),s.mem⟩ _ :=
          .read hc
          (show _ = x::(xs ++ [w]) by simp [he, hx])
        simpa [he] using hs
    · refine ⟨by simpa [he] using room, ?_⟩
      have hs : N.StepAt mem cap j ⟨s.code,Function.update s.fifo (N.dst i q) (s.fifo (N.dst i q) ++ [w]),s.mem⟩ _ :=
        .read hc
        (show _ = x::xs by simpa [Ne.symm he] using hx)
      simpa [he, Function.update_comm he] using hs

lemma StepAt.frame_load (hm : mem.Independent) {i j : ι} (hij : i ≠ j) {s t : N.State mem.State}
    (a : A) (h : N.StepAt mem cap j s t) : (mem.load i a t.mem).1 = (mem.load i a s.mem).1 ∧
      N.StepAt mem cap j ⟨s.code,s.fifo,(mem.load i a s.mem).2⟩
        ⟨t.code,t.fifo,(mem.load i a t.mem).2⟩ := by
  cases h with
  | call hc => exact ⟨rfl, .call hc⟩
  | read hc hf => exact ⟨rfl, .read hc hf⟩
  | write hc room => exact ⟨rfl, .write hc room⟩
  | @load b k hc =>
    obtain ⟨h1, h2⟩ := hm.load_load hij.symm b a s.mem
    refine ⟨h1, ?_⟩
    have hs : N.StepAt mem cap j ⟨s.code,s.fifo,(mem.load i a s.mem).2⟩ _ :=
      .load hc
    rwa [(hm.load_load hij a b s.mem).1, (hm.load_load hij a b s.mem).2] at hs
  | @store b v k hc =>
    obtain ⟨h1, h2⟩ := hm.load_store hij.symm b a v s.mem
    exact ⟨h1, by rw [h2]; exact .store hc⟩

lemma StepAt.frame_store (hm : mem.Independent) {i j : ι} (hij : i ≠ j) {s t : N.State mem.State}
    (a : A) (v : V a) (h : N.StepAt mem cap j s t) :
    N.StepAt mem cap j ⟨s.code,s.fifo,mem.store i a v s.mem⟩
      ⟨t.code,t.fifo,mem.store i a v t.mem⟩ := by
  cases h with
  | call hc => exact .call hc
  | read hc hf => exact .read hc hf
  | write hc room => exact .write hc room
  | @load b k hc =>
    obtain ⟨h1, h2⟩ := hm.load_store hij a b v s.mem
    have hs : N.StepAt mem cap j ⟨s.code,s.fifo,mem.store i a v s.mem⟩ _ :=
      .load hc
    rwa [h1, h2] at hs
  | @store b w k hc =>
    rw [hm.store_store hij.symm b a w v s.mem]
    exact .store hc

/-- Steps of two processes commute. -/
lemma StepAt.diamond (hm : mem.Independent) {i j : ι} (hij : i ≠ j) {s t u : N.State mem.State}
    (h : N.StepAt mem cap i s t) (g : N.StepAt mem cap j s u) :
    ∃ v, N.StepAt mem cap j t v ∧ N.StepAt mem cap i u v := by
  have hcode := g.code_ne hij
  cases h with
  | call hc => exact ⟨_, g.frame_code hij _, .call (hcode.trans hc)⟩
  | read hc hf =>
    obtain ⟨us, hus, hg⟩ := g.frame_read hij hf
    exact ⟨_, hg.frame_code hij _, .read (hcode.trans hc) hus⟩
  | write hc room =>
    obtain ⟨hroom, hg⟩ := g.frame_write hij room
    exact ⟨_, hg.frame_code hij _, .write (hcode.trans hc) hroom⟩
  | @load a k hc =>
    obtain ⟨hv, hg⟩ := g.frame_load hm hij a
    have hs : N.StepAt mem cap i u _ := .load (hcode.trans hc)
    rw [hv] at hs
    exact ⟨_, hg.frame_code hij _, hs⟩
  | store hc => exact ⟨_, (g.frame_store hm hij _ _).frame_code hij _, .store (hcode.trans hc)⟩

lemma Step.diamond (hm : mem.Independent) {s t u : N.State mem.State} (h : N.Step mem cap s t)
    (g : N.Step mem cap s u) : t = u ∨ ∃ v, N.Step mem cap t v ∧ N.Step mem cap u v := by
  obtain ⟨i, hi⟩ := h
  obtain ⟨j, hj⟩ := g
  by_cases hij : i = j
  · subst hij
    exact .inl (hi.deterministic hj)
  · obtain ⟨v, hv, hu⟩ := hi.diamond hm hij hj
    exact .inr ⟨v, ⟨j, hv⟩, ⟨i, hu⟩⟩

lemma Starved.no_step {s t : N.State mem.State} (h : N.Starved s) : ¬ N.Step mem cap s t := by
  rintro ⟨i, hi⟩
  obtain ⟨p, k, hc, hf⟩ := h i
  cases hi <;> simp_all

lemma Starved.run_eq {s t : N.State mem.State} (h : N.Starved s) (g : N.Run mem cap s t) : t = s := by
  rcases Relation.ReflTransGen.cases_head g with he | ⟨u, hu, _⟩
  · exact he.symm
  · exact absurd hu h.no_step

/-- A run that ends with every process starved is the future of every other run. -/
theorem Run.to_final (hm : mem.Independent) {s t f : N.State mem.State} (ht : N.Run mem cap s t)
    (hf : N.Run mem cap s f) (hs : N.Starved f) : N.Run mem cap t f := by
  obtain ⟨d, hd, hfd⟩ := Relation.church_rosser (fun a b c hb hc => by
    rcases Step.diamond hm hb hc with rfl | ⟨d, hbd, hcd⟩
    · exact ⟨b, .refl, .refl⟩
    · exact ⟨d, .single hbd, .single hcd⟩) ht hf
  rwa [hs.run_eq hfd] at hd

/-- Nobody reads a sink, so its contents only grow. -/
lemma Run.sink_grows {c : C} (hc : ∀ i p, N.src i p ≠ c) {s t : N.State mem.State}
    (h : N.Run mem cap s t) : s.fifo c <+: t.fifo c := by
  induction h with
  | refl => exact List.prefix_rfl
  | tail _ hs ih =>
    obtain ⟨i, hi⟩ := hs
    refine ih.trans ?_
    cases hi with
    | call => exact List.prefix_rfl
    | load => exact List.prefix_rfl
    | store => exact List.prefix_rfl
    | read _ _ => simp [Function.update_of_ne (hc _ _).symm]
    | @write q w k _ _ =>
      by_cases he : N.dst i q = c
      · subst he; simp
      · simp [Function.update_of_ne (Ne.symm he)]

/-- Every step with bounded FIFOs is a step with unbounded ones. -/
lemma StepAt.unbounded {i : ι} {s t : N.State mem.State} (h : N.StepAt mem cap i s t) :
    N.StepAt mem (fun _ => ⊤) i s t := by
  cases h with
  | call hc => exact .call hc
  | read hc hf => exact .read hc hf
  | write hc _ => exact .write hc (ENat.natCast_lt_top _)
  | load hc => exact .load hc
  | store hc => exact .store hc

lemma Run.unbounded {s t : N.State mem.State} (h : N.Run mem cap s t) :
    N.Run mem (fun _ => ⊤) s t :=
  Relation.ReflTransGen.mono (fun _ _ ⟨i, hi⟩ => ⟨i, hi.unbounded⟩) _ _ h

/-- What one run starved of input leaves on a sink bounds what any run has put there. -/
theorem Run.sink_final (hm : mem.Independent) {s t f : N.State mem.State}
    (ht : N.Run mem cap s t) (hf : N.Run mem (fun _ => ⊤) s f) (hs : N.Starved f) {c : C}
    (hc : ∀ i p, N.src i p ≠ c) : t.fifo c <+: f.fifo c :=
  (ht.unbounded.to_final hm hf hs).sink_grows hc

/-- All runs that end with every process starved end in the same state. -/
theorem Run.starved_unique (hm : mem.Independent) {s t f : N.State mem.State}
    (ht : N.Run mem cap s t) (hf : N.Run mem (fun _ => ⊤) s f) (hs : N.Starved f)
    (hts : N.Starved t) : t = f :=
  (hts.run_eq (ht.unbounded.to_final hm hf hs)).symm

lemma script_independent (ι : Type) [DecidableEq ι] {A : Type} (V : A → Type) :
    (Memory.script ι V).Independent where
  load_load {i j} hij a b m := by
    have hj := Function.update_of_ne hij.symm (fun n => m i (n+1)) m
    have hi := Function.update_of_ne hij (fun n => m j (n+1)) m
    refine ⟨congrFun (congrFun hj 0) b, ?_⟩
    simp only [Memory.script, hj, hi]
    exact Function.update_comm hij _ _ _
  load_store hij a b v m := ⟨rfl, rfl⟩
  store_store hij a b v w m := rfl

/-- A script with one more result in front. -/
def scriptCons (v : (a : A) → V a) (m : ℕ → (a : A) → V a) : ℕ → (a : A) → V a
  | 0 => v
  | n+1 => m n

lemma script_load (i : ι) (a : A) (v : (a : A) → V a) (m : ι → ℕ → (a : A) → V a) :
    (Memory.script ι V).load i a (Function.update m i (scriptCons v (m i))) = (v a,m) := by
  have hi := Function.update_self i (scriptCons v (m i)) m
  have ht : (fun n => scriptCons v (m i) (n+1)) = m i := rfl
  simp only [Memory.script, hi, ht]
  simp [scriptCons]

/-- A run on shared memory is a run on some script of load results: whatever processes race
on the memory, a property of all scripts holds of every race. -/
theorem Run.scripted [DecidableEq A] {s t : N.State (Memory.shared ι V).State}
    (h : N.Run (Memory.shared ι V) cap s t) :
    ∃ m m', N.Run (Memory.script ι V) cap ⟨s.code,s.fifo,m⟩ ⟨t.code,t.fifo,m'⟩ := by
  induction h using Relation.ReflTransGen.head_induction_on with
  | refl => exact ⟨fun _ _ => t.mem, _, .refl⟩
  | @head s u hs _ ih =>
    obtain ⟨m, m', hr⟩ := ih
    obtain ⟨i, hi⟩ := hs
    cases hi with
    | call hc => exact ⟨m, m', .head ⟨i, .call hc⟩ hr⟩
    | read hc hf => exact ⟨m, m', .head ⟨i, .read hc hf⟩ hr⟩
    | write hc room => exact ⟨m, m', .head ⟨i, .write hc room⟩ hr⟩
    | store hc => exact ⟨m, m', .head ⟨i, .store hc⟩ hr⟩
    | @load a k hc =>
      -- the value loaded goes in front of the script of the rest of the run
      exact ⟨_, m', .head ⟨i, .load_of (s := ⟨_,_,_⟩) hc (script_load i a s.mem m)⟩ hr⟩

/-- Process `i` of the network sees the FIFOs and the memory as `io` does. -/
def Sees (i : ι) (s : N.State mem.State) (io : Io (N.In i) (N.Out i) W mem.State) : Prop :=
  (∀ p, s.fifo (N.src i p) = io.inp p) ∧ (∀ q, s.fifo (N.dst i q) = io.out q) ∧ s.mem = io.mem

/-- Only process `i` and the FIFOs at its ports differ. -/
def Only (i : ι) (s t : N.State mem.State) : Prop :=
  (∀ j, j ≠ i → t.code j = s.code j) ∧
    ∀ c, (∀ p, N.src i p ≠ c) → (∀ q, N.dst i q ≠ c) → t.fifo c = s.fifo c

section
omit [DecidableEq ι] [DecidableEq C]

lemma Only.refl {i : ι} (s : N.State mem.State) : N.Only i s s := ⟨fun _ _ => rfl, fun _ _ _ => rfl⟩

lemma Only.symm {i : ι} {s t : N.State mem.State} (h : N.Only i s t) : N.Only i t s :=
  ⟨fun j hj => (h.1 j hj).symm, fun c hs hd => (h.2 c hs hd).symm⟩

lemma Only.trans {i : ι} {s t u : N.State mem.State} (h : N.Only i s t) (g : N.Only i t u) :
    N.Only i s u :=
  ⟨fun j hj => (g.1 j hj).trans (h.1 j hj), fun c hs hd => (g.2 c hs hd).trans (h.2 c hs hd)⟩

end

lemma StepAt.only {i : ι} {s t : N.State mem.State} (h : N.StepAt mem cap i s t) :
    N.Only i s t := by
  refine ⟨fun j hj => h.code_ne hj, fun c hs hd => ?_⟩
  cases h with
  | call => rfl
  | load => rfl
  | store => rfl
  | read _ _ => exact Function.update_of_ne (hs _).symm _ _
  | write _ _ => exact Function.update_of_ne (hd _).symm _ _

variable (N mem) in
/-- Steps of process `i` alone, each of a command that accesses these cells at most. -/
def RunAt (i : ι) (ld st : A → Prop) : N.State mem.State → N.State mem.State → Prop :=
  Relation.ReflTransGen fun s t =>
    N.StepAt mem (fun _ => ⊤) i s t ∧ (s.code i).Accesses ld st

lemma RunAt.run {i : ι} {ld st : A → Prop} {s t : N.State mem.State} (h : N.RunAt mem i ld st s t) :
    N.Run mem (fun _ => ⊤) s t :=
  Relation.ReflTransGen.mono (fun _ _ hs => ⟨i, hs.1⟩) _ _ h

lemma RunAt.only {i : ι} {ld st : A → Prop} {s t : N.State mem.State}
    (h : N.RunAt mem i ld st s t) : N.Only i s t := by
  induction h with
  | refl => exact .refl s
  | tail _ hs ih => exact ih.trans hs.1.only

/-- What a process does alone it can do in the network, if no FIFO is ever full. -/
theorem runAt_exec {i : ι} [DecidableEq (N.In i)] [DecidableEq (N.Out i)] {ld st : A → Prop}
    (c : Cmd (N.In i) (N.Out i) W V (N.Label i)) (hacc : c.Accesses ld st) {s : N.State mem.State}
    {io io' : Io (N.In i) (N.Out i) W mem.State} {l : N.Label i} (hc : s.code i = c)
    (hs : N.Sees i s io) (he : exec mem i c io = some (l,io')) :
    ∃ t, N.RunAt mem i ld st s t ∧ t.code i = .ret l ∧ N.Sees i t io' := by
  induction c generalizing s io with
  | ret a =>
    obtain ⟨rfl, rfl⟩ := Prod.mk.inj (Option.some.inj he)
    exact ⟨s, .refl, hc, hs⟩
  | recv p k ih =>
    obtain ⟨hin, hout, hmem⟩ := hs
    cases hw : io.inp p with
    | nil => simp [exec_recv_none, hw] at he
    | cons w ws =>
      rw [exec_recv mem i p k io hw] at he
      have hstep : N.StepAt mem (fun _ => ⊤) i s _ := .read hc ((hin p).trans hw)
      have hsees : N.Sees i ⟨Function.update s.code i (k w),
          Function.update s.fifo (N.src i p) ws,s.mem⟩
          ⟨Function.update io.inp p ws,io.out,io.mem⟩ := by
        refine ⟨fun p' => ?_, fun q => ?_, hmem⟩
        · by_cases hp : p' = p
          · subst hp; simp
          · have hne : N.src i p' ≠ N.src i p := fun h => hp (by simpa using N.src_inj h)
            simp [hne, hp, hin]
        · simp [(N.loopless p q).symm, hout]
      have hnext := accesses_recv.mp hacc w
      obtain ⟨t, hr, ht, hst⟩ := ih w hnext (Function.update_self _ _ _) hsees he
      exact ⟨t, .head ⟨hstep, hc ▸ hacc⟩ hr, ht, hst⟩
  | send q w k ih =>
    obtain ⟨hin, hout, hmem⟩ := hs
    rw [exec_send] at he
    have hstep : N.StepAt mem (fun _ => ⊤) i s _ := .write hc (ENat.natCast_lt_top _)
    have hsees : N.Sees i ⟨Function.update s.code i k,
        Function.update s.fifo (N.dst i q) (s.fifo (N.dst i q) ++ [w]),s.mem⟩
        ⟨io.inp,Function.update io.out q (io.out q ++ [w]),io.mem⟩ := by
      refine ⟨fun p => by simp [N.loopless p q, hin], fun q' => ?_, hmem⟩
      by_cases hq : q' = q
      · subst hq; simp [hout]
      · have hne : N.dst i q' ≠ N.dst i q := fun h => hq (by simpa using N.dst_inj h)
        simp [hne, hq, hout]
    have hnext := accesses_send.mp hacc
    obtain ⟨t, hr, ht, hst⟩ := ih hnext (Function.update_self _ _ _) hsees he
    exact ⟨t, .head ⟨hstep, hc ▸ hacc⟩ hr, ht, hst⟩
  | peek a k ih =>
    obtain ⟨hin, hout, hmem⟩ := hs
    rw [exec_peek, ← hmem] at he
    have hstep : N.StepAt mem (fun _ => ⊤) i s _ := .load hc
    have hsees : N.Sees i ⟨Function.update s.code i (k (mem.load i a s.mem).1),s.fifo,
        (mem.load i a s.mem).2⟩ ⟨io.inp,io.out,(mem.load i a s.mem).2⟩ := ⟨hin, hout, rfl⟩
    have hnext := (accesses_peek.mp hacc).2 (mem.load i a s.mem).1
    obtain ⟨t, hr, ht, hst⟩ := ih _ hnext (Function.update_self _ _ _) hsees he
    exact ⟨t, .head ⟨hstep, hc ▸ hacc⟩ hr, ht, hst⟩
  | poke a v k ih =>
    obtain ⟨hin, hout, hmem⟩ := hs
    rw [exec_poke, ← hmem] at he
    have hstep : N.StepAt mem (fun _ => ⊤) i s _ := .store hc
    have hsees : N.Sees i ⟨Function.update s.code i k,s.fifo,mem.store i a v s.mem⟩
        ⟨io.inp,io.out,mem.store i a v s.mem⟩ := ⟨hin, hout, rfl⟩
    have hnext := (accesses_poke.mp hacc).2
    obtain ⟨t, hr, ht, hst⟩ := ih hnext (Function.update_self _ _ _) hsees he
    exact ⟨t, .head ⟨hstep, hc ▸ hacc⟩ hr, ht, hst⟩

/-- The same for blocks whose labels meet `P`. -/
theorem runAt_blocks {i : ι} [DecidableEq (N.In i)] [DecidableEq (N.Out i)] {ld st : A → Prop}
    {P : N.Label i → Prop} (hacc : ∀ l, P l → (N.body i l).Accesses ld st) {s : N.State mem.State}
    {x y : N.Label i × Io (N.In i) (N.Out i) W mem.State}
    (hb : Relation.ReflTransGen (fun x y => P x.1 ∧ Block mem i (N.body i) x y) x y)
    (hc : s.code i = .ret x.1) (hs : N.Sees i s x.2) :
    ∃ t, N.RunAt mem i ld st s t ∧ t.code i = .ret y.1 ∧ N.Sees i t y.2 := by
  induction hb using Relation.ReflTransGen.head_induction_on generalizing s with
  | refl => exact ⟨s, .refl, hc, hs⟩
  | @head x z hx _ ih =>
    have hcall : N.StepAt mem (fun _ => ⊤) i s _ := .call hc
    obtain ⟨t, hr, ht, hst⟩ := runAt_exec (N.body i x.1) (hacc _ hx.1)
      (s := ⟨Function.update s.code i (N.body i x.1),s.fifo,s.mem⟩) (by simp) hs hx.2
    obtain ⟨u, hu, htu, hsu⟩ := ih ht hst
    exact ⟨u, .head ⟨hcall, hc ▸ .ret _⟩ (hr.trans hu), htu, hsu⟩

/-- Processes that have ended a block enter the next one. -/
theorem run_calls [Fintype ι] {s : N.State mem.State} (l : (i : ι) → N.Label i)
    (hc : ∀ i, s.code i = .ret (l i)) : ∃ t, N.Run mem (fun _ => ⊤) s t ∧ t.fifo = s.fifo ∧
      t.mem = s.mem ∧ ∀ i, t.code i = N.body i (l i) := by
  suffices h : ∀ S : Finset ι, ∃ t, N.Run mem (fun _ => ⊤) s t ∧ t.fifo = s.fifo ∧ t.mem = s.mem ∧
      ∀ i, t.code i = if i ∈ S then N.body i (l i) else .ret (l i) by
    simpa using h Finset.univ
  intro S
  induction S using Finset.induction_on with
  | empty => exact ⟨s, .refl, rfl, rfl, by simpa using hc⟩
  | insert i S hi ih =>
    obtain ⟨t, hr, hf, hm, ht⟩ := ih
    have hcall : N.StepAt mem (fun _ => ⊤) i t _ := .call (by rw [ht, if_neg hi])
    refine ⟨_, hr.tail ⟨i, hcall⟩, hf, hm, fun j => ?_⟩
    by_cases hj : j = i
    · subst hj; simp
    · simp [hj, ht]

/-- `runAt_blocks` with the state it ends in given. -/
theorem runAt_stage {i : ι} [DecidableEq (N.In i)] [DecidableEq (N.Out i)] {ld st : A → Prop}
    {P : N.Label i → Prop} (hacc : ∀ l, P l → (N.body i l).Accesses ld st)
    {s t : N.State mem.State} {x y : N.Label i × Io (N.In i) (N.Out i) W mem.State}
    (hb : Relation.ReflTransGen (fun x y => P x.1 ∧ Block mem i (N.body i) x y) x y)
    (hc : s.code i = .ret x.1) (hs : N.Sees i s x.2) (hct : t.code i = .ret y.1)
    (hst : N.Sees i t y.2) (ho : N.Only i s t) : N.RunAt mem i ld st s t := by
  obtain ⟨u, hr, hcu, hsu⟩ := runAt_blocks hacc hb hc hs
  have hou := hr.only
  suffices h : u = t by rwa [h] at hr
  ext : 1
  · funext j
    by_cases hj : j = i
    · subst hj; exact hcu.trans hct.symm
    · exact (hou.1 j hj).trans (ho.1 j hj).symm
  · funext c
    by_cases hp : ∃ p, N.src i p = c
    · obtain ⟨p, rfl⟩ := hp
      exact (hsu.1 p).trans (hst.1 p).symm
    · by_cases hq : ∃ q, N.dst i q = c
      · obtain ⟨q, rfl⟩ := hq
        exact (hsu.2.1 q).trans (hst.2.1 q).symm
      · have hp' : ∀ p, N.src i p ≠ c := fun p h => hp ⟨p, h⟩
        have hq' : ∀ q, N.dst i q ≠ c := fun q h => hq ⟨q, h⟩
        exact (hou.2 c hp' hq').trans (ho.2 c hp' hq').symm
  · exact hsu.2.2.trans hst.2.2.symm

/-- A process reads none of what it writes. -/
lemma StepAt.dst_grows {i : ι} {s t : N.State mem.State} (h : N.StepAt mem cap i s t)
    (q : N.Out i) : s.fifo (N.dst i q) <+: t.fifo (N.dst i q) := by
  cases h with
  | call => exact List.prefix_rfl
  | load => exact List.prefix_rfl
  | store => exact List.prefix_rfl
  | @read p k w ws hc hf => simp [(N.loopless p q).symm]
  | @write r w k hc room =>
    by_cases hq : q = r
    · subst hq
      simp
    · have hne : N.dst i q ≠ N.dst i r := fun h => hq (by simpa using N.dst_inj h)
      simp [hne]

lemma RunAt.dst_grows {i : ι} {ld st : A → Prop} {s t : N.State mem.State}
    (h : N.RunAt mem i ld st s t) (q : N.Out i) : s.fifo (N.dst i q) <+: t.fifo (N.dst i q) := by
  induction h with
  | refl => exact List.prefix_rfl
  | tail _ hs ih => exact ih.trans (hs.1.dst_grows q)

/-- A process by itself needs no more room than what it writes. -/
lemma RunAt.bounded {i : ι} {ld st : A → Prop} {s t : N.State mem.State}
    (h : N.RunAt mem i ld st s t)
    (hcap : ∀ q, ((t.fifo (N.dst i q)).length : ℕ∞) ≤ cap (N.dst i q)) : N.Run mem cap s t := by
  induction h with
  | refl => exact .refl
  | @tail u t _ hs ih =>
    obtain ⟨hstep, -⟩ := hs
    have hu (q : N.Out i) : ((u.fifo (N.dst i q)).length : ℕ∞) ≤ cap (N.dst i q) :=
      (Nat.cast_le.mpr (hstep.dst_grows q).length_le).trans (hcap q)
    refine (ih hu).tail ⟨i, ?_⟩
    cases hstep with
    | call hc => exact .call hc
    | read hc hf => exact .read hc hf
    | @write q w k hc _ =>
      refine .write hc (lt_of_lt_of_le ?_ (hcap q))
      simp only [Function.update_self, List.length_append, List.length_singleton]
      exact Nat.cast_lt.mpr (Nat.lt_succ_self _)
    | load hc => exact .load hc
    | store hc => exact .store hc

/-- Blocks of a process from one state of the network to another, with room for what they write. -/
theorem run_stage_bounded {i : ι} [DecidableEq (N.In i)] [DecidableEq (N.Out i)]
    {s t : N.State mem.State} {x y : N.Label i × Io (N.In i) (N.Out i) W mem.State}
    (hb : Blocks mem i (N.body i) x y) (hc : s.code i = .ret x.1) (hs : N.Sees i s x.2)
    (hct : t.code i = .ret y.1) (hst : N.Sees i t y.2) (ho : N.Only i s t)
    (hcap : ∀ q, ((t.fifo (N.dst i q)).length : ℕ∞) ≤ cap (N.dst i q)) : N.Run mem cap s t := by
  have hb' := Relation.ReflTransGen.mono (fun _ _ hs => And.intro trivial hs) _ _ hb
  exact (runAt_stage (P := fun _ => True) (fun l _ => (N.body i l).accesses_any) hb' hc hs hct hst
    ho).bounded hcap

/-- The same where no FIFO is ever full. -/
theorem run_stage {i : ι} [DecidableEq (N.In i)] [DecidableEq (N.Out i)] {s t : N.State mem.State}
    {x y : N.Label i × Io (N.In i) (N.Out i) W mem.State} (hb : Blocks mem i (N.body i) x y)
    (hc : s.code i = .ret x.1) (hs : N.Sees i s x.2) (hct : t.code i = .ret y.1)
    (hst : N.Sees i t y.2) (ho : N.Only i s t) : N.Run mem (fun _ => ⊤) s t :=
  run_stage_bounded hb hc hs hct hst ho fun _ => le_top

/-- A run that goes on with blocks of a process with one input and one output. -/
theorem Run.piped {i : ι} [DecidableEq (N.In i)] [DecidableEq (N.Out i)] {p : N.In i} {q : N.Out i}
    {s₀ s : N.State mem.State} (h : N.Run mem (fun _ => ⊤) s₀ s) (hp : ∀ p', p' = p)
    (hq : ∀ q', q' = q) {l l' : N.Label i} {ws ws' us us' : List W} {m m' : mem.State}
    (hb : Blocks mem i (N.body i) (l,⟨fun _ => ws,fun _ => us,m⟩) (l',⟨fun _ => ws',fun _ => us',m'⟩))
    (hc : s.code i = .ret l) (hin : s.fifo (N.src i p) = ws) (hout : s.fifo (N.dst i q) = us)
    (hm : s.mem = m) : N.Run mem (fun _ => ⊤) s₀ ⟨Function.update s.code i (.ret l'),
      Function.update (Function.update s.fifo (N.src i p) ws') (N.dst i q) us',m'⟩ := by
  refine h.trans (run_stage hb hc ⟨fun p' => ?_, fun q' => ?_, hm⟩ (Function.update_self _ _ _)
    ⟨fun p' => ?_, fun q' => ?_, rfl⟩ ⟨fun j hj => ?_, fun c hs hd => ?_⟩)
  · rw [hp p']
    exact hin
  · rw [hq q']
    exact hout
  · rw [hp p']
    exact (Function.update_of_ne (N.loopless p q) _ _).trans (Function.update_self _ _ _)
  · rw [hq q']
    exact Function.update_self _ _ _
  · exact Function.update_of_ne hj _ _
  · exact (Function.update_of_ne (hd q).symm _ _).trans (Function.update_of_ne (hs p).symm _ _)

/-- A cell in which nothing is stored stays. -/
lemma StepAt.mem_eq [DecidableEq A] {i : ι} {s t : N.State (Memory.shared ι V).State}
    {ld st : A → Prop} (h : N.StepAt (Memory.shared ι V) cap i s t) (hs : (s.code i).Accesses ld st)
    {a : A} (ha : ¬ st a) : t.mem a = s.mem a := by
  cases h with
  | call => rfl
  | read => rfl
  | write => rfl
  | load => rfl
  | @store b v k hc =>
    rw [hc, accesses_poke] at hs
    have hab : a ≠ b := by
      rintro rfl
      exact ha hs.1
    exact Function.update_of_ne hab _ _

end Network

end EncryptionAccelerators.Dataflow
