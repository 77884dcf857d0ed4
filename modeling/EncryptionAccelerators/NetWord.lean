import EncryptionAccelerators.DataflowTrace

/-! Stream words and the two stream loops of `network.cpp`. Every stream of the block design
is eight data bits wide; a stream of plain bytes or protocol codes uses `data` only. -/
namespace EncryptionAccelerators.Net
open Dataflow

abbrev Byte := BitVec 8

-- a constant, so that the indices `0` to `3` of four words or bytes carry no proof of their own
instance neZero_four : NeZero 4 := ⟨by decide⟩

/-- `net_word_t`. -/
structure NetWord where
  data : Byte
  last : Bool
  user : Bool
  deriving DecidableEq, Repr, Inhabited

/-- A word on a stream without `last` and `user`. -/
def byteWord (b : Byte) : NetWord := ⟨b,false,false⟩

@[simp] lemma byteWord_data (b : Byte) : (byteWord b).data = b := rfl

lemma map_byteWord_data (bs : List Byte) : (bs.map byteWord).map NetWord.data = bs := by
  simp [Function.comp_def]

lemma byteWord_last {bs : List Byte} {w : NetWord} (hw : w ∈ bs.map byteWord) : w.last = false := by
  obtain ⟨b, -, rfl⟩ := List.mem_map.mp hw
  rfl

/-- Byte `i` of a run of words. -/
def octet (ws : List NetWord) (i : ℕ) : Byte := (ws.getD i default).data

lemma take_data (ws : List NetWord) {n : ℕ} (h : n ≤ ws.length) :
    (ws.take n).map NetWord.data = (List.range n).map (octet ws) := by
  apply List.ext_getElem
  · simp [h]
  · intro j hj _
    rw [List.length_map, List.length_take_of_le h] at hj
    have hws : j < ws.length := by omega
    simp [octet, List.getD_eq_getElem?_getD, hws]

/-- The memory cells the cores and the control program share: the words of the register
space, the sender's address published by `udp_depacketizer`, the key columns and mode of the
two cipher cores, the DIP switches, and the master and slave port each stream switch joins. -/
inductive Cell
  | bram (index : BitVec 32)
  | dstIpAddr
  | dstMacAddr
  | keySetsK (column : Fin 8)
  | aesW (column : Fin 16)
  | desMode
  | dipSwitches
  | rawDataSwitch
  | outSelSwitch
  deriving DecidableEq

@[reducible] def Cell.Val : Cell → Type
  | .bram _ => BitVec 32
  | .dstIpAddr => BitVec 32
  | .dstMacAddr => BitVec 48
  | .keySetsK _ => Vector Byte 17
  | .aesW _ => Vector Byte 11
  | .desMode => BitVec 1
  | .dipSwitches => BitVec 32
  | .rawDataSwitch => BitVec 32 × BitVec 32
  | .outSelSwitch => BitVec 32 × BitVec 32

def Cell.zero : (c : Cell) → c.Val
  | .bram _ => 0
  | .dstIpAddr => 0
  | .dstMacAddr => 0
  | .keySetsK _ => .replicate 17 0
  | .aesW _ => .replicate 11 0
  | .desMode => 0
  | .dipSwitches => 0
  | .rawDataSwitch => (0,0)
  | .outSelSwitch => (0,0)

/-- The ports of a core with one input and one output stream. -/
inductive InputStrm
  | inputStrm
  deriving DecidableEq

inductive OutputStrm
  | outputStrm
  deriving DecidableEq

lemma inputStrm_update (g : InputStrm → List NetWord) (ws : List NetWord) :
    Function.update g .inputStrm ws = fun _ => ws := by
  funext p
  cases p
  exact Function.update_self _ _ _

lemma outputStrm_update (g : OutputStrm → List NetWord) (ws : List NetWord) :
    Function.update g .outputStrm ws = fun _ => ws := by
  funext q
  cases q
  exact Function.update_self _ _ _

/-- The words of an Ethernet frame: `last` is set on the final word only. -/
structure Frame where
  init : List NetWord
  final : NetWord
  init_last : ∀ w ∈ init, w.last = false
  final_last : final.last = true

def Frame.words (f : Frame) : List NetWord := f.init ++ [f.final]

lemma Frame.words_ne_nil (f : Frame) : f.words ≠ [] := by simp [words]

/-- Any proper suffix of a frame's words still ends in the only `last` word. -/
lemma Frame.drop_words (f : Frame) {n : ℕ} (h : n < f.words.length) :
    f.words.drop n = f.init.drop n ++ [f.final] := by
  have hn : n ≤ f.init.length := by simp [words] at h; omega
  rw [words, List.drop_append_of_le_length hn]

lemma Frame.drop_words_append (f : Frame) (rest : List NetWord) {n : ℕ} (h : n < f.words.length) :
    (f.words ++ rest).drop n = f.init.drop n ++ f.final::rest := by
  rw [List.drop_append_of_le_length (by omega), f.drop_words h, List.append_assoc]
  rfl

/-- Only the final word has `last`. -/
lemma Frame.getD_words_last (f : Frame) (rest : List NetWord) {n : ℕ} (h : n < f.words.length) :
    ((f.words ++ rest).getD n default).last = decide (n + 1 = f.words.length) := by
  have hw : f.words.length = f.init.length + 1 := by simp [words]
  rw [List.getD_append _ _ _ _ h]
  by_cases he : n + 1 = f.words.length
  · have hn : n = f.init.length := by omega
    subst hn
    simp [words, f.final_last]
  · have hi : n < f.init.length := by omega
    rw [decide_eq_false he, words, List.getD_append _ _ _ _ hi, List.getD_eq_getElem _ _ hi]
    exact f.init_last _ (List.getElem_mem _)

/-- The complete frames of a word stream, cut after each `last`; `part` holds the words of the
frame being cut. -/
def cutFrames (part : List NetWord) : List NetWord → List (List NetWord)
  | [] => []
  | w::ws => if w.last then (part ++ [w])::cutFrames [] ws else cutFrames (part ++ [w]) ws

lemma cutFrames_append (l : List NetWord) (hl : ∀ w ∈ l, w.last = false)
    (part rest : List NetWord) : cutFrames part (l ++ rest) = cutFrames (part ++ l) rest := by
  induction l generalizing part with
  | nil => simp
  | cons w l ih =>
    have hw : w.last = false := hl w (by simp)
    simp [cutFrames, hw, ih fun x hx => hl x (by simp [hx])]

lemma cutFrames_frames (fs : List Frame) :
    cutFrames [] (fs.flatMap Frame.words) = fs.map Frame.words := by
  induction fs with
  | nil => rfl
  | cons f fs ih =>
    rw [List.flatMap_cons, Frame.words, List.append_assoc, cutFrames_append _ f.init_last]
    simp [cutFrames, f.final_last, ih, Frame.words]

lemma cutFrames_prefix {ws us : List NetWord} (h : ws <+: us) (part : List NetWord) :
    cutFrames part ws <+: cutFrames part us := by
  obtain ⟨rest, rfl⟩ := h
  induction ws generalizing part with
  | nil => exact List.nil_prefix
  | cons w ws ih =>
    cases hw : w.last with
    | false => simpa [cutFrames, hw] using ih (part ++ [w])
    | true => simpa [cutFrames, hw] using ih []

section Loops
variable {ι In Out L A : Type} {V : A → Type}

/-- `pass_stream`: one turn of its loop, then again or on to `done`. -/
def passStream (inputStrm : In) (outputStrm : Out) (again done : L) : Cmd In Out NetWord V L := do
  let word ← readWord inputStrm
  writeWord outputStrm word
  return if word.last then done else again

/-- `discard_stream`. -/
def discardStream (inputStrm : In) (again done : L) : Cmd In Out NetWord V L := do
  let word ← readWord inputStrm
  return if word.last then done else again

variable [DecidableEq In] [DecidableEq Out] (mem : Memory ι V) (i : ι)
  (body : L → Cmd In Out NetWord V L)

lemma exec_passStream (p : In) (q : Out) (again done : L) (w : NetWord) (ws : List NetWord)
    (s : Io In Out NetWord mem.State) (h : s.inp p = w::ws) :
    exec mem i (passStream p q again done : Cmd In Out NetWord V L) s =
      some (if w.last then done else again,
        ⟨Function.update s.inp p ws,Function.update s.out q (s.out q ++ [w]),s.mem⟩) := by
  simp [passStream, exec_recv mem i p _ s h]

lemma exec_discardStream (p : In) (again done : L) (w : NetWord) (ws : List NetWord)
    (s : Io In Out NetWord mem.State) (h : s.inp p = w::ws) :
    exec mem i (discardStream p again done : Cmd In Out NetWord V L) s =
      some (if w.last then done else again,⟨Function.update s.inp p ws,s.out,s.mem⟩) := by
  simp [discardStream, exec_recv mem i p _ s h]

/-- `pass_stream` copies up to and including the first word with `last`. -/
lemma passStream_until (p : In) (q : Out) (again done : L) (hne : again ≠ done)
    (hb : body again = passStream p q again done) (ws rest : List NetWord) (w : NetWord)
    (hws : ∀ x ∈ ws, x.last = false) (hw : w.last = true) (s : Io In Out NetWord mem.State)
    (h : s.inp p = ws ++ w::rest) : Until mem i body done (again,s)
      (done,⟨Function.update s.inp p rest,Function.update s.out q (s.out q ++ (ws ++ [w])),s.mem⟩) := by
  induction ws generalizing s with
  | nil =>
    refine .single ⟨hne, ?_⟩
    simp only [Block, hb, exec_passStream mem i p q again done w rest s h, hw]
    simp
  | cons x ws ih =>
    have hx : x.last = false := hws x (by simp)
    refine .head hne (y := (again,⟨Function.update s.inp p (ws ++ w::rest),
      Function.update s.out q (s.out q ++ [x]),s.mem⟩)) ?_ ?_
    · simp only [Block, hb, exec_passStream mem i p q again done x _ s h, hx]
      simp
    · have hr := ih (fun y hy => hws y (by simp [hy]))
        ⟨Function.update s.inp p (ws ++ w::rest),Function.update s.out q (s.out q ++ [x]),s.mem⟩
        (by simp)
      simpa using hr

/-- `discard_stream` drops up to and including the first word with `last`. -/
lemma discardStream_until (p : In) (entry again done : L) (hne : again ≠ entry)
    (hb : body again = discardStream p again done) (ws rest : List NetWord) (w : NetWord)
    (hws : ∀ x ∈ ws, x.last = false) (hw : w.last = true) (s : Io In Out NetWord mem.State)
    (h : s.inp p = ws ++ w::rest) : Until mem i body entry (again,s)
      (done,⟨Function.update s.inp p rest,s.out,s.mem⟩) := by
  induction ws generalizing s with
  | nil =>
    refine .single ⟨hne, ?_⟩
    simp only [Block, hb, exec_discardStream mem i p again done w rest s h, hw]
    simp
  | cons x ws ih =>
    have hx : x.last = false := hws x (by simp)
    refine .head hne (y := (again,⟨Function.update s.inp p (ws ++ w::rest),s.out,s.mem⟩)) ?_ ?_
    · simp only [Block, hb, exec_discardStream mem i p again done x _ s h, hx]
      simp
    · have hr := ih (fun y hy => hws y (by simp [hy]))
        ⟨Function.update s.inp p (ws ++ w::rest),s.out,s.mem⟩ (by simp)
      simpa using hr

end Loops

section Answers
variable {ι L A : Type} {V : A → Type} (mem : Memory ι V) (i : ι)
  (body : L → Cmd InputStrm OutputStrm NetWord V L) (start : L)

/-- Each invocation takes one frame and puts out an answer to it; there are as many invocations as
frames. -/
def AnswersFrames (Answer : Frame → List NetWord → Prop) (fs : List Frame)
    (s : Io InputStrm OutputStrm NetWord mem.State) : Prop :=
  ∃ answers : List (List NetWord), List.Forall₂ Answer fs answers ∧
    ∀ n t, InvokesN mem i body start n s t ↔ n ≤ fs.length ∧
      t = ⟨fun _ => (fs.drop n).flatMap Frame.words,
        fun _ => s.out .outputStrm ++ (answers.take n).flatten,s.mem⟩

variable {mem i body start}

/-- From one frame to a sequence of them. -/
lemma answersFrames_of_invokes {Answer : Frame → List NetWord → Prop} (answer : Frame → List NetWord)
    {fs : List Frame} (ha : ∀ f ∈ fs, Answer f (answer f))
    (hone : ∀ f ∈ fs, ∀ (rest : List NetWord) (s : Io InputStrm OutputStrm NetWord mem.State),
      s.inp .inputStrm = f.words ++ rest → Invokes mem i body start s
        ⟨fun _ => rest,fun _ => s.out .outputStrm ++ answer f,s.mem⟩)
    (hend : ∀ s t, s.inp .inputStrm = [] → ¬ Invokes mem i body start s t)
    (s : Io InputStrm OutputStrm NetWord mem.State)
    (hs : s.inp .inputStrm = fs.flatMap Frame.words) :
    AnswersFrames mem i body start Answer fs s := by
  refine ⟨fs.map answer, List.forall₂_map_right_iff.mpr (List.forall₂_same.mpr ha), ?_⟩
  have hinp : (fun _ => fs.flatMap Frame.words) = s.inp := by
    funext p
    cases p
    exact hs.symm
  have hout : (fun _ => s.out .outputStrm) = s.out := by
    funext q
    cases q
    rfl
  refine invokesN_iff (s := fun n => ⟨fun _ => (fs.drop n).flatMap Frame.words,
    fun _ => s.out .outputStrm ++ ((fs.map answer).take n).flatten,s.mem⟩) ?_ (fun n hn => ?_) ?_
  · rw [List.drop_zero, List.take_zero, List.flatten_nil, List.append_nil, hinp, hout]
  · have hdrop : fs.drop n = fs[n]::fs.drop (n+1) := List.drop_eq_getElem_cons hn
    have htake : (fs.map answer).take (n+1) = (fs.map answer).take n ++ [answer fs[n]] := by
      rw [List.take_succ_eq_append_getElem (by simpa using hn), List.getElem_map]
    have hinv := hone fs[n] (List.getElem_mem hn) ((fs.drop (n+1)).flatMap Frame.words)
      ⟨fun _ => (fs.drop n).flatMap Frame.words,
        fun _ => s.out .outputStrm ++ ((fs.map answer).take n).flatten,s.mem⟩
      (by rw [hdrop, List.flatMap_cons])
    rw [htake, List.flatten_append, List.flatten_singleton, ← List.append_assoc]
    exact hinv
  · intro t
    exact hend _ t (by simp)

end Answers

/-- `pass_stream` up to and including the first word with `last`, event by event. -/
lemma trace_passStream {Out L A : Type} {V : A → Type} {body : L → Cmd InputStrm Out NetWord V L}
    (q : Out) (again done : L) (hb : body again = passStream .inputStrm q again done)
    (ws rest : List NetWord) (w : NetWord) (hws : ∀ x ∈ ws, x.last = false) (hw : w.last = true)
    {evs : List (Event Out NetWord V)} (h : Trace body (.ret done) (fun _ => rest) evs) :
    Trace body (.ret again) (fun _ => ws ++ w::rest) ((ws ++ [w]).map (.send q) ++ evs) := by
  induction ws with
  | nil =>
    refine .call ?_
    rw [hb]
    refine .recv rfl (.send ?_)
    have hend : (if w.last then done else again) = done := by rw [hw]; rfl
    rw [inputStrm_update, hend]
    exact h
  | cons x ws ih =>
    have hx : x.last = false := hws x (by simp)
    refine .call ?_
    rw [hb]
    refine .recv rfl (.send ?_)
    have hmore : (if x.last then done else again) = again := by rw [hx]; rfl
    rw [inputStrm_update, hmore]
    exact ih fun y hy => hws y (by simp [hy])

end EncryptionAccelerators.Net
