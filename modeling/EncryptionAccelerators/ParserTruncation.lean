import EncryptionAccelerators.Routing

/-! `parser` on frames that end inside their headers. -/
namespace EncryptionAccelerators.Net
open Dataflow

/-- Run on a stream of frames until it waits for a word that does not come, `parser` has written
the codes `codes`. -/
def WritesCodes (fs : List Frame) (codes : List Byte) : Prop := ∃ x,
  Blocks Memory.none () parser (.start,⟨fun _ => fs.flatMap Frame.words,fun _ => [],nofun⟩) x ∧
  (∀ y, ¬ Block Memory.none () parser x y) ∧ (x.2.out .protStrm).map NetWord.data = codes

/-- The words with `last`. -/
def lasts (ws : List NetWord) : ℕ := ws.countP NetWord.last

/-- The words end with the end of a frame. -/
def Ended (ws : List NetWord) : Prop := ∀ w ∈ ws.getLast?, w.last = true

lemma lasts_append (ws us : List NetWord) : lasts (ws ++ us) = lasts ws + lasts us :=
  List.countP_append

lemma lasts_frames (fs : List Frame) : lasts (fs.flatMap Frame.words) = fs.length := by
  induction fs with
  | nil => rfl
  | cons f fs ih =>
    have hinit : lasts f.init = 0 := by
      rw [lasts, List.countP_eq_zero]
      intro w hw
      rw [f.init_last w hw]
      decide
    have hfinal : lasts [f.final] = 1 := by simp [lasts, f.final_last]
    rw [List.flatMap_cons, lasts_append, ih, Frame.words, lasts_append, hinit, hfinal,
      List.length_cons]
    omega

lemma lasts_drop_le (ws : List NetWord) (n : ℕ) : lasts (ws.drop n) ≤ lasts ws :=
  (List.drop_sublist n ws).countP_le

lemma ended_frames (fs : List Frame) : Ended (fs.flatMap Frame.words) := by
  induction fs with
  | nil => exact nofun
  | cons f fs ih =>
    intro w hw
    rw [List.flatMap_cons, List.getLast?_append] at hw
    cases hl : (fs.flatMap Frame.words).getLast? with
    | none =>
      rw [hl, Option.none_or, Frame.words, List.getLast?_concat] at hw
      obtain rfl := Option.some.inj hw
      exact f.final_last
    | some u =>
      rw [hl, Option.some_or] at hw
      obtain rfl := Option.some.inj hw
      exact ih u hl

lemma Ended.drop {ws : List NetWord} (h : Ended ws) (n : ℕ) : Ended (ws.drop n) := by
  intro w hw
  rw [List.getLast?_drop] at hw
  split_ifs at hw
  · cases hw
  · exact h w hw

/-- Words that end a frame hold a `last`. -/
lemma Ended.lasts_pos {ws : List NetWord} (h : Ended ws) (hne : ws ≠ []) : 0 < lasts ws := by
  have hlast := List.getLast?_eq_getLast_of_ne_nil hne
  exact List.countP_pos_iff.mpr ⟨_, List.getLast_mem hne, h _ hlast⟩

/-! The invariant of a run: each code written is paid for by a `last` that has been read, or by one
that has still to be. -/

/-- At most `n` codes can be written. -/
structure CodesBelow (n : ℕ) {M : Type} (x : ParserLabel × Io InputStrm ParserOut NetWord M) :
    Prop where
  ended : Ended (x.2.inp .inputStrm)
  start : x.1 = .start → (x.2.out .protStrm).length + lasts (x.2.inp .inputStrm) ≤ n
  pass : x.1 = .passStream →
    (x.2.out .protStrm).length + lasts (x.2.inp .inputStrm) ≤ n + 1 ∧
      (x.2.inp .inputStrm = [] → (x.2.out .protStrm).length ≤ n)

lemma CodesBelow.length_le {n : ℕ} {M : Type} {x : ParserLabel × Io InputStrm ParserOut NetWord M}
    (h : CodesBelow n x) : (x.2.out .protStrm).length ≤ n := by
  cases hl : x.1 with
  | start =>
    have hs := h.start hl
    omega
  | passStream =>
    obtain ⟨hp, hnil⟩ := h.pass hl
    by_cases hinp : x.2.inp .inputStrm = []
    · exact hnil hinp
    · have hpos := h.ended.lasts_pos hinp
      omega

section Blocks
variable {ι A : Type} {V : A → Type} {mem : Memory ι V} {i : ι}

/-- The first block ends only where all words of the header are there. -/
lemma start_parserBlock {s : Io InputStrm ParserOut NetWord mem.State}
    {x : ParserLabel × Io InputStrm ParserOut NetWord mem.State}
    (h : Block mem i parser (.start,s) x) :
    headerLength (s.inp .inputStrm) ≤ (s.inp .inputStrm).length ∧
      x = (.passStream,coded s (s.inp .inputStrm) (headerLength (s.inp .inputStrm))
        (classify (s.inp .inputStrm))) := by
  set f := s.inp .inputStrm with hf
  suffices hle : headerLength f ≤ f.length from
    ⟨hle, Option.some.inj (h.symm.trans (exec_parserStart mem i s hf.symm hle))⟩
  have hrun : exec mem i (parser .start) s = some x := h
  rw [parser_start] at hrun
  have h14 : 14 ≤ f.length := length_of_exec_passInto_bind mem i hrun
  by_cases hip : (ethernetOf f).etherType = ETHER_TYPE_IPv4
  · have hstart := exec_passed mem i s f 0 14 (by omega)
    rw [passed_zero s hf.symm] at hstart
    rw [hstart, List.drop_zero, ethernetOf_take f le_rfl, if_neg (etherType_ne hip), if_pos hip]
      at hrun
    have h34 := length_of_exec_passInto_bind mem i hrun
    rw [passed, List.length_drop] at h34
    rw [headerLength_ip hip]
    split_ifs with hudp
    · rw [exec_passed mem i s f _ 20 (by omega), ipv4Of_take _ le_rfl, if_neg (protocol_ne hudp),
        if_pos hudp] at hrun
      have h42 := length_of_exec_passInto_bind mem i hrun
      rw [passed, List.length_drop] at h42
      omega
    · omega
  · have hlen : headerLength f = 14 := by
      rw [headerLength, if_neg hip, ite_self]
    omega

/-- After a code the `last`s left over have to pay for the rest of them. -/
lemma codesBelow_coded {n k : ℕ} {s : Io InputStrm ParserOut NetWord mem.State} {ws : List NetWord}
    {p : Prot} (hended : Ended ws) (hlt : (s.out .protStrm).length < n)
    (hle : (s.out .protStrm).length + lasts (ws.drop k) ≤ n) :
    CodesBelow n (ParserLabel.passStream,coded s ws k p) := by
  have hone : ((coded s ws k p).out .protStrm).length = (s.out .protStrm).length + 1 := by
    simp only [coded, List.length_append, List.length_singleton]
  constructor
  · exact hended.drop k
  · simp
  · intro _
    rw [hone]
    constructor
    · have hcount : (s.out .protStrm).length + lasts (ws.drop k) + 1 ≤ n + 1 := Nat.succ_le_succ hle
      rwa [Nat.add_right_comm] at hcount
    · intro _
      exact hlt

/-- A word passed on pays with its `last`. -/
lemma CodesBelow.pass_word {n : ℕ} {s : Io InputStrm ParserOut NetWord mem.State} {w : NetWord}
    {ws : List NetWord} (hx : CodesBelow n (ParserLabel.passStream,s))
    (hinp : s.inp .inputStrm = w::ws) : CodesBelow n
      (if w.last then ParserLabel.start else .passStream,
        (⟨Function.update s.inp .inputStrm ws,
          Function.update s.out .outputStrm (s.out .outputStrm ++ [w]),s.mem⟩ :
          Io InputStrm ParserOut NetWord mem.State)) := by
  have hended : Ended (s.inp .inputStrm) := hx.ended
  have hcount : (s.out .protStrm).length + lasts (s.inp .inputStrm) ≤ n + 1 := (hx.pass rfl).1
  have htail : Ended ws := by
    have hd := hended.drop 1
    rwa [hinp] at hd
  rw [hinp] at hended hcount
  have hlasts : lasts (w::ws) = lasts ws + if w.last then 1 else 0 := List.countP_cons
  have hout : Function.update s.out .outputStrm (s.out .outputStrm ++ [w]) .protStrm =
      s.out .protStrm := Function.update_of_ne (by decide) _ _
  cases hl : w.last with
  | true =>
    rw [hl, if_pos rfl] at hlasts
    constructor
    · simpa using htail
    · intro _
      simp only [hout, Function.update_self]
      omega
    · simp
  | false =>
    rw [hl] at hlasts
    constructor
    · simpa using htail
    · simp
    · intro _
      simp only [hout, Function.update_self]
      constructor
      · omega
      · -- the last word of the stream has `last`
        rintro rfl
        exact absurd (hended w rfl) (by rw [hl]; decide)

lemma CodesBelow.block {n : ℕ} {x y : ParserLabel × Io InputStrm ParserOut NetWord mem.State}
    (hx : CodesBelow n x) (h : Block mem i parser x y) : CodesBelow n y := by
  obtain ⟨l, s⟩ := x
  cases l with
  | start =>
    obtain ⟨hle, rfl⟩ := start_parserBlock h
    have hended : Ended (s.inp .inputStrm) := hx.ended
    have hcount : (s.out .protStrm).length + lasts (s.inp .inputStrm) ≤ n := hx.start rfl
    have h14 := le_headerLength (s.inp .inputStrm)
    have hdrop := lasts_drop_le (s.inp .inputStrm) (headerLength (s.inp .inputStrm))
    have hpos := hended.lasts_pos (List.ne_nil_of_length_pos (by omega))
    exact codesBelow_coded hended (by omega) (by omega)
  | passStream =>
    obtain ⟨w, ws, hw, hy⟩ := exists_of_exec_recv mem i h
    obtain rfl := Option.some.inj hy
    exact hx.pass_word hw

lemma CodesBelow.blocks {n : ℕ} {x y : ParserLabel × Io InputStrm ParserOut NetWord mem.State}
    (hx : CodesBelow n x) (h : Blocks mem i parser x y) : CodesBelow n y := by
  induction h with
  | refl => exact hx
  | tail _ hb ih => exact ih.block hb

end Blocks

/-! Frames that hold their headers, and the first that does not. -/

/-- Every frame but the last goes on behind the words read before the code, and the last holds
these words. -/
def HeadersFit (fs : List Frame) : Prop :=
  (∀ f ∈ fs.dropLast, headerLength f.words < f.words.length) ∧
    ∀ f ∈ fs.getLast?, headerLength f.words ≤ f.words.length

lemma headersFit_nil : HeadersFit [] := ⟨nofun, nofun⟩

lemma headersFit_singleton (f : Frame) :
    HeadersFit [f] ↔ headerLength f.words ≤ f.words.length := by simp [HeadersFit]

lemma headersFit_cons (f g : Frame) (fs : List Frame) : HeadersFit (f::g::fs) ↔
    headerLength f.words < f.words.length ∧ HeadersFit (g::fs) := by
  simp [HeadersFit, List.getLast?_cons_cons, and_assoc]

/-- Words of the next frame are read before the code of a frame that is too short. -/
lemma length_le_headerLength (ws rest : List NetWord) (h : ws.length ≤ headerLength ws) :
    ws.length ≤ headerLength (ws ++ rest) := by
  by_cases hfit : headerLength ws ≤ ws.length
  · rw [(classify_append ws rest hfit).2]
    exact h
  have h14 := le_headerLength (ws ++ rest)
  by_cases hlt : ws.length < 14
  · omega
  have heth := ethernetOf_append ws rest (by omega)
  by_cases hip : (ethernetOf ws).etherType = ETHER_TYPE_IPv4
  · have hlen := headerLength_ip hip
    have hlen' := headerLength_ip (heth.symm ▸ hip : (ethernetOf (ws ++ rest)).etherType = _)
    by_cases h34 : ws.length < 34
    · split_ifs at hlen' <;> omega
    · rw [List.drop_append_of_le_length (by omega),
        ipv4Of_append _ rest (by rw [List.length_drop]; omega)] at hlen'
      omega
  · have hlen : headerLength ws = 14 := by
      rw [headerLength, if_neg hip, ite_self]
    omega

section Codes
variable {ι A : Type} {V : A → Type} {mem : Memory ι V} {i : ι}

lemma parser_start_stuck {s : Io InputStrm ParserOut NetWord mem.State}
    (hs : s.inp .inputStrm = []) (y : ParserLabel × Io InputStrm ParserOut NetWord mem.State) :
    ¬ Block mem i parser (.start,s) y := by
  intro h
  obtain ⟨hle, -⟩ := start_parserBlock h
  have h14 := le_headerLength (s.inp .inputStrm)
  rw [hs, List.length_nil] at hle
  rw [hs] at h14
  omega

lemma parser_pass_stuck {s : Io InputStrm ParserOut NetWord mem.State}
    (hs : s.inp .inputStrm = []) (y : ParserLabel × Io InputStrm ParserOut NetWord mem.State) :
    ¬ Block mem i parser (.passStream,s) y := by
  intro h
  obtain ⟨w, ws, hw, -⟩ := exists_of_exec_recv mem i h
  rw [hs] at hw
  cases hw

variable (mem i) in
/-- Frames that hold their headers are coded one by one. -/
lemma codes_of_fit (fs : List Frame) (hf : HeadersFit fs)
    (s : Io InputStrm ParserOut NetWord mem.State) (hs : s.inp .inputStrm = fs.flatMap Frame.words) :
    ∃ x, Blocks mem i parser (.start,s) x ∧ (∀ y, ¬ Block mem i parser x y) ∧
      x.2.out .protStrm = s.out .protStrm ++ fs.map fun f => byteWord (classify f.words).code := by
  induction fs generalizing s with
  | nil => exact ⟨_, .refl, parser_start_stuck hs, (List.append_nil _).symm⟩
  | cons f fs ih =>
    by_cases hlt : headerLength f.words < f.words.length
    · have hfs : HeadersFit fs := by
        cases fs with
        | nil => exact headersFit_nil
        | cons g fs => exact ((headersFit_cons f g fs).mp hf).2
      have hone := parser_frame mem i f hlt (fs.flatMap Frame.words) s hs
      obtain ⟨x, hx, hstuck, hcodes⟩ := ih hfs
        (coded s (f.words ++ fs.flatMap Frame.words) f.words.length (classify f.words))
        (by simp [coded])
      refine ⟨x, hone.trans hx, hstuck, ?_⟩
      rw [hcodes]
      simp [coded]
    · cases fs with
      | nil =>
        -- the last frame may end with its header
        have hle := (headersFit_singleton f).mp hf
        have hinp : s.inp .inputStrm = f.words := by simpa using hs
        refine ⟨_, .single (exec_parserStart mem i s hinp hle), ?_, rfl⟩
        apply parser_pass_stuck
        exact List.drop_eq_nil_of_le (by omega)
      | cons g fs => exact absurd ((headersFit_cons f g fs).mp hf).1 hlt

/-- The header of a frame that does not hold it is completed with words of the next frames. -/
lemma codes_le_of_short {f : Frame} {fs : List Frame} (hshort : f.words.length ≤ headerLength f.words)
    (hne : fs ≠ []) {s : Io InputStrm ParserOut NetWord mem.State}
    (hs : s.inp .inputStrm = f.words ++ fs.flatMap Frame.words)
    {x y : ParserLabel × Io InputStrm ParserOut NetWord mem.State}
    (hy : Block mem i parser (.start,s) y) (hx : Blocks mem i parser y x) :
    (x.2.out .protStrm).length ≤ (s.out .protStrm).length + fs.length := by
  obtain ⟨-, rfl⟩ := start_parserBlock hy
  have hge := length_le_headerLength f.words (fs.flatMap Frame.words) hshort
  rw [← hs] at hge
  -- the `last` of the frame is read as part of a header
  have hlasts : lasts ((s.inp .inputStrm).drop (headerLength (s.inp .inputStrm))) ≤ fs.length := by
    have hdrop : (s.inp .inputStrm).drop (headerLength (s.inp .inputStrm)) =
        (fs.flatMap Frame.words).drop (headerLength (s.inp .inputStrm) - f.words.length) := by
      rw [hs, List.drop_append, ← hs, List.drop_eq_nil_of_le hge, List.nil_append]
    rw [hdrop, ← lasts_frames fs]
    exact lasts_drop_le _ _
  have hended : Ended (s.inp .inputStrm) := hs ▸ ended_frames (f::fs)
  have hpos := List.length_pos_iff.mpr hne
  have hbelow : CodesBelow ((s.out .protStrm).length + fs.length) (ParserLabel.passStream,
      coded s (s.inp .inputStrm) (headerLength (s.inp .inputStrm)) (classify (s.inp .inputStrm))) :=
    codesBelow_coded hended (by omega) (by omega)
  exact (hbelow.blocks hx).length_le

/-- After a frame that does not hold its header at least one code is missing. -/
lemma codes_lt_of_not_fit (fs : List Frame) (hf : ¬ HeadersFit fs)
    (s : Io InputStrm ParserOut NetWord mem.State) (hs : s.inp .inputStrm = fs.flatMap Frame.words)
    {x : ParserLabel × Io InputStrm ParserOut NetWord mem.State}
    (hx : Blocks mem i parser (.start,s) x) (hstuck : ∀ y, ¬ Block mem i parser x y) :
    (x.2.out .protStrm).length < (s.out .protStrm).length + fs.length := by
  induction fs generalizing s with
  | nil => exact absurd headersFit_nil hf
  | cons f fs ih =>
    by_cases hlt : headerLength f.words < f.words.length
    · have hfs : ¬ HeadersFit fs := by
        cases fs with
        | nil => exact fun _ => hf ((headersFit_singleton f).mpr hlt.le)
        | cons g fs => exact fun h => hf ((headersFit_cons f g fs).mpr ⟨hlt, h⟩)
      have hone := parser_frame mem i f hlt (fs.flatMap Frame.words) s hs
      have hrest := ih hfs (coded s (f.words ++ fs.flatMap Frame.words) f.words.length
        (classify f.words)) (by simp [coded]) (hone.passes hx hstuck)
      simp only [coded, List.length_append, List.length_singleton] at hrest
      rw [List.length_cons]
      omega
    · have hlen : (f::fs).length = fs.length + 1 := List.length_cons
      rw [hlen]
      rcases hx.cases_head with rfl | ⟨y, hy, hr⟩
      · exact Nat.lt_add_of_pos_right (Nat.succ_pos _)
      · have hne : fs ≠ [] := by
          rintro rfl
          have hinp : s.inp .inputStrm = f.words := by simpa using hs
          have hle := (start_parserBlock hy).1
          rw [hinp] at hle
          exact hf ((headersFit_singleton f).mpr hle)
        have hcodes := codes_le_of_short (not_lt.mp hlt) hne hs hy hr
        omega

end Codes

lemma headersFit_le {fs : List Frame} (h : HeadersFit fs) {f : Frame} (hm : f ∈ fs) :
    headerLength f.words ≤ f.words.length := by
  have hne := List.ne_nil_of_mem hm
  have hlast := List.getLast?_eq_getLast_of_ne_nil hne
  rw [← List.dropLast_append_getLast hne, List.mem_append, List.mem_singleton] at hm
  rcases hm with hm | rfl
  · exact (h.1 f hm).le
  · exact h.2 _ hlast

/-- Each frame of a sequence gets one code, the one it gets alone, just when every frame but the
last goes on behind the words read before the code, and the last holds them. -/
theorem parser_codes (fs : List Frame) :
    (∃ codes, WritesCodes fs codes ∧ codes.map some = fs.map parserCode) ↔
      (∀ f ∈ fs.dropLast, headerLength f.words < f.words.length) ∧
        ∀ f ∈ fs.getLast?, headerLength f.words ≤ f.words.length := by
  rw [← HeadersFit]
  constructor
  · rintro ⟨codes, ⟨x, hx, hstuck, hout⟩, hcodes⟩
    by_contra hf
    have hlt := codes_lt_of_not_fit fs hf _ rfl hx hstuck
    have hlen := congrArg List.length hcodes
    rw [← hout, List.length_map, List.length_map, List.length_map] at hlen
    rw [List.length_nil, Nat.zero_add] at hlt
    omega
  · intro hf
    obtain ⟨x, hx, hstuck, hout⟩ := codes_of_fit Memory.none () fs hf
      ⟨fun _ => fs.flatMap Frame.words,fun _ => [],nofun⟩ rfl
    refine ⟨_, ⟨x, hx, hstuck, rfl⟩, ?_⟩
    rw [hout, List.nil_append, List.map_map, List.map_map]
    refine List.map_congr_left fun f hm => ?_
    rw [parserCode_eq f (headersFit_le hf hm)]
    rfl

/-- A frame of 20 words that ends in its IPv4 header. -/
def truncatedFrame : Frame where
  init := (List.replicate 12 0xff ++ [0x08,0x00,0x45,0,0,46,0] : List Byte).map byteWord
  final := ⟨0,true,false⟩
  init_last := fun _ => byteWord_last
  final_last := Eq.refl true

/-- With a frame that ends in its header before it, no code is written for an ARP frame. -/
theorem parser_codes_fails : ¬ ∃ code : List NetWord → Byte,
    ∀ fs, WritesCodes fs (fs.map fun f => code f.words) := by
  rintro ⟨code, h⟩
  obtain ⟨x, hx, hstuck, hout⟩ := h [truncatedFrame,arpFrame]
  have hf : ¬ HeadersFit [truncatedFrame,arpFrame] := by
    rw [headersFit_cons]
    rintro ⟨hlt, -⟩
    revert hlt
    decide
  have hlt := codes_lt_of_not_fit _ hf _ rfl hx hstuck
  have hlen := congrArg List.length hout
  rw [List.length_map, List.length_map] at hlen
  rw [hlen] at hlt
  exact absurd hlt (by decide)

end EncryptionAccelerators.Net
