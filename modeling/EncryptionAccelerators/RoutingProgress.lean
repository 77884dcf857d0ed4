import EncryptionAccelerators.Routing

/-! `parser` and `distributer` on bounded FIFOs: the code of a frame is on its way before the
header words behind it fill `packet_buffer`. -/
namespace EncryptionAccelerators.Net
open Dataflow

/-! `parser` -/

section Parser
variable {A : Type} {V : A → Type}

/-- What `parser` does with a frame: the header, the code and the rest. -/
def frameEvents (f : Frame) : List (Event ParserOut NetWord V) :=
  (f.words.take (headerLength f.words)).map (.send .outputStrm) ++
    .send .protStrm (byteWord (classify f.words).code)::
      (f.words.drop (headerLength f.words)).map (.send .outputStrm)

lemma trace_passed (ws : List NetWord) (n k : ℕ) (h : n + k ≤ ws.length)
    {g : List NetWord → Cmd InputStrm ParserOut NetWord V ParserLabel}
    {evs : List (Event ParserOut NetWord V)}
    (ht : Trace parser (g ((ws.drop n).take k)) (fun _ => ws.drop (n + k)) evs) :
    Trace parser (passInto .inputStrm .outputStrm k [] >>= g) (fun _ => ws.drop n)
      (((ws.drop n).take k).map (.send .outputStrm) ++ evs) := by
  have hk : k ≤ (ws.drop n).length := by
    rw [List.length_drop]
    omega
  apply Trace.passInto_bind InputStrm.inputStrm ParserOut.outputStrm k [] hk
  rw [inputStrm_update, List.drop_drop]
  exact ht

/-- Up to the code: the header is forwarded and the code of its branch written. -/
lemma trace_parserStart (ws : List NetWord) (hl : 42 ≤ ws.length)
    {evs : List (Event ParserOut NetWord V)}
    (h : Trace parser (.ret .passStream) (fun _ => ws.drop (headerLength ws)) evs) :
    Trace parser (.ret .start) (fun _ => ws) ((ws.take (headerLength ws)).map (.send .outputStrm) ++
      .send .protStrm (byteWord (classify ws).code)::evs) := by
  have h34 : ws.take 34 = ws.take 14 ++ (ws.drop 14).take 20 :=
    List.take_add (l := ws) (i := 14) (j := 20)
  have h42 : ws.take 42 = ws.take 14 ++ ((ws.drop 14).take 20 ++ (ws.drop 34).take 8) := by
    rw [← List.append_assoc, ← h34]
    exact List.take_add (l := ws) (i := 34) (j := 8)
  have hstart {g : List NetWord → Cmd InputStrm ParserOut NetWord V ParserLabel}
      {evs : List (Event ParserOut NetWord V)}
      (ht : Trace parser (g (ws.take 14)) (fun _ => ws.drop 14) evs) :
      Trace parser (passInto .inputStrm .outputStrm 14 [] >>= g) (fun _ => ws)
        ((ws.take 14).map (.send .outputStrm) ++ evs) := trace_passed ws 0 14 (by omega) ht
  refine .call ?_
  rw [parser_start]
  unfold headerLength at h ⊢
  unfold classify
  by_cases harp : (ethernetOf ws).etherType = ETHER_TYPE_ARP
  · rw [if_pos harp] at h ⊢
    refine hstart ?_
    rw [ethernetOf_take ws le_rfl, if_pos harp, if_pos harp]
    exact .send h
  rw [if_neg harp] at h ⊢
  by_cases hip : (ethernetOf ws).etherType = ETHER_TYPE_IPv4
  case neg =>
    rw [if_neg hip] at h ⊢
    refine hstart ?_
    rw [ethernetOf_take ws le_rfl, if_neg harp, if_neg hip, if_neg harp, if_neg hip]
    exact .send h
  rw [if_pos hip] at h ⊢
  rw [if_neg harp, if_pos hip]
  by_cases hicmp : (ipv4Of (ws.drop 14)).protocol = IP_PROTOCOL_ICMP
  · rw [if_pos hicmp] at h ⊢
    rw [h34, List.map_append, List.append_assoc]
    refine hstart ?_
    rw [ethernetOf_take ws le_rfl, if_neg harp, if_pos hip]
    refine trace_passed ws 14 20 (by omega) ?_
    rw [ipv4Of_take _ le_rfl, if_pos hicmp, if_pos hicmp]
    exact .send h
  rw [if_neg hicmp] at h ⊢
  by_cases hudp : (ipv4Of (ws.drop 14)).protocol = IP_PROTOCOL_UDP
  case neg =>
    rw [if_neg hudp] at h ⊢
    rw [h34, List.map_append, List.append_assoc]
    refine hstart ?_
    rw [ethernetOf_take ws le_rfl, if_neg harp, if_pos hip]
    refine trace_passed ws 14 20 (by omega) ?_
    rw [ipv4Of_take _ le_rfl, if_neg hicmp, if_neg hudp, if_neg hicmp, if_neg hudp]
    exact .send h
  rw [if_pos hudp] at h ⊢
  rw [h42, List.map_append, List.map_append, List.append_assoc, List.append_assoc]
  refine hstart ?_
  rw [ethernetOf_take ws le_rfl, if_neg harp, if_pos hip]
  refine trace_passed ws 14 20 (by omega) ?_
  rw [ipv4Of_take _ le_rfl, if_neg hicmp, if_pos hudp, if_neg hicmp, if_pos hudp]
  refine trace_passed ws 34 8 (by omega) ?_
  rw [udpOf_take _ le_rfl]
  split_ifs with hstrm hreg
  · exact .send h
  · exact .send h
  · exact .send h

lemma trace_parserFrame (f : Frame) (hf : 43 ≤ f.words.length) (rest : List NetWord)
    {evs : List (Event ParserOut NetWord V)}
    (h : Trace parser (.ret .start) (fun _ => rest) evs) :
    Trace parser (.ret .start) (fun _ => f.words ++ rest) (frameEvents f ++ evs) := by
  have hle := headerLength_le f.words
  obtain ⟨hc, hh⟩ := classify_append f.words rest (by omega)
  have hdrop := f.drop_words_append rest (by omega : headerLength f.words < f.words.length)
  have hpass : Trace parser (.ret .passStream) _ _ :=
    trace_passStream ParserOut.outputStrm ParserLabel.passStream ParserLabel.start rfl
      (f.init.drop (headerLength f.words)) rest f.final
      (fun x hx => f.init_last x (List.mem_of_mem_drop hx)) f.final_last h
  rw [← hdrop, ← f.drop_words (by omega), ← hh] at hpass
  have hstart := trace_parserStart (f.words ++ rest) (by simp; omega) hpass
  rw [hc, hh, List.take_append_of_le_length (by omega)] at hstart
  rw [frameEvents, List.append_assoc, List.cons_append]
  exact hstart

/-- All that `parser` does with a sequence of frames. -/
lemma trace_parserFrames (fs : List Frame) (hf : ∀ f ∈ fs, 43 ≤ f.words.length) :
    Trace (V := V) parser (.ret .start) (fun _ => fs.flatMap Frame.words)
      (fs.flatMap frameEvents) := by
  induction fs with
  | nil =>
    refine .call ?_
    rw [parser_start, passInto_succ_bind]
    exact .starve rfl
  | cons f fs ih =>
    rw [List.flatMap_cons, List.flatMap_cons]
    exact trace_parserFrame f (hf f (by simp)) _ (ih fun g hg => hf g (by simp [hg]))

/-- The words among the events. -/
def sentWords (evs : List (Event ParserOut NetWord V)) : List NetWord :=
  evs.filterMap fun
    | .send .outputStrm w => some w
    | _ => none

/-- The codes among the events. -/
def sentCodes (evs : List (Event ParserOut NetWord V)) : List NetWord :=
  evs.filterMap fun
    | .send .protStrm w => some w
    | _ => none

lemma sentWords_append (evs evs' : List (Event ParserOut NetWord V)) :
    sentWords (evs ++ evs') = sentWords evs ++ sentWords evs' := List.filterMap_append

lemma sentCodes_append (evs evs' : List (Event ParserOut NetWord V)) :
    sentCodes (evs ++ evs') = sentCodes evs ++ sentCodes evs' := List.filterMap_append

lemma sentWords_words (ws : List NetWord) :
    sentWords (ws.map (Event.send (V := V) ParserOut.outputStrm)) = ws := by
  rw [sentWords, List.filterMap_map]
  exact List.filterMap_some

lemma sentCodes_words (ws : List NetWord) :
    sentCodes (ws.map (Event.send (V := V) ParserOut.outputStrm)) = [] := by
  rw [sentCodes, List.filterMap_map]
  exact List.filterMap_eq_nil_iff.mpr fun _ _ => rfl

@[simp] lemma sentWords_cons_word (w : NetWord) (evs : List (Event ParserOut NetWord V)) :
    sentWords (.send .outputStrm w::evs) = w::sentWords evs := rfl

@[simp] lemma sentWords_cons_code (c : NetWord) (evs : List (Event ParserOut NetWord V)) :
    sentWords (.send .protStrm c::evs) = sentWords evs := rfl

@[simp] lemma sentCodes_cons_word (w : NetWord) (evs : List (Event ParserOut NetWord V)) :
    sentCodes (.send .outputStrm w::evs) = sentCodes evs := rfl

@[simp] lemma sentCodes_cons_code (c : NetWord) (evs : List (Event ParserOut NetWord V)) :
    sentCodes (.send .protStrm c::evs) = c::sentCodes evs := rfl

/-- The code of a frame as a word of `prot_fifo`. -/
def codeWord (f : Frame) : NetWord := byteWord (classify f.words).code

/-- A suffix of the words of a list is sent as it is. -/
lemma eq_map_drop {ws : List NetWord} {pre evs : List (Event ParserOut NetWord V)}
    (h : ws.map (.send .outputStrm) = pre ++ evs) :
    evs = (ws.drop pre.length).map (.send .outputStrm) := by
  rw [List.map_drop, h, List.drop_left]

/-- What is left of the events of a frame: the code and more header, the code first, or no code. -/
lemma suffix_frameEvents {f : Frame} {evs : List (Event ParserOut NetWord V)}
    (h : evs <:+ frameEvents f) :
    (∃ n < headerLength f.words, sentWords evs = f.words.drop n ∧ sentCodes evs = [codeWord f]) ∨
      (∃ evs', evs = .send .protStrm (codeWord f)::evs' ∧
        sentWords evs = f.words.drop (headerLength f.words) ∧ sentCodes evs = [codeWord f]) ∨
      ∃ n, sentWords evs = f.words.drop n ∧ sentCodes evs = [] := by
  obtain ⟨pre, hpre⟩ := h
  have hwords : sentWords (.send .protStrm (codeWord f)::(f.words.drop (headerLength f.words)).map
      (Event.send (V := V) .outputStrm)) = f.words.drop (headerLength f.words) := by
    rw [sentWords_cons_code, sentWords_words]
  have hcodes : sentCodes (.send .protStrm (codeWord f)::(f.words.drop (headerLength f.words)).map
      (Event.send (V := V) .outputStrm)) = [codeWord f] := by
    rw [sentCodes_cons_code, sentCodes_words]
  rcases List.append_eq_append_iff.mp hpre with ⟨evs', hhead, rfl⟩ | ⟨evs', -, htail⟩
  · have hlen : pre.length + evs'.length = (f.words.take (headerLength f.words)).length := by
      rw [← List.length_append, ← hhead, List.length_map]
    have htake := List.length_take_le (headerLength f.words) f.words
    have hsplit : (f.words.take (headerLength f.words)).drop pre.length ++
        f.words.drop (headerLength f.words) = f.words.drop pre.length := by
      rw [← List.drop_append_of_le_length (by omega), List.take_append_drop]
    rw [eq_map_drop hhead]
    by_cases hn : pre.length < headerLength f.words
    · refine .inl ⟨pre.length, hn, ?_, ?_⟩
      · rw [sentWords_append, sentWords_words]
        exact (congrArg (_ ++ ·) hwords).trans hsplit
      · rw [sentCodes_append, sentCodes_words]
        exact hcodes
    · rw [List.drop_of_length_le (by omega), List.map_nil, List.nil_append]
      exact .inr (.inl ⟨_, rfl, hwords, hcodes⟩)
  · cases evs' with
    | nil =>
      rw [List.nil_append] at htail
      rw [← htail]
      exact .inr (.inl ⟨_, rfl, hwords, hcodes⟩)
    | cons ev evs' =>
      have hrest := (List.cons.inj htail).2
      rw [eq_map_drop hrest, sentWords_words, sentCodes_words, List.drop_drop]
      exact .inr (.inr ⟨_, rfl, rfl⟩)

/-- A suffix of a concatenation starts inside one of its pieces. -/
lemma suffix_flatMap {α β : Type} {g : α → List β} {xs : List α} {l : List β}
    (h : l <:+ xs.flatMap g) : l = [] ∨
      ∃ x ys e, x::ys <:+ xs ∧ e <:+ g x ∧ e ≠ [] ∧ l = e ++ ys.flatMap g := by
  induction xs with
  | nil => exact .inl (List.suffix_nil.mp h)
  | cons x xs ih =>
    have hlater (hl : l <:+ xs.flatMap g) : l = [] ∨
        ∃ y ys e, y::ys <:+ x::xs ∧ e <:+ g y ∧ e ≠ [] ∧ l = e ++ ys.flatMap g := by
      rcases ih hl with hnil | ⟨y, ys, e, hy, he, hne, heq⟩
      · exact .inl hnil
      · exact .inr ⟨y, ys, e, hy.trans (List.suffix_cons x xs), he, hne, heq⟩
    rw [List.flatMap_cons] at h
    obtain ⟨pre, hpre⟩ := h
    rcases List.append_eq_append_iff.mp hpre with ⟨e, hx, hl⟩ | ⟨b, -, hb⟩
    · by_cases he : e = []
      · subst he
        exact hlater ⟨[], hl⟩
      · exact .inr ⟨x, xs, e, List.suffix_rfl, ⟨pre, hx.symm⟩, he, hl⟩
    · exact hlater ⟨b, hb.symm⟩

lemma events_send {fs : List Frame} {ev : Event ParserOut NetWord V}
    (h : ev ∈ fs.flatMap frameEvents) : ∃ q w, ev = .send q w := by
  obtain ⟨f, -, hf⟩ := List.mem_flatMap.mp h
  rw [frameEvents, List.mem_append, List.mem_cons, List.mem_map, List.mem_map] at hf
  rcases hf with ⟨w, -, rfl⟩ | rfl | ⟨w, -, rfl⟩
  · exact ⟨_, _, rfl⟩
  · exact ⟨_, _, rfl⟩
  · exact ⟨_, _, rfl⟩

lemma sentWords_frames (fs : List Frame) :
    sentWords (V := V) (fs.flatMap frameEvents) = fs.flatMap Frame.words := by
  induction fs with
  | nil => rfl
  | cons f fs ih =>
    rw [List.flatMap_cons, sentWords_append, ih, List.flatMap_cons, frameEvents, sentWords_append,
      sentWords_words, sentWords_cons_code, sentWords_words, List.take_append_drop]

lemma sentCodes_frames (fs : List Frame) :
    sentCodes (V := V) (fs.flatMap frameEvents) = fs.map codeWord := by
  induction fs with
  | nil => rfl
  | cons f fs ih =>
    rw [List.flatMap_cons, sentCodes_append, ih, frameEvents, sentCodes_append, sentCodes_words,
      sentCodes_cons_code, sentCodes_words]
    rfl

end Parser

/-! `distributer` -/

section Distributer
variable {A : Type} {V : A → Type}

/-- Between two turns of `distributer` at the label `l` the words `cur` of its frame are left. -/
def Rest (l : DistributerLabel) (cur : List NetWord) : Prop :=
  if l = .start then cur = [] else ∃ f : Frame, cur = f.words

/-- `distributer` with the words `cur` of its frame left to read. -/
def DistributerAt (c : Cmd DistributerIn DistributerOut NetWord V DistributerLabel)
    (cur : List NetWord) : Prop :=
  ∃ l, Rest l cur ∧ (c = .ret l ∨ c = distributer l ∨ ∃ q w, c = .send q w (.ret l))

/-- Whatever code it reads, `distributer` goes on with one of its loops. -/
lemma distributer_start : ∃ next : NetWord → DistributerLabel, (∀ c, next c ≠ .start) ∧
    (distributer .start : Cmd _ _ NetWord V _) = .recv .protStrm fun c => .ret (next c) := by
  refine ⟨fun c => if c.data = Prot.ARP.code then .passStream .arpStrm
    else if c.data = Prot.ICMP.code then .passStream .icmpStrm
    else if c.data = Prot.UDP_STRM.code then .passStream .udpStrmStrm
    else if c.data = Prot.UDP_REG.code then .passStream .udpRegStrm
    else .discardStream, fun c => ?_, ?_⟩
  · dsimp only
    split_ifs <;> simp
  · unfold distributer
    simp only [readWord_bind, Cmd.pure_def]
    congr 1
    funext c
    split_ifs <;> rfl

lemma Rest.ne_nil {l : DistributerLabel} {cur : List NetWord} (h : Rest l cur) (hne : l ≠ .start) :
    cur ≠ [] := by
  rw [Rest, if_neg hne] at h
  obtain ⟨f, rfl⟩ := h
  exact f.words_ne_nil

/-- After a word of a frame the frame goes on, unless the word was its last. -/
lemma Rest.cons {again : DistributerLabel} (hne : again ≠ .start) {w : NetWord}
    {cur : List NetWord} (h : Rest again (w::cur)) :
    Rest (if w.last then .start else again) cur := by
  rw [Rest, if_neg hne] at h
  obtain ⟨f, hf⟩ := h
  rw [Frame.words] at hf
  cases hi : f.init with
  | nil =>
    rw [hi, List.nil_append] at hf
    obtain ⟨rfl, rfl⟩ := List.cons.inj hf
    rw [f.final_last, Rest]
    rfl
  | cons x init =>
    rw [hi, List.cons_append] at hf
    obtain ⟨rfl, rfl⟩ := List.cons.inj hf
    rw [f.init_last w (by simp [hi]), Rest, if_neg (by simpa using hne)]
    exact ⟨⟨init,f.final,fun y hy => f.init_last y (by simp [hi, hy]),f.final_last⟩, rfl⟩

end Distributer

/-! The two cores -/

section Network
variable {mem : Memory RoutingCore Cell.Val} {cap : RoutingFifo → ℕ∞}
  {s t : routing.State mem.State} {fs gs : List Frame} {cur : List NetWord}
  {evs : List (Event ParserOut NetWord Cell.Val)}

/-- A step of `distributer` reads the code of its next frame, reads a word of its frame, or is not
seen by `parser`. -/
lemma distributer_step (h : routing.StepAt mem cap .distributer s t)
    (ha : DistributerAt (s.code .distributer) cur) :
    (DistributerAt (t.code .distributer) cur ∧ t.fifo .packetBuffer = s.fifo .packetBuffer ∧
      t.fifo .protFifo = s.fifo .protFifo) ∨
    (cur = [] ∧ (∀ f : Frame, DistributerAt (t.code .distributer) f.words) ∧
      t.fifo .packetBuffer = s.fifo .packetBuffer ∧
      ∃ c, s.fifo .protFifo = c::t.fifo .protFifo) ∨
    ∃ w, s.fifo .packetBuffer = w::t.fifo .packetBuffer ∧
      (∀ cur', cur = w::cur' → DistributerAt (t.code .distributer) cur') ∧
      cur ≠ [] ∧ t.fifo .protFifo = s.fifo .protFifo := by
  obtain ⟨l, hl, hc | hc | ⟨q, w, hc⟩⟩ := ha
  · cases h with
    | call hr =>
      cases hc.symm.trans hr
      exact .inl ⟨⟨l, hl, .inr (.inl (Function.update_self .distributer _ s.code))⟩, rfl, rfl⟩
    | _ hr => cases hc.symm.trans hr
  · cases l with
    | start =>
      obtain ⟨next, hnext, hstart⟩ := distributer_start (V := Cell.Val)
      rw [hstart] at hc
      cases h with
      | @read p k c cs hr hf =>
        cases hc.symm.trans hr
        have hcode (f : Frame) : Rest (next c) f.words := by
          rw [Rest, if_neg (hnext c)]
          exact ⟨f, rfl⟩
        refine .inr (.inl ⟨hl, fun f => ⟨next c, hcode f, .inl (by simp)⟩, ?_, c, ?_⟩)
        · simp [RoutingCore.src]
        · simpa [RoutingCore.src] using hf
      | _ hr => cases hc.symm.trans hr
    | passStream q =>
      cases h with
      | @read p k w ws hr hf =>
        cases hc.symm.trans hr
        refine .inr (.inr ⟨w, ?_, fun cur' hcur => ?_, hl.ne_nil (by simp), ?_⟩)
        · simpa [RoutingCore.src] using hf
        · subst hcur
          exact ⟨_, hl.cons (by simp), .inr (.inr ⟨q, w, Function.update_self .distributer _ s.code⟩)⟩
        · simp [RoutingCore.src]
      | _ hr => cases hc.symm.trans hr
    | discardStream =>
      cases h with
      | @read p k w ws hr hf =>
        cases hc.symm.trans hr
        refine .inr (.inr ⟨w, ?_, fun cur' hcur => ?_, hl.ne_nil (by simp), ?_⟩)
        · simpa [RoutingCore.src] using hf
        · subst hcur
          exact ⟨_, hl.cons (by simp), .inl (Function.update_self .distributer _ s.code)⟩
        · simp [RoutingCore.src]
      | _ hr => cases hc.symm.trans hr
  · cases h with
    | write hr _ =>
      cases hc.symm.trans hr
      refine .inl ⟨⟨l, hl, .inl (Function.update_self .distributer _ s.code)⟩, ?_, ?_⟩
      · simp [RoutingCore.dst]
      · simp [RoutingCore.dst]
    | _ hr => cases hc.symm.trans hr

/-- `distributer` is ready unless it waits for a code or for a word of its frame. -/
lemma distributer_ready (hsink : ∀ q, cap (.strm q) = ⊤)
    (ha : DistributerAt (s.code .distributer) cur) : routing.Ready cap s .distributer ∨
      (cur = [] ∧ s.fifo .protFifo = []) ∨ cur ≠ [] ∧ s.fifo .packetBuffer = [] := by
  obtain ⟨l, hl, hc⟩ := ha
  have hreads (hc : s.code .distributer = distributer l ∨
      ∃ l', s.code .distributer = .ret l' ∧ routing.body .distributer l' = distributer l) :
      routing.Ready cap s .distributer ∨ (cur = [] ∧ s.fifo .protFifo = []) ∨
        cur ≠ [] ∧ s.fifo .packetBuffer = [] := by
    by_cases hstart : l = .start
    · subst hstart
      cases hfifo : s.fifo .protFifo with
      | nil => exact .inr (.inl ⟨hl, rfl⟩)
      | cons c cs => exact .inl ⟨_, hc, .inl ⟨.protStrm, _, c, cs, rfl, hfifo⟩⟩
    · cases hfifo : s.fifo .packetBuffer with
      | nil => exact .inr (.inr ⟨hl.ne_nil hstart, rfl⟩)
      | cons w ws =>
        refine .inl ⟨_, hc, .inl ⟨.inputStrm, ?_⟩⟩
        cases l with
        | start => exact absurd rfl hstart
        | passStream q => exact ⟨_, w, ws, rfl, hfifo⟩
        | discardStream => exact ⟨_, w, ws, rfl, hfifo⟩
  rcases hc with hc | hc | ⟨q, w, hc⟩
  · exact hreads (.inr ⟨l, hc, rfl⟩)
  · exact hreads (.inl hc)
  · refine .inl ⟨_, .inl hc, .inr ⟨q, w, _, rfl, ?_⟩⟩
    have hroom : cap (routing.dst .distributer q) = ⊤ := by
      cases q <;> exact hsink _
    rw [hroom]
    exact ENat.natCast_lt_top _

/-- The events `evs` of `parser`, the frames `gs` whose codes and the words `cur` of the frame
that `distributer` still has to read. -/
structure RoutingAt (fs : List Frame) (s : routing.State mem.State)
    (evs : List (Event ParserOut NetWord Cell.Val)) (gs : List Frame) (cur : List NetWord) :
    Prop where
  parser : Trace (routing.body .parser) (s.code .parser)
    (fun p => s.fifo (routing.src .parser p)) evs
  events : evs <:+ fs.flatMap frameEvents
  distributer : DistributerAt (s.code .distributer) cur
  frames : gs <:+ fs
  words : s.fifo .packetBuffer ++ sentWords evs = cur ++ gs.flatMap Frame.words
  codes : s.fifo .protFifo ++ sentCodes evs = gs.map codeWord

lemma RoutingAt.start (mem : Memory RoutingCore Cell.Val) (hf : ∀ f ∈ fs, 43 ≤ f.words.length)
    (m : mem.State) : @RoutingAt mem fs (routingStart fs m) (fs.flatMap frameEvents) fs [] where
  parser := trace_parserFrames fs hf
  events := List.suffix_rfl
  distributer := ⟨.start, rfl, .inl rfl⟩
  frames := List.suffix_rfl
  words := sentWords_frames fs
  codes := sentCodes_frames fs

lemma RoutingAt.step (h : RoutingAt fs s evs gs cur) (hs : routing.Step mem cap s t) :
    ∃ evs gs cur, RoutingAt fs t evs gs cur := by
  obtain ⟨i, hi⟩ := hs
  cases i with
  | parser =>
    have hcode : t.code .distributer = s.code .distributer := hi.code_ne (by simp)
    have hdist : DistributerAt (t.code .distributer) cur := hcode.symm ▸ h.distributer
    rcases hi.traced h.parser with ⟨ht, -, hfifo⟩ | ⟨q, w, evs', rfl, ht, -, hfifo⟩ |
      ⟨a, v, k, evs', -, rfl, -⟩
    · refine ⟨evs, gs, cur, ht, h.events, hdist, h.frames, ?_, ?_⟩
      · rw [hfifo .packetBuffer (by simp [RoutingCore.src])]
        exact h.words
      · rw [hfifo .protFifo (by simp [RoutingCore.src])]
        exact h.codes
    · have hevs : evs' <:+ fs.flatMap frameEvents := (List.suffix_cons _ _).trans h.events
      have hwords := h.words
      have hcodes := h.codes
      refine ⟨evs', gs, cur, ht, hevs, hdist, h.frames, ?_, ?_⟩
      · cases q <;> simpa [hfifo, RoutingCore.dst] using hwords
      · cases q <;> simpa [hfifo, RoutingCore.dst] using hcodes
    · obtain ⟨q, w, heq⟩ := events_send (h.events.subset (List.mem_cons_self ..))
      cases heq
  | distributer =>
    have hcode : t.code .parser = s.code .parser := hi.code_ne (by simp)
    have hinput : t.fifo .inputStrm = s.fifo .inputStrm := by
      refine hi.only.2 .inputStrm (fun p => ?_) (fun q => ?_)
      · cases p <;> simp [RoutingCore.src]
      · cases q <;> simp [RoutingCore.dst]
    have hparser : Trace (routing.body .parser) (t.code .parser)
        (fun p => t.fifo (routing.src .parser p)) evs := by
      have hsrc : (fun p => t.fifo (routing.src .parser p)) =
          fun p => s.fifo (routing.src .parser p) := by
        funext p
        cases p
        exact hinput
      rw [hcode, hsrc]
      exact h.parser
    rcases distributer_step hi h.distributer with ⟨ha, hwords, hcodes⟩ |
      ⟨rfl, ha, hwords, c, hcodes⟩ | ⟨w, hwords, ha, hcur, hcodes⟩
    · exact ⟨evs, gs, cur, hparser, h.events, ha, h.frames, hwords ▸ h.words, hcodes ▸ h.codes⟩
    · cases gs with
      | nil => simpa [hcodes] using h.codes
      | cons g gs =>
        have hrest := h.codes
        rw [hcodes, List.cons_append, List.map_cons] at hrest
        refine ⟨evs, gs, g.words, hparser, h.events, ha g, (List.suffix_cons _ _).trans h.frames,
          ?_, (List.cons.inj hrest).2⟩
        rw [hwords]
        exact h.words
    · cases cur with
      | nil => exact absurd rfl hcur
      | cons x cur =>
        have hrest := h.words
        rw [hwords, List.cons_append, List.cons_append] at hrest
        obtain ⟨rfl, htail⟩ := List.cons.inj hrest
        exact ⟨evs, gs, cur, hparser, h.events, ha cur rfl, h.frames, htail, hcodes ▸ h.codes⟩

lemma RoutingAt.of_run (hf : ∀ f ∈ fs, 43 ≤ f.words.length) {m : mem.State}
    (hs : routing.Run mem cap (routingStart fs m) s) : ∃ evs gs cur, RoutingAt fs s evs gs cur := by
  induction hs with
  | refl => exact ⟨_, _, _, .start mem hf m⟩
  | tail _ hstep ih =>
    obtain ⟨evs, gs, cur, h⟩ := ih
    exact h.step hstep

/-- The frame `f` that `parser` is at with the events `e` left of it, the frames `hs` behind it,
and how many words and codes are on their way. -/
lemma RoutingAt.pending (h : RoutingAt fs s evs gs cur) (hne : evs ≠ []) : ∃ f hs e,
    f::hs <:+ fs ∧ e <:+ frameEvents f ∧ e ≠ [] ∧ evs = e ++ hs.flatMap frameEvents ∧
      (s.fifo .packetBuffer).length + (sentWords e).length + (hs.flatMap Frame.words).length =
        cur.length + (gs.flatMap Frame.words).length ∧
      (s.fifo .protFifo).length + (sentCodes e).length + hs.length = gs.length := by
  rcases suffix_flatMap h.events with hnil | ⟨f, hs, e, hsuf, he, hpos, rfl⟩
  · exact absurd hnil hne
  · have hwords := congrArg List.length h.words
    have hcodes := congrArg List.length h.codes
    rw [sentWords_append, sentWords_frames, List.length_append, List.length_append,
      List.length_append, ← Nat.add_assoc] at hwords
    rw [sentCodes_append, sentCodes_frames, List.length_append, List.length_append,
      List.length_map, List.length_map, ← Nat.add_assoc] at hcodes
    exact ⟨f, hs, e, hsuf, he, hpos, rfl, hwords, hcodes⟩

/-- While `distributer` waits for a code, too few words wait in `packet_buffer` to hold up
`parser`. -/
lemma RoutingAt.packetBuffer_room (h : RoutingAt fs s evs gs [])
    (hf : ∀ f ∈ fs, 43 ≤ f.words.length) {w : NetWord}
    {evs' : List (Event ParserOut NetWord Cell.Val)} (hevs : evs = .send .outputStrm w::evs')
    (hnone : s.fifo .protFifo = []) : (s.fifo .packetBuffer).length < 42 := by
  obtain ⟨f, hs, e, hsuf, he, hpos, heq, hwords, hcodes⟩ := h.pending (by simp [hevs])
  have hlen : 43 ≤ f.words.length := hf f (hsuf.subset (List.mem_cons_self ..))
  have hheader := headerLength_le f.words
  rw [hnone] at hcodes
  rcases suffix_frameEvents he with ⟨n, hn, hwe, hce⟩ | ⟨e', rfl, -⟩ | ⟨n, -, hce⟩
  · have hgs : gs = f::hs := by
      refine (List.suffix_of_suffix_length_le h.frames hsuf ?_).eq_of_length ?_
      · simp [← hcodes, hce, Nat.add_comm]
      · simp [← hcodes, hce, Nat.add_comm]
    rw [hgs, hwe, List.flatMap_cons, List.length_append, List.length_drop] at hwords
    simp only [List.length_nil] at hwords
    omega
  · rw [hevs] at heq
    cases heq
  · have hgs : gs = hs := by
      refine (List.suffix_of_suffix_length_le h.frames ((List.suffix_cons f hs).trans hsuf) ?_).eq_of_length ?_
      · simp [← hcodes, hce]
      · simp [← hcodes, hce]
    rw [hgs] at hwords
    simp only [List.length_nil] at hwords
    omega

/-- While `distributer` waits for a word of its frame, no code waits in `prot_fifo`. -/
lemma RoutingAt.protFifo_empty (h : RoutingAt fs s evs gs cur) (hne : evs ≠ []) (hcur : cur ≠ [])
    (hnone : s.fifo .packetBuffer = []) : s.fifo .protFifo = [] := by
  obtain ⟨f, hs, e, hsuf, he, hpos, heq, hwords, hcodes⟩ := h.pending hne
  have hle : (sentWords e).length ≤ f.words.length := by
    rcases suffix_frameEvents he with ⟨n, -, hwe, -⟩ | ⟨_, -, hwe, -⟩ | ⟨n, hwe, -⟩ <;>
      simp [hwe]
  have hcurLength := List.length_pos_of_ne_nil hcur
  by_contra hsome
  have hprot := List.length_pos_of_ne_nil hsome
  -- the code in `prot_fifo` is of a frame none of whose words were read
  have hgs : f::hs <:+ gs := by
    refine List.suffix_of_suffix_length_le hsuf h.frames ?_
    rw [List.length_cons]
    omega
  obtain ⟨pre, rfl⟩ := hgs
  rw [hnone, List.flatMap_append, List.flatMap_cons, List.length_append, List.length_append,
    List.length_nil] at hwords
  omega

/-- Whenever a word is still to be delivered, one of the two cores can read or write a word. -/
theorem routing_progress (fs : List Frame) (hf : ∀ f ∈ fs, 43 ≤ f.words.length)
    (cap : RoutingFifo → ℕ∞) (hpacket : 42 ≤ cap .packetBuffer) (hprot : 1 ≤ cap .protFifo)
    (hsink : ∀ q, cap (.strm q) = ⊤) (m : (Memory.shared RoutingCore Cell.Val).State)
    (s : routing.State (Memory.shared RoutingCore Cell.Val).State)
    (hs : routing.Run (Memory.shared RoutingCore Cell.Val) cap (routingStart fs m) s)
    (hleft : s.fifo .inputStrm ≠ [] ∨ s.fifo .packetBuffer ≠ [] ∨ s.fifo .protFifo ≠ []) :
    ∃ i, routing.Ready cap s i ∧
      ∃ t, routing.StepAt (Memory.shared RoutingCore Cell.Val) cap i s t := by
  suffices hready : ∃ i, routing.Ready cap s i by
    obtain ⟨i, hi⟩ := hready
    exact ⟨i, hi, hi.step⟩
  obtain ⟨evs, gs, cur, h⟩ := RoutingAt.of_run hf hs
  have hbody : ∀ l l', routing.body .parser l ≠ .ret l' := by
    intro l l'
    cases l <;> exact nofun
  rcases distributer_ready hsink h.distributer with hdist | hdist
  · exact ⟨.distributer, hdist⟩
  have hparser : routing.Ready cap s .parser ∨ _ := Network.Ready.of_trace hbody h.parser
  rcases hparser with hparser | ⟨rfl, p, hin⟩ | ⟨q, w, evs', rfl, hfull⟩ | ⟨a, v, evs', rfl⟩
  · exact ⟨.parser, hparser⟩
  · -- `parser` waits for a frame, so all it sent has been read
    have hin : s.fifo .inputStrm = [] := by
      cases p
      exact hin
    have hwords := h.words
    have hcodes := h.codes
    rcases hdist with ⟨rfl, hnone⟩ | ⟨hcur, hnone⟩
    · have hgs : gs = [] := by simpa [hnone, sentCodes] using hcodes
      subst hgs
      have hbuffer : s.fifo .packetBuffer = [] := by simpa [sentWords] using hwords
      simp [hin, hbuffer, hnone] at hleft
    · rw [hnone] at hwords
      exact absurd (List.append_eq_nil_iff.mp hwords.symm).1 hcur
  · cases q with
    | outputStrm =>
      have hfull : 42 ≤ (s.fifo .packetBuffer).length := by exact_mod_cast hpacket.trans hfull
      rcases hdist with ⟨rfl, hnone⟩ | ⟨-, hnone⟩
      · exact absurd (h.packetBuffer_room hf rfl hnone) (by omega)
      · simp [hnone] at hfull
    | protStrm =>
      have hfull : 1 ≤ (s.fifo .protFifo).length := by exact_mod_cast hprot.trans hfull
      rcases hdist with ⟨-, hnone⟩ | ⟨hcur, hnone⟩
      · simp [hnone] at hfull
      · simp [h.protFifo_empty (by simp) hcur hnone] at hfull
  · obtain ⟨q, w, heq⟩ := events_send (h.events.subset (List.mem_cons_self ..))
    cases heq

/-- Room for four frames of 43 words and their codes. -/
def mixedDepth : RoutingFifo → ℕ∞
  | .packetBuffer => 172
  | .protFifo => 4
  | .inputStrm => 0
  | .strm _ => ⊤

/-- `routing_progress` where both FIFOs are full. -/
theorem routing_progress_mixedFrames : ∃ s,
    routing.Run (Memory.shared RoutingCore Cell.Val) mixedDepth (routingStart mixedFrames Cell.zero) s ∧
    s.fifo .packetBuffer = mixedFrames.flatMap Frame.words ∧ (s.fifo .protFifo).length = 4 ∧
    ∃ i, routing.Ready mixedDepth s i ∧
      ∃ t, routing.StepAt (Memory.shared RoutingCore Cell.Val) mixedDepth i s t := by
  have hf : ∀ f ∈ mixedFrames, 43 ≤ f.words.length := by decide
  have hlen : (mixedFrames.flatMap Frame.words).length = 172 := rfl
  have h42 : ((42 : ℕ) : ℕ∞) ≤ (172 : ℕ) := Nat.cast_le.mpr (by decide)
  have h1 : ((1 : ℕ) : ℕ∞) ≤ (4 : ℕ) := Nat.cast_le.mpr (by decide)
  have hs : routing.Run (Memory.shared RoutingCore Cell.Val) mixedDepth
      (routingStart mixedFrames Cell.zero) _ :=
    routing_parsed mixedFrames (Memory.shared RoutingCore Cell.Val) Cell.zero hf
      (le_of_eq (congrArg Nat.cast hlen)) le_rfl
  exact ⟨_, hs, rfl, rfl, routing_progress mixedFrames hf mixedDepth h42 h1 (fun _ => rfl) Cell.zero
    _ hs (.inr (.inl (by decide)))⟩

end Network

end EncryptionAccelerators.Net
