import EncryptionAccelerators.NetHeaders

/-! The core `parser`: it forwards every word and writes one protocol code in the middle of
each frame. -/
namespace EncryptionAccelerators.Net
open Dataflow

inductive ParserOut
  | outputStrm | protStrm
  deriving DecidableEq

/-- The entry of `parser` and the loop of its `pass_stream`. -/
inductive ParserLabel
  | start | passStream
  deriving DecidableEq

section Parser
variable {ι A : Type} {V : A → Type}

def parser : ParserLabel → Cmd InputStrm ParserOut NetWord V ParserLabel
  | .start => do
    let _ ← passInto .inputStrm .outputStrm 12 []
    let hi ← passWord .inputStrm .outputStrm
    let lo ← passWord .inputStrm .outputStrm
    let etherType := hi.data ++ lo.data
    if etherType = ETHER_TYPE_ARP then
      writeWord .protStrm (byteWord Prot.ARP.code)
      return .passStream
    else if etherType = ETHER_TYPE_IPv4 then
      let ipHeader ← readPassIpv4Header .inputStrm .outputStrm
      if ipHeader.protocol = IP_PROTOCOL_ICMP then
        writeWord .protStrm (byteWord Prot.ICMP.code)
      else if ipHeader.protocol = IP_PROTOCOL_UDP then
        let udpHeader ← readPassUdpHeader .inputStrm .outputStrm
        if udpHeader.dstPort = 60000 then
          writeWord .protStrm (byteWord Prot.UDP_STRM.code)
        else if udpHeader.dstPort = 50000 ∨ udpHeader.dstPort = 40000 then
          writeWord .protStrm (byteWord Prot.UDP_REG.code)
        else
          writeWord .protStrm (byteWord Prot.OTHER.code)
      else
        writeWord .protStrm (byteWord Prot.OTHER.code)
      return .passStream
    else
      writeWord .protStrm (byteWord Prot.OTHER.code)
      return .passStream
  | .passStream => passStream .inputStrm .outputStrm .passStream .start

/-- The code a frame gets, by the fields at the fixed offsets `parser` looks at. -/
def classify (f : List NetWord) : Prot :=
  if (ethernetOf f).etherType = ETHER_TYPE_ARP then .ARP
  else if (ethernetOf f).etherType = ETHER_TYPE_IPv4 then
    if (ipv4Of (f.drop 14)).protocol = IP_PROTOCOL_ICMP then .ICMP
    else if (ipv4Of (f.drop 14)).protocol = IP_PROTOCOL_UDP then
      if (udpOf (f.drop 34)).dstPort = 60000 then .UDP_STRM
      else if (udpOf (f.drop 34)).dstPort = 50000 ∨ (udpOf (f.drop 34)).dstPort = 40000 then
        .UDP_REG
      else .OTHER
    else .OTHER
  else .OTHER

/-- The words read before the code is written. -/
def headerLength (f : List NetWord) : ℕ :=
  if (ethernetOf f).etherType = ETHER_TYPE_ARP then 14
  else if (ethernetOf f).etherType = ETHER_TYPE_IPv4 then
    if (ipv4Of (f.drop 14)).protocol = IP_PROTOCOL_ICMP then 34
    else if (ipv4Of (f.drop 14)).protocol = IP_PROTOCOL_UDP then 42
    else 34
  else 14

lemma headerLength_le (f : List NetWord) : headerLength f ≤ 42 := by
  unfold headerLength
  split_ifs <;> omega

lemma le_headerLength (f : List NetWord) : 14 ≤ headerLength f := by
  unfold headerLength
  split_ifs <;> omega

lemma etherType_ne {t : BitVec 16} (h : t = ETHER_TYPE_IPv4) : t ≠ ETHER_TYPE_ARP := by
  subst h
  decide

lemma protocol_ne {p : Byte} (h : p = IP_PROTOCOL_UDP) : p ≠ IP_PROTOCOL_ICMP := by
  subst h
  decide

lemma headerLength_ip {f : List NetWord} (hip : (ethernetOf f).etherType = ETHER_TYPE_IPv4) :
    headerLength f = if (ipv4Of (f.drop 14)).protocol = IP_PROTOCOL_UDP then 42 else 34 := by
  rw [headerLength, if_neg (etherType_ne hip), if_pos hip]
  by_cases hudp : (ipv4Of (f.drop 14)).protocol = IP_PROTOCOL_UDP
  · rw [if_neg (protocol_ne hudp)]
  · rw [if_neg hudp, ite_self]

lemma parser_start : (parser .start : Cmd InputStrm ParserOut NetWord V ParserLabel) =
    passInto .inputStrm .outputStrm 14 [] >>= fun eth =>
      if (ethernetOf eth).etherType = ETHER_TYPE_ARP then
        .send .protStrm (byteWord Prot.ARP.code) (.ret .passStream)
      else if (ethernetOf eth).etherType = ETHER_TYPE_IPv4 then
        passInto .inputStrm .outputStrm 20 [] >>= fun ip =>
          if (ipv4Of ip).protocol = IP_PROTOCOL_ICMP then
            .send .protStrm (byteWord Prot.ICMP.code) (.ret .passStream)
          else if (ipv4Of ip).protocol = IP_PROTOCOL_UDP then
            passInto .inputStrm .outputStrm 8 [] >>= fun udp =>
              if (udpOf udp).dstPort = 60000 then
                .send .protStrm (byteWord Prot.UDP_STRM.code) (.ret .passStream)
              else if (udpOf udp).dstPort = 50000 ∨ (udpOf udp).dstPort = 40000 then
                .send .protStrm (byteWord Prot.UDP_REG.code) (.ret .passStream)
              else .send .protStrm (byteWord Prot.OTHER.code) (.ret .passStream)
          else .send .protStrm (byteWord Prot.OTHER.code) (.ret .passStream)
      else .send .protStrm (byteWord Prot.OTHER.code) (.ret .passStream) := by
  simp only [parser, readPassIpv4Header_eq, readPassUdpHeader_eq, passInto_succ_bind,
    passInto_zero_bind, List.nil_append, List.cons_append, passWord_bind, writeWord_bind,
    Cmd.pure_def]
  rfl

section Exec
variable {M : Type} (s : Io InputStrm ParserOut NetWord M) (f : List NetWord)

/-- `n` words of `f` forwarded, no code written yet. -/
def passed (n : ℕ) : Io InputStrm ParserOut NetWord M where
  inp _ := f.drop n
  out
    | .outputStrm => s.out .outputStrm ++ f.take n
    | .protStrm => s.out .protStrm
  mem := s.mem

/-- `n` words of `f` forwarded and the code `c` written. -/
def coded (n : ℕ) (c : Prot) : Io InputStrm ParserOut NetWord M where
  inp _ := f.drop n
  out
    | .outputStrm => s.out .outputStrm ++ f.take n
    | .protStrm => s.out .protStrm ++ [byteWord c.code]
  mem := s.mem

end Exec

variable (mem : Memory ι V) (i : ι)

lemma passed_zero {M : Type} (s : Io InputStrm ParserOut NetWord M) {f : List NetWord}
    (hf : s.inp .inputStrm = f) : passed s f 0 = s := by
  ext p : 2
  · cases p; simp [passed, hf]
  · cases p <;> simp [passed]
  · rfl

lemma exec_passed (s : Io InputStrm ParserOut NetWord mem.State) (f : List NetWord) (n k : ℕ)
    (h : n + k ≤ f.length) (g : List NetWord → Cmd InputStrm ParserOut NetWord V ParserLabel) :
    exec mem i (passInto .inputStrm .outputStrm k [] >>= g) (passed s f n) =
      exec mem i (g ((f.drop n).take k)) (passed s f (n + k)) := by
  have hl : k ≤ ((passed s f n).inp .inputStrm).length := by simp [passed]; omega
  rw [exec_passInto_bind mem i _ _ _ _ _ _ hl]
  congr 1
  ext p : 2
  · cases p; simp [passed]
  · cases p <;> simp [passed, List.take_add]
  · rfl

lemma exec_coded (s : Io InputStrm ParserOut NetWord mem.State) (f : List NetWord) (n : ℕ)
    (c : Prot) (l : ParserLabel) : exec mem i (.send .protStrm (byteWord c.code) (.ret l) :
      Cmd InputStrm ParserOut NetWord V ParserLabel) (passed s f n) = some (l,coded s f n c) := by
  rw [exec_send, exec_ret]
  congr 2
  ext q : 2
  · rfl
  · cases q <;> simp [passed, coded]
  · rfl

/-- Up to the code: the header is forwarded and the code of its branch written. -/
lemma exec_parserStart (s : Io InputStrm ParserOut NetWord mem.State) {f : List NetWord}
    (hf : s.inp .inputStrm = f) (hl : headerLength f ≤ f.length) : exec mem i (parser .start) s =
      some (.passStream,coded s f (headerLength f) (classify f)) := by
  have h14 := le_headerLength f
  have hstart := exec_passed mem i s f 0 14 (by omega)
  rw [passed_zero s hf] at hstart
  rw [parser_start, hstart, List.drop_zero, ethernetOf_take f le_rfl]
  unfold headerLength at hl ⊢
  unfold classify
  split_ifs at hl ⊢ with harp hip hicmp hudp hstrm hreg
  · exact exec_coded mem i s f _ _ _
  · rw [exec_passed mem i s f _ 20 hl, ipv4Of_take _ le_rfl, if_pos hicmp]
    exact exec_coded mem i s f _ _ _
  · rw [exec_passed mem i s f _ 20 (by omega), ipv4Of_take _ le_rfl, if_neg hicmp, if_pos hudp,
      exec_passed mem i s f _ 8 hl, udpOf_take _ le_rfl, if_pos hstrm]
    exact exec_coded mem i s f _ _ _
  · rw [exec_passed mem i s f _ 20 (by omega), ipv4Of_take _ le_rfl, if_neg hicmp, if_pos hudp,
      exec_passed mem i s f _ 8 hl, udpOf_take _ le_rfl, if_neg hstrm, if_pos hreg]
    exact exec_coded mem i s f _ _ _
  · rw [exec_passed mem i s f _ 20 (by omega), ipv4Of_take _ le_rfl, if_neg hicmp, if_pos hudp,
      exec_passed mem i s f _ 8 hl, udpOf_take _ le_rfl, if_neg hstrm, if_neg hreg]
    exact exec_coded mem i s f _ _ _
  · rw [exec_passed mem i s f _ 20 hl, ipv4Of_take _ le_rfl, if_neg hicmp, if_neg hudp]
    exact exec_coded mem i s f _ _ _
  · exact exec_coded mem i s f _ _ _

/-- The headers of a frame are in its first 42 words. -/
lemma headers_append (ws rest : List NetWord) (h : 42 ≤ ws.length) :
    ethernetOf (ws ++ rest) = ethernetOf ws ∧
      ipv4Of ((ws ++ rest).drop 14) = ipv4Of (ws.drop 14) ∧
      udpOf ((ws ++ rest).drop 34) = udpOf (ws.drop 34) := by
  refine ⟨ethernetOf_append ws rest (by omega), ?_, ?_⟩
  · rw [List.drop_append_of_le_length (by omega)]
    exact ipv4Of_append _ rest (by rw [List.length_drop]; omega)
  · rw [List.drop_append_of_le_length (by omega)]
    exact udpOf_append _ rest (by rw [List.length_drop]; omega)

/-- A frame that holds all the words read before the code is classified by its own words. -/
lemma classify_append (ws rest : List NetWord) (h : headerLength ws ≤ ws.length) :
    classify (ws ++ rest) = classify ws ∧ headerLength (ws ++ rest) = headerLength ws := by
  have h14 := le_headerLength ws
  have heth := ethernetOf_append ws rest (by omega)
  by_cases hip : (ethernetOf ws).etherType = ETHER_TYPE_IPv4
  · have hlen := headerLength_ip hip
    have hdrop : (ws ++ rest).drop 14 = ws.drop 14 ++ rest :=
      List.drop_append_of_le_length (by omega)
    have hhead : ipv4Of ((ws ++ rest).drop 14) = ipv4Of (ws.drop 14) := by
      rw [hdrop]
      refine ipv4Of_append _ rest ?_
      rw [List.length_drop]
      split_ifs at hlen <;> omega
    by_cases hudp : (ipv4Of (ws.drop 14)).protocol = IP_PROTOCOL_UDP
    · rw [if_pos hudp] at hlen
      have hport := (headers_append ws rest (by omega)).2.2
      unfold classify headerLength
      rw [heth, hhead, hport]
      exact ⟨rfl, rfl⟩
    · unfold classify headerLength
      rw [heth, hhead]
      simp [hudp]
  · unfold classify headerLength
    simp [heth, hip]

/-- One frame: all its words are forwarded and its code is written once. -/
lemma parser_frame (f : Frame) (hf : headerLength f.words < f.words.length) (rest : List NetWord)
    (s : Io InputStrm ParserOut NetWord mem.State) (hs : s.inp .inputStrm = f.words ++ rest) :
    Blocks mem i parser (.start,s)
      (.start,coded s (f.words ++ rest) f.words.length (classify f.words)) := by
  obtain ⟨hc, hh⟩ := classify_append f.words rest hf.le
  have hx := exec_parserStart mem i s hs (by rw [hh, List.length_append]; omega)
  rw [hc, hh] at hx
  have hdrop := f.drop_words_append rest hf
  refine .head hx ?_
  have hp := (passStream_until mem i parser .inputStrm .outputStrm .passStream .start (by simp) rfl
    (f.init.drop (headerLength f.words)) rest f.final
    (fun x hx => f.init_last x (List.mem_of_mem_drop hx)) f.final_last
    (coded s (f.words ++ rest) (headerLength f.words) (classify f.words)) hdrop).blocks
  have htake : (f.words ++ rest).take (headerLength f.words) ++
      (f.init.drop (headerLength f.words) ++ [f.final]) = f.words := by
    rw [List.take_append_of_le_length (by omega), ← f.drop_words (by omega), List.take_append_drop]
  convert hp using 2
  ext q : 2
  · cases q; simp [coded]
  · cases q
    · simp only [coded, Function.update_self, List.append_assoc, htake, List.take_left]
    · simp [coded]
  · rfl

/-- A sequence of frames: all words forwarded, one code a frame, in the same order. -/
lemma parser_frames (fs : List Frame) (hf : ∀ f ∈ fs, 43 ≤ f.words.length)
    (s : Io InputStrm ParserOut NetWord mem.State) (hs : s.inp .inputStrm = fs.flatMap Frame.words) :
    Blocks mem i parser (.start,s) (.start,⟨fun _ => [],fun
      | .outputStrm => s.out .outputStrm ++ fs.flatMap Frame.words
      | .protStrm => s.out .protStrm ++ fs.map fun f => byteWord (classify f.words).code,s.mem⟩) := by
  induction fs generalizing s with
  | nil =>
    refine Blocks.to .refl ?_
    congr 1
    ext q : 2
    · cases q; simpa using hs
    · cases q <;> simp
    · rfl
  | cons f fs ih =>
    have hle := headerLength_le f.words
    have h43 := hf f (by simp)
    have h1 := parser_frame mem i f (by omega) (fs.flatMap Frame.words) s (by simpa using hs)
    have h2 := ih (fun g hg => hf g (by simp [hg]))
      (coded s (f.words ++ fs.flatMap Frame.words) f.words.length (classify f.words))
      (by simp [coded])
    refine (h1.trans h2).to ?_
    congr 2
    funext q
    cases q <;> simp [coded]

end Parser

end EncryptionAccelerators.Net
