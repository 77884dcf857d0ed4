import EncryptionAccelerators.Parser
import EncryptionAccelerators.ArpPacket

/-! The core `arp`: it answers the requests for its own address. -/
namespace EncryptionAccelerators.Net
open Dataflow

/-- The address ports of `arp`. -/
structure ArpPorts where
  ipAddr : BitVec 32
  macAddrLo : BitVec 32
  macAddrHi : BitVec 16

/-- The entry of `arp`, the loop of `read_arp_packet` and what follows it. -/
inductive ArpLabel
  | start
  | skip (ethernetHeader : EthernetHeader) (arpPacket : ArpPacket)
  | answer (ethernetHeader : EthernetHeader) (arpPacket : ArpPacket)

section Arp
variable {ι A : Type} {V : A → Type}

def arp (ports : ArpPorts) : ArpLabel → Cmd InputStrm OutputStrm NetWord V ArpLabel
  | .start => do
    let ethernetHeader ← readEthernetHeader .inputStrm
    readArpPacket .inputStrm (.skip ethernetHeader) (.answer ethernetHeader)
  | .skip ethernetHeader arpPacket =>
    discardStream .inputStrm (.skip ethernetHeader arpPacket) (.answer ethernetHeader arpPacket)
  | .answer ethernetHeader arpPacket => do
    if arpPacket.oper = ARP_OPER_REQUEST ∧ arpPacket.tpa = ports.ipAddr then
      let macAddr := ports.macAddrHi ++ ports.macAddrLo
      writeMacAddr .outputStrm ethernetHeader.srcMacAddr false
      writeMacAddr .outputStrm macAddr false
      writeWord .outputStrm (byteWord 0x08)
      writeWord .outputStrm (byteWord 0x06)
      let arpPacket := { arpPacket with oper := ARP_OPER_REPLY }
      let arpPacket := { arpPacket with tpa := arpPacket.spa }
      let arpPacket := { arpPacket with tha := arpPacket.sha }
      let arpPacket := { arpPacket with spa := ports.ipAddr }
      let arpPacket := { arpPacket with sha := macAddr }
      writeArpPacket .outputStrm arpPacket
    return .start

/-- A request for the address of the core. -/
def ArpRequest (ports : ArpPorts) (f : List NetWord) : Prop :=
  (arpOf (f.drop 14)).oper = ARP_OPER_REQUEST ∧ (arpOf (f.drop 14)).tpa = ports.ipAddr

/-- The frame `g` answers the request `f`. -/
structure ArpReply (ports : ArpPorts) (f g : List NetWord) : Prop where
  words : g.length = 42
  dstMacAddr : (ethernetOf g).dstMacAddr = (ethernetOf f).srcMacAddr
  srcMacAddr : (ethernetOf g).srcMacAddr = ports.macAddrHi ++ ports.macAddrLo
  etherType : (ethernetOf g).etherType = ETHER_TYPE_ARP
  htype : (arpOf (g.drop 14)).htype = (arpOf (f.drop 14)).htype
  ptype : (arpOf (g.drop 14)).ptype = (arpOf (f.drop 14)).ptype
  hlen : (arpOf (g.drop 14)).hlen = (arpOf (f.drop 14)).hlen
  plen : (arpOf (g.drop 14)).plen = (arpOf (f.drop 14)).plen
  oper : (arpOf (g.drop 14)).oper = ARP_OPER_REPLY
  sha : (arpOf (g.drop 14)).sha = ports.macAddrHi ++ ports.macAddrLo
  spa : (arpOf (g.drop 14)).spa = ports.ipAddr
  tha : (arpOf (g.drop 14)).tha = (arpOf (f.drop 14)).sha
  tpa : (arpOf (g.drop 14)).tpa = (arpOf (f.drop 14)).spa

/-- What is put out for a frame: a frame for a request, else nothing. -/
def ArpAnswer (ports : ArpPorts) (f : Frame) (answer : List NetWord) : Prop :=
  (ArpRequest ports f.words → ∃ g : Frame, answer = g.words ∧ ArpReply ports f.words g.words) ∧
    (¬ ArpRequest ports f.words → answer = [])

/-- The headers of the reply. -/
def arpReplyEthernet (ports : ArpPorts) (eth : EthernetHeader) : EthernetHeader where
  dstMacAddr := eth.srcMacAddr
  srcMacAddr := ports.macAddrHi ++ ports.macAddrLo
  etherType := ETHER_TYPE_ARP

def arpReplyPacket (ports : ArpPorts) (packet : ArpPacket) : ArpPacket :=
  { packet with
    oper := ARP_OPER_REPLY
    sha := ports.macAddrHi ++ ports.macAddrLo
    spa := ports.ipAddr
    tha := packet.sha
    tpa := packet.spa }

def arpReplyWords (ports : ArpPorts) (eth : EthernetHeader) (packet : ArpPacket) : List NetWord :=
  (ethernetBytes (arpReplyEthernet ports eth)).map byteWord ++ arpWords (arpReplyPacket ports packet)

def answerWords (ports : ArpPorts) (eth : EthernetHeader) (packet : ArpPacket) : List NetWord :=
  if packet.oper = ARP_OPER_REQUEST ∧ packet.tpa = ports.ipAddr then arpReplyWords ports eth packet
  else []

lemma arp_start (ports : ArpPorts) : (arp ports .start : Cmd InputStrm OutputStrm NetWord V _) =
    readInto .inputStrm 14 [] >>= fun eth => readInto .inputStrm 28 [] >>= fun ws =>
      .ret (if (ws.getD 27 default).last then .answer (ethernetOf eth) (arpOf ws)
        else .skip (ethernetOf eth) (arpOf ws)) := by
  simp only [arp, readEthernetHeader_eq, readArpPacket_eq, Cmd.bind_bind, Cmd.ret_bind]

lemma arp_answer (ports : ArpPorts) (eth : EthernetHeader) (packet : ArpPacket) :
    (arp ports (.answer eth packet) : Cmd InputStrm OutputStrm NetWord V _) =
      writeAll .outputStrm (answerWords ports eth packet) >>= fun _ => .ret .start := by
  have htype : ([ETHER_TYPE_ARP.extractLsb 15 8,ETHER_TYPE_ARP.extractLsb 7 0] : List Byte).map
      byteWord = [byteWord 0x08,byteWord 0x06] := by decide
  have hwords : arpReplyWords ports eth packet = (macBytes eth.srcMacAddr).map byteWord ++
      ((macBytes (ports.macAddrHi ++ ports.macAddrLo)).map byteWord ++
        ([byteWord 0x08,byteWord 0x06] ++ arpWords (arpReplyPacket ports packet))) := by
    rw [arpReplyWords, ethernetBytes, arpReplyEthernet, List.map_append, List.map_append, htype,
      List.append_assoc, List.append_assoc]
  rw [answerWords, arp]
  split_ifs
  · simp only [writeMacAddr_eq, writeArpPacket_eq]
    rw [hwords, ← writeAll_append_bind, ← writeAll_append_bind, ← writeAll_append_bind]
    rfl
  · rfl

variable (mem : Memory ι V) (i : ι)

lemma exec_arpAnswer (ports : ArpPorts) (eth : EthernetHeader) (packet : ArpPacket)
    (s : Io InputStrm OutputStrm NetWord mem.State) :
    exec mem i (arp ports (.answer eth packet)) s = some (.start,⟨s.inp,
      fun _ => s.out .outputStrm ++ answerWords ports eth packet,s.mem⟩) := by
  rw [arp_answer, exec_writeAll_bind, exec_ret, outputStrm_update]

/-- The 42 words of a frame that the core parses; the last of them tells whether more follow. -/
lemma exec_arpStart (ports : ArpPorts) {f : List NetWord} (h : 42 ≤ f.length)
    (s : Io InputStrm OutputStrm NetWord mem.State) (hs : s.inp .inputStrm = f) :
    exec mem i (arp ports .start) s = some (if (f.getD 41 default).last then
      .answer (ethernetOf f) (arpOf (f.drop 14)) else .skip (ethernetOf f) (arpOf (f.drop 14)),
      ⟨fun _ => f.drop 42,s.out,s.mem⟩) := by
  have hlast : ((f.drop 14).take 28).getD 27 default = f.getD 41 default := by
    simp [List.getD_eq_getElem?_getD]
  rw [arp_start, exec_readInto_bind mem i _ _ _ _ _ (by rw [hs]; omega),
    exec_readInto_bind _ _ _ _ _ _ _ (by simp [hs]; omega)]
  simp only [Function.update_self, Function.update_idem, hs, List.nil_append, List.drop_drop,
    exec_ret, ethernetOf_take f (le_refl 14), arpOf_take _ (le_refl 28), hlast]
  rw [inputStrm_update]

/-- The request at the start of the input, 42 words long or padded. -/
lemma arp_invokes (ports : ArpPorts) (f : Frame) (hf : 42 ≤ f.words.length) (rest : List NetWord)
    (s : Io InputStrm OutputStrm NetWord mem.State) (hs : s.inp .inputStrm = f.words ++ rest) :
    Invokes mem i (arp ports) .start s ⟨fun _ => rest,fun _ => s.out .outputStrm ++
      answerWords ports (ethernetOf f.words) (arpOf (f.words.drop 14)),s.mem⟩ := by
  set eth := ethernetOf f.words with heth
  set packet := arpOf (f.words.drop 14) with hpacket
  have hstart := exec_arpStart mem i ports (by simp; omega) s hs
  have hdrop14 : (f.words ++ rest).drop 14 = f.words.drop 14 ++ rest :=
    List.drop_append_of_le_length (by omega)
  rw [ethernetOf_append f.words rest (by omega), hdrop14, arpOf_append _ rest (by simp; omega),
    f.getD_words_last rest (by omega)] at hstart
  have hanswer : ∀ u : Io InputStrm OutputStrm NetWord mem.State,
      u = ⟨fun _ => rest,s.out,s.mem⟩ → Until mem i (arp ports) .start (.answer eth packet,u)
        (.start,⟨fun _ => rest,fun _ => s.out .outputStrm ++ answerWords ports eth packet,s.mem⟩) := by
    rintro u rfl
    exact .single ⟨nofun, exec_arpAnswer mem i ports eth packet _⟩
  refine ⟨_, hstart, ?_⟩
  by_cases h42 : 41 + 1 = f.words.length
  · -- no padding: the 42nd word is the last of the frame
    have hdrop : (f.words ++ rest).drop 42 = rest := List.drop_left' h42.symm
    rw [decide_eq_true h42, hdrop]
    exact hanswer _ rfl
  · have hdrop := f.drop_words_append rest (by omega : 42 < f.words.length)
    rw [decide_eq_false h42, hdrop]
    refine Until.trans (discardStream_until mem i (arp ports) .inputStrm .start (.skip eth packet)
      (.answer eth packet) nofun rfl (f.init.drop 42) rest f.final
      (fun x hx => f.init_last x (List.mem_of_mem_drop hx)) f.final_last _ rfl) (hanswer _ ?_)
    rw [inputStrm_update]

/-- The reply is a frame of 42 words with the fields of the request in their new places. -/
lemma arpReply (ports : ArpPorts) (f : List NetWord) : ∃ g : Frame,
    arpReplyWords ports (ethernetOf f) (arpOf (f.drop 14)) = g.words ∧ ArpReply ports f g.words := by
  set eth := ethernetOf f with heth
  set packet := arpOf (f.drop 14) with hpacket
  have hwords : arpReplyWords ports eth packet = ((ethernetBytes (arpReplyEthernet ports eth)).map byteWord ++
      (arpInit (arpReplyPacket ports packet)).map byteWord) ++
        [⟨(arpReplyPacket ports packet).tpa.extractLsb 7 0,true,false⟩] := by
    rw [arpReplyWords, arpWords, List.append_assoc]
  have hethernet : ethernetOf (arpReplyWords ports eth packet) = arpReplyEthernet ports eth :=
    ethernetOf_bytes _ _
  have hdrop : (arpReplyWords ports eth packet).drop 14 = arpWords (arpReplyPacket ports packet) :=
    List.drop_left' rfl
  have harp : arpOf ((arpReplyWords ports eth packet).drop 14) = arpReplyPacket ports packet := by
    have hof := arpOf_words (arpReplyPacket ports packet) []
    rw [List.append_nil] at hof
    rw [hdrop, hof]
  refine ⟨⟨_,_,?_,rfl⟩, hwords, ?_⟩
  · rw [← List.map_append]
    exact fun _ => byteWord_last
  · rw [Frame.words, ← hwords]
    constructor
    · rfl
    · rw [hethernet, arpReplyEthernet]
    · rw [hethernet, arpReplyEthernet]
    · rw [hethernet, arpReplyEthernet]
    all_goals rw [harp, arpReplyPacket]

lemma arpAnswer (ports : ArpPorts) (f : Frame) : ArpAnswer ports f
    (answerWords ports (ethernetOf f.words) (arpOf (f.words.drop 14))) := by
  constructor
  · intro h
    have ha : answerWords ports (ethernetOf f.words) (arpOf (f.words.drop 14)) = _ := if_pos h
    rw [ha]
    exact arpReply ports f.words
  · exact fun h => if_neg h

lemma not_arp_invokes (ports : ArpPorts) (s t : Io InputStrm OutputStrm NetWord mem.State)
    (hs : s.inp .inputStrm = []) : ¬ Invokes mem i (arp ports) .start s t := by
  rintro ⟨x, hx, -⟩
  rw [Block, arp_start] at hx
  have hlen := length_of_exec_readInto_bind mem i hx
  rw [hs] at hlen
  exact absurd hlen (by decide)

/-- A sequence of frames: each invocation takes one of them, and the requests for the address of
the core are answered in order. -/
theorem arp_answers (ports : ArpPorts) (fs : List Frame) (hf : ∀ f ∈ fs, 42 ≤ f.words.length)
    (s : Io InputStrm OutputStrm NetWord mem.State) (hs : s.inp .inputStrm = fs.flatMap Frame.words) :
    AnswersFrames mem i (arp ports) .start (ArpAnswer ports) fs s := by
  apply answersFrames_of_invokes fun f =>
    answerWords ports (ethernetOf f.words) (arpOf (f.words.drop 14))
  · intro f _
    exact arpAnswer ports f
  · intro f hm rest u hu
    exact arp_invokes mem i ports f (hf f hm) rest u hu
  · exact not_arp_invokes mem i ports
  · exact hs

end Arp

/-- An ARP frame from 192.168.1.20 to 192.168.1.x, its last byte apart. -/
def arpFrameTo (oper : Byte) (tail : List Byte) (final : Byte) : Frame where
  init := (List.replicate 6 0xff ++ [2,0,0,0,0,20,0x08,0x06,0,1,8,0,6,4,0,oper,2,0,0,0,0,20,
    192,168,1,20,0,0,0,0,0,0,192,168,1] ++ tail).map byteWord
  final := ⟨final,true,false⟩
  init_last := fun _ => byteWord_last
  final_last := Eq.refl true

/-- `arp_answers` on a padded request for 192.168.1.10 and a reply that is not padded. -/
theorem arp_answers_twoFrames : AnswersFrames Memory.none () (arp ⟨0xc0a8010a,1,0x200⟩) .start
    (ArpAnswer ⟨0xc0a8010a,1,0x200⟩)
    [arpFrameTo 1 (10::List.replicate 17 0) 0,arpFrameTo 2 [] 10]
    ⟨fun _ => [arpFrameTo 1 (10::List.replicate 17 0) 0,arpFrameTo 2 [] 10].flatMap Frame.words,
      fun _ => [],nofun⟩ :=
  arp_answers Memory.none () _ _ (by decide) _ rfl

end EncryptionAccelerators.Net
