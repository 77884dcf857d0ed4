import EncryptionAccelerators.Icmp
import EncryptionAccelerators.HeaderChecksum

/-! The replies of `icmp` to a sequence of frames, field by field. -/
namespace EncryptionAccelerators.Net
open Dataflow OnesComplement

/-- The bytes of the IPv4 header, options included. -/
def headerBytes (f : List NetWord) : List Byte :=
  ((f.drop 14).take (4*headerWords f)).map NetWord.data

/-- The header with source and destination exchanged. -/
def Ipv4Header.exchanged (h : Ipv4Header) : Ipv4Header := { h with srcIp := h.dstIp, dstIp := h.srcIp }

/-- The frame `g` answers the echo request `f`. -/
structure EchoReply (ports : IcmpPorts) (f g : List NetWord) : Prop where
  words : g.length = f.length
  dstMacAddr : (ethernetOf g).dstMacAddr = (ethernetOf f).srcMacAddr
  srcMacAddr : (ethernetOf g).srcMacAddr = ports.macAddrHi ++ ports.macAddrLo
  etherType : (ethernetOf g).etherType = ETHER_TYPE_IPv4
  ipHeader : ipv4Of (g.drop 14) = (ipv4Of (f.drop 14)).exchanged
  options : optionBytes g = optionBytes f
  type : octet (icmpWords g) 0 = 0
  code : octet (icmpWords g) 1 = octet (icmpWords f) 1
  data : ((icmpWords g).drop 4).map NetWord.data = ((icmpWords f).drop 4).map NetWord.data
  headerChecksum : Valid (headerBytes f) → Valid (headerBytes g)

/-- What is put out for a frame: a frame for an echo request, else nothing. -/
def EchoAnswer (ports : IcmpPorts) (f : Frame) (answer : List NetWord) : Prop :=
  (EchoFor ports f.words → ∃ g : Frame, answer = g.words ∧ EchoReply ports f.words g.words) ∧
    (¬ EchoFor ports f.words → answer = [])

lemma total_exchanged (h : Ipv4Header) : total (ipv4Words h.exchanged) = total (ipv4Words h) := by
  have hfixed : fixedTotal h.exchanged = fixedTotal h := rfl
  rw [total_ipv4Words, total_ipv4Words, hfixed]
  exact Nat.add_right_comm _ _ _

/-- The sum over a header is that of its fields and its options. -/
lemma total_headerBytes (f : List NetWord) (h5 : 5 ≤ headerWords f) (h : 34 ≤ f.length) :
    total (words16 (headerBytes f)) =
      total (ipv4Words (ipv4Of (f.drop 14))) + total (words16 (optionBytes f)) := by
  have hsplit : headerBytes f = ((f.drop 14).take 20).map NetWord.data ++ optionBytes f := by
    have hlen : 4*headerWords f = 20 + (4*headerWords f - 20) := by omega
    rw [headerBytes, hlen, List.take_add, List.map_append, List.drop_drop, optionBytes]
  have h20 : (((f.drop 14).take 20).map NetWord.data).length = 20 := by
    rw [List.length_map, List.length_take, List.length_drop]
    omega
  rw [hsplit, words16_append _ _ (by rw [h20]; decide), total_append,
    words16_header _ (by rw [List.length_drop]; omega)]

/-- The sum of a header does not depend on the order of its two addresses. -/
lemma valid_exchanged {f g : List NetWord} (h5 : 5 ≤ headerWords f) (hf : 34 ≤ f.length)
    (hg : 34 ≤ g.length) (hip : ipv4Of (g.drop 14) = (ipv4Of (f.drop 14)).exchanged)
    (hopt : optionBytes g = optionBytes f) (hv : Valid (headerBytes f)) : Valid (headerBytes g) := by
  have hsame : headerWords g = headerWords f := by
    rw [headerWords, hip]
    rfl
  have htotal : total (words16 (headerBytes g)) = total (words16 (headerBytes f)) := by
    rw [total_headerBytes f h5 hf, total_headerBytes g (hsame ▸ h5) hg, hip, hopt, total_exchanged]
  rw [valid_iff] at hv ⊢
  rw [htotal]
  exact hv

/-- A byte of a run of words among its bytes. -/
lemma octet_eq_getD (ws : List NetWord) (k : ℕ) : octet ws k = (ws.map NetWord.data).getD k 0 := by
  rw [octet, List.getD_eq_getElem?_getD, List.getD_eq_getElem?_getD, List.getElem?_map]
  cases ws[k]? <;> rfl

/-- The words put out for an echo request are a reply to it. -/
lemma IcmpFrame.echoReply (ports : IcmpPorts) {f : List NetWord} (h : IcmpFrame f)
    (he : EchoFor ports f) : EchoReply ports f (echoHeadOf ports f ++ (icmpWords f).drop 4) := by
  have hihl := h.ihl
  have hlt := h.length_lt
  obtain ⟨heth, hip, hdata, hlen⟩ := h.reply_parts ports ((icmpWords f).drop 4)
  have hmsg := h.icmpMessage_reply ports ((icmpWords f).drop 4)
  set g := echoHeadOf ports f ++ (icmpWords f).drop 4 with hg
  have hexch : ipv4Of (g.drop 14) = (ipv4Of (f.drop 14)).exchanged := by
    rw [hip, echoIp, Ipv4Header.exchanged, he.2]
  have hsame : headerWords g = headerWords f := by
    rw [headerWords, hip]
    rfl
  have hopt : optionBytes g = optionBytes f := by
    rw [optionBytes, hsame, List.map_take, hdata, List.take_left' (length_optionBytes h)]
  have hwords : g.length = f.length := by
    rw [hlen, List.length_drop, icmpWords, List.length_drop]
    omega
  constructor
  · exact hwords
  · rw [heth, echoEthernet]
  · rw [heth, echoEthernet]
  · rw [heth, echoEthernet]
  · exact hexch
  · exact hopt
  · rw [octet_eq_getD, ← icmpMessage, hmsg]
    rfl
  · rw [octet_eq_getD, ← icmpMessage, hmsg, ← octet_take (icmpWords f) (show 1 < 4 by omega)]
    rfl
  · rw [List.map_drop, ← icmpMessage, hmsg]
    rfl
  · exact valid_exchanged hihl (by omega) (by omega) hexch hopt

section Replies
variable {ι A : Type} {V : A → Type} (mem : Memory ι V) (i : ι)

lemma IcmpFrame.echoAnswer (ports : IcmpPorts) {f : Frame} (h : IcmpFrame f.words) :
    EchoAnswer ports f (echoWords ports f.words) := by
  constructor
  · intro he
    obtain ⟨g, hg⟩ := h.reply ports
    rw [echoWords, if_pos he]
    exact ⟨g, hg.symm, hg ▸ h.echoReply ports he⟩
  · intro he
    rw [echoWords, if_neg he]

lemma not_icmp_invokes (ports : IcmpPorts) (s t : Io InputStrm OutputStrm NetWord mem.State)
    (hs : s.inp .inputStrm = []) : ¬ Invokes mem i (icmp ports) .start s t := by
  rintro ⟨x, hx, -⟩
  rw [Block, icmp_start] at hx
  have hlen := length_of_exec_readInto_bind mem i hx
  rw [hs] at hlen
  exact absurd hlen (by decide)

/-- A sequence of frames: each invocation takes one of them, and the echo requests for the address
of the core are answered in order. -/
theorem icmp_answers (ports : IcmpPorts) (fs : List Frame) (hf : ∀ f ∈ fs, IcmpFrame f.words)
    (s : Io InputStrm OutputStrm NetWord mem.State) (hs : s.inp .inputStrm = fs.flatMap Frame.words) :
    AnswersFrames mem i (icmp ports) .start (EchoAnswer ports) fs s := by
  apply answersFrames_of_invokes fun f => echoWords ports f.words
  · intro f hm
    exact (hf f hm).echoAnswer ports
  · intro f hm rest u hu
    exact (hf f hm).invokes mem i ports rest u hu
  · exact not_icmp_invokes mem i ports
  · exact hs

end Replies

/-- An ICMP frame from 192.168.1.20 to 192.168.1.10 with eight bytes of data. -/
def icmpFrameOf (ihl : Byte) (options : List Byte) (type : Byte) : Frame where
  init := (List.replicate 12 0xff ++ [0x08,0x00,0x40 ||| ihl] ++ List.replicate 8 0 ++
    [0x01,0,0,192,168,1,20,192,168,1,10] ++ options ++ [type,0,0,0] ++ List.replicate 7 1).map byteWord
  final := ⟨1,true,false⟩
  init_last := fun _ => byteWord_last
  final_last := Eq.refl true

/-- `icmp_answers` on a request with options and a message of another type. -/
theorem icmp_answers_options : AnswersFrames Memory.none () (icmp ⟨0xc0a8010a,1,0x200⟩) .start
    (EchoAnswer ⟨0xc0a8010a,1,0x200⟩) [icmpFrameOf 6 [1,1,1,0] 8,icmpFrameOf 5 [] 13]
    ⟨fun _ => [icmpFrameOf 6 [1,1,1,0] 8,icmpFrameOf 5 [] 13].flatMap Frame.words,
      fun _ => [],nofun⟩ := by
  have h6 : IcmpFrame (icmpFrameOf 6 [1,1,1,0] 8).words := ⟨by decide, by decide⟩
  have h5 : IcmpFrame (icmpFrameOf 5 [] 13).words := ⟨by decide, by decide⟩
  exact icmp_answers Memory.none () _ _
    (List.forall_mem_cons.mpr ⟨h6, List.forall_mem_singleton.mpr h5⟩) _ rfl

end EncryptionAccelerators.Net
