import EncryptionAccelerators.Routing

/-! The code `parser` writes against the protocol of the frame, its IPv4 options skipped as
`icmp` skips them. -/
namespace EncryptionAccelerators.Net
open Dataflow

/-- The UDP destination port, behind the options. -/
def udpDstPort (f : List NetWord) : BitVec 16 := (udpOf (f.drop (14 + 4*headerWords f))).dstPort

/-- The code that belongs to a UDP destination port. -/
def portProt (dstPort : BitVec 16) : Prot :=
  if dstPort = 60000 then .UDP_STRM
  else if dstPort = 50000 ∨ dstPort = 40000 then .UDP_REG
  else .OTHER

/-- The protocol of a frame. -/
def protocolOf (f : List NetWord) : Prot :=
  if (ethernetOf f).etherType = ETHER_TYPE_ARP then .ARP
  else if (ethernetOf f).etherType = ETHER_TYPE_IPv4 then
    if (ipv4Of (f.drop 14)).protocol = IP_PROTOCOL_ICMP then .ICMP
    else if (ipv4Of (f.drop 14)).protocol = IP_PROTOCOL_UDP then portProt (udpDstPort f)
    else .OTHER
  else .OTHER

def IsUdp (f : List NetWord) : Prop :=
  (ethernetOf f).etherType = ETHER_TYPE_IPv4 ∧ (ipv4Of (f.drop 14)).protocol = IP_PROTOCOL_UDP

/-- The Ethernet, IPv4 and UDP headers are there in full, and a word more. -/
structure HeadersPresent (f : List NetWord) : Prop where
  ihl : 5 ≤ headerWords f
  udp : 14 + 4*headerWords f + 8 < f.length

/-- The code `parser` writes is the one of the frame's protocol. -/
structure Classified (f : Frame) : Prop where
  arp : parserCode f = some Prot.ARP.code ↔ (ethernetOf f.words).etherType = ETHER_TYPE_ARP
  icmp : parserCode f = some Prot.ICMP.code ↔ (ethernetOf f.words).etherType = ETHER_TYPE_IPv4 ∧
    (ipv4Of (f.words.drop 14)).protocol = IP_PROTOCOL_ICMP
  udpStrm : parserCode f = some Prot.UDP_STRM.code ↔ IsUdp f.words ∧ udpDstPort f.words = 60000
  udpReg : parserCode f = some Prot.UDP_REG.code ↔
    IsUdp f.words ∧ (udpDstPort f.words = 50000 ∨ udpDstPort f.words = 40000)
  other : parserCode f = some Prot.OTHER.code ↔
    (ethernetOf f.words).etherType ≠ ETHER_TYPE_ARP ∧
    ¬ ((ethernetOf f.words).etherType = ETHER_TYPE_IPv4 ∧
      (ipv4Of (f.words.drop 14)).protocol = IP_PROTOCOL_ICMP) ∧
    ¬ (IsUdp f.words ∧ udpDstPort f.words = 60000) ∧
    ¬ (IsUdp f.words ∧ (udpDstPort f.words = 50000 ∨ udpDstPort f.words = 40000))

/-- `parser` takes the port from bytes 36 and 37 of the frame. -/
lemma classify_eq (f : List NetWord) : classify f =
    if (ethernetOf f).etherType = ETHER_TYPE_ARP then .ARP
    else if (ethernetOf f).etherType = ETHER_TYPE_IPv4 then
      if (ipv4Of (f.drop 14)).protocol = IP_PROTOCOL_ICMP then .ICMP
      else if (ipv4Of (f.drop 14)).protocol = IP_PROTOCOL_UDP then
        portProt (udpOf (f.drop 34)).dstPort
      else .OTHER
    else .OTHER := rfl

lemma portProt_ne (p : BitVec 16) : portProt p ≠ .ARP ∧ portProt p ≠ .ICMP := by
  unfold portProt
  split_ifs <;> decide

lemma portProt_strm (p : BitVec 16) : portProt p = .UDP_STRM ↔ p = 60000 := by
  unfold portProt
  split_ifs with hs hr
  · exact iff_of_true rfl hs
  · exact iff_of_false (by decide) hs
  · exact iff_of_false (by decide) hs

lemma portProt_reg (p : BitVec 16) : portProt p = .UDP_REG ↔ p = 50000 ∨ p = 40000 := by
  unfold portProt
  split_ifs with hs hr
  · subst hs
    decide
  · exact iff_of_true rfl hr
  · exact iff_of_false (by decide) hr

section Protocol
variable (f : List NetWord)

lemma protocolOf_arp : protocolOf f = .ARP ↔ (ethernetOf f).etherType = ETHER_TYPE_ARP := by
  have hp := (portProt_ne (udpDstPort f)).1
  unfold protocolOf
  split_ifs <;> simp_all

lemma protocolOf_icmp : protocolOf f = .ICMP ↔ (ethernetOf f).etherType = ETHER_TYPE_IPv4 ∧
    (ipv4Of (f.drop 14)).protocol = IP_PROTOCOL_ICMP := by
  have hp := (portProt_ne (udpDstPort f)).2
  have he := etherType_ne (t := (ethernetOf f).etherType)
  unfold protocolOf
  split_ifs <;> simp_all

lemma protocolOf_udp : IsUdp f → protocolOf f = portProt (udpDstPort f) := by
  rintro ⟨he, hp⟩
  rw [protocolOf, if_neg (etherType_ne he), if_pos he, if_neg (protocol_ne hp), if_pos hp]

lemma protocolOf_of_not_udp (h : ¬ IsUdp f) :
    protocolOf f ≠ .UDP_STRM ∧ protocolOf f ≠ .UDP_REG := by
  unfold IsUdp at h
  unfold protocolOf
  split_ifs <;> simp_all

lemma protocolOf_udpStrm : protocolOf f = .UDP_STRM ↔ IsUdp f ∧ udpDstPort f = 60000 := by
  by_cases h : IsUdp f
  · rw [protocolOf_udp f h, portProt_strm]
    simp [h]
  · simp [h, (protocolOf_of_not_udp f h).1]

lemma protocolOf_udpReg : protocolOf f = .UDP_REG ↔
    IsUdp f ∧ (udpDstPort f = 50000 ∨ udpDstPort f = 40000) := by
  by_cases h : IsUdp f
  · rw [protocolOf_udp f h, portProt_reg]
    simp [h]
  · simp [h, (protocolOf_of_not_udp f h).2]

/-- The frames `parser` looks for the port of a UDP header at the right place in. -/
lemma classify_eq_protocolOf : classify f = protocolOf f ↔
    ((ethernetOf f).etherType ≠ ETHER_TYPE_IPv4 ∨
      (ipv4Of (f.drop 14)).protocol ≠ IP_PROTOCOL_UDP ∨
      portProt (udpOf (f.drop 34)).dstPort = portProt (udpDstPort f)) := by
  rw [classify_eq, protocolOf]
  by_cases hip : (ethernetOf f).etherType = ETHER_TYPE_IPv4
  · by_cases hudp : (ipv4Of (f.drop 14)).protocol = IP_PROTOCOL_UDP
    · rw [if_neg (etherType_ne hip), if_pos hip, if_neg (protocol_ne hudp), if_pos hudp,
        if_neg (etherType_ne hip), if_pos hip, if_neg (protocol_ne hudp), if_pos hudp]
      simp [hip, hudp]
    · simp [hip, hudp]
  · simp [hip]

end Protocol

lemma HeadersPresent.words {f : Frame} (h : HeadersPresent f.words) : 43 ≤ f.words.length := by
  have hi := h.ihl
  have hu := h.udp
  omega

lemma parserCode_iff (f : Frame) (h : 43 ≤ f.words.length) (c : Prot) :
    parserCode f = some c.code ↔ classify f.words = c := by
  have hle := headerLength_le f.words
  rw [parserCode_eq f (by omega), Option.some_inj, Prot.code_injective.eq_iff]

lemma classified_iff (f : Frame) (h : 43 ≤ f.words.length) :
    Classified f ↔ classify f.words = protocolOf f.words := by
  constructor
  · intro hc
    have hcode := parserCode_iff f h
    cases hp : protocolOf f.words with
    | ARP => exact (hcode _).mp (hc.arp.mpr ((protocolOf_arp _).mp hp))
    | ICMP => exact (hcode _).mp (hc.icmp.mpr ((protocolOf_icmp _).mp hp))
    | UDP_STRM => exact (hcode _).mp (hc.udpStrm.mpr ((protocolOf_udpStrm _).mp hp))
    | UDP_REG => exact (hcode _).mp (hc.udpReg.mpr ((protocolOf_udpReg _).mp hp))
    | OTHER =>
      refine (hcode _).mp (hc.other.mpr ?_)
      rw [ne_eq, ← protocolOf_arp, ← protocolOf_icmp, ← protocolOf_udpStrm, ← protocolOf_udpReg, hp]
      decide
  · intro hc
    constructor
    · rw [parserCode_iff f h, hc, protocolOf_arp]
    · rw [parserCode_iff f h, hc, protocolOf_icmp]
    · rw [parserCode_iff f h, hc, protocolOf_udpStrm]
    · rw [parserCode_iff f h, hc, protocolOf_udpReg]
    · rw [parserCode_iff f h, hc, ne_eq, ← protocolOf_arp, ← protocolOf_icmp,
        ← protocolOf_udpStrm, ← protocolOf_udpReg]
      cases protocolOf f.words <;> decide

lemma dstPort_octets (f : List NetWord) :
    (udpOf (f.drop 34)).dstPort = octet f 36 ++ octet f 37 := by
  simp [udpOf, octet, List.getD_eq_getElem?_getD, List.getElem?_drop]

/-- A frame long enough for `parser`, whatever its IHL, gets the code of its protocol just when it is
not UDP over IPv4 or bytes 36 and 37 name a port of the same kind. -/
lemma classified_iff_octets (f : Frame) (h : 43 ≤ f.words.length) : Classified f ↔
    ((ethernetOf f.words).etherType ≠ ETHER_TYPE_IPv4 ∨
      (ipv4Of (f.words.drop 14)).protocol ≠ IP_PROTOCOL_UDP ∨
      portProt (octet f.words 36 ++ octet f.words 37) = portProt (udpDstPort f.words)) := by
  rw [classified_iff f h, classify_eq_protocolOf, dstPort_octets]

/-- A frame gets the code of its protocol just when it is not UDP over IPv4 or bytes 36 and 37 name
a port of the same kind as the destination port behind the options. -/
theorem classified_iff_ports (f : Frame) (h : HeadersPresent f.words) : Classified f ↔
    ((ethernetOf f.words).etherType ≠ ETHER_TYPE_IPv4 ∨
      (ipv4Of (f.words.drop 14)).protocol ≠ IP_PROTOCOL_UDP ∨
      portProt (octet f.words 36 ++ octet f.words 37) = portProt (udpDstPort f.words)) :=
  classified_iff_octets f h.words

/-- Without options the port is where `parser` looks for it. -/
lemma classified_of_no_options (f : Frame) (h : 43 ≤ f.words.length)
    (hihl : headerWords f.words = 5) : Classified f := by
  refine (classified_iff_octets f h).mpr (.inr (.inr ?_))
  rw [udpDstPort, hihl, ← dstPort_octets]

/-- Frames that are not IPv4 need no IPv4 header. -/
lemma classified_of_not_ipv4 (f : Frame) (h : 43 ≤ f.words.length)
    (hip : (ethernetOf f.words).etherType ≠ ETHER_TYPE_IPv4) : Classified f :=
  (classified_iff_octets f h).mpr (.inl hip)

/-- A UDP frame with the given bytes between the first 34 words and the 8 of the UDP header. -/
def optionsFrame (ihl : Byte) (options : List Byte) (dstPort : BitVec 16) : Frame where
  init := (List.replicate 12 0xff ++ [0x08,0x00,0x40 ||| ihl] ++ List.replicate 8 0 ++ [0x11] ++
    List.replicate 10 0 ++ options ++ [0,0,dstPort.extractLsb 15 8,dstPort.extractLsb 7 0,
      0,9,0,0]).map byteWord
  final := ⟨0,true,false⟩
  init_last := fun _ => byteWord_last
  final_last := Eq.refl true

/-- A datagram for port 60000 with the options 0, 0, 195, 80 goes to the registers. -/
theorem classified_fails : ¬ ∀ f : Frame, HeadersPresent f.words → Classified f := by
  intro h
  have hp : HeadersPresent (optionsFrame 6 [0,0,195,80] 60000).words := ⟨by decide, by decide⟩
  have hc := (classified_iff _ hp.words).mp (h _ hp)
  revert hc
  decide

/-- `classified_iff_ports` on a frame with harmless options. -/
theorem classified_iff_ports_options : HeadersPresent (optionsFrame 6 [1,1,1,0] 9).words ∧
    Classified (optionsFrame 6 [1,1,1,0] 9) := by
  have hp : HeadersPresent (optionsFrame 6 [1,1,1,0] 9).words := ⟨by decide, by decide⟩
  exact ⟨hp, (classified_iff_ports _ hp).mpr (by decide)⟩

end EncryptionAccelerators.Net
