import EncryptionAccelerators.Classification
import EncryptionAccelerators.DeviceReplies

/-! What becomes of the output of one device when it reaches another: answers to ARP and ICMP and
packets are not answered again. -/
namespace EncryptionAccelerators.Net
open Dataflow

/-! A frame as it is received: the bytes sent, padding behind them. -/

/-- The bytes of the words, on words without marks. -/
def unmarked (ws : List NetWord) : List NetWord := ws.map fun w => byteWord w.data

lemma octet_unmarked (ws : List NetWord) (n : ℕ) : octet (unmarked ws) n = octet ws n := by
  rw [octet_eq_getD, octet_eq_getD, unmarked, List.map_map]
  rfl

lemma drop_unmarked (ws : List NetWord) (n : ℕ) : unmarked (ws.drop n) = (unmarked ws).drop n :=
  List.map_drop

lemma ethernetOf_unmarked (ws : List NetWord) : ethernetOf (unmarked ws) = ethernetOf ws := by
  simp only [ethernetOf, macOf, ← drop_unmarked, octet_unmarked]

lemma ipv4Of_unmarked (ws : List NetWord) : ipv4Of (unmarked ws) = ipv4Of ws := by
  simp only [ipv4Of, octet_unmarked]

lemma udpOf_unmarked (ws : List NetWord) : udpOf (unmarked ws) = udpOf ws := by
  simp only [udpOf, octet_unmarked]

lemma arpOf_unmarked (ws : List NetWord) : arpOf (unmarked ws) = arpOf ws := by
  simp only [arpOf, macOf, ← drop_unmarked, octet_unmarked]

/-- The frame `f` is what is received of the words `g`: their bytes, padded to 60. -/
structure Received (g : List NetWord) (f : Frame) : Prop where
  data : ∃ pad, f.words.map NetWord.data = g.map NetWord.data ++ pad
  words : 60 ≤ f.words.length

namespace Received
variable {g : List NetWord} {f : Frame} (h : Received g f)
include h

lemma unmarked_eq : ∃ pad, unmarked f.words = unmarked g ++ pad := by
  obtain ⟨pad, hpad⟩ := h.data
  refine ⟨pad.map byteWord, ?_⟩
  have hmap (ws : List NetWord) : unmarked ws = (ws.map NetWord.data).map byteWord := by
    rw [List.map_map]
    rfl
  rw [hmap, hmap, hpad, List.map_append]

lemma length_le : g.length ≤ f.words.length := by
  obtain ⟨pad, hpad⟩ := h.data
  have hlen := congrArg List.length hpad
  simp only [List.length_map, List.length_append] at hlen
  omega

/-- Whatever is a matter of the bytes of `g` is one of the bytes of `f`. -/
lemma drop_eq {α : Type} (of : List NetWord → α) (hof : ∀ ws, of (unmarked ws) = of ws) (n k : ℕ)
    (happ : ∀ ws rest, k ≤ ws.length → of (ws ++ rest) = of ws) (hg : n + k ≤ g.length) :
    of (f.words.drop n) = of (g.drop n) := by
  obtain ⟨pad, hpad⟩ := h.unmarked_eq
  have hlen : (unmarked g).length = g.length := List.length_map _
  rw [← hof, drop_unmarked, hpad, List.drop_append_of_le_length (by omega),
    happ _ _ (by rw [List.length_drop]; omega), ← drop_unmarked, hof]

lemma ethernet (hg : 14 ≤ g.length) : ethernetOf f.words = ethernetOf g := by
  have he := h.drop_eq ethernetOf ethernetOf_unmarked 0 14 ethernetOf_append (by omega)
  rwa [List.drop_zero, List.drop_zero] at he

lemma ipv4 (hg : 34 ≤ g.length) : ipv4Of (f.words.drop 14) = ipv4Of (g.drop 14) :=
  h.drop_eq ipv4Of ipv4Of_unmarked 14 20 ipv4Of_append (by omega)

lemma udp (hg : 42 ≤ g.length) : udpOf (f.words.drop 34) = udpOf (g.drop 34) :=
  h.drop_eq udpOf udpOf_unmarked 34 8 udpOf_append (by omega)

lemma arp (hg : 42 ≤ g.length) : arpOf (f.words.drop 14) = arpOf (g.drop 14) :=
  h.drop_eq arpOf arpOf_unmarked 14 28 arpOf_append (by omega)

lemma octet_eq {n : ℕ} (hn : n < g.length) : octet f.words n = octet g n := by
  have ho := h.drop_eq (octet · 0) (fun ws => octet_unmarked ws 0) n 1
    (fun ws rest hws => by rw [octet, octet, List.getD_append _ _ _ _ (by omega)])
    (by omega)
  simpa [octet_drop] using ho

end Received

/-! The frames put out. -/

/-- What `arp` and `icmp` answer to a frame, and what `udp_packetizer` puts out. -/
inductive Answer (ports : DevicePorts) (g : List NetWord) : Prop
  | arp (f : Frame) (h : ArpReply ports.arp f.words g)
  | icmp (f : Frame) (hf : IcmpFrame f.words)
      (hp : (ipv4Of (f.words.drop 14)).protocol = IP_PROTOCOL_ICMP)
      (h : EchoReply ports.icmp f.words g)
  | udp (p : Frame) (hp : IsPacket ports.udpPacketizer p) (h : g = p.words)

/-- The complete frames in the output buffers of `arp`, `icmp` and `udp_packetizer`. -/
def sentAnswers {core : CipherCore} {lasts : ℕ → Bool} {ports : DevicePorts} {M : Type}
    (s : (device core lasts ports).State M) : List (List NetWord) :=
  cutFrames [] (s.fifo .arpOutputBuffer) ++ cutFrames [] (s.fifo .icmpOutputBuffer) ++
    cutFrames [] (s.fifo .udpOutputBuffer)

/-- A sequence of answers, where each is a frame or nothing, is a sequence of frames. -/
lemma frames_of_answers (answer : Frame → List NetWord) (P : List NetWord → Prop) (fs : List Frame)
    (hfs : ∀ f ∈ fs, answer f = [] ∨ ∃ g : Frame, answer f = g.words ∧ P g.words) :
    ∃ gs : List Frame, fs.flatMap answer = gs.flatMap Frame.words ∧ ∀ g ∈ gs, P g.words := by
  induction fs with
  | nil => exact ⟨[], rfl, by simp⟩
  | cons f fs ih =>
    obtain ⟨gs, hgs, hP⟩ := ih fun h hm => hfs h (by simp [hm])
    rcases hfs f (by simp) with hnone | ⟨g, hg, hPg⟩
    · exact ⟨gs, by rw [List.flatMap_cons, hnone, List.nil_append, hgs], hP⟩
    · exact ⟨g::gs, by rw [List.flatMap_cons, hg, hgs, List.flatMap_cons],
        List.forall_mem_cons.mpr ⟨hPg, hP⟩⟩

/-- The frames in a buffer whose words start a sequence of frames. -/
lemma mem_cutFrames_of_prefix {ws : List NetWord} {gs : List Frame} {P : List NetWord → Prop}
    (hws : ws <+: gs.flatMap Frame.words) (hP : ∀ g ∈ gs, P g.words) {a : List NetWord}
    (ha : a ∈ cutFrames [] ws) : P a := by
  have hcut := cutFrames_prefix hws []
  have hm := hcut.subset ha
  rw [cutFrames_frames] at hm
  obtain ⟨g, hg, rfl⟩ := List.mem_map.mp hm
  exact hP g hg

section Reflection
variable {core : CipherCore} {lasts : ℕ → Bool} {ports : DevicePorts}

/-- The core `icmp` is given frames of its protocol only. -/
lemma protocol_of_framesFor {fs : List Frame} (hf : ∀ f ∈ fs, 60 ≤ f.words.length) {f : Frame}
    (hm : f ∈ framesFor .ICMP fs) : (ipv4Of (f.words.drop 14)).protocol = IP_PROTOCOL_ICMP := by
  have hcode : parserCode f = some Prot.ICMP.code := of_decide_eq_true (List.mem_filter.mp hm).2
  have h60 := hf f (List.mem_of_mem_filter hm)
  rw [parserCode_iff f (by omega), classify_eq] at hcode
  have hp := (portProt_ne (udpOf (f.words.drop 34)).dstPort).2
  split_ifs at hcode with harp hip hicmp hudp
  · exact hicmp
  · exact absurd hcode hp

/-- In every run the frames in these buffers are answers. -/
lemma answer_of_sent {fs : List Frame} (hf : DeviceFrames fs) {cap : DeviceFifo → ℕ∞}
    {m : (Memory.shared DeviceCore Cell.Val).State}
    {s : (device core lasts ports).State (Memory.shared DeviceCore Cell.Val).State}
    (hs : (device core lasts ports).Run (Memory.shared DeviceCore Cell.Val) cap
      (deviceStart core lasts ports fs m) s) {g : List NetWord} (hg : g ∈ sentAnswers s) :
    Answer ports g := by
  obtain ⟨script, hr⟩ := reached_of_run (core_enciphers core) hs fun _ _ => m
  obtain ⟨t, packets, us, tail, harp, hicmp, -, -, hudp, hpackets, -, -, -, -, hout, -⟩ :=
    around_outputs (core_enciphers core) hf hr
  have harps := hout .arpOutputBuffer (by simp)
  have hechos := hout .icmpOutputBuffer (by simp)
  have hudps := hout .udpOutputBuffer (by simp)
  obtain ⟨gs, hgs, hArp⟩ := frames_of_answers _ (Answer ports) (framesFor .ARP fs) fun f _ => by
    by_cases h : ArpRequest ports.arp f.words
    · obtain ⟨g, hg, hreply⟩ := (arpAnswer ports.arp f).1 h
      exact .inr ⟨g, hg, .arp f hreply⟩
    · exact .inl ((arpAnswer ports.arp f).2 h)
  obtain ⟨es, hes, hEcho⟩ := frames_of_answers _ (Answer ports) (framesFor .ICMP fs) fun f hm => by
    have hframe := hf.icmp f hm
    by_cases h : EchoFor ports.icmp f.words
    · obtain ⟨g, hg, hreply⟩ := (hframe.echoAnswer ports.icmp).1 h
      exact .inr ⟨g, hg, .icmp f hframe (protocol_of_framesFor hf.words hm) hreply⟩
    · exact .inl ((hframe.echoAnswer ports.icmp).2 h)
  rw [harp, arpReplies, hgs] at harps
  rw [hicmp, echoReplies, hes] at hechos
  rw [hudp] at hudps
  rcases List.mem_append.mp hg with hg | hg
  · rcases List.mem_append.mp hg with hg | hg
    · exact mem_cutFrames_of_prefix harps hArp hg
    · exact mem_cutFrames_of_prefix hechos hEcho hg
  · exact mem_cutFrames_of_prefix hudps (fun p hp => .udp p (hpackets p hp) rfl) hg

/-- What a frame is taken for and is not answered as. -/
inductive Silent (f : List NetWord) : Prop
  | arpReply (h : classify f = .ARP) (hoper : (arpOf (f.drop 14)).oper = ARP_OPER_REPLY)
  | echoReply (h : classify f = .ICMP) (hf : IcmpFrame f) (htype : octet (icmpWords f) 0 = 0)
  | other (h : classify f = .OTHER)

lemma Received.silent {g : List NetWord} {f : Frame} (h : Received g f) (hg : Answer ports g) :
    Silent f.words := by
  cases hg with
  | arp r hr =>
    have hwords := hr.words
    have htype : (ethernetOf f.words).etherType = ETHER_TYPE_ARP := by
      rw [h.ethernet (by omega), hr.etherType]
    refine .arpReply ?_ ?_
    · rw [classify_eq, if_pos htype]
    · rw [h.arp (by omega), hr.oper]
  | icmp r hr hp hecho =>
    have hwords := hecho.words
    have hlt := hr.length_lt
    have hihl := hr.ihl
    have hip : ipv4Of (f.words.drop 14) = (ipv4Of (r.words.drop 14)).exchanged := by
      rw [h.ipv4 (by omega), hecho.ipHeader]
    have hsame : headerWords f.words = headerWords r.words := by
      rw [headerWords, hip]
      rfl
    have hsame' : headerWords g = headerWords r.words := by
      rw [headerWords, hecho.ipHeader]
      rfl
    have htype : (ethernetOf f.words).etherType = ETHER_TYPE_IPv4 := by
      rw [h.ethernet (by omega), hecho.etherType]
    have hprot : (ipv4Of (f.words.drop 14)).protocol = IP_PROTOCOL_ICMP := by
      rw [hip, ← hp]
      rfl
    have hlen := h.length_le
    refine .echoReply ?_ ⟨hsame ▸ hihl, ?_⟩ ?_
    · rw [classify_eq, if_neg (etherType_ne htype), if_pos htype, if_pos hprot]
    · rw [icmpWords, List.length_drop, hsame]
      omega
    · rw [icmpWords, octet_drop, hsame, h.octet_eq (by omega), ← hsame', ← octet_drop]
      exact hecho.type
  | udp p hp hwords =>
    obtain ⟨dst, l, b, user, hle, rfl⟩ := hp
    obtain ⟨heth, hip, hudp⟩ := packet_fields ports.udpPacketizer dst l b user
    have hlen : 42 ≤ g.length := by
      rw [hwords, packet, Frame.words]
      simp [packetHeader_length]
    have htype : (ethernetOf f.words).etherType = ETHER_TYPE_IPv4 := by
      rw [h.ethernet (by omega), hwords, heth]
      rfl
    have hprot : (ipv4Of (f.words.drop 14)).protocol = IP_PROTOCOL_UDP := by
      rw [h.ipv4 (by omega), hwords, hip]
      rfl
    have hport : (udpOf (f.words.drop 34)).dstPort = 60001 := by
      rw [h.udp hlen, hwords, hudp]
      rfl
    refine .other ?_
    rw [classify_eq, if_neg (etherType_ne htype), if_pos htype, if_neg (protocol_ne hprot),
      if_pos hprot, hport]
    rfl

end Reflection

section Silence
variable {core : CipherCore} {lasts : ℕ → Bool} {ports : DevicePorts}

lemma framesFor_filter (c : Prot) (keep : Frame → Bool) (fs : List Frame) :
    framesFor c (fs.filter keep) = (framesFor c fs).filter keep := by
  rw [framesFor, framesFor, List.filter_filter, List.filter_filter]
  exact List.filter_congr fun f _ => Bool.and_comm _ _

lemma flatMap_filter_of_nil {answer : Frame → List NetWord} {keep : Frame → Bool} (fs : List Frame)
    (hnil : ∀ f ∈ fs, keep f = false → answer f = []) :
    (fs.filter keep).flatMap answer = fs.flatMap answer := by
  induction fs with
  | nil => rfl
  | cons f fs ih =>
    have hfs := ih fun g hg => hnil g (by simp [hg])
    cases hk : keep f with
    | false => rw [List.filter_cons, hk, List.flatMap_cons, hnil f (by simp) hk]; exact hfs
    | true => rw [List.filter_cons, hk, List.flatMap_cons, ← hfs]; rfl

/-- Every frame is silent but those kept. -/
structure SilentBut (keep : Frame → Bool) (fs : List Frame) : Prop where
  words : ∀ f ∈ fs, 60 ≤ f.words.length
  silent : ∀ f ∈ fs, keep f = false → Silent f.words

namespace SilentBut
variable {keep : Frame → Bool} {fs : List Frame} (h : SilentBut keep fs)
include h

lemma classify_of_mem {c : Prot} {f : Frame} (hm : f ∈ framesFor c fs) : classify f.words = c := by
  have h60 := h.words f (List.mem_of_mem_filter hm)
  exact (parserCode_iff f (by omega) c).mp (of_decide_eq_true (List.mem_filter.mp hm).2)

lemma mem_kept {c : Prot} (hc : c ≠ .ARP ∧ c ≠ .ICMP ∧ c ≠ .OTHER) {f : Frame}
    (hm : f ∈ framesFor c fs) : keep f = true := by
  have hclass := h.classify_of_mem hm
  by_contra hk
  rw [Bool.not_eq_true] at hk
  cases h.silent f (List.mem_of_mem_filter hm) hk with
  | arpReply ha => exact hc.1 (hclass.symm.trans ha)
  | echoReply hi => exact hc.2.1 (hclass.symm.trans hi)
  | other ho => exact hc.2.2 (hclass.symm.trans ho)

lemma framesFor_kept {c : Prot} (hc : c ≠ .ARP ∧ c ≠ .ICMP ∧ c ≠ .OTHER) :
    framesFor c fs = framesFor c (fs.filter keep) := by
  rw [framesFor_filter]
  exact (List.filter_eq_self.mpr fun f hm => h.mem_kept hc hm).symm

lemma icmpFrame {f : Frame} (hm : f ∈ framesFor .ICMP fs) (hk : keep f = false) :
    IcmpFrame f.words ∧ octet (icmpWords f.words) 0 = 0 := by
  have hclass := h.classify_of_mem hm
  cases h.silent f (List.mem_of_mem_filter hm) hk with
  | arpReply ha => exact absurd (hclass.symm.trans ha) (by decide)
  | echoReply hi hf htype => exact ⟨hf, htype⟩
  | other ho => exact absurd (hclass.symm.trans ho) (by decide)

lemma not_arpRequest {f : Frame} (hm : f ∈ framesFor .ARP fs) (hk : keep f = false) :
    ¬ ArpRequest ports.arp f.words := by
  have hclass := h.classify_of_mem hm
  cases h.silent f (List.mem_of_mem_filter hm) hk with
  | arpReply ha hoper => exact fun hreq => absurd (hreq.1.symm.trans hoper) (by decide)
  | echoReply hi => exact absurd (hclass.symm.trans hi) (by decide)
  | other ho => exact absurd (hclass.symm.trans ho) (by decide)

lemma deviceFrames (hf : DeviceFrames (fs.filter keep)) : DeviceFrames fs where
  words := h.words
  icmp f hm := by
    cases hk : keep f with
    | false => exact (h.icmpFrame hm hk).1
    | true =>
      obtain ⟨hmem, hcode⟩ := List.mem_filter.mp hm
      exact hf.icmp f (List.mem_filter.mpr ⟨List.mem_filter.mpr ⟨hmem, hk⟩, hcode⟩)
  udpReg := by
    rw [h.framesFor_kept (by decide)]
    exact hf.udpReg
  udpStrm := by
    rw [h.framesFor_kept (by decide)]
    exact hf.udpStrm

lemma sameReplies : SameReplies ports fs (fs.filter keep) where
  arp := by
    rw [arpReplies, arpReplies, framesFor_filter]
    exact (flatMap_filter_of_nil _ fun f hm hk =>
      (arpAnswer ports.arp f).2 (h.not_arpRequest hm hk)).symm
  icmp := by
    rw [echoReplies, echoReplies, framesFor_filter]
    refine (flatMap_filter_of_nil _ fun f hm hk => ?_).symm
    obtain ⟨hframe, htype⟩ := h.icmpFrame hm hk
    exact (hframe.echoAnswer ports.icmp).2 fun hecho =>
      absurd (htype.symm.trans hecho.1) (by decide)
  udpReg := h.framesFor_kept (by decide)
  udpStrm := by
    have hstrm := h.framesFor_kept (c := .UDP_STRM) (by decide)
    exact congrArg (List.flatMap fun f : Frame => udpPayload f.words) hstrm

end SilentBut

/-- A frame that some device has put out in answer to an ARP or ICMP frame, or as a packet. -/
def Sent (g : List NetWord) : Prop :=
  ∃ (core : CipherCore) (lasts : ℕ → Bool) (ports : DevicePorts) (fs : List Frame)
    (cap : DeviceFifo → ℕ∞) (m : (Memory.shared DeviceCore Cell.Val).State)
    (s : (device core lasts ports).State (Memory.shared DeviceCore Cell.Val).State),
    DeviceFrames fs ∧ (device core lasts ports).Run (Memory.shared DeviceCore Cell.Val) cap
      (deviceStart core lasts ports fs m) s ∧ g ∈ sentAnswers s

lemma SilentBut.of_sent {fs : List Frame} {keep : Frame → Bool}
    (hf : DeviceFrames (fs.filter keep))
    (hsent : ∀ f ∈ fs, keep f = false → ∃ g, Sent g ∧ Received g f) : SilentBut keep fs := by
  constructor
  · intro f hm
    cases hk : keep f with
    | false =>
      obtain ⟨g, -, hg⟩ := hsent f hm hk
      exact hg.words
    | true => exact hf.words f (List.mem_filter.mpr ⟨hm, hk⟩)
  · intro f hm hk
    obtain ⟨g, ⟨core', lasts', ports', fs', cap', m', s', hf', hs', hg⟩, hrec⟩ := hsent f hm hk
    exact hrec.silent (answer_of_sent hf' hs' hg)

/-- Devices do not answer each other's answers: what a device puts out for a sequence of frames it
puts out for those among them that are not such answers. -/
theorem no_reflection (fs : List Frame) (keep : Frame → Bool)
    (hf : DeviceFrames (fs.filter keep))
    (hsent : ∀ f ∈ fs, keep f = false → ∃ g, Sent g ∧ Received g f) (cap : DeviceFifo → ℕ∞)
    (m : (Memory.shared DeviceCore Cell.Val).State)
    (s : (device core lasts ports).State (Memory.shared DeviceCore Cell.Val).State)
    (hs : (device core lasts ports).Run (Memory.shared DeviceCore Cell.Val) cap
      (deviceStart core lasts ports fs m) s) :
    Replied core lasts ports (fs.filter keep) m s.fifo s.mem ((device core lasts ports).Starved s) := by
  have hsilent := SilentBut.of_sent hf hsent
  exact replied_of_run (hsilent.deviceFrames hf) hf hsilent.sameReplies hs

end Silence

/-- The words of `g` in a frame of at least 60. -/
def paddedTo60 (g : List NetWord) : Frame where
  init := (g.map NetWord.data ++ List.replicate (59 - g.length) 0).map byteWord
  final := ⟨0,true,false⟩
  init_last := fun _ => byteWord_last
  final_last := Eq.refl true

lemma received_paddedTo60 (g : List NetWord) : Received g (paddedTo60 g) := by
  constructor
  · exact ⟨List.replicate (59 - g.length) 0 ++ [0], by
      simp [paddedTo60, Frame.words, Function.comp_def]⟩
  · simp [paddedTo60, Frame.words]
    omega

/-- The answer to the ARP request among `someFrames`. -/
lemma sent_arpReply : ∃ g, Sent g ∧ g.length = 42 ∧ (arpOf (g.drop 14)).oper = ARP_OPER_REPLY := by
  obtain ⟨s, hs, hst⟩ := someDevice_ends someFrames_device
  obtain ⟨answers, hall, -, hend⟩ :=
    (replied_of_run someFrames_device someFrames_device ⟨rfl, rfl, rfl, rfl⟩ hs).arp
  have hfor : framesFor .ARP someFrames = [arpFrameTo 1 (10::List.replicate 17 0) 0] := rfl
  rw [hfor] at hall
  obtain ⟨a, l, ha, hl, rfl⟩ := List.forall₂_cons_left_iff.mp hall
  obtain rfl := List.forall₂_nil_left_iff.mp hl
  obtain ⟨g, rfl, hg⟩ := ha.1 ⟨by decide, by decide⟩
  refine ⟨g.words, ⟨_, _, _, _, _, _, s, someFrames_device, hs, ?_⟩, hg.words, hg.oper⟩
  have hcut := cutFrames_frames [g]
  rw [sentAnswers, hend hst]
  simp_all

/-- `no_reflection` where this answer comes before `someFrames`: only they are answered. -/
theorem no_reflection_someFrames : ∃ f s,
    (arpOf (Frame.words f |>.drop 14)).oper = ARP_OPER_REPLY ∧
    (device someCore (fun _ => false) somePorts).Run (Memory.shared DeviceCore Cell.Val) openDepth
      (deviceStart someCore (fun _ => false) somePorts (f::someFrames) Cell.zero) s ∧
    Replied someCore (fun _ => false) somePorts someFrames Cell.zero s.fifo s.mem True := by
  obtain ⟨g, hg, hlen, hoper⟩ := sent_arpReply
  set keep : Frame → Bool := fun f => (arpOf (f.words.drop 14)).oper ≠ ARP_OPER_REPLY with hkeep
  have hrec := received_paddedTo60 g
  have hpad : (arpOf ((paddedTo60 g).words.drop 14)).oper = ARP_OPER_REPLY := by
    rw [hrec.arp (by omega), hoper]
  have hsome : ∀ f ∈ someFrames, keep f = true := by decide
  have hfilter : ((paddedTo60 g)::someFrames).filter keep = someFrames := by
    rw [List.filter_cons_of_neg (by simp [hkeep, hpad]), List.filter_eq_self.mpr hsome]
  have hsent : ∀ f ∈ (paddedTo60 g)::someFrames, keep f = false → ∃ g, Sent g ∧ Received g f := by
    intro f hm hk
    rcases List.mem_cons.mp hm with rfl | hm
    · exact ⟨g, hg, hrec⟩
    · rw [hsome f hm] at hk
      cases hk
  have hframes : DeviceFrames (((paddedTo60 g)::someFrames).filter keep) := by
    rw [hfilter]
    exact someFrames_device
  obtain ⟨s, hs, hst⟩ := someDevice_ends ((SilentBut.of_sent hframes hsent).deviceFrames hframes)
  have h := no_reflection _ keep hframes hsent openDepth Cell.zero s hs
  rw [hfilter, eq_true hst] at h
  exact ⟨paddedTo60 g, s, hpad, hs, h⟩

end EncryptionAccelerators.Net
