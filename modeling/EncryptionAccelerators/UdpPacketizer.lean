import EncryptionAccelerators.Parser

/-! The core `udp_packetizer`: it collects up to 1024 bytes, then samples the destination
address and emits one UDP frame. The checksum it accumulates is never sent and is left out. -/
namespace EncryptionAccelerators.Net
open Dataflow

/-- The address ports of `udp_packetizer`, and what `ethernet_header.dst_mac_addr`, which is
never assigned, happens to hold. -/
structure PacketizerPorts where
  ipAddr : BitVec 32
  macAddrLo : BitVec 32
  macAddrHi : BitVec 16
  dstMacUnset : BitVec 48

/-- The state of `payload_buffering_loop` at its head. -/
structure PayloadBuffering where
  dataBuf : List Byte
  len : BitVec 16
  totalLength : BitVec 16
  room : dataBuf.length < 1024
  len_eq : len = 8 + BitVec.ofNat 16 dataBuf.length
  totalLength_eq : totalLength = 28 + BitVec.ofNat 16 dataBuf.length

namespace PayloadBuffering

@[ext] lemma ext {a b : PayloadBuffering} (h : a.dataBuf = b.dataBuf) : a = b := by
  obtain ⟨_, _, _, _, ha, ha'⟩ := a
  obtain ⟨_, _, _, _, hb, hb'⟩ := b
  obtain rfl : _ = _ := h
  subst ha ha' hb hb'
  rfl

/-- The head of the loop at `i = 0`. -/
def entry : PayloadBuffering := ⟨[],8,20 + 8,by decide,by decide,by decide⟩

lemma ofNat_succ (w : BitVec 16) (l : List Byte) (b : Byte) :
    w + BitVec.ofNat 16 l.length + 1 = w + BitVec.ofNat 16 (l ++ [b]).length := by
  rw [List.length_append, List.length_singleton, BitVec.ofNat_add, BitVec.add_assoc]
  rfl

def push (s : PayloadBuffering) (b : Byte) (h : (s.dataBuf ++ [b]).length < 1024) :
    PayloadBuffering where
  dataBuf := s.dataBuf ++ [b]
  len := s.len + 1
  totalLength := s.totalLength + 1
  room := h
  len_eq := by rw [s.len_eq, ofNat_succ]
  totalLength_eq := by rw [s.totalLength_eq, ofNat_succ]

end PayloadBuffering

def packetEthernet (ports : PacketizerPorts) : EthernetHeader where
  dstMacAddr := ports.dstMacUnset
  srcMacAddr := ports.macAddrHi ++ ports.macAddrLo
  etherType := ETHER_TYPE_IPv4

def packetIpv4 (ports : PacketizerPorts) (totalLength : BitVec 16) (dstIpAddr : BitVec 32) :
    Ipv4Header where
  version := 4
  IHL := 5
  DSCP := 0
  ECN := 0
  totalLength := totalLength
  identification := 0x5894
  flags := 0
  fragOffset := 0
  ttl := 255
  protocol := IP_PROTOCOL_UDP
  headerChecksum := 0
  srcIp := ports.ipAddr
  dstIp := dstIpAddr

def packetUdp (len : BitVec 16) : UdpHeader where
  srcPort := 50000
  dstPort := 60001
  len := len
  checksum := 0

/-- `output_strm_loop`; `user` is left over from the last word read. -/
def outputStrmLoop (len : BitVec 16) (dataBuf : List Byte) (user : Bool) : List NetWord :=
  (List.range' 8 (len.toNat - 8)).map fun i =>
    ⟨dataBuf.getD (i - 8) 0,len.toNat - 1 = i,user⟩

def udpPacketizer (ports : PacketizerPorts) (s : PayloadBuffering) :
    Cmd InputStrm OutputStrm NetWord Cell.Val PayloadBuffering := do
  let word ← readWord .inputStrm
  if h : word.last = false ∧ (s.dataBuf ++ [word.data]).length < 1024 then
    return s.push word.data h.2
  else
    let dataBuf := s.dataBuf ++ [word.data]
    let len := s.len + 1
    let totalLength := s.totalLength + 1
    let dstIpAddr ← loadCell .dstIpAddr
    writeEthernetHeader .outputStrm (packetEthernet ports)
    writeIpHeader .outputStrm (packetIpv4 ports totalLength dstIpAddr)
    writeUdpHeader .outputStrm (packetUdp len)
    writeAll .outputStrm (outputStrmLoop len dataBuf word.user)
    return .entry

/-- The header bytes of a packet with `n` payload bytes. -/
def packetHeader (ports : PacketizerPorts) (dstIpAddr : BitVec 32) (n : ℕ) : List Byte :=
  ethernetBytes (packetEthernet ports) ++
    ipv4Bytes (packetIpv4 ports (28 + BitVec.ofNat 16 n) dstIpAddr) ++
    udpBytes (packetUdp (8 + BitVec.ofNat 16 n))

lemma packetHeader_length (ports : PacketizerPorts) (dstIpAddr : BitVec 32) (n : ℕ) :
    (packetHeader ports dstIpAddr n).length = 42 := rfl

/-- The frame built around the bytes `l ++ [b]`. -/
def packet (ports : PacketizerPorts) (dstIpAddr : BitVec 32) (l : List Byte) (b : Byte)
    (user : Bool) : Frame where
  init := (packetHeader ports dstIpAddr (l ++ [b]).length).map byteWord ++
    l.map fun x => ⟨x,false,user⟩
  final := ⟨b,true,user⟩
  init_last := by
    intro w hw
    simp only [List.mem_append, List.mem_map] at hw
    rcases hw with ⟨x, _, rfl⟩ | ⟨x, _, rfl⟩ <;> rfl
  final_last := rfl

lemma len_toNat {n : ℕ} (h : n ≤ 1024) : (8 + BitVec.ofNat 16 n).toNat = 8 + n := by
  rw [BitVec.toNat_add, BitVec.toNat_ofNat]
  have h8 : (8 : BitVec 16).toNat = 8 := rfl
  omega

lemma outputStrmLoop_eq (l : List Byte) (b : Byte) (user : Bool) (h : (l ++ [b]).length ≤ 1024) :
    outputStrmLoop (8 + BitVec.ofNat 16 (l ++ [b]).length) (l ++ [b]) user =
      (l.map fun x => ⟨x,false,user⟩) ++ [⟨b,true,user⟩] := by
  unfold outputStrmLoop
  rw [len_toNat h]
  apply List.ext_getElem
  · simp
  · intro k hk _
    simp only [List.length_map, List.length_range', List.length_append, List.length_singleton]
      at hk
    simp only [List.getElem_map, List.getElem_range', List.length_append, List.length_singleton]
    by_cases hl : k < l.length
    · simp [List.getElem?_append_left hl, hl, show ¬ l.length = k by omega]
    · obtain rfl : k = l.length := by omega
      simp

/-- The header fields a receiver sees, and its view of the payload. -/
lemma packet_fields (ports : PacketizerPorts) (dstIpAddr : BitVec 32) (l : List Byte) (b : Byte)
    (user : Bool) : ethernetOf (packet ports dstIpAddr l b user).words = packetEthernet ports ∧
      ipv4Of ((packet ports dstIpAddr l b user).words.drop 14) =
        packetIpv4 ports (28 + BitVec.ofNat 16 (l ++ [b]).length) dstIpAddr ∧
      udpOf ((packet ports dstIpAddr l b user).words.drop 34) =
        packetUdp (8 + BitVec.ofNat 16 (l ++ [b]).length) := by
  set rest := (l.map fun x => (⟨x,false,user⟩ : NetWord)) ++ [⟨b,true,user⟩]
  have hw : (packet ports dstIpAddr l b user).words =
      (packetHeader ports dstIpAddr (l ++ [b]).length).map byteWord ++ rest :=
    List.append_assoc _ _ _
  rw [hw, packetHeader, List.map_append, List.map_append, List.append_assoc, List.append_assoc]
  exact ⟨ethernetOf_bytes _ _, ipv4Of_bytes _ _, udpOf_bytes _ _⟩

lemma packet_payload (ports : PacketizerPorts) (dstIpAddr : BitVec 32) (l : List Byte) (b : Byte)
    (user : Bool) (h : (l ++ [b]).length ≤ 1024) :
    udpPayload (packet ports dstIpAddr l b user).words = l ++ [b] := by
  obtain ⟨-, hip, hudp⟩ := packet_fields ports dstIpAddr l b user
  have hihl : (packetIpv4 ports (28 + BitVec.ofNat 16 (l ++ [b]).length) dstIpAddr).IHL.toNat = 5 :=
    rfl
  have hlen : (packetUdp (8 + BitVec.ofNat 16 (l ++ [b]).length)).len.toNat =
      8 + (l ++ [b]).length := len_toNat h
  have hdrop : (packet ports dstIpAddr l b user).words.drop 42 =
      (l.map fun x => ⟨x,false,user⟩) ++ [⟨b,true,user⟩] := by
    rw [packet, Frame.words, List.append_assoc]
    exact List.drop_left' (by rw [List.length_map, packetHeader_length])
  simp only [udpPayload, hip, hihl, hudp, hlen, hdrop]
  rw [Nat.add_sub_cancel_left, List.take_of_length_le (by simp)]
  simp [Function.comp_def]

section UdpPacketizer
variable {ι : Type} (mem : Memory ι Cell.Val) (i : ι) (ports : PacketizerPorts)

lemma exec_udpPacketizer_push (s : PayloadBuffering) (io : Io InputStrm OutputStrm NetWord mem.State)
    {w : NetWord} {ws : List NetWord} (hs : io.inp .inputStrm = w::ws)
    (h : w.last = false ∧ (s.dataBuf ++ [w.data]).length < 1024) :
    exec mem i (udpPacketizer ports s) io =
      some (s.push w.data h.2,⟨fun _ => ws,io.out,io.mem⟩) := by
  rw [udpPacketizer, readWord_bind, exec_recv mem i _ _ io hs, dif_pos h]
  rfl

lemma exec_udpPacketizer_emit (s : PayloadBuffering) (io : Io InputStrm OutputStrm NetWord mem.State)
    {w : NetWord} {ws : List NetWord} (hs : io.inp .inputStrm = w::ws)
    (h : ¬ (w.last = false ∧ (s.dataBuf ++ [w.data]).length < 1024)) :
    exec mem i (udpPacketizer ports s) io = some (.entry,⟨fun _ => ws,
      fun _ => io.out .outputStrm ++
        (packet ports (mem.load i .dstIpAddr io.mem).1 s.dataBuf w.data w.user).words,
      (mem.load i .dstIpAddr io.mem).2⟩) := by
  have hl : (s.dataBuf ++ [w.data]).length ≤ 1024 := by
    have hr := s.room
    rw [List.length_append, List.length_singleton]
    omega
  rw [udpPacketizer, readWord_bind, exec_recv mem i _ _ io hs, dif_neg h]
  simp only [loadCell_bind, exec_peek, writeEthernetHeader_eq, writeIpHeader_eq, writeUdpHeader_eq,
    exec_writeAll_bind, Cmd.pure_def, exec_ret, s.len_eq, s.totalLength_eq,
    PayloadBuffering.ofNat_succ _ _ w.data, outputStrmLoop_eq _ _ _ hl]
  congr 3
  funext q
  cases q
  simp [packet, packetHeader, Frame.words]

/-- The packets carry the words read, in order and cut where a word has `last` or the buffer is
full; the words read since the last cut are in the buffer. -/
lemma udpPacketizer_blocks (ws rest pre : List NetWord) (s : PayloadBuffering)
    (hpre : ∀ w ∈ pre, w.last = false) (hbuf : s.dataBuf = pre.map NetWord.data)
    (io : Io InputStrm OutputStrm NetWord mem.State) (hs : io.inp .inputStrm = ws ++ rest) :
    ∃ (t : PayloadBuffering) (m : mem.State) (fs : List Frame) (init tail : List NetWord),
      Blocks mem i (udpPacketizer ports) (s,io) (t,⟨fun _ => rest,
        fun _ => io.out .outputStrm ++ fs.flatMap Frame.words,m⟩) ∧
      pre ++ ws = init ++ tail ∧ (∀ w ∈ tail, w.last = false) ∧
      t.dataBuf = tail.map NetWord.data ∧
      (fs.flatMap fun f => udpPayload f.words) = init.map NetWord.data := by
  induction ws generalizing pre s io with
  | nil =>
    refine ⟨s, io.mem, [], [], pre, Blocks.to .refl ?_, by simp, hpre, hbuf, rfl⟩
    congr 1
    ext p : 2
    · cases p; simpa using hs
    · cases p; simp
    · rfl
  | cons w ws ih =>
    by_cases h : w.last = false ∧ (s.dataBuf ++ [w.data]).length < 1024
    · obtain ⟨t, m, fs, init, tail, hb, happ, hrest⟩ := ih (pre ++ [w]) (s.push w.data h.2)
        (by simpa [or_imp, forall_and, h.1] using hpre) (by simp [PayloadBuffering.push, hbuf])
        ⟨fun _ => ws ++ rest,io.out,io.mem⟩ rfl
      exact ⟨t, m, fs, init, tail, .head (exec_udpPacketizer_push mem i ports s io hs h) hb,
        by simpa using happ, hrest⟩
    · obtain ⟨t, m, fs, init, tail, hb, happ, htail, hdata, hfs⟩ := ih [] .entry (by simp) rfl
        ⟨fun _ => ws ++ rest,fun _ => io.out .outputStrm ++
          (packet ports (mem.load i .dstIpAddr io.mem).1 s.dataBuf w.data w.user).words,
          (mem.load i .dstIpAddr io.mem).2⟩ rfl
      have hb' : Blocks mem i (udpPacketizer ports) (s,io) _ :=
        .head (exec_udpPacketizer_emit mem i ports s io hs h) hb
      refine ⟨t, m, packet ports (mem.load i .dstIpAddr io.mem).1 s.dataBuf w.data w.user::fs,
        pre ++ w::init, tail, hb'.to (by simp), by simpa using happ, htail, hdata, ?_⟩
      have hl : (s.dataBuf ++ [w.data]).length ≤ 1024 := by
        have hr := s.room
        rw [List.length_append, List.length_singleton]
        omega
      rw [List.flatMap_cons, packet_payload ports _ _ _ _ hl, hfs, hbuf]
      simp

end UdpPacketizer

end EncryptionAccelerators.Net
