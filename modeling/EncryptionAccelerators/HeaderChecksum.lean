import EncryptionAccelerators.OnesComplement
import EncryptionAccelerators.Packetizing
import EncryptionAccelerators.ReadReplies

/-! The IPv4 header checksums of the frames `udp_packetizer` and `udp_reg` send. -/
namespace EncryptionAccelerators.Net
open Dataflow OnesComplement

/-- The ten words of an IPv4 header without options. -/
def ipv4Words (h : Ipv4Header) : List (BitVec 16) :=
  [(h.version ++ h.IHL) ++ (h.DSCP ++ h.ECN),h.totalLength,h.identification,
    h.flags ++ h.fragOffset,h.ttl ++ h.protocol,h.headerChecksum,h.srcIp.extractLsb 31 16,
    h.srcIp.extractLsb 15 0,h.dstIp.extractLsb 31 16,h.dstIp.extractLsb 15 0]

/-- The ten big-endian words of the IPv4 header of a frame sum up to `0xFFFF`. -/
def HeaderValid (f : List NetWord) : Prop := Valid (((f.drop 14).take 20).map NetWord.data)

/-- The words of the header are made of its fields. -/
lemma words16_header (ws : List NetWord) (h : 20 ≤ ws.length) :
    words16 ((ws.take 20).map NetWord.data) = ipv4Words (ipv4Of ws) := by
  have hfirst (a b : Byte) :
      (a.extractLsb 7 4 ++ a.extractLsb 3 0) ++ (b.extractLsb 7 2 ++ b.extractLsb 1 0) = a ++ b := by
    ext i hi
    simp
    grind
  have hflags (a b : Byte) : a.extractLsb 7 5 ++ (a.extractLsb 4 0 ++ b) = a ++ b := by
    ext i hi
    simp
    grind
  have hhi (a b d e : Byte) : (a ++ b ++ d ++ e).extractLsb 31 16 = a ++ b := by
    ext i hi
    simp
    grind
  have hlo (a b d e : Byte) : (a ++ b ++ d ++ e).extractLsb 15 0 = d ++ e := by
    ext i hi
    simp
    grind
  rw [take_data ws h, ipv4Words, ipv4Of]
  simp only [hfirst, hflags, hhi, hlo]
  rfl

/-- The two halves of an address, as the words of a header. -/
def halves (x : BitVec 32) : ℕ := x.toNat/2^16 + x.toNat%2^16

lemma total_halves (x : BitVec 32) :
    (x.extractLsb 31 16).toNat + (x.extractLsb 15 0).toNat = halves x := by
  have hlt := x.isLt
  have hhi : (x.extractLsb 31 16).toNat = x.toNat/2^16 := by
    rw [BitVec.extractLsb_toNat, Nat.shiftRight_eq_div_pow]
    omega
  have hlo : (x.extractLsb 15 0).toNat = x.toNat%2^16 := by
    rw [BitVec.extractLsb_toNat, Nat.shiftRight_zero]
  rw [hhi, hlo, halves]

/-- The sum of the fields that neither a packet's length nor an address changes. -/
def fixedTotal (h : Ipv4Header) : ℕ :=
  ((h.version ++ h.IHL) ++ (h.DSCP ++ h.ECN)).toNat + h.identification.toNat +
    (h.flags ++ h.fragOffset).toNat + (h.ttl ++ h.protocol).toNat

lemma total_ipv4Words (h : Ipv4Header) : total (ipv4Words h) =
    fixedTotal h + h.totalLength.toNat + h.headerChecksum.toNat + halves h.srcIp +
      halves h.dstIp := by
  have hsrc := total_halves h.srcIp
  have hdst := total_halves h.dstIp
  simp only [ipv4Words, total_cons, total_nil, fixedTotal]
  omega

lemma headerValid_iff (f : List NetWord) (h : 34 ≤ f.length) : HeaderValid f ↔
    65535 ∣ total (ipv4Words (ipv4Of (f.drop 14))) ∧
      0 < total (ipv4Words (ipv4Of (f.drop 14))) := by
  rw [HeaderValid, valid_iff, words16_header _ (by rw [List.length_drop]; omega)]

/-! `udp_packetizer` -/

lemma total_packetIpv4 (ports : PacketizerPorts) (totalLength : BitVec 16) (dstIpAddr : BitVec 32) :
    total (ipv4Words (packetIpv4 ports totalLength dstIpAddr)) =
      105637 + totalLength.toNat + halves ports.ipAddr + halves dstIpAddr := by
  have hfirst : (((4 : BitVec 4) ++ (5 : BitVec 4)) ++ ((0 : BitVec 6) ++ (0 : BitVec 2))).toNat =
      0x4500 := by decide
  have hident : (0x5894 : BitVec 16).toNat = 0x5894 := rfl
  have hflags : ((0 : BitVec 3) ++ (0 : BitVec 13)).toNat = 0 := by decide
  have hprotocol : ((255 : Byte) ++ IP_PROTOCOL_UDP).toNat = 0xff11 := by decide
  have hfixed : fixedTotal (packetIpv4 ports totalLength dstIpAddr) = 105637 := by
    simp only [fixedTotal, packetIpv4, hfirst, hident, hflags, hprotocol]
  rw [total_ipv4Words, hfixed]
  rfl

/-- The packet a chunk is sent in has a valid IPv4 header. -/
def EmitsValidHeader (ports : PacketizerPorts) (c rest out : List NetWord)
    (m : (c : Cell) → c.Val) : Prop :=
  ∃ (t : Io InputStrm OutputStrm NetWord ((c : Cell) → c.Val)) (f : Frame),
    Invokes (Memory.shared Unit Cell.Val) () (udpPacketizer ports) .entry
      ⟨fun _ => c ++ rest,fun _ => out,m⟩ t ∧
    t.out .outputStrm = out ++ f.words ∧ HeaderValid f.words

lemma chunkPacket_headerValid (ports : PacketizerPorts) (dstIpAddr : BitVec 32) {c : List NetWord}
    (h : Chunk c) : HeaderValid (chunkPacket ports dstIpAddr c).words ↔
      (c.length + halves ports.ipAddr + halves dstIpAddr)%65535 = 25405 := by
  have hle := h.length_le
  have hlen := (h.packetized ports dstIpAddr).length
  obtain ⟨init, w, rfl, -, -⟩ := h
  have hcount : (init.map NetWord.data ++ [w.data]).length = (init ++ [w]).length := by simp
  obtain ⟨-, hip, -⟩ := packet_fields ports dstIpAddr (init.map NetWord.data) w.data w.user
  rw [headerValid_iff _ (by omega), chunkPacket_concat, hip, total_packetIpv4, hcount, totalLength_toNat hle]
  generalize (init ++ [w]).length = n
  omega

lemma Chunk.emitsValidHeader_iff (ports : PacketizerPorts) {c : List NetWord} (h : Chunk c)
    (rest out : List NetWord) (m : (c : Cell) → c.Val) : EmitsValidHeader ports c rest out m ↔
      (c.length + halves ports.ipAddr + halves (m .dstIpAddr))%65535 = 25405 := by
  have hinv := h.invokes ports rest out m
  rw [← chunkPacket_headerValid ports (m .dstIpAddr) h]
  constructor
  · rintro ⟨t, f, ht, hout, hf⟩
    obtain rfl := ht.deterministic hinv
    have he : out ++ (chunkPacket ports (m .dstIpAddr) c).words = out ++ f.words := hout
    rwa [List.append_cancel_left he]
  · intro hv
    exact ⟨_, _, hinv, rfl, hv⟩

/-- With the checksum field left zero the header is valid just when the length and the addresses
happen to make up for it. -/
theorem packet_checksum (ports : PacketizerPorts) (c : List NetWord) (h : Chunk c)
    (rest out : List NetWord) (m : (c : Cell) → c.Val) : EmitsValidHeader ports c rest out m ↔
      (c.length + halves ports.ipAddr + halves (m .dstIpAddr))%65535 = 25405 :=
  h.emitsValidHeader_iff ports rest out m

lemma chunk_single : Chunk [⟨0,true,false⟩] :=
  ⟨[], ⟨0,true,false⟩, rfl, ⟨by simp, by decide⟩, .inl rfl⟩

/-- One byte from 192.168.1.10 to 192.168.1.20. -/
theorem packet_checksum_fails : ¬ ∀ ports c, Chunk c → ∀ rest out m,
    EmitsValidHeader ports c rest out m := by
  intro h
  have hv := (chunk_single.emitsValidHeader_iff ⟨0xc0a8010a,0,0,0⟩ [] []
    (Function.update Cell.zero .dstIpAddr 0xc0a80114)).mp (h _ _ chunk_single _ _ _)
  revert hv
  decide

/-- `packet_checksum` where the addresses make up for the checksum. -/
theorem packet_checksum_zero : EmitsValidHeader ⟨0,0,0,0⟩ [⟨0,true,false⟩] [] []
    (Function.update Cell.zero .dstIpAddr 25404) :=
  (packet_checksum _ _ chunk_single _ _ _).mpr (by decide)

/-! `udp_reg` -/

/-- A read request with `k` addresses and a valid IPv4 header. -/
structure ChecksummedRead (f : List NetWord) (k : ℕ) : Prop extends ReadFrame f k where
  totalLength : (ipv4Of (f.drop 14)).totalLength.toNat = 28 + 4*k
  checksum : HeaderValid f

/-- Every reply to the request has a valid IPv4 header. -/
def RepliesValidHeader (f : Frame) (rest out : List NetWord) (m : (c : Cell) → c.Val) : Prop :=
  ∀ (t : Io InputStrm OutputStrm NetWord ((c : Cell) → c.Val)) (reply : Frame),
    Invokes (Memory.shared Unit Cell.Val) () udpReg .start
      ⟨fun _ => f.words ++ rest,fun _ => out,m⟩ t →
    t.out .outputStrm = out ++ reply.words → HeaderValid reply.words

/-- Half the buffer count is added to the checksum with one end-around carry. -/
lemma replyChecksum_toNat (c : BitVec 16) {k : ℕ} (hk : 8*k < 2^16) :
    (replyChecksum c (BitVec.ofNat 16 (8*k))).toNat = c.toNat + 4*k ∨
      (replyChecksum c (BitVec.ofNat 16 (8*k))).toNat + 65535 = c.toNat + 4*k := by
  have hc := c.isLt
  have hsum : (c.setWidth 17 + (BitVec.ofNat 16 (4*k)).setWidth 17 : BitVec 17).toNat =
      c.toNat + 4*k := by
    rw [BitVec.toNat_add, BitVec.toNat_setWidth, BitVec.toNat_setWidth, BitVec.toNat_ofNat]
    omega
  rw [replyChecksum, bufCnt_half hk, BitVec.toNat_setWidth, BitVec.toNat_add,
    BitVec.toNat_ushiftRight, hsum, Nat.shiftRight_eq_div_pow]
  by_cases hcarry : c.toNat + 4*k < 2^16
  · rw [Nat.div_eq_of_lt hcarry]
    omega
  · have hone : (c.toNat + 4*k)/2^16 = 1 := by omega
    rw [hone]
    omega

/-- The reply is longer by `4*k` and its checksum greater by `4*k` instead of less. -/
lemma total_replyIp (h : Ipv4Header) {k : ℕ} (hlen : h.totalLength.toNat = 28 + 4*k) (hk : k ≤ 192) :
    total (ipv4Words (replyIp h (BitVec.ofNat 16 (8*k)))) = total (ipv4Words h) + 8*k ∨
      total (ipv4Words (replyIp h (BitVec.ofNat 16 (8*k)))) + 65535 = total (ipv4Words h) + 8*k := by
  have hcheck := replyChecksum_toNat h.headerChecksum (k := k) (by omega)
  have htotal : (replyIp h (BitVec.ofNat 16 (8*k))).totalLength.toNat = h.totalLength.toNat + 4*k := by
    rw [replyIp, bufCnt_half (by omega), BitVec.toNat_add, BitVec.toNat_ofNat]
    omega
  have hfixed : fixedTotal (replyIp h (BitVec.ofNat 16 (8*k))) = fixedTotal h := rfl
  rw [total_ipv4Words, total_ipv4Words, hfixed, htotal]
  simp only [replyIp]
  omega

lemma ChecksummedRead.not_repliesValidHeader {f : Frame} {k : ℕ} (h : ChecksummedRead f.words k)
    (rest out : List NetWord) (m : (c : Cell) → c.Val) : ¬ RepliesValidHeader f rest out m := by
  intro hr
  have hle := h.le
  have hone := h.one_le
  have hw := h.words
  obtain ⟨reply, hreply, -, -⟩ := h.toReadFrame.reply (regSpace m)
  have hvalid := hr _ reply (h.toReadFrame.invokes (fun _ => out) m (ownsRegisters_shared ()) rest) (by rw [hreply])
  have hanswer : reply.words = replyWords (answered f.words (regSpace m) k) :=
    hreply.trans (h.toReadFrame.replyOf_eq _)
  have hlen : 34 ≤ (replyWords (answered f.words (regSpace m) k)).length := by
    rw [replyWords, List.length_append, List.length_map]
    exact le_add_right (by omega : 34 ≤ 42)
  have hip := (replyWords_headers (answered f.words (regSpace m) k)).2.1
  rw [hanswer, headerValid_iff _ hlen, hip, answered_bufCnt] at hvalid
  obtain ⟨hdvd, -⟩ := (headerValid_iff f.words (by omega)).mp h.checksum
  have htotal := total_replyIp (ipv4Of (f.words.drop 14)) h.totalLength hle
  have hdvd' : 65535 ∣ total (ipv4Words (replyIp (ipv4Of (f.words.drop 14))
    (BitVec.ofNat 16 (8*k)))) := hvalid.1
  omega

/-- No reply has a valid IPv4 header: twice `4*k` is missing from the sum. -/
theorem reply_checksum (f : Frame) (k : ℕ) (h : ChecksummedRead f.words k)
    (rest out : List NetWord) (m : (c : Cell) → c.Val) : ¬ RepliesValidHeader f rest out m :=
  h.not_repliesValidHeader rest out m

/-- A read request for one address whose IPv4 header checksum is `0x7ACE`. -/
def checksummedFrame : Frame where
  init := (List.replicate 12 (0xff : Byte) ++ [0x08,0x00] ++
    [0x45,0,0,32,0,0,0,0,0x40,0x11,0x7a,0xce] ++ List.replicate 10 0 ++
    [0x9c,0x40,0,12] ++ List.replicate 19 0).map byteWord
  final := ⟨0,true,false⟩
  init_last := fun _ => byteWord_last
  final_last := Eq.refl true

lemma checksummedFrame_read : ChecksummedRead checksummedFrame.words 1 :=
  ⟨⟨by decide, by decide, by decide, by decide, by decide, by decide⟩, by decide, by
    unfold HeaderValid
    decide⟩

theorem reply_checksum_fails : ¬ ∀ f k, ChecksummedRead (Frame.words f) k →
    ∀ rest out m, RepliesValidHeader f rest out m := by
  intro h
  exact checksummedFrame_read.not_repliesValidHeader [] [] Cell.zero
    (h _ 1 checksummedFrame_read [] [] Cell.zero)

/-- `reply_checksum` on the request for one address. -/
theorem reply_checksum_single : HeaderValid checksummedFrame.words ∧
    ¬ RepliesValidHeader checksummedFrame [] [] Cell.zero :=
  ⟨checksummedFrame_read.checksum, reply_checksum _ 1 checksummedFrame_read _ _ _⟩

end EncryptionAccelerators.Net
