import EncryptionAccelerators.NetWord

/-! The header codecs of `network.cpp`. Two assignments to bit ranges of a field become one
concatenation. Where the source leaves the `user` bit of a written word unassigned it is
false here; no core looks at it. -/
namespace EncryptionAccelerators.Net
open Dataflow

/-- `ipv4_header_t`. -/
structure Ipv4Header where
  version : BitVec 4
  IHL : BitVec 4
  DSCP : BitVec 6
  ECN : BitVec 2
  totalLength : BitVec 16
  identification : BitVec 16
  flags : BitVec 3
  fragOffset : BitVec 13
  ttl : BitVec 8
  protocol : BitVec 8
  headerChecksum : BitVec 16
  srcIp : BitVec 32
  dstIp : BitVec 32
  deriving DecidableEq, Repr

structure EthernetHeader where
  dstMacAddr : BitVec 48
  srcMacAddr : BitVec 48
  etherType : BitVec 16
  deriving DecidableEq, Repr

structure UdpHeader where
  srcPort : BitVec 16
  dstPort : BitVec 16
  len : BitVec 16
  checksum : BitVec 16
  deriving DecidableEq, Repr

def ETHER_TYPE_IPv4 : BitVec 16 := 0x0800
def ETHER_TYPE_ARP : BitVec 16 := 0x0806
def IP_PROTOCOL_ICMP : Byte := 0x01
def IP_PROTOCOL_UDP : Byte := 0x11

/-- `enum class prot`. -/
inductive Prot
  | ARP | ICMP | UDP_STRM | UDP_REG | OTHER
  deriving DecidableEq, Repr

/-- The cast of a `prot` to `protocol_t`. -/
def Prot.code : Prot → Byte
  | ARP => 0
  | ICMP => 1
  | UDP_STRM => 2
  | UDP_REG => 3
  | OTHER => 4

section Codecs
variable {In Out A : Type} {V : A → Type}

def readMacAddr (inputStrm : In) : Cmd In Out NetWord V (BitVec 48) := do
  let w5 ← readWord inputStrm
  let w4 ← readWord inputStrm
  let w3 ← readWord inputStrm
  let w2 ← readWord inputStrm
  let w1 ← readWord inputStrm
  let w0 ← readWord inputStrm
  return w5.data ++ w4.data ++ w3.data ++ w2.data ++ w1.data ++ w0.data

def readEthernetHeader (inputStrm : In) : Cmd In Out NetWord V EthernetHeader := do
  let dstMacAddr ← readMacAddr inputStrm
  let srcMacAddr ← readMacAddr inputStrm
  let hi ← readWord inputStrm
  let lo ← readWord inputStrm
  return { dstMacAddr, srcMacAddr, etherType := hi.data ++ lo.data }

def writeMacAddr (outputStrm : Out) (macAddr : BitVec 48) (last : Bool) :
    Cmd In Out NetWord V Unit := do
  writeWord outputStrm ⟨macAddr.extractLsb 47 40,false,false⟩
  writeWord outputStrm ⟨macAddr.extractLsb 39 32,false,false⟩
  writeWord outputStrm ⟨macAddr.extractLsb 31 24,false,false⟩
  writeWord outputStrm ⟨macAddr.extractLsb 23 16,false,false⟩
  writeWord outputStrm ⟨macAddr.extractLsb 15 8,false,false⟩
  writeWord outputStrm ⟨macAddr.extractLsb 7 0,last,false⟩

def readIpHeader (inputStrm : In) : Cmd In Out NetWord V Ipv4Header := do
  let w0 ← readWord inputStrm
  let w1 ← readWord inputStrm
  let w2 ← readWord inputStrm
  let w3 ← readWord inputStrm
  let w4 ← readWord inputStrm
  let w5 ← readWord inputStrm
  let w6 ← readWord inputStrm
  let w7 ← readWord inputStrm
  let w8 ← readWord inputStrm
  let w9 ← readWord inputStrm
  let w10 ← readWord inputStrm
  let w11 ← readWord inputStrm
  let w12 ← readWord inputStrm
  let w13 ← readWord inputStrm
  let w14 ← readWord inputStrm
  let w15 ← readWord inputStrm
  let w16 ← readWord inputStrm
  let w17 ← readWord inputStrm
  let w18 ← readWord inputStrm
  let w19 ← readWord inputStrm
  return {
    version := w0.data.extractLsb 7 4
    IHL := w0.data.extractLsb 3 0
    DSCP := w1.data.extractLsb 7 2
    ECN := w1.data.extractLsb 1 0
    totalLength := w2.data ++ w3.data
    identification := w4.data ++ w5.data
    flags := w6.data.extractLsb 7 5
    fragOffset := w6.data.extractLsb 4 0 ++ w7.data
    ttl := w8.data
    protocol := w9.data
    headerChecksum := w10.data ++ w11.data
    srcIp := w12.data ++ w13.data ++ w14.data ++ w15.data
    dstIp := w16.data ++ w17.data ++ w18.data ++ w19.data }

/-- A word read and forwarded at once. -/
def passWord (inputStrm : In) (outputStrm : Out) : Cmd In Out NetWord V NetWord := do
  let word ← readWord inputStrm
  writeWord outputStrm word
  return word

def readPassIpv4Header (inputStrm : In) (outputStrm : Out) : Cmd In Out NetWord V Ipv4Header := do
  let w0 ← passWord inputStrm outputStrm
  let w1 ← passWord inputStrm outputStrm
  let w2 ← passWord inputStrm outputStrm
  let w3 ← passWord inputStrm outputStrm
  let w4 ← passWord inputStrm outputStrm
  let w5 ← passWord inputStrm outputStrm
  let w6 ← passWord inputStrm outputStrm
  let w7 ← passWord inputStrm outputStrm
  let w8 ← passWord inputStrm outputStrm
  let w9 ← passWord inputStrm outputStrm
  let w10 ← passWord inputStrm outputStrm
  let w11 ← passWord inputStrm outputStrm
  let w12 ← passWord inputStrm outputStrm
  let w13 ← passWord inputStrm outputStrm
  let w14 ← passWord inputStrm outputStrm
  let w15 ← passWord inputStrm outputStrm
  let w16 ← passWord inputStrm outputStrm
  let w17 ← passWord inputStrm outputStrm
  let w18 ← passWord inputStrm outputStrm
  let w19 ← passWord inputStrm outputStrm
  return {
    version := w0.data.extractLsb 7 4
    IHL := w0.data.extractLsb 3 0
    DSCP := w1.data.extractLsb 7 2
    ECN := w1.data.extractLsb 1 0
    totalLength := w2.data ++ w3.data
    identification := w4.data ++ w5.data
    flags := w6.data.extractLsb 7 5
    fragOffset := w6.data.extractLsb 4 0 ++ w7.data
    ttl := w8.data
    protocol := w9.data
    headerChecksum := w10.data ++ w11.data
    srcIp := w12.data ++ w13.data ++ w14.data ++ w15.data
    dstIp := w16.data ++ w17.data ++ w18.data ++ w19.data }

def writeIpHeader (outputStrm : Out) (ipHeader : Ipv4Header) : Cmd In Out NetWord V Unit := do
  writeWord outputStrm ⟨ipHeader.version ++ ipHeader.IHL,false,false⟩
  writeWord outputStrm ⟨ipHeader.DSCP ++ ipHeader.ECN,false,false⟩
  writeWord outputStrm ⟨ipHeader.totalLength.extractLsb 15 8,false,false⟩
  writeWord outputStrm ⟨ipHeader.totalLength.extractLsb 7 0,false,false⟩
  writeWord outputStrm ⟨ipHeader.identification.extractLsb 15 8,false,false⟩
  writeWord outputStrm ⟨ipHeader.identification.extractLsb 7 0,false,false⟩
  writeWord outputStrm ⟨ipHeader.flags ++ ipHeader.fragOffset.extractLsb 12 8,false,false⟩
  writeWord outputStrm ⟨ipHeader.fragOffset.extractLsb 7 0,false,false⟩
  writeWord outputStrm ⟨ipHeader.ttl,false,false⟩
  writeWord outputStrm ⟨ipHeader.protocol,false,false⟩
  writeWord outputStrm ⟨ipHeader.headerChecksum.extractLsb 15 8,false,false⟩
  writeWord outputStrm ⟨ipHeader.headerChecksum.extractLsb 7 0,false,false⟩
  writeWord outputStrm ⟨ipHeader.srcIp.extractLsb 31 24,false,false⟩
  writeWord outputStrm ⟨ipHeader.srcIp.extractLsb 23 16,false,false⟩
  writeWord outputStrm ⟨ipHeader.srcIp.extractLsb 15 8,false,false⟩
  writeWord outputStrm ⟨ipHeader.srcIp.extractLsb 7 0,false,false⟩
  writeWord outputStrm ⟨ipHeader.dstIp.extractLsb 31 24,false,false⟩
  writeWord outputStrm ⟨ipHeader.dstIp.extractLsb 23 16,false,false⟩
  writeWord outputStrm ⟨ipHeader.dstIp.extractLsb 15 8,false,false⟩
  writeWord outputStrm ⟨ipHeader.dstIp.extractLsb 7 0,false,false⟩

def readUdpHeader (inputStrm : In) : Cmd In Out NetWord V UdpHeader := do
  let w0 ← readWord inputStrm
  let w1 ← readWord inputStrm
  let w2 ← readWord inputStrm
  let w3 ← readWord inputStrm
  let w4 ← readWord inputStrm
  let w5 ← readWord inputStrm
  let w6 ← readWord inputStrm
  let w7 ← readWord inputStrm
  return {
    srcPort := w0.data ++ w1.data
    dstPort := w2.data ++ w3.data
    len := w4.data ++ w5.data
    checksum := w6.data ++ w7.data }

def readPassUdpHeader (inputStrm : In) (outputStrm : Out) : Cmd In Out NetWord V UdpHeader := do
  let w0 ← passWord inputStrm outputStrm
  let w1 ← passWord inputStrm outputStrm
  let w2 ← passWord inputStrm outputStrm
  let w3 ← passWord inputStrm outputStrm
  let w4 ← passWord inputStrm outputStrm
  let w5 ← passWord inputStrm outputStrm
  let w6 ← passWord inputStrm outputStrm
  let w7 ← passWord inputStrm outputStrm
  return {
    srcPort := w0.data ++ w1.data
    dstPort := w2.data ++ w3.data
    len := w4.data ++ w5.data
    checksum := w6.data ++ w7.data }

def writeEthernetHeader (outputStrm : Out) (header : EthernetHeader) :
    Cmd In Out NetWord V Unit := do
  writeMacAddr outputStrm header.dstMacAddr false
  writeMacAddr outputStrm header.srcMacAddr false
  writeWord outputStrm ⟨header.etherType.extractLsb 15 8,false,false⟩
  writeWord outputStrm ⟨header.etherType.extractLsb 7 0,false,false⟩

def writeUdpHeader (outputStrm : Out) (udpHeader : UdpHeader) : Cmd In Out NetWord V Unit := do
  writeWord outputStrm ⟨udpHeader.srcPort.extractLsb 15 8,false,false⟩
  writeWord outputStrm ⟨udpHeader.srcPort.extractLsb 7 0,false,false⟩
  writeWord outputStrm ⟨udpHeader.dstPort.extractLsb 15 8,false,false⟩
  writeWord outputStrm ⟨udpHeader.dstPort.extractLsb 7 0,false,false⟩
  writeWord outputStrm ⟨udpHeader.len.extractLsb 15 8,false,false⟩
  writeWord outputStrm ⟨udpHeader.len.extractLsb 7 0,false,false⟩
  writeWord outputStrm ⟨udpHeader.checksum.extractLsb 15 8,false,false⟩
  writeWord outputStrm ⟨udpHeader.checksum.extractLsb 7 0,false,false⟩

/-! What the readers extract, as functions of the words read. -/

def macOf (ws : List NetWord) : BitVec 48 :=
  octet ws 0 ++ octet ws 1 ++ octet ws 2 ++ octet ws 3 ++ octet ws 4 ++ octet ws 5

def ethernetOf (ws : List NetWord) : EthernetHeader where
  dstMacAddr := macOf ws
  srcMacAddr := macOf (ws.drop 6)
  etherType := octet ws 12 ++ octet ws 13

def ipv4Of (ws : List NetWord) : Ipv4Header where
  version := (octet ws 0).extractLsb 7 4
  IHL := (octet ws 0).extractLsb 3 0
  DSCP := (octet ws 1).extractLsb 7 2
  ECN := (octet ws 1).extractLsb 1 0
  totalLength := octet ws 2 ++ octet ws 3
  identification := octet ws 4 ++ octet ws 5
  flags := (octet ws 6).extractLsb 7 5
  fragOffset := (octet ws 6).extractLsb 4 0 ++ octet ws 7
  ttl := octet ws 8
  protocol := octet ws 9
  headerChecksum := octet ws 10 ++ octet ws 11
  srcIp := octet ws 12 ++ octet ws 13 ++ octet ws 14 ++ octet ws 15
  dstIp := octet ws 16 ++ octet ws 17 ++ octet ws 18 ++ octet ws 19

def udpOf (ws : List NetWord) : UdpHeader where
  srcPort := octet ws 0 ++ octet ws 1
  dstPort := octet ws 2 ++ octet ws 3
  len := octet ws 4 ++ octet ws 5
  checksum := octet ws 6 ++ octet ws 7

/-- The length of the IPv4 header in 32-bit words, options included. -/
def headerWords (f : List NetWord) : ℕ := (ipv4Of (f.drop 14)).IHL.toNat

/-- The UDP payload of a frame, by its IHL and UDP length fields. -/
def udpPayload (f : List NetWord) : List Byte :=
  let ihl := (ipv4Of (f.drop 14)).IHL.toNat
  let len := (udpOf (f.drop (14 + 4*ihl))).len.toNat
  ((f.drop (14 + 4*ihl + 8)).take (len - 8)).map NetWord.data

@[simp] lemma passWord_bind {β : Type} (p : In) (q : Out) (f : NetWord → Cmd In Out NetWord V β) :
    (passWord p q >>= f) = .recv p fun w => .send q w (f w) := rfl

lemma readEthernetHeader_eq (p : In) : (readEthernetHeader p : Cmd In Out NetWord V _) =
    readInto p 14 [] >>= fun ws => .ret (ethernetOf ws) := by
  simp only [readEthernetHeader, readMacAddr, readWord_bind, Cmd.recv_bind, Cmd.pure_def,
    Cmd.ret_bind, readInto_succ_bind, readInto_zero_bind, List.nil_append, List.cons_append]
  rfl

lemma readIpHeader_eq (p : In) : (readIpHeader p : Cmd In Out NetWord V _) =
    readInto p 20 [] >>= fun ws => .ret (ipv4Of ws) := by
  simp only [readIpHeader, readWord_bind, Cmd.pure_def, readInto_succ_bind, readInto_zero_bind,
    List.nil_append, List.cons_append]
  rfl

lemma readUdpHeader_eq (p : In) : (readUdpHeader p : Cmd In Out NetWord V _) =
    readInto p 8 [] >>= fun ws => .ret (udpOf ws) := by
  simp only [readUdpHeader, readWord_bind, Cmd.pure_def, readInto_succ_bind, readInto_zero_bind,
    List.nil_append, List.cons_append]
  rfl

lemma readPassIpv4Header_eq (p : In) (q : Out) : (readPassIpv4Header p q : Cmd In Out NetWord V _) =
    passInto p q 20 [] >>= fun ws => .ret (ipv4Of ws) := by
  simp only [readPassIpv4Header, passWord_bind, Cmd.pure_def, passInto_succ_bind,
    passInto_zero_bind, List.nil_append, List.cons_append]
  rfl

lemma readPassUdpHeader_eq (p : In) (q : Out) : (readPassUdpHeader p q : Cmd In Out NetWord V _) =
    passInto p q 8 [] >>= fun ws => .ret (udpOf ws) := by
  simp only [readPassUdpHeader, passWord_bind, Cmd.pure_def, passInto_succ_bind,
    passInto_zero_bind, List.nil_append, List.cons_append]
  rfl

/-! What the writers emit. -/

/-- The four bytes of a word, the most significant first. -/
def wordBytes (x : BitVec 32) : List Byte :=
  [x.extractLsb 31 24,x.extractLsb 23 16,x.extractLsb 15 8,x.extractLsb 7 0]

lemma wordBytes_append (a b d e : Byte) : wordBytes (a ++ b ++ d ++ e) = [a,b,d,e] := by
  simp only [wordBytes, List.cons.injEq, and_true]
  refine ⟨?_, ?_, ?_, ?_⟩ <;> ext i hi <;> simp <;> grind

def macBytes (m : BitVec 48) : List Byte :=
  [m.extractLsb 47 40,m.extractLsb 39 32,m.extractLsb 31 24,m.extractLsb 23 16,
    m.extractLsb 15 8,m.extractLsb 7 0]

def ethernetBytes (h : EthernetHeader) : List Byte :=
  macBytes h.dstMacAddr ++ macBytes h.srcMacAddr ++
    [h.etherType.extractLsb 15 8,h.etherType.extractLsb 7 0]

def ipv4Bytes (h : Ipv4Header) : List Byte :=
  [h.version ++ h.IHL,h.DSCP ++ h.ECN,h.totalLength.extractLsb 15 8,h.totalLength.extractLsb 7 0,
    h.identification.extractLsb 15 8,h.identification.extractLsb 7 0,
    h.flags ++ h.fragOffset.extractLsb 12 8,h.fragOffset.extractLsb 7 0,h.ttl,h.protocol,
    h.headerChecksum.extractLsb 15 8,h.headerChecksum.extractLsb 7 0,
    h.srcIp.extractLsb 31 24,h.srcIp.extractLsb 23 16,h.srcIp.extractLsb 15 8,
    h.srcIp.extractLsb 7 0,h.dstIp.extractLsb 31 24,h.dstIp.extractLsb 23 16,
    h.dstIp.extractLsb 15 8,h.dstIp.extractLsb 7 0]

def udpBytes (h : UdpHeader) : List Byte :=
  [h.srcPort.extractLsb 15 8,h.srcPort.extractLsb 7 0,h.dstPort.extractLsb 15 8,
    h.dstPort.extractLsb 7 0,h.len.extractLsb 15 8,h.len.extractLsb 7 0,
    h.checksum.extractLsb 15 8,h.checksum.extractLsb 7 0]

lemma writeMacAddr_eq (q : Out) (m : BitVec 48) :
    (writeMacAddr q m false : Cmd In Out NetWord V _) =
      writeAll q ((macBytes m).map byteWord) := rfl

lemma writeEthernetHeader_eq (q : Out) (h : EthernetHeader) :
    (writeEthernetHeader q h : Cmd In Out NetWord V _) =
      writeAll q ((ethernetBytes h).map byteWord) := rfl

lemma writeIpHeader_eq (q : Out) (h : Ipv4Header) :
    (writeIpHeader q h : Cmd In Out NetWord V _) = writeAll q ((ipv4Bytes h).map byteWord) := rfl

lemma writeUdpHeader_eq (q : Out) (h : UdpHeader) :
    (writeUdpHeader q h : Cmd In Out NetWord V _) = writeAll q ((udpBytes h).map byteWord) := rfl

end Codecs

/-! A header is in the first words read. -/

lemma octet_drop (ws : List NetWord) (n i : ℕ) : octet (ws.drop n) i = octet ws (n + i) := by
  simp [octet]

lemma octet_take (ws : List NetWord) {n i : ℕ} (h : i < n) : octet (ws.take n) i = octet ws i := by
  simp [octet, List.getD_eq_getElem?_getD, h]

lemma ethernetOf_take (f : List NetWord) {n : ℕ} (h : 14 ≤ n) :
    ethernetOf (f.take n) = ethernetOf f := by
  simp only [ethernetOf, macOf, List.drop_take]
  repeat rw [octet_take _ (by omega)]

lemma ipv4Of_take (f : List NetWord) {n : ℕ} (h : 20 ≤ n) : ipv4Of (f.take n) = ipv4Of f := by
  simp only [ipv4Of]
  repeat rw [octet_take _ (by omega)]

lemma udpOf_take (f : List NetWord) {n : ℕ} (h : 8 ≤ n) : udpOf (f.take n) = udpOf f := by
  simp only [udpOf]
  repeat rw [octet_take _ (by omega)]

lemma ethernetOf_append (ws rest : List NetWord) (h : 14 ≤ ws.length) :
    ethernetOf (ws ++ rest) = ethernetOf ws := by
  rw [← ethernetOf_take (ws ++ rest) h, List.take_left]

lemma ipv4Of_append (ws rest : List NetWord) (h : 20 ≤ ws.length) :
    ipv4Of (ws ++ rest) = ipv4Of ws := by
  rw [← ipv4Of_take (ws ++ rest) h, List.take_left]

lemma udpOf_append (ws rest : List NetWord) (h : 8 ≤ ws.length) :
    udpOf (ws ++ rest) = udpOf ws := by
  rw [← udpOf_take (ws ++ rest) h, List.take_left]

/-! What is written is read back, whatever follows it. -/

lemma word16_bytes (x : BitVec 16) : (x.extractLsb 15 8 : Byte) ++ (x.extractLsb 7 0 : Byte) = x := by
  ext i hi
  simp
  grind

lemma word32_bytes (x : BitVec 32) : (x.extractLsb 31 24 : Byte) ++ (x.extractLsb 23 16 : Byte) ++
    (x.extractLsb 15 8 : Byte) ++ (x.extractLsb 7 0 : Byte) = x := by
  ext i hi
  simp
  grind

lemma word48_bytes (x : BitVec 48) : (x.extractLsb 47 40 : Byte) ++ (x.extractLsb 39 32 : Byte) ++
    (x.extractLsb 31 24 : Byte) ++ (x.extractLsb 23 16 : Byte) ++ (x.extractLsb 15 8 : Byte) ++
    (x.extractLsb 7 0 : Byte) = x := by
  ext i hi
  simp
  grind

/-- The offset is split five bits and eight, the five after the flags. -/
lemma fragOffset_bytes (f : BitVec 3) (x : BitVec 13) :
    (f ++ x.extractLsb 12 8 : Byte).extractLsb 4 0 ++ (x.extractLsb 7 0 : Byte) = x := by
  have hlo : (f ++ x.extractLsb 12 8 : Byte).extractLsb 4 0 = x.extractLsb 12 8 :=
    BitVec.extractLsb'_append_eq_right
  rw [hlo]
  ext i hi
  simp
  grind

lemma ethernetOf_bytes (h : EthernetHeader) (rest : List NetWord) :
    ethernetOf ((ethernetBytes h).map byteWord ++ rest) = h := by
  obtain ⟨d, s, e⟩ := h
  exact congr (congr (congrArg EthernetHeader.mk (word48_bytes d)) (word48_bytes s))
    (word16_bytes e)

lemma ipv4Of_bytes (h : Ipv4Header) (rest : List NetWord) :
    ipv4Of ((ipv4Bytes h).map byteWord ++ rest) = h := by
  obtain ⟨v, ihl, dscp, ecn, tl, idn, fl, fo, ttl, pr, hc, s, d⟩ := h
  simp only [ipv4Of]
  congr 1
  · exact BitVec.extractLsb'_append_eq_left
  · exact BitVec.extractLsb'_append_eq_right
  · exact BitVec.extractLsb'_append_eq_left
  · exact BitVec.extractLsb'_append_eq_right
  · exact word16_bytes tl
  · exact word16_bytes idn
  · exact BitVec.extractLsb'_append_eq_left
  · exact fragOffset_bytes fl fo
  · exact word16_bytes hc
  · exact word32_bytes s
  · exact word32_bytes d

lemma udpOf_bytes (h : UdpHeader) (rest : List NetWord) :
    udpOf ((udpBytes h).map byteWord ++ rest) = h := by
  obtain ⟨s, d, l, c⟩ := h
  exact congr (congr (congr (congrArg UdpHeader.mk (word16_bytes s)) (word16_bytes d))
    (word16_bytes l)) (word16_bytes c)

end EncryptionAccelerators.Net
