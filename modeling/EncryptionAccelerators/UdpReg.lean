import EncryptionAccelerators.Parser

/-! The core `udp_reg`: it serves the write and read requests on the register space. -/
namespace EncryptionAccelerators.Net
open Dataflow

/-- The read loop at its head. `data_buf` holds `buf_cnt` bytes; the list goes on where the code stores
behind the 1536 bytes of the array. -/
structure ReadRegister where
  ethernetHeader : EthernetHeader
  ipHeader : Ipv4Header
  udpHeader : UdpHeader
  i : BitVec 16
  dataBuf : List Byte
  bufCnt : BitVec 16
  bufCnt_eq : bufCnt = BitVec.ofNat 16 dataBuf.length
  last : Bool

namespace ReadRegister

def entry (ethernetHeader : EthernetHeader) (ipHeader : Ipv4Header) (udpHeader : UdpHeader) :
    ReadRegister where
  ethernetHeader := ethernetHeader
  ipHeader := ipHeader
  udpHeader := udpHeader
  i := 8
  dataBuf := []
  bufCnt := 0
  bufCnt_eq := rfl
  last := false

/-- The bytes of an address and of the data at it go into the buffer. -/
def push (s : ReadRegister) (regAddr regData : BitVec 32) (last : Bool) : ReadRegister where
  ethernetHeader := s.ethernetHeader
  ipHeader := s.ipHeader
  udpHeader := s.udpHeader
  i := s.i + 4
  dataBuf := s.dataBuf ++ (wordBytes regAddr ++ wordBytes regData)
  bufCnt := s.bufCnt + 8
  bufCnt_eq := by
    rw [s.bufCnt_eq, List.length_append, BitVec.ofNat_add]
    rfl
  last := last

end ReadRegister

/-- `udp_reg` at its entry, at the heads of its two loops and in `discard_stream`. -/
inductive UdpRegLabel
  | start
  | writeRegister (len i : BitVec 16) (last : Bool)
  | readRegister (s : ReadRegister)
  | discardStream

/-- The end of the function: the rest of the frame is discarded unless its last word is read. -/
def endOfFrame (last : Bool) : UdpRegLabel := if last then .start else .discardStream

def replyEthernet (header : EthernetHeader) : EthernetHeader :=
  { header with dstMacAddr := header.srcMacAddr, srcMacAddr := header.dstMacAddr }

/-- One end-around carry is added to the 17-bit sum. -/
def replyChecksum (headerChecksum bufCnt : BitVec 16) : BitVec 16 :=
  let checksum := headerChecksum.setWidth 17
  let checksum := checksum + (bufCnt / 2).setWidth 17
  let checksum := checksum + checksum >>> 16
  checksum.setWidth 16

def replyIp (header : Ipv4Header) (bufCnt : BitVec 16) : Ipv4Header :=
  { header with
    dstIp := header.srcIp
    srcIp := header.dstIp
    totalLength := header.totalLength + bufCnt / 2
    headerChecksum := replyChecksum header.headerChecksum bufCnt }

def replyUdp (header : UdpHeader) (bufCnt : BitVec 16) : UdpHeader :=
  { header with checksum := 0, len := 8 + bufCnt }

/-- The words of `data_buf`, the final one with `last`. -/
def replyPayload (dataBuf : List Byte) (bufCnt : BitVec 16) : List NetWord :=
  (List.range bufCnt.toNat).map fun i => ⟨dataBuf.getD i 0,bufCnt.toNat - 1 = i,false⟩

section UdpReg
variable {ι In Out A : Type}

/-- Four words into a 32-bit register; `last` is that of the final word. -/
def readRegWord {V : A → Type} (inputStrm : In) : Cmd In Out NetWord V (BitVec 32 × Bool) := do
  let word3 ← readWord inputStrm
  let word2 ← readWord inputStrm
  let word1 ← readWord inputStrm
  let word0 ← readWord inputStrm
  return (word3.data ++ word2.data ++ word1.data ++ word0.data,word0.last)

def udpReg : UdpRegLabel → Cmd InputStrm OutputStrm NetWord Cell.Val UdpRegLabel
  | .start => do
    let ethernetHeader ← readEthernetHeader .inputStrm
    let ipHeader ← readIpHeader .inputStrm
    let udpHeader ← readUdpHeader .inputStrm
    if udpHeader.dstPort = 50000 then return .writeRegister udpHeader.len 8 false
    else if udpHeader.dstPort = 40000 then
      return .readRegister (.entry ethernetHeader ipHeader udpHeader)
    else return .discardStream
  | .writeRegister len i last => do
    if i < len then
      let (regAddr,_) ← readRegWord .inputStrm
      let (regData,last) ← readRegWord .inputStrm
      storeCell (.bram (regAddr >>> 2)) regData
      return .writeRegister len (i + 8) last
    else return endOfFrame last
  | .readRegister s => do
    if s.i < s.udpHeader.len then
      let (regAddr,last) ← readRegWord .inputStrm
      let regData ← loadCell (.bram (regAddr >>> 2))
      return .readRegister (s.push regAddr regData last)
    else
      writeEthernetHeader .outputStrm (replyEthernet s.ethernetHeader)
      writeIpHeader .outputStrm (replyIp s.ipHeader s.bufCnt)
      writeUdpHeader .outputStrm (replyUdp s.udpHeader s.bufCnt)
      writeAll .outputStrm (replyPayload s.dataBuf s.bufCnt)
      return endOfFrame s.last
  | .discardStream => discardStream .inputStrm .discardStream .start

/-- The register made of the first four words. -/
def regWord (ws : List NetWord) : BitVec 32 :=
  octet ws 0 ++ octet ws 1 ++ octet ws 2 ++ octet ws 3

/-- The `last` of the word before position `n`. -/
def lastBefore (ws : List NetWord) (n : ℕ) : Bool := (ws.getD (n - 1) default).last

lemma readRegWord_eq {V : A → Type} (p : In) : (readRegWord p : Cmd In Out NetWord V _) =
    readInto p 4 [] >>= fun ws => .ret (regWord ws,lastBefore ws 4) := by
  simp only [readRegWord, readWord_bind, Cmd.pure_def, readInto_succ_bind, readInto_zero_bind]
  rfl

def replyHeader (s : ReadRegister) : List Byte :=
  ethernetBytes (replyEthernet s.ethernetHeader) ++ ipv4Bytes (replyIp s.ipHeader s.bufCnt) ++
    udpBytes (replyUdp s.udpHeader s.bufCnt)

/-- The words of the reply to a read request. -/
def replyWords (s : ReadRegister) : List NetWord :=
  (replyHeader s).map byteWord ++ replyPayload s.dataBuf s.bufCnt

variable (mem : Memory ι Cell.Val) (i : ι)

/-- The label reached with the headers of the frame. -/
def requestLabel (f : List NetWord) : UdpRegLabel :=
  if (udpOf (f.drop 34)).dstPort = 50000 then .writeRegister (udpOf (f.drop 34)).len 8 false
  else if (udpOf (f.drop 34)).dstPort = 40000 then
    .readRegister (.entry (ethernetOf f) (ipv4Of (f.drop 14)) (udpOf (f.drop 34)))
  else .discardStream

lemma udpReg_start : udpReg .start = readInto .inputStrm 14 [] >>= fun eth =>
    readInto .inputStrm 20 [] >>= fun ip => readInto .inputStrm 8 [] >>= fun udp =>
      if (udpOf udp).dstPort = 50000 then .ret (.writeRegister (udpOf udp).len 8 false)
      else if (udpOf udp).dstPort = 40000 then
        .ret (.readRegister (.entry (ethernetOf eth) (ipv4Of ip) (udpOf udp)))
      else .ret .discardStream := by
  simp only [udpReg, readEthernetHeader_eq, readIpHeader_eq, readUdpHeader_eq,
    readInto_succ_bind, readInto_zero_bind, Cmd.pure_def, Cmd.recv_bind]
  rfl

lemma exec_udpReg_start (s : Io InputStrm OutputStrm NetWord mem.State) {f : List NetWord}
    (hf : s.inp .inputStrm = f) (hl : 42 ≤ f.length) : exec mem i (udpReg .start) s =
      some (requestLabel f,⟨fun _ => f.drop 42,s.out,s.mem⟩) := by
  have h14 : 14 ≤ (s.inp .inputStrm).length := by rw [hf]; omega
  rw [udpReg_start, exec_readInto_bind mem i _ _ _ _ _ h14,
    exec_readInto_bind _ _ _ _ _ _ _ (by simp [hf]; omega),
    exec_readInto_bind _ _ _ _ _ _ _ (by simp [hf]; omega)]
  rw [inputStrm_update]
  simp only [Function.update_self, hf, List.nil_append, List.drop_drop,
    ethernetOf_take f le_rfl, ipv4Of_take _ (le_refl 20), udpOf_take _ (le_refl 8)]
  unfold requestLabel
  split_ifs <;> rfl

lemma regWord_take (ws : List NetWord) : regWord (ws.take 4) = regWord ws := by
  simp [regWord, octet_take]

lemma lastBefore_take (ws : List NetWord) : lastBefore (ws.take 4) 4 = lastBefore ws 4 := by
  simp [lastBefore]

lemma udpReg_writeRegister (len j : BitVec 16) (last : Bool) (hj : j < len) :
    udpReg (.writeRegister len j last) = readInto .inputStrm 4 [] >>= fun a =>
      readInto .inputStrm 4 [] >>= fun d => .poke (.bram (regWord a >>> 2)) (regWord d)
        (.ret (.writeRegister len (j + 8) (lastBefore d 4))) := by
  simp only [udpReg, hj, if_true, readRegWord_eq, readInto_succ_bind, readInto_zero_bind,
    storeCell_bind, Cmd.pure_def, Cmd.recv_bind, Cmd.ret_bind]

lemma exec_writeRegister (len j : BitVec 16) (last : Bool) (hj : j < len)
    (s : Io InputStrm OutputStrm NetWord mem.State) {f : List NetWord}
    (hf : s.inp .inputStrm = f) (hl : 8 ≤ f.length) :
    exec mem i (udpReg (.writeRegister len j last)) s =
      some (.writeRegister len (j + 8) (lastBefore f 8),⟨fun _ => f.drop 8,s.out,
        mem.store i (.bram (regWord f >>> 2)) (regWord (f.drop 4)) s.mem⟩) := by
  subst hf
  have hlast : lastBefore (((s.inp .inputStrm).drop 4).take 4) 4 =
      lastBefore (s.inp .inputStrm) 8 := by
    rw [lastBefore_take]
    simp [lastBefore]
  rw [udpReg_writeRegister len j last hj, exec_readInto_bind mem i _ _ _ _ _ (by omega),
    exec_readInto_bind _ _ _ _ _ _ _ (by simp; omega)]
  simp only [Function.update_self, List.nil_append, List.drop_drop, exec_poke, exec_ret, hlast,
    Function.update_idem]
  rw [regWord_take, regWord_take, inputStrm_update]

lemma exec_writeRegister_end (len j : BitVec 16) (last : Bool) (hj : ¬ j < len)
    (s : Io InputStrm OutputStrm NetWord mem.State) :
    exec mem i (udpReg (.writeRegister len j last)) s = some (endOfFrame last,s) := by
  simp only [udpReg, hj, if_false, Cmd.pure_def, exec_ret]

lemma udpReg_readRegister (r : ReadRegister) (hj : r.i < r.udpHeader.len) :
    udpReg (.readRegister r) = readInto .inputStrm 4 [] >>= fun a =>
      .peek (.bram (regWord a >>> 2)) fun d =>
        .ret (.readRegister (r.push (regWord a) d (lastBefore a 4))) := by
  simp only [udpReg, hj, if_true, readRegWord_eq, readInto_succ_bind, readInto_zero_bind,
    loadCell_bind, Cmd.pure_def, Cmd.recv_bind, Cmd.ret_bind]

lemma exec_readRegister (r : ReadRegister) (hj : r.i < r.udpHeader.len)
    (s : Io InputStrm OutputStrm NetWord mem.State) {f : List NetWord}
    (hf : s.inp .inputStrm = f) (hl : 4 ≤ f.length) :
    exec mem i (udpReg (.readRegister r)) s = some
      (.readRegister (r.push (regWord f) (mem.load i (.bram (regWord f >>> 2)) s.mem).1
        (lastBefore f 4)),⟨fun _ => f.drop 4,s.out,
        (mem.load i (.bram (regWord f >>> 2)) s.mem).2⟩) := by
  subst hf
  rw [udpReg_readRegister r hj, exec_readInto_bind mem i _ _ _ _ _ hl, List.nil_append, exec_peek,
    exec_ret, regWord_take, lastBefore_take, inputStrm_update]

lemma exec_readRegister_end (r : ReadRegister) (hj : ¬ r.i < r.udpHeader.len)
    (s : Io InputStrm OutputStrm NetWord mem.State) :
    exec mem i (udpReg (.readRegister r)) s = some (endOfFrame r.last,
      ⟨s.inp,fun _ => s.out .outputStrm ++ replyWords r,s.mem⟩) := by
  simp only [udpReg, hj, if_false, writeEthernetHeader_eq, writeIpHeader_eq, writeUdpHeader_eq,
    exec_writeAll_bind, Cmd.pure_def, exec_ret]
  congr 3
  funext q
  cases q
  simp [replyWords, replyHeader]

lemma exec_udpReg_discardStream (s : Io InputStrm OutputStrm NetWord mem.State) {w : NetWord}
    {ws : List NetWord} (hs : s.inp .inputStrm = w::ws) : exec mem i (udpReg .discardStream) s =
      some (if w.last then .start else .discardStream,⟨fun _ => ws,s.out,s.mem⟩) := by
  rw [udpReg, exec_discardStream mem i _ _ _ w ws s hs, inputStrm_update]

end UdpReg

end EncryptionAccelerators.Net
