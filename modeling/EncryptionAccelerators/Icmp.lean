import EncryptionAccelerators.OnesComplement
import EncryptionAccelerators.Parser

/-! The core `icmp`: it answers the echo requests for its own address and discards the rest. -/
namespace EncryptionAccelerators.Net
open Dataflow OnesComplement

/-- The address ports of `icmp`. -/
structure IcmpPorts where
  ipAddr : BitVec 32
  macAddrLo : BitVec 32
  macAddrHi : BitVec 16

inductive IcmpLabel
  | start | passStream | discardStream
  deriving DecidableEq

/-- Eight bits wide, so it wraps where the header has less than five words. -/
def ipOptionsLen (IHL : BitVec 4) : BitVec 8 := IHL.setWidth 8*4 - 20

def echoIp (header : Ipv4Header) (ipAddr : BitVec 32) : Ipv4Header :=
  { header with dstIp := header.srcIp, srcIp := ipAddr }

section Icmp
variable {ι A : Type} {V : A → Type}

/-- The words `icmp` assembles itself carry the `user` of the last word it has read. -/
def icmp (ports : IcmpPorts) : IcmpLabel → Cmd InputStrm OutputStrm NetWord V IcmpLabel
  | .start => do
    let ethernetHeader ← readEthernetHeader .inputStrm
    let ipHeader ← readIpHeader .inputStrm
    let ipOptions ← readInto .inputStrm (ipOptionsLen ipHeader.IHL).toNat []
    let type ← readWord .inputStrm
    let code ← readWord .inputStrm
    let hi ← readWord .inputStrm
    let lo ← readWord .inputStrm
    let checksum := hi.data ++ lo.data
    if type.data = 8 ∧ ipHeader.dstIp = ports.ipAddr then
      writeMacAddr .outputStrm ethernetHeader.srcMacAddr false
      writeMacAddr .outputStrm (ports.macAddrHi ++ ports.macAddrLo) false
      writeWord .outputStrm ⟨0x08,false,lo.user⟩
      writeWord .outputStrm ⟨0x00,false,lo.user⟩
      writeIpHeader .outputStrm (echoIp ipHeader ports.ipAddr)
      writeAll .outputStrm (ipOptions.map fun w => ⟨w.data,false,lo.user⟩)
      writeWord .outputStrm ⟨0,false,lo.user⟩
      writeWord .outputStrm ⟨code.data,false,lo.user⟩
      let checksum : BitVec 16 := checksum - 8
      writeWord .outputStrm ⟨checksum.extractLsb 15 8,false,lo.user⟩
      writeWord .outputStrm ⟨checksum.extractLsb 7 0,false,lo.user⟩
      return .passStream
    else return .discardStream
  | .passStream => passStream .inputStrm .outputStrm .passStream .start
  | .discardStream => discardStream .inputStrm .discardStream .start

/-- The words of a reply up to the checksum. -/
def echoHead (ports : IcmpPorts) (eth ip options msg : List NetWord) : List NetWord :=
  let user := (msg.getD 3 default).user
  (macBytes (ethernetOf eth).srcMacAddr ++ macBytes (ports.macAddrHi ++ ports.macAddrLo)).map
      byteWord ++ [⟨0x08,false,user⟩,⟨0x00,false,user⟩] ++
    (ipv4Bytes (echoIp (ipv4Of ip) ports.ipAddr)).map byteWord ++
    (options.map NetWord.data ++ [0,octet msg 1,
      (octet msg 2 ++ octet msg 3 - 8 : BitVec 16).extractLsb 15 8,
      (octet msg 2 ++ octet msg 3 - 8 : BitVec 16).extractLsb 7 0]).map fun b => ⟨b,false,user⟩

lemma icmp_start (ports : IcmpPorts) :
    (icmp ports .start : Cmd InputStrm OutputStrm NetWord V IcmpLabel) =
      readInto .inputStrm 14 [] >>= fun eth => readInto .inputStrm 20 [] >>= fun ip =>
        readInto .inputStrm (ipOptionsLen (ipv4Of ip).IHL).toNat [] >>= fun options =>
          readInto .inputStrm 4 [] >>= fun msg =>
            if octet msg 0 = 8 ∧ (ipv4Of ip).dstIp = ports.ipAddr then
              writeAll .outputStrm (echoHead ports eth ip options msg) >>= fun _ => .ret .passStream
            else .ret .discardStream := by
  simp only [icmp, readEthernetHeader_eq, readIpHeader_eq, Cmd.bind_bind, Cmd.ret_bind, Cmd.pure_def]
  refine congrArg (readInto InputStrm.inputStrm 14 [] >>= ·) (funext fun eth => ?_)
  refine congrArg (readInto InputStrm.inputStrm 20 [] >>= ·) (funext fun ip => ?_)
  refine congrArg (readInto InputStrm.inputStrm _ [] >>= ·) (funext fun options => ?_)
  simp only [readWord_bind, readInto_succ_bind, readInto_zero_bind]
  refine congrArg (Cmd.recv _) (funext fun type => congrArg (Cmd.recv _) (funext fun code =>
    congrArg (Cmd.recv _) (funext fun hi => congrArg (Cmd.recv _) (funext fun lo => ?_))))
  have hmsg : [] ++ [type] ++ [code] ++ [hi] ++ [lo] = [type,code,hi,lo] := rfl
  have hsum : octet [type,code,hi,lo] 2 ++ octet [type,code,hi,lo] 3 = hi.data ++ lo.data := rfl
  rw [hmsg, echoHead, hsum]
  refine if_congr Iff.rfl ?_ rfl
  simp only [writeMacAddr_eq, writeIpHeader_eq, List.map_append, List.map_map,
    ← writeAll_append_bind]
  rfl

variable (mem : Memory ι V) (i : ι)

/-- The words of the ICMP message, after the IPv4 options. -/
def icmpWords (f : List NetWord) : List NetWord := f.drop (14 + 4*headerWords f)

/-- An echo request for the address of the core. -/
structure EchoRequest (ports : IcmpPorts) (f : List NetWord) : Prop where
  ihl : 5 ≤ headerWords f
  dstIp : (ipv4Of (f.drop 14)).dstIp = ports.ipAddr
  type : octet (icmpWords f) 0 = 8
  words : 8 ≤ (icmpWords f).length

/-- The IPv4 header is there in full, and a word behind the checksum of the message. -/
structure IcmpFrame (f : List NetWord) : Prop where
  ihl : 5 ≤ headerWords f
  words : 4 < (icmpWords f).length

lemma EchoRequest.icmpFrame {ports : IcmpPorts} {f : List NetWord} (h : EchoRequest ports f) :
    IcmpFrame f := ⟨h.ihl, lt_of_lt_of_le (by omega) h.words⟩

/-- What the core looks at to tell an echo request for its address. -/
def EchoFor (ports : IcmpPorts) (f : List NetWord) : Prop :=
  octet (icmpWords f) 0 = 8 ∧ (ipv4Of (f.drop 14)).dstIp = ports.ipAddr

instance (ports : IcmpPorts) (f : List NetWord) : Decidable (EchoFor ports f) :=
  inferInstanceAs (Decidable (_ ∧ _))

lemma ipOptionsLen_toNat (x : BitVec 4) (h : 5 ≤ x.toNat) :
    (ipOptionsLen x).toNat = 4*x.toNat - 20 := by
  have hx := x.isLt
  have h4 : (4 : BitVec 8).toNat = 4 := rfl
  have h20 : (20 : BitVec 8).toNat = 20 := rfl
  rw [ipOptionsLen, BitVec.toNat_sub, BitVec.toNat_mul, BitVec.toNat_setWidth, h4, h20]
  omega

/-- What the reply to the frame `f` starts with. -/
def echoHeadOf (ports : IcmpPorts) (f : List NetWord) : List NetWord :=
  echoHead ports f (f.drop 14) ((f.drop 34).take (4*headerWords f - 20)) ((icmpWords f).take 4)

/-- What is put out for the frame `f`. -/
def echoWords (ports : IcmpPorts) (f : List NetWord) : List NetWord :=
  if EchoFor ports f then echoHeadOf ports f ++ (icmpWords f).drop 4 else []

lemma IcmpFrame.length_lt {f : List NetWord} (h : IcmpFrame f) :
    14 + 4*headerWords f + 4 < f.length := by
  have hwords := h.words
  rw [icmpWords, List.length_drop] at hwords
  omega

lemma IcmpFrame.exec_start (ports : IcmpPorts) {f : List NetWord} (h : IcmpFrame f)
    (s : Io InputStrm OutputStrm NetWord mem.State) (hs : s.inp .inputStrm = f) :
    exec mem i (icmp ports .start) s = some (if EchoFor ports f then
      (.passStream,⟨fun _ => (icmpWords f).drop 4,
        fun _ => s.out .outputStrm ++ echoHeadOf ports f,s.mem⟩)
      else (.discardStream,⟨fun _ => (icmpWords f).drop 4,s.out,s.mem⟩)) := by
  have hihl := h.ihl
  have hlt := h.length_lt
  have hlen : (ipOptionsLen (ipv4Of (f.drop 14)).IHL).toNat = 4*headerWords f - 20 :=
    ipOptionsLen_toNat _ hihl
  have hmsg : (f.drop (14 + 20)).drop (4*headerWords f - 20) = icmpWords f := by
    rw [List.drop_drop, icmpWords]
    congr 1
    omega
  rw [icmp_start, exec_readInto_bind mem i _ _ _ _ _ (by rw [hs]; omega),
    exec_readInto_bind _ _ _ _ _ _ _ (by simp [hs]; omega)]
  simp only [Function.update_self, hs, List.nil_append, List.drop_drop, ipv4Of_take _ (le_refl 20)]
  rw [hlen, exec_readInto_bind _ _ _ _ _ _ _ (by simp; omega),
    exec_readInto_bind _ _ _ _ _ _ _ (by simp; omega)]
  simp only [Function.update_self, Function.update_idem, List.nil_append, hmsg,
    octet_take (icmpWords f) (show 0 < 4 by omega)]
  have hhead : echoHead ports (f.take 14) ((f.drop 14).take 20)
      ((f.drop (14 + 20)).take (4*headerWords f - 20)) ((icmpWords f).take 4) = echoHeadOf ports f := by
    rw [echoHeadOf, echoHead, echoHead, ethernetOf_take f le_rfl, ipv4Of_take _ le_rfl]
  rw [hhead, inputStrm_update]
  by_cases hecho : EchoFor ports f
  · have hcond : octet (icmpWords f) 0 = 8 ∧ (ipv4Of (f.drop 14)).dstIp = ports.ipAddr := hecho
    rw [if_pos hcond, if_pos hecho, exec_writeAll_bind, exec_ret, outputStrm_update]
  · have hcond : ¬ (octet (icmpWords f) 0 = 8 ∧ (ipv4Of (f.drop 14)).dstIp = ports.ipAddr) := hecho
    rw [if_neg hcond, if_neg hecho, exec_ret]

/-- What follows the frame does not matter. -/
lemma IcmpFrame.append (ports : IcmpPorts) {f : List NetWord} (h : IcmpFrame f)
    (rest : List NetWord) : IcmpFrame (f ++ rest) ∧
      icmpWords (f ++ rest) = icmpWords f ++ rest ∧
      (EchoFor ports (f ++ rest) ↔ EchoFor ports f) ∧
      echoHeadOf ports (f ++ rest) = echoHeadOf ports f := by
  have hihl := h.ihl
  have hlt := h.length_lt
  have hwords := h.words
  have heth := ethernetOf_append f rest (by omega)
  have hip : ipv4Of ((f ++ rest).drop 14) = ipv4Of (f.drop 14) := by
    rw [List.drop_append_of_le_length (by omega)]
    exact ipv4Of_append _ rest (by rw [List.length_drop]; omega)
  have hsame : headerWords (f ++ rest) = headerWords f := by rw [headerWords, hip, headerWords]
  have hmsg : icmpWords (f ++ rest) = icmpWords f ++ rest := by
    rw [icmpWords, hsame, List.drop_append_of_le_length (by omega), icmpWords]
  have htype : octet (icmpWords f ++ rest) 0 = octet (icmpWords f) 0 := by
    rw [octet, List.getD_append _ _ _ _ (by omega), octet]
  refine ⟨⟨?_, ?_⟩, hmsg, ?_, ?_⟩
  · rw [hsame]
    exact hihl
  · rw [hmsg, List.length_append]
    omega
  · rw [EchoFor, hmsg, htype, hip, EchoFor]
  · rw [echoHeadOf, echoHead, heth, hip, hsame, hmsg, List.take_append_of_le_length (by omega),
      List.drop_append_of_le_length (by omega),
      List.take_append_of_le_length (by rw [List.length_drop]; omega), echoHeadOf, echoHead]

/-- One frame is read; an echo request is answered, its words behind the checksum passed on. -/
lemma IcmpFrame.invokes (ports : IcmpPorts) {f : Frame} (h : IcmpFrame f.words)
    (rest : List NetWord) (s : Io InputStrm OutputStrm NetWord mem.State)
    (hs : s.inp .inputStrm = f.words ++ rest) : Invokes mem i (icmp ports) .start s
      ⟨fun _ => rest,fun _ => s.out .outputStrm ++ echoWords ports f.words,s.mem⟩ := by
  have hlt := h.length_lt
  obtain ⟨hframe, hmsg, hecho, hhead⟩ := h.append ports rest
  have hstart := hframe.exec_start mem i ports s hs
  have htail : (icmpWords f.words).drop 4 =
      f.init.drop (14 + 4*headerWords f.words + 4) ++ [f.final] := by
    rw [icmpWords, List.drop_drop]
    exact f.drop_words hlt
  have hrest : (icmpWords f.words ++ rest).drop 4 =
      f.init.drop (14 + 4*headerWords f.words + 4) ++ f.final::rest := by
    rw [List.drop_append_of_le_length h.words.le, htail]
    simp
  rw [hmsg, hhead, if_congr hecho rfl rfl, hrest] at hstart
  have hinit : ∀ x ∈ f.init.drop (14 + 4*headerWords f.words + 4), x.last = false :=
    fun x hx => f.init_last x (List.mem_of_mem_drop hx)
  refine ⟨_, hstart, ?_⟩
  by_cases he : EchoFor ports f.words
  · rw [if_pos he, echoWords, if_pos he, htail]
    refine (passStream_until mem i (icmp ports) .inputStrm .outputStrm .passStream .start (by simp)
      rfl _ rest f.final hinit f.final_last _ rfl).to ?_
    rw [inputStrm_update, outputStrm_update, List.append_assoc]
  · rw [if_neg he, echoWords, if_neg he, List.append_nil]
    refine (discardStream_until mem i (icmp ports) .inputStrm .start .discardStream .start (by simp)
      rfl _ rest f.final hinit f.final_last _ rfl).to ?_
    rw [inputStrm_update]

/-- An echo request is answered. -/
lemma EchoRequest.invokes {ports : IcmpPorts} {f : Frame} (h : EchoRequest ports f.words)
    (rest : List NetWord) (s : Io InputStrm OutputStrm NetWord mem.State)
    (hs : s.inp .inputStrm = f.words ++ rest) : Invokes mem i (icmp ports) .start s ⟨fun _ => rest,
      fun _ => s.out .outputStrm ++ (echoHeadOf ports f.words ++ (icmpWords f.words).drop 4),
      s.mem⟩ := by
  have hecho : EchoFor ports f.words := ⟨h.type, h.dstIp⟩
  have hinv := h.icmpFrame.invokes mem i ports rest s hs
  rw [echoWords, if_pos hecho] at hinv
  exact hinv

/-- The bytes of the ICMP message of a frame without padding. -/
def icmpMessage (f : List NetWord) : List Byte := (icmpWords f).map NetWord.data

/-- The first four bytes of the answer to the message `msg`. -/
def echoBytes (msg : List NetWord) : List Byte :=
  [0,octet msg 1,(octet msg 2 ++ octet msg 3 - 8 : BitVec 16).extractLsb 15 8,
    (octet msg 2 ++ octet msg 3 - 8 : BitVec 16).extractLsb 7 0]

/-- The bytes of the IPv4 options. -/
def optionBytes (f : List NetWord) : List Byte :=
  ((f.drop 34).take (4*headerWords f - 20)).map NetWord.data

def echoEthernet (ports : IcmpPorts) (header : EthernetHeader) : EthernetHeader where
  dstMacAddr := header.srcMacAddr
  srcMacAddr := ports.macAddrHi ++ ports.macAddrLo
  etherType := ETHER_TYPE_IPv4

/-- The words of an answer, part by part. -/
lemma echoHead_parts (ports : IcmpPorts) (eth ip options msg : List NetWord) :
    ∃ macs tail : List NetWord, macs.length = 14 ∧
      (∀ rest, ethernetOf (macs ++ rest) = echoEthernet ports (ethernetOf eth)) ∧
      tail.map NetWord.data = options.map NetWord.data ++ echoBytes msg ∧
      echoHead ports eth ip options msg =
        macs ++ ((ipv4Bytes (echoIp (ipv4Of ip) ports.ipAddr)).map byteWord ++ tail) := by
  set user := (msg.getD 3 default).user with huser
  set src := (ethernetOf eth).srcMacAddr with hsrc
  refine ⟨(macBytes src ++ macBytes (ports.macAddrHi ++ ports.macAddrLo)).map byteWord ++
      [⟨0x08,false,user⟩,⟨0x00,false,user⟩],
    (options.map NetWord.data ++ echoBytes msg).map fun b => ⟨b,false,user⟩, rfl, ?_, ?_, ?_⟩
  · intro rest
    have htype : (0x08 : Byte) ++ (0x00 : Byte) = ETHER_TYPE_IPv4 := by decide
    exact congr (congr (congrArg EthernetHeader.mk (word48_bytes src)) (word48_bytes _)) htype
  · rw [List.map_map]
    exact List.map_id _
  · rw [echoHead, List.append_assoc, List.append_assoc]
    rfl

lemma echoHead_last (ports : IcmpPorts) (eth ip options msg : List NetWord) (w : NetWord)
    (hw : w ∈ echoHead ports eth ip options msg) : w.last = false := by
  simp only [echoHead, List.mem_append, List.mem_map, List.mem_cons, List.not_mem_nil,
    or_false] at hw
  rcases hw with ((⟨b, -, rfl⟩ | rfl | rfl) | ⟨b, -, rfl⟩) | ⟨b, -, rfl⟩ <;> rfl

lemma length_optionBytes {f : List NetWord} (h : IcmpFrame f) :
    (optionBytes f).length = 4*headerWords f - 20 := by
  have hlt := h.length_lt
  have hihl := h.ihl
  rw [optionBytes, List.length_map, List.length_take, List.length_drop]
  omega

/-- The headers of an answer, and the bytes behind them. -/
lemma IcmpFrame.reply_parts (ports : IcmpPorts) {f : List NetWord} (h : IcmpFrame f)
    (rest : List NetWord) :
    ethernetOf (echoHeadOf ports f ++ rest) = echoEthernet ports (ethernetOf f) ∧
      ipv4Of ((echoHeadOf ports f ++ rest).drop 14) =
        echoIp (ipv4Of (f.drop 14)) ports.ipAddr ∧
      ((echoHeadOf ports f ++ rest).drop 34).map NetWord.data =
        optionBytes f ++ (echoBytes ((icmpWords f).take 4) ++ rest.map NetWord.data) ∧
      (echoHeadOf ports f ++ rest).length = 14 + 4*headerWords f + 4 + rest.length := by
  have hihl := h.ihl
  have hcount := length_optionBytes h
  obtain ⟨macs, tail, hmacs, heth, hdata, hhead⟩ := echoHead_parts ports f (f.drop 14)
    ((f.drop 34).take (4*headerWords f - 20)) ((icmpWords f).take 4)
  rw [← optionBytes] at hdata
  set ip := (ipv4Bytes (echoIp (ipv4Of (f.drop 14)) ports.ipAddr)).map byteWord with hip
  have hwords : echoHeadOf ports f ++ rest = macs ++ (ip ++ (tail ++ rest)) := by
    rw [echoHeadOf, hhead, List.append_assoc, List.append_assoc]
  have h14 : (macs ++ (ip ++ (tail ++ rest))).drop 14 = ip ++ (tail ++ rest) :=
    List.drop_left' hmacs
  have h34 : (macs ++ (ip ++ (tail ++ rest))).drop 34 = tail ++ rest := by
    have h20 : (ip ++ (tail ++ rest)).drop 20 = tail ++ rest := List.drop_left' rfl
    have hsplit : 34 = 14 + 20 := rfl
    rw [hsplit, ← List.drop_drop, h14, h20]
  have htail : tail.length = 4*headerWords f - 20 + 4 := by
    have hlen := congrArg List.length hdata
    rw [List.length_map, List.length_append] at hlen
    rw [hlen, hcount]
    rfl
  rw [hwords]
  refine ⟨heth _, ?_, ?_, ?_⟩
  · rw [h14, hip, ipv4Of_bytes]
  · rw [h34, List.map_append, hdata, List.append_assoc]
  · have hlip : ip.length = 20 := rfl
    rw [List.length_append, List.length_append, List.length_append, hmacs, hlip, htail]
    omega

/-- The message of an answer is the one received with type, code and checksum new. -/
lemma IcmpFrame.icmpMessage_reply (ports : IcmpPorts) {f : List NetWord} (h : IcmpFrame f)
    (rest : List NetWord) : icmpMessage (echoHeadOf ports f ++ rest) =
      echoBytes ((icmpWords f).take 4) ++ rest.map NetWord.data := by
  have hihl := h.ihl
  obtain ⟨-, hip, hdata, -⟩ := h.reply_parts ports rest
  have hsame : headerWords (echoHeadOf ports f ++ rest) = headerWords f := by
    rw [headerWords, hip]
    rfl
  have hsplit : 14 + 4*headerWords f = 34 + (4*headerWords f - 20) := by omega
  rw [icmpMessage, icmpWords, hsame, hsplit, ← List.drop_drop, List.map_drop, hdata,
    List.drop_left' (length_optionBytes h)]

/-- The answer is a frame. -/
lemma IcmpFrame.reply (ports : IcmpPorts) {f : Frame} (h : IcmpFrame f.words) :
    ∃ reply : Frame, reply.words = echoHeadOf ports f.words ++ (icmpWords f.words).drop 4 := by
  have hdrop : (icmpWords f.words).drop 4 =
      f.init.drop (14 + 4*headerWords f.words + 4) ++ [f.final] := by
    rw [icmpWords, List.drop_drop]
    exact f.drop_words h.length_lt
  refine ⟨⟨echoHeadOf ports f.words ++ f.init.drop (14 + 4*headerWords f.words + 4),f.final,?_,
    f.final_last⟩, ?_⟩
  · intro w hw
    rcases List.mem_append.mp hw with hw | hw
    · exact echoHead_last _ _ _ _ _ w hw
    · exact f.init_last w (List.mem_of_mem_drop hw)
  · rw [hdrop, Frame.words, List.append_assoc]

lemma append_toNat (a b : Byte) : (a ++ b).toNat = 256*a.toNat + b.toNat := by
  rw [BitVec.toNat_append, ← Nat.shiftLeft_add_eq_or_of_lt b.isLt, Nat.shiftLeft_eq]
  omega

lemma total_icmpWords (ws : List NetWord) (h : 4 ≤ ws.length) :
    total (words16 (ws.map NetWord.data)) = 256*(octet ws 0).toNat + (octet ws 1).toNat +
      (octet ws 2 ++ octet ws 3).toNat + total (words16 ((ws.drop 4).map NetWord.data)) := by
  match ws, h with
  | a::b::c::d::ws, _ =>
    have hwords : words16 ((a::b::c::d::ws).map NetWord.data) =
        (a.data ++ b.data)::(c.data ++ d.data)::words16 (ws.map NetWord.data) := rfl
    rw [hwords, total_cons, total_cons, append_toNat a.data]
    exact (Nat.add_assoc _ _ _).symm

/-- The checksum of the answer is 8 less, modulo `2^16`. -/
lemma total_echoBytes (msg : List NetWord) (l : List Byte) :
    total (words16 (echoBytes msg ++ l)) = (octet msg 1).toNat +
      (octet msg 2 ++ octet msg 3 - 8 : BitVec 16).toNat + total (words16 l) := by
  set checksum : BitVec 16 := octet msg 2 ++ octet msg 3 - 8 with hc
  have hwords : words16 (echoBytes msg ++ l) = ((0 : Byte) ++ octet msg 1)::
      ((checksum.extractLsb 15 8 : Byte) ++ (checksum.extractLsb 7 0 : Byte))::words16 l := rfl
  rw [hwords, total_cons, total_cons, word16_bytes, append_toNat]
  have h0 : (0 : Byte).toNat = 0 := rfl
  omega

/-- Every answer to the frame carries an ICMP message with a valid checksum. -/
def EchoValid (ports : IcmpPorts) (f : Frame) (rest out : List NetWord) (m : mem.State) : Prop :=
  ∀ (t : Io InputStrm OutputStrm NetWord mem.State) (reply : Frame),
    Invokes mem i (icmp ports) .start ⟨fun _ => f.words ++ rest,fun _ => out,m⟩ t →
    t.out .outputStrm = out ++ reply.words → Valid (icmpMessage reply.words)

lemma EchoRequest.not_echoValid {ports : IcmpPorts} {f : Frame} (h : EchoRequest ports f.words)
    (hv : Valid (icmpMessage f.words)) (rest out : List NetWord) (m : mem.State) :
    ¬ EchoValid mem i ports f rest out m := by
  intro he
  obtain ⟨reply, hreply⟩ := h.icmpFrame.reply ports
  have hvalid := he _ reply (h.invokes mem i rest ⟨fun _ => f.words ++ rest,fun _ => out,m⟩ rfl)
    (by rw [hreply])
  obtain ⟨hdvd, -⟩ := (valid_iff _).mp hv
  obtain ⟨hdvd', -⟩ := (valid_iff _).mp hvalid
  have hwords := h.words
  rw [icmpMessage, total_icmpWords _ (by omega), h.type] at hdvd
  rw [hreply, h.icmpFrame.icmpMessage_reply, total_echoBytes, octet_take _ (by omega),
    octet_take _ (by omega), octet_take _ (by omega), BitVec.toNat_sub] at hdvd'
  -- type 8 counts 2048 in the sum, so the sum is short by 2056 or, with a borrow, by 2055
  have hlt := (octet (icmpWords f.words) 2 ++ octet (icmpWords f.words) 3).isLt
  have h8 : (8 : BitVec 16).toNat = 8 := rfl
  have h8' : (8 : Byte).toNat = 8 := rfl
  rw [h8] at hdvd'
  rw [h8'] at hdvd
  omega

/-- No answer to an echo request with a valid checksum has one. -/
theorem echo_checksum (ports : IcmpPorts) (f : Frame) (h : EchoRequest ports f.words)
    (hv : Valid (icmpMessage f.words)) (rest out : List NetWord) (m : mem.State) :
    ¬ EchoValid mem i ports f rest out m :=
  h.not_echoValid mem i hv rest out m

end Icmp

/-- An echo request for 192.168.1.10 in a frame of 60 words; its checksum is `0xF7FF`. -/
def echoFrame : Frame where
  init := (List.replicate 12 (0xff : Byte) ++ [0x08,0x00] ++
    [0x45,0,0,46,0,0,0,0,0x40,0x01,0,0,192,168,1,20,192,168,1,10] ++
    [0x08,0,0xf7,0xff] ++ List.replicate 21 0).map byteWord
  final := ⟨0,true,false⟩
  init_last := fun _ => byteWord_last
  final_last := Eq.refl true

lemma echoFrame_request : EchoRequest ⟨0xc0a8010a,0,0⟩ echoFrame.words :=
  ⟨by decide, by decide, by decide, by decide⟩

lemma echoFrame_valid : Valid (icmpMessage echoFrame.words) := by decide

theorem echo_checksum_fails : ¬ ∀ ports f, EchoRequest ports (Frame.words f) →
    Valid (icmpMessage f.words) → ∀ rest out, EchoValid Memory.none () ports f rest out nofun := by
  intro h
  exact echoFrame_request.not_echoValid Memory.none () echoFrame_valid [] [] nofun
    (h _ _ echoFrame_request echoFrame_valid [] [])

/-- `echo_checksum` on the request for 192.168.1.10. -/
theorem echo_checksum_echoFrame : Valid (icmpMessage echoFrame.words) ∧
    ¬ EchoValid Memory.none () ⟨0xc0a8010a,0,0⟩ echoFrame [] [] nofun :=
  ⟨echoFrame_valid, echo_checksum Memory.none () _ _ echoFrame_request echoFrame_valid _ _ _⟩

end EncryptionAccelerators.Net
