import EncryptionAccelerators.Icmp

/-! `icmp` with its array `ip_options` as memory: each turn of its two loops over the array is a
block of its own. -/
namespace EncryptionAccelerators.Net
open Dataflow

/-- The array `ip_options` and the indices stored to so far. The index has eight bits, so there is
a cell for each value it takes, also for those from 40 on, which are not in the array. -/
structure OptionBuffer where
  ipOptions : BitVec 8 → Byte
  stores : List (BitVec 8)

def optionMemory : Memory Unit fun _ : BitVec 8 => Byte where
  State := OptionBuffer
  load _ i b := (b.ipOptions i,b)
  store _ i v b := ⟨Function.update b.ipOptions i v,b.stores ++ [i]⟩

/-- The entry of `icmp` and its loops, with the variables that live across a turn. -/
inductive BufferedLabel
  | start
  | readOptions (ethernetHeader : EthernetHeader) (ipHeader : Ipv4Header) (ipOptionsLen i : BitVec 8)
  | writeOptions (ipOptionsLen i : BitVec 8) (code : Byte) (checksum : BitVec 16) (user : Bool)
  | passStream | discardStream

def icmpBuffered (ports : IcmpPorts) :
    BufferedLabel → Cmd InputStrm OutputStrm NetWord (fun _ : BitVec 8 => Byte) BufferedLabel
  | .start => do
    let ethernetHeader ← readEthernetHeader .inputStrm
    let ipHeader ← readIpHeader .inputStrm
    return .readOptions ethernetHeader ipHeader (ipOptionsLen ipHeader.IHL) 0
  | .readOptions ethernetHeader ipHeader ipOptionsLen i =>
    if i < ipOptionsLen then do
      let word ← readWord .inputStrm
      storeCell i word.data
      return .readOptions ethernetHeader ipHeader ipOptionsLen (i + 1)
    else do
      let type ← readWord .inputStrm
      let code ← readWord .inputStrm
      let hi ← readWord .inputStrm
      let lo ← readWord .inputStrm
      if type.data = 8 ∧ ipHeader.dstIp = ports.ipAddr then
        writeMacAddr .outputStrm ethernetHeader.srcMacAddr false
        writeMacAddr .outputStrm (ports.macAddrHi ++ ports.macAddrLo) false
        writeWord .outputStrm ⟨0x08,false,lo.user⟩
        writeWord .outputStrm ⟨0x00,false,lo.user⟩
        writeIpHeader .outputStrm (echoIp ipHeader ports.ipAddr)
        return .writeOptions ipOptionsLen 0 code.data (hi.data ++ lo.data) lo.user
      else return .discardStream
  | .writeOptions ipOptionsLen i code checksum user =>
    if i < ipOptionsLen then do
      let b ← loadCell i
      writeWord .outputStrm ⟨b,false,user⟩
      return .writeOptions ipOptionsLen (i + 1) code checksum user
    else do
      writeWord .outputStrm ⟨0,false,user⟩
      writeWord .outputStrm ⟨code,false,user⟩
      let checksum : BitVec 16 := checksum - 8
      writeWord .outputStrm ⟨checksum.extractLsb 15 8,false,user⟩
      writeWord .outputStrm ⟨checksum.extractLsb 7 0,false,user⟩
      return .passStream
  | .passStream => passStream .inputStrm .outputStrm .passStream .start
  | .discardStream => discardStream .inputStrm .discardStream .start

/-- The same place in the code. -/
def IcmpLabel.buffered : IcmpLabel → BufferedLabel
  | .start => .start
  | .passStream => .passStream
  | .discardStream => .discardStream

/-- The first cells of the buffer hold the bytes of the words `us`. -/
def OptionBuffer.Holds (b : OptionBuffer) (us : List NetWord) : Prop :=
  ∀ k < us.length, b.ipOptions (BitVec.ofNat 8 k) = octet us k

lemma OptionBuffer.holds_nil (b : OptionBuffer) : b.Holds [] := by
  intro k hk
  exact absurd hk (Nat.not_lt_zero k)

lemma OptionBuffer.Holds.store {b : OptionBuffer} {us : List NetWord} (h : b.Holds us) (w : NetWord)
    (hlt : us.length < 256) : OptionBuffer.Holds
      ⟨Function.update b.ipOptions (BitVec.ofNat 8 us.length) w.data,
        b.stores ++ [BitVec.ofNat 8 us.length]⟩ (us ++ [w]) := by
  intro k hk
  rw [List.length_append, List.length_singleton] at hk
  by_cases he : k = us.length
  · subst he
    simp [octet]
  · have hne : BitVec.ofNat 8 k ≠ BitVec.ofNat 8 us.length := by
      intro hb
      have hn := congrArg BitVec.toNat hb
      rw [BitVec.toNat_ofNat, BitVec.toNat_ofNat, Nat.mod_eq_of_lt (by omega),
        Nat.mod_eq_of_lt (by omega)] at hn
      exact he hn
    refine (Function.update_of_ne hne _ _).trans ((h k (by omega)).trans ?_)
    rw [octet, octet, List.getD_append _ _ _ _ (by omega)]

/-! The loop index while it counts up to the length. -/

lemma index_lt {len : BitVec 8} {n : ℕ} (h : n < len.toNat) : BitVec.ofNat 8 n < len := by
  have hlt := len.isLt
  rw [BitVec.lt_def, BitVec.toNat_ofNat, Nat.mod_eq_of_lt (by omega)]
  exact h

lemma index_end {len : BitVec 8} {n : ℕ} (h : n = len.toNat) : BitVec.ofNat 8 n = len := by
  rw [h, BitVec.ofNat_toNat, BitVec.setWidth_eq]

lemma index_next (us : List NetWord) (w : NetWord) :
    BitVec.ofNat 8 us.length + 1 = BitVec.ofNat 8 (us ++ [w]).length := by
  rw [List.length_append, List.length_singleton, BitVec.ofNat_add]
  rfl

section Loops
variable (ports : IcmpPorts)

/-- The first loop, from its turn `us.length` on. -/
lemma readOptions_until (eth : EthernetHeader) (ip : Ipv4Header) (len : BitVec 8)
    (us ws rest : List NetWord) (hlen : us.length + ws.length = len.toNat)
    (out : OutputStrm → List NetWord) (b : OptionBuffer) (hb : b.Holds us) :
    ∃ b' : OptionBuffer, b'.Holds (us ++ ws) ∧ Until optionMemory () (icmpBuffered ports) .start
      (.readOptions eth ip len (BitVec.ofNat 8 us.length),⟨fun _ => ws ++ rest,out,b⟩)
      (.readOptions eth ip len len,⟨fun _ => rest,out,b'⟩) := by
  induction ws generalizing us b with
  | nil =>
    rw [index_end (by simpa using hlen), List.append_nil]
    exact ⟨b, hb, .refl⟩
  | cons w ws ih =>
    have hlt := len.isLt
    rw [List.length_cons] at hlen
    have hi : BitVec.ofNat 8 us.length < len := index_lt (by omega)
    have hturn : Block optionMemory () (icmpBuffered ports)
        (.readOptions eth ip len (BitVec.ofNat 8 us.length),⟨fun _ => w::ws ++ rest,out,b⟩)
        (.readOptions eth ip len (BitVec.ofNat 8 us.length + 1),⟨fun _ => ws ++ rest,out,
          ⟨Function.update b.ipOptions (BitVec.ofNat 8 us.length) w.data,
            b.stores ++ [BitVec.ofNat 8 us.length]⟩⟩) := by
      rw [Block, icmpBuffered, if_pos hi, readWord_bind, exec_recv _ _ _ _ _ rfl, inputStrm_update]
      rfl
    obtain ⟨b', hb', hrest⟩ := ih (us ++ [w]) (by simp; omega) _ (hb.store w (by omega))
    rw [List.append_assoc] at hb'
    rw [← index_next] at hrest
    exact ⟨b', hb', .head (by simp) hturn hrest⟩

/-- The second loop puts the bytes out again. -/
lemma writeOptions_until (len : BitVec 8) (code : Byte) (checksum : BitVec 16) (user : Bool)
    (us ws : List NetWord) (hlen : us.length + ws.length = len.toNat)
    (inp : InputStrm → List NetWord) (out : List NetWord) (b : OptionBuffer)
    (hb : b.Holds (us ++ ws)) : Until optionMemory () (icmpBuffered ports) .start
      (.writeOptions len (BitVec.ofNat 8 us.length) code checksum user,⟨inp,fun _ => out,b⟩)
      (.writeOptions len len code checksum user,
        ⟨inp,fun _ => out ++ ws.map fun w => ⟨w.data,false,user⟩,b⟩) := by
  induction ws generalizing us out with
  | nil =>
    rw [index_end (by simpa using hlen), List.map_nil, List.append_nil]
    exact .refl
  | cons w ws ih =>
    have hlt := len.isLt
    rw [List.length_cons] at hlen
    have hi : BitVec.ofNat 8 us.length < len := index_lt (by omega)
    have hcell : b.ipOptions (BitVec.ofNat 8 us.length) = w.data := by
      rw [hb us.length (by simp)]
      simp [octet]
    have hturn : Block optionMemory () (icmpBuffered ports)
        (.writeOptions len (BitVec.ofNat 8 us.length) code checksum user,⟨inp,fun _ => out,b⟩)
        (.writeOptions len (BitVec.ofNat 8 us.length + 1) code checksum user,
          ⟨inp,fun _ => out ++ [⟨w.data,false,user⟩],b⟩) := by
      rw [Block, icmpBuffered, if_pos hi, loadCell_bind, exec_peek]
      simp only [writeWord_bind, exec_send, Cmd.pure_def, exec_ret, outputStrm_update]
      rw [← hcell]
      rfl
    have hrest := ih (us ++ [w]) (by simp; omega) (out ++ [⟨w.data,false,user⟩]) (by simpa using hb)
    rw [← index_next, List.append_assoc] at hrest
    exact .head (by simp) hturn hrest

lemma icmpBuffered_start : icmpBuffered ports .start =
    readInto .inputStrm 14 [] >>= fun eth => readInto .inputStrm 20 [] >>= fun ip =>
      .ret (.readOptions (ethernetOf eth) (ipv4Of ip) (ipOptionsLen (ipv4Of ip).IHL) 0) := by
  simp only [icmpBuffered, readEthernetHeader_eq, readIpHeader_eq, Cmd.bind_bind, Cmd.ret_bind,
    Cmd.pure_def]

/-- The headers are read. -/
lemma start_block (eth ip rest : List NetWord) (heth : eth.length = 14) (hip : ip.length = 20)
    (out : OutputStrm → List NetWord) (b : OptionBuffer) :
    Block optionMemory () (icmpBuffered ports) (.start,⟨fun _ => eth ++ (ip ++ rest),out,b⟩)
      (.readOptions (ethernetOf eth) (ipv4Of ip) (ipOptionsLen (ipv4Of ip).IHL) 0,
        ⟨fun _ => rest,out,b⟩) := by
  have h14 : (eth ++ (ip ++ rest)).take 14 = eth := List.take_left' heth
  have h14' : (eth ++ (ip ++ rest)).drop 14 = ip ++ rest := List.drop_left' heth
  have h20 : (ip ++ rest).take 20 = ip := List.take_left' hip
  have h20' : (ip ++ rest).drop 20 = rest := List.drop_left' hip
  rw [Block, icmpBuffered_start, exec_readInto_bind _ _ _ _ _ _ _ (by simp [heth]),
    exec_readInto_bind _ _ _ _ _ _ _ (by simp [h14', hip])]
  simp only [Function.update_self, List.nil_append, h14, h14', h20, h20',
    exec_ret, inputStrm_update]

/-- The words of a reply up to the IPv4 header. -/
def echoHeaders (eth : EthernetHeader) (ip : Ipv4Header) (user : Bool) : List NetWord :=
  (macBytes eth.srcMacAddr ++ macBytes (ports.macAddrHi ++ ports.macAddrLo)).map byteWord ++
    [⟨0x08,false,user⟩,⟨0x00,false,user⟩] ++ (ipv4Bytes (echoIp ip ports.ipAddr)).map byteWord

/-- The message behind the options is read and judged. -/
lemma message_block (eth : EthernetHeader) (ip : Ipv4Header) {len i : BitVec 8} (hend : ¬ i < len)
    (type code hi lo : NetWord) (rest out : List NetWord) (b : OptionBuffer) :
    Block optionMemory () (icmpBuffered ports)
      (.readOptions eth ip len i,⟨fun _ => type::code::hi::lo::rest,fun _ => out,b⟩)
      (if type.data = 8 ∧ ip.dstIp = ports.ipAddr then
        (.writeOptions len 0 code.data (hi.data ++ lo.data) lo.user,
          ⟨fun _ => rest,fun _ => out ++ echoHeaders ports eth ip lo.user,b⟩)
      else (.discardStream,⟨fun _ => rest,fun _ => out,b⟩)) := by
  rw [Block, icmpBuffered, if_neg hend]
  simp only [readWord_bind]
  rw [exec_recv _ _ _ _ _ rfl, inputStrm_update, exec_recv _ _ _ _ _ rfl, inputStrm_update,
    exec_recv _ _ _ _ _ rfl, inputStrm_update, exec_recv _ _ _ _ _ rfl, inputStrm_update]
  split_ifs with hecho
  · have hheaders : writeMacAddr .outputStrm eth.srcMacAddr false >>= (fun _ =>
        writeMacAddr .outputStrm (ports.macAddrHi ++ ports.macAddrLo) false >>= fun _ =>
        writeWord .outputStrm ⟨0x08,false,lo.user⟩ >>= fun _ =>
        writeWord .outputStrm ⟨0x00,false,lo.user⟩ >>= fun _ =>
        writeIpHeader .outputStrm (echoIp ip ports.ipAddr) >>= fun _ =>
        .ret (.writeOptions len 0 code.data (hi.data ++ lo.data) lo.user)) =
      (writeAll .outputStrm (echoHeaders ports eth ip lo.user) >>= fun _ => .ret
        (.writeOptions len 0 code.data (hi.data ++ lo.data) lo.user) :
          Cmd InputStrm OutputStrm NetWord (fun _ : BitVec 8 => Byte) BufferedLabel) := by
      simp only [writeMacAddr_eq, writeIpHeader_eq, echoHeaders, List.map_append,
        ← writeAll_append_bind]
      rfl
    rw [Cmd.pure_def, hheaders, exec_writeAll_bind, exec_ret, outputStrm_update]
  · rfl

/-- The end of the second loop. -/
lemma written_block {len i : BitVec 8} (hi : ¬ i < len) (code : Byte) (checksum : BitVec 16)
    (user : Bool) (inp : InputStrm → List NetWord) (out : List NetWord) (b : OptionBuffer) :
    Block optionMemory () (icmpBuffered ports)
      (.writeOptions len i code checksum user,⟨inp,fun _ => out,b⟩)
      (.passStream,⟨inp,fun _ => out ++ ([0,code,(checksum - 8).extractLsb 15 8,
        (checksum - 8).extractLsb 7 0] : List Byte).map fun b => ⟨b,false,user⟩,b⟩) := by
  rw [Block, icmpBuffered, if_neg hi]
  simp only [writeWord_bind, Cmd.pure_def, exec_send, exec_ret, outputStrm_update, List.append_assoc]
  rfl

/-- What a run of the first block of `icmp` has read and written. -/
lemma icmp_start_cases {ι A : Type} {V : A → Type} (mem : Memory ι V) (i : ι)
    {s : Io InputStrm OutputStrm NetWord mem.State}
    {x : IcmpLabel × Io InputStrm OutputStrm NetWord mem.State}
    (h : exec mem i (icmp ports .start) s = some x) : ∃ eth ip options msg rest : List NetWord,
      eth.length = 14 ∧ ip.length = 20 ∧
      options.length = (ipOptionsLen (ipv4Of ip).IHL).toNat ∧ msg.length = 4 ∧
      s.inp = (fun _ => eth ++ (ip ++ (options ++ (msg ++ rest)))) ∧
      x = if octet msg 0 = 8 ∧ (ipv4Of ip).dstIp = ports.ipAddr then
          (.passStream,⟨fun _ => rest,
            fun _ => s.out .outputStrm ++ echoHead ports eth ip options msg,s.mem⟩)
        else (.discardStream,⟨fun _ => rest,s.out,s.mem⟩) := by
  rw [icmp_start] at h
  obtain ⟨eth, r14, heth, hs14, h⟩ := exists_of_exec_readInto_bind mem i h
  obtain ⟨ip, r34, hip, hs34, h⟩ := exists_of_exec_readInto_bind mem i h
  obtain ⟨options, rmsg, hopt, hsopt, h⟩ := exists_of_exec_readInto_bind mem i h
  obtain ⟨msg, rest, hmsg, hsmsg, h⟩ := exists_of_exec_readInto_bind mem i h
  simp only [Function.update_self] at hs34 hsopt hsmsg
  refine ⟨eth, ip, options, msg, rest, heth, hip, hopt, hmsg, ?_, ?_⟩
  · funext p
    cases p
    rw [hs14, hs34, hsopt, hsmsg]
  · rw [inputStrm_update] at h
    split_ifs at h ⊢ with hecho
    · rw [exec_writeAll_bind, exec_ret, outputStrm_update] at h
      exact (Option.some.inj h).symm
    · exact (Option.some.inj h).symm

/-- The loops at the end of both processes are the same. -/
lemma until_buffered {x : IcmpLabel × Io InputStrm OutputStrm NetWord Memory.none.State}
    {t : Io InputStrm OutputStrm NetWord Memory.none.State}
    (h : Until Memory.none () (icmp ports) .start x (.start,t)) (b : OptionBuffer) :
    Until optionMemory () (icmpBuffered ports) .start (x.1.buffered,⟨x.2.inp,x.2.out,b⟩)
      (.start,⟨t.inp,t.out,b⟩) := by
  induction h using Relation.ReflTransGen.head_induction_on with
  | refl => exact .refl
  | @head x y hs _ ih =>
    obtain ⟨l, s⟩ := x
    obtain ⟨hl, hb⟩ := hs
    cases l with
    | start => exact absurd rfl hl
    | passStream =>
      obtain ⟨w, ws, hw, hy⟩ := exists_of_exec_recv _ _ hb
      obtain rfl := Option.some.inj hy
      have hpass := exec_passStream optionMemory () InputStrm.inputStrm OutputStrm.outputStrm
        BufferedLabel.passStream .start w ws ⟨s.inp,s.out,b⟩ hw
      refine .head (by simp [IcmpLabel.buffered]) (hpass.trans ?_) ih
      cases w.last <;> rfl
    | discardStream =>
      obtain ⟨w, ws, hw, hy⟩ := exists_of_exec_recv _ _ hb
      obtain rfl := Option.some.inj hy
      have hdiscard : exec optionMemory () (discardStream InputStrm.inputStrm
          BufferedLabel.discardStream .start : Cmd InputStrm OutputStrm NetWord _ _) _ = _ :=
        exec_discardStream optionMemory () _ _ _ w ws ⟨s.inp,s.out,b⟩ hw
      refine .head (by simp [IcmpLabel.buffered]) (hdiscard.trans ?_) ih
      cases w.last <;> rfl

lemma echoHeaders_append (eth ip options : List NetWord) (type code hi lo : NetWord) :
    echoHeaders ports (ethernetOf eth) (ipv4Of ip) lo.user ++
      (options.map (fun w => ⟨w.data,false,lo.user⟩) ++ ([0,code.data,
        (hi.data ++ lo.data - 8 : BitVec 16).extractLsb 15 8,
        (hi.data ++ lo.data - 8 : BitVec 16).extractLsb 7 0] : List Byte).map
          fun b => ⟨b,false,lo.user⟩) = echoHead ports eth ip options [type,code,hi,lo] := by
  have hopt : options.map (fun w => (⟨w.data,false,lo.user⟩ : NetWord)) =
      (options.map NetWord.data).map fun b => ⟨b,false,lo.user⟩ := by
    rw [List.map_map]
    rfl
  rw [echoHead, echoHeaders, hopt, ← List.map_append]
  rfl

/-- Each invocation of `icmp` is one of the process with the buffer. -/
theorem icmp_buffered {s t : Io InputStrm OutputStrm NetWord Memory.none.State}
    (h : Invokes Memory.none () (icmp ports) .start s t) (b : OptionBuffer) : ∃ b' : OptionBuffer,
      Invokes optionMemory () (icmpBuffered ports) .start ⟨s.inp,s.out,b⟩ ⟨t.inp,t.out,b'⟩ := by
  obtain ⟨x, hx, hr⟩ := h
  obtain ⟨eth, ip, options, msg, rest, heth, hip, hopt, hmsg, hs, rfl⟩ := icmp_start_cases ports _ _ hx
  obtain ⟨type, code, hi, lo, rfl⟩ := List.length_eq_four.mp hmsg
  have hout : s.out = fun _ => s.out .outputStrm := by
    funext q
    cases q
    rfl
  set len := ipOptionsLen (ipv4Of ip).IHL with hlen
  obtain ⟨b', hb', hread⟩ := readOptions_until ports (ethernetOf eth) (ipv4Of ip) len [] options
    ([type,code,hi,lo] ++ rest) (by simpa using hopt) (fun _ => s.out .outputStrm) b
    b.holds_nil
  have hstart := start_block ports eth ip (options ++ ([type,code,hi,lo] ++ rest)) heth hip
    (fun _ => s.out .outputStrm) b
  have hmessage := message_block ports (ethernetOf eth) (ipv4Of ip) (BitVec.lt_irrefl len) type code hi
    lo rest (s.out .outputStrm) b'
  have htail := until_buffered ports hr b'
  rw [hs, hout]
  refine ⟨b', _, hstart, hread.trans (.head (by simp) hmessage ?_)⟩
  by_cases hecho : type.data = 8 ∧ (ipv4Of ip).dstIp = ports.ipAddr
  · have hcond : octet [type,code,hi,lo] 0 = 8 ∧ (ipv4Of ip).dstIp = ports.ipAddr := hecho
    rw [if_pos hcond] at htail
    rw [if_pos hecho]
    have hwrite := writeOptions_until ports len code.data (hi.data ++ lo.data) lo.user [] options
      (by simpa using hopt) (fun _ => rest)
      (s.out .outputStrm ++ echoHeaders ports (ethernetOf eth) (ipv4Of ip) lo.user) b' hb'
    refine hwrite.trans (.head (by simp) (written_block ports (BitVec.lt_irrefl len) _ _ _ _ _ b') ?_)
    rw [List.append_assoc, List.append_assoc, echoHeaders_append ports eth ip options type]
    exact htail
  · have hcond : ¬ (octet [type,code,hi,lo] 0 = 8 ∧ (ipv4Of ip).dstIp = ports.ipAddr) := hecho
    rw [if_neg hcond, hout] at htail
    rw [if_neg hecho]
    exact htail

end Loops

end EncryptionAccelerators.Net
