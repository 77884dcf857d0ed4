import EncryptionAccelerators.EncryptionPath

/-! The way of a payload through `udp_depacketizer`, a cipher core, the switch and
`udp_packetizer`, one operation of one core at a time. -/
namespace EncryptionAccelerators.Net
open Dataflow

/-! The cipher core -/

section BlockCore
variable {A : Type} {V : A → Type} {n : ℕ} (hn : 0 < n) (f : Vector Byte n → Vector Byte n)

/-- The buffer of a core after another word. -/
def nextPiece (piece : Piece n) (w : NetWord) : Piece n :=
  if h : (piece.val ++ [w.data]).length < n then ⟨piece.val ++ [w.data], h⟩ else ⟨[], hn⟩

/-- The words the core writes for it. -/
def blockReply (piece : Piece n) (w : NetWord) : List NetWord :=
  if (piece.val ++ [w.data]).length < n then []
  else (f (toBlock n (piece.val ++ [w.data]))).toList.map byteWord

lemma blockCore_eq_mealy : (blockCore hn f : _ → Cmd InputStrm OutputStrm NetWord V _) =
    mealy .inputStrm .outputStrm (nextPiece hn) (blockReply f) := by
  funext piece
  rw [blockCore, mealy, readWord_bind]
  congr 1
  funext w
  by_cases h : (piece.val ++ [w.data]).length < n
  · rw [dif_pos h, nextPiece, dif_pos h, blockReply, if_pos h]
    rfl
  · rw [dif_neg h, nextPiece, dif_neg h, blockReply, if_neg h]
    rfl

/-- No byte is lost and none is processed twice. -/
lemma cipherBlocks_next (piece : Piece n) (w : NetWord) (bs : List Byte) :
    cipherBlocks n f (piece.val ++ w.data::bs) = (blockReply f piece w).map NetWord.data ++
      cipherBlocks n f ((nextPiece hn piece w).val ++ bs) := by
  have happ : piece.val ++ w.data::bs = piece.val ++ [w.data] ++ bs := by simp
  rw [happ]
  by_cases h : (piece.val ++ [w.data]).length < n
  · rw [blockReply, if_pos h, nextPiece, dif_pos h]
    rfl
  · have hl : (piece.val ++ [w.data]).length = n := by
      have hp := piece.2
      rw [List.length_append, List.length_singleton] at h ⊢
      omega
    rw [blockReply, if_neg h, nextPiece, dif_neg h, cipherBlocks_block f _ _ hn hl]
    simp [Function.comp_def]

lemma blockReply_length (piece : Piece n) (w : NetWord) :
    (blockReply f piece w).length + (nextPiece hn piece w).val.length = piece.val.length + 1 := by
  by_cases h : (piece.val ++ [w.data]).length < n
  · rw [blockReply, if_pos h, nextPiece, dif_pos h]
    simp
  · have hp := piece.2
    rw [blockReply, if_neg h, nextPiece, dif_neg h]
    rw [List.length_append, List.length_singleton] at h
    simp
    omega

/-- With an empty buffer the core does what it does with no other buffer. -/
lemma blockCore_start {piece : Piece n} (h : (blockCore hn f piece : Cmd _ _ _ V _) =
    blockCore hn f ⟨[], hn⟩) : piece.val = [] := by
  rw [blockCore_eq_mealy] at h
  obtain ⟨hreply, hnext⟩ := mealy_eq h default
  have hlen := blockReply_length hn f piece default
  have hempty := blockReply_length hn f ⟨[], hn⟩ default
  rw [hreply, hnext, hempty] at hlen
  exact List.length_eq_zero_iff.mp (Nat.succ.inj hlen).symm

end BlockCore

lemma CipherCore.body_eq_mealy {A : Type} {V : A → Type} (core : CipherCore) :
    (core.body : _ → Cmd InputStrm OutputStrm NetWord V _) =
      mealy .inputStrm .outputStrm (nextPiece core.blockSize_pos) (blockReply core.processBlock) :=
  core.body_eq.trans (blockCore_eq_mealy _ _)

/-! The switch -/

lemma outSwitch_eq_mealy {A : Type} {V : A → Type} (lasts : ℕ → Bool) :
    (outSwitch lasts : _ → Cmd InputStrm OutputStrm NetWord V _) =
      mealy .inputStrm .outputStrm (fun k _ => k + 1) (fun k w => [⟨w.data,lasts k,w.user⟩]) := rfl

/-! `udp_packetizer` -/

section UdpPacketizer
variable (ports : PacketizerPorts)

lemma udpPacketizer_eq (s : PayloadBuffering) : udpPacketizer ports s =
    .recv .inputStrm fun w =>
      if h : w.last = false ∧ (s.dataBuf ++ [w.data]).length < 1024 then .ret (s.push w.data h.2)
      else .peek .dstIpAddr fun ip =>
        writeAll .outputStrm (packet ports ip s.dataBuf w.data w.user).words >>= fun _ =>
          .ret .entry := by
  rw [udpPacketizer, readWord_bind]
  congr 1
  funext w
  by_cases h : w.last = false ∧ (s.dataBuf ++ [w.data]).length < 1024
  · rw [dif_pos h, dif_pos h]
    rfl
  · have hl : (s.dataBuf ++ [w.data]).length ≤ 1024 := by
      have hr := s.room
      rw [List.length_append, List.length_singleton]
      omega
    rw [dif_neg h, dif_neg h]
    simp only [loadCell_bind, writeEthernetHeader_eq, writeIpHeader_eq, writeUdpHeader_eq,
      writeAll_append_bind, s.len_eq, s.totalLength_eq, PayloadBuffering.ofNat_succ _ _ w.data,
      outputStrmLoop_eq _ _ _ hl]
    rfl

/-- `udp_packetizer` with the bytes `buf` read for a packet whose address is not sampled yet and
the words `unsent` of one whose address is. -/
inductive PacketizerAt :
    List Byte → List NetWord → Cmd InputStrm OutputStrm NetWord Cell.Val PayloadBuffering → Prop
  | collecting (s : PayloadBuffering) : PacketizerAt s.dataBuf [] (udpPacketizer ports s)
  | sampling (l : List Byte) (b : Byte) (user : Bool) (h : (l ++ [b]).length ≤ 1024) :
      PacketizerAt (l ++ [b]) [] (.peek .dstIpAddr fun ip =>
        writeAll .outputStrm (packet ports ip l b user).words >>= fun _ => .ret .entry)
  | writing (s : PayloadBuffering) (unsent : List NetWord) :
      PacketizerAt s.dataBuf unsent (writeAll .outputStrm unsent >>= fun _ => .ret s)

variable {ports} {buf : List Byte} {unsent : List NetWord}
  {c : Cmd InputStrm OutputStrm NetWord Cell.Val PayloadBuffering}

/-- A word read is the next byte of the packet. -/
lemma PacketizerAt.read {s : PayloadBuffering} (w : NetWord)
    {k : NetWord → Cmd InputStrm OutputStrm NetWord Cell.Val PayloadBuffering}
    (h : udpPacketizer ports s = .recv .inputStrm k) :
    PacketizerAt ports (s.dataBuf ++ [w.data]) [] (k w) := by
  rw [udpPacketizer_eq] at h
  obtain rfl := (Cmd.recv.inj h).2
  beta_reduce
  by_cases hw : w.last = false ∧ (s.dataBuf ++ [w.data]).length < 1024
  · rw [dif_pos hw]
    exact .writing (s.push w.data hw.2) []
  · have hl : (s.dataBuf ++ [w.data]).length ≤ 1024 := by
      have hr := s.room
      rw [List.length_append, List.length_singleton]
      omega
    rw [dif_neg hw]
    exact .sampling s.dataBuf w.data w.user hl

lemma PacketizerAt.settled_entry (h : PacketizerAt ports buf unsent (udpPacketizer ports .entry)) :
    buf = [] := by
  generalize hc : udpPacketizer ports .entry = c at h
  rw [udpPacketizer_eq] at hc
  cases h with
  | collecting s =>
    rw [udpPacketizer_eq] at hc
    have hword := congrFun (Cmd.recv.inj hc).2 (byteWord 0)
    beta_reduce at hword
    have hentry : (byteWord 0).last = false ∧
        (PayloadBuffering.entry.dataBuf ++ [(byteWord 0).data]).length < 1024 := by decide
    rw [dif_pos hentry] at hword
    by_cases hs : (byteWord 0).last = false ∧ (s.dataBuf ++ [(byteWord 0).data]).length < 1024
    · rw [dif_pos hs] at hword
      have hbuf := congrArg PayloadBuffering.dataBuf (Cmd.ret.inj hword)
      exact (List.append_cancel_right hbuf).symm
    · rw [dif_neg hs] at hword
      cases hword
  | sampling l b user hl => cases hc
  | writing s unsent => cases unsent <;> cases hc

lemma PacketizerAt.settled_writing {us : List NetWord} (h : PacketizerAt ports buf unsent
    (writeAll .outputStrm us >>= fun _ => .ret .entry)) : buf = [] := by
  generalize hc : (writeAll .outputStrm us >>= fun _ => .ret .entry :
    Cmd InputStrm OutputStrm NetWord Cell.Val PayloadBuffering) = c at h
  cases h with
  | collecting s =>
    rw [udpPacketizer_eq] at hc
    cases us <;> cases hc
  | sampling l b user hl => cases us <;> cases hc
  | writing s unsent =>
    obtain ⟨-, rfl⟩ := writeAll_ret_inj hc
    rfl

end UdpPacketizer

/-! `udp_depacketizer` -/

section UdpDepacketizer

/-- What `udp_depacketizer` does with a frame: two stores and the words of the payload. -/
def depacketizerEvents (f : Frame) : List (Event OutputStrm NetWord Cell.Val) :=
  .poke .dstIpAddr (ipv4Of (f.words.drop 14)).srcIp ::
    .poke .dstMacAddr (ethernetOf f.words).srcMacAddr ::
      (f.words.drop 42).map (.send .outputStrm)

lemma trace_depacketizerFrame (f : Frame) (hf : 43 ≤ f.words.length) (rest : List NetWord)
    {evs : List (Event OutputStrm NetWord Cell.Val)}
    (h : Trace udpDepacketizer (.ret .start) (fun _ => rest) evs) :
    Trace udpDepacketizer (.ret .start) (fun _ => f.words ++ rest)
      (depacketizerEvents f ++ evs) := by
  have hdrop : (f.words ++ rest).drop 42 = f.init.drop 42 ++ f.final::rest := by
    rw [List.drop_append_of_le_length (by omega), f.drop_words (by omega)]
    simp
  have hpass : Trace udpDepacketizer (.ret .passStream) _ _ :=
    trace_passStream OutputStrm.outputStrm UdpDepacketizerLabel.passStream
      UdpDepacketizerLabel.start rfl (f.init.drop 42) rest f.final
      (fun x hx => f.init_last x (List.mem_of_mem_drop hx)) f.final_last h
  rw [← hdrop, ← f.drop_words (by omega)] at hpass
  obtain ⟨heth, hip, -⟩ := headers_append f.words rest (by omega)
  have hlen : 43 ≤ (f.words ++ rest).length := by
    rw [List.length_append]
    omega
  refine .call ?_
  rw [udpDepacketizer_start]
  apply Trace.readInto_bind InputStrm.inputStrm 14 [] (by omega)
  rw [inputStrm_update]
  apply Trace.readInto_bind InputStrm.inputStrm 20 [] (by rw [List.length_drop]; omega)
  rw [inputStrm_update, List.drop_drop]
  apply Trace.readInto_bind InputStrm.inputStrm 8 [] (by rw [List.length_drop]; omega)
  rw [inputStrm_update, List.drop_drop, List.nil_append, List.nil_append, ethernetOf_take _ le_rfl,
    ipv4Of_take _ le_rfl, heth, hip]
  exact .poke (.poke hpass)

lemma trace_depacketizerFrames (fs : List Frame) (hf : ∀ f ∈ fs, 43 ≤ f.words.length) :
    Trace udpDepacketizer (.ret .start) (fun _ => fs.flatMap Frame.words)
      (fs.flatMap depacketizerEvents) := by
  induction fs with
  | nil =>
    refine .call ?_
    rw [udpDepacketizer_start, readInto_succ_bind]
    exact .starve rfl
  | cons f fs ih =>
    rw [List.flatMap_cons, List.flatMap_cons]
    exact trace_depacketizerFrame f (hf f (by simp)) _ (ih fun g hg => hf g (by simp [hg]))

end UdpDepacketizer

end EncryptionAccelerators.Net
