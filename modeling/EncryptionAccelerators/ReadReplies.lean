import EncryptionAccelerators.RequestFraming

/-! The replies of `udp_reg` to read requests of any length, and the buffer they are made in. -/
namespace EncryptionAccelerators.Net
open Dataflow

/-- A read request with its lengths in agreement, in a frame that holds all the words the loop
reads. -/
structure ReadRequest (f : List NetWord) : Prop where
  port : (udpOf (f.drop 34)).dstPort = 40000
  ihl : (ipv4Of (f.drop 14)).IHL = 5
  totalLength : (ipv4Of (f.drop 14)).totalLength = (udpOf (f.drop 34)).len + 20
  le_len : 8 ≤ (udpOf (f.drop 34)).len.toNat
  len_le : (udpOf (f.drop 34)).len.toNat ≤ 776
  frame : 60 ≤ f.length
  words : 42 + 4*(((udpOf (f.drop 34)).len.toNat - 8 + 3)/4) ≤ f.length

/-- The payload of a frame is as long as its UDP length says, and its IP length agrees. -/
structure SelfConsistent (reply : Frame) : Prop where
  payload : (reply.words.drop 42).length = (udpOf (reply.words.drop 34)).len.toNat - 8
  totalLength : (ipv4Of (reply.words.drop 14)).totalLength = (udpOf (reply.words.drop 34)).len + 20

/-- The words `udp_reg` puts out for the request make up one self-consistent frame. -/
def RepliesWithFrame (f : Frame) (rest out : List NetWord) (m : (c : Cell) → c.Val) : Prop :=
  ∃ (t : Io InputStrm OutputStrm NetWord ((c : Cell) → c.Val)) (reply : Frame),
    Invokes (Memory.shared Unit Cell.Val) () udpReg .start
      ⟨fun _ => f.words ++ rest,fun _ => out,m⟩ t ∧
    t.out .outputStrm = out ++ reply.words ∧ SelfConsistent reply

/-- The turns of the loop for a read request. -/
def readTurns (f : List NetWord) : ℕ := ((udpOf (f.drop 34)).len.toNat - 8 + 3)/4

lemma ReadRequest.readTurns_le {f : List NetWord} (h : ReadRequest f) : readTurns f ≤ 192 := by
  have hle := h.len_le
  unfold readTurns
  omega

lemma ReadRequest.invokes {f : Frame} (h : ReadRequest f.words) (rest out : List NetWord)
    (m : (c : Cell) → c.Val) : Invokes (Memory.shared Unit Cell.Val) () udpReg .start
      ⟨fun _ => f.words ++ rest,fun _ => out,m⟩
      ⟨fun _ => rest,
        fun _ => out ++ replyWords (answered f.words (regSpace m) (readTurns f.words)),m⟩ := by
  have hle := h.len_le
  have hframe := h.frame
  exact (ownsRegisters_shared ()).readRequest_invokes (fun _ => out) m h.port (k := readTurns f.words)
    (by unfold readTurns; intro x hx; omega) (by unfold readTurns; omega)
    (by unfold readTurns; omega) h.words (by omega) rest

/-- The lengths in the headers of the reply, and the length of its payload. -/
lemma ReadRequest.reply_lengths {f : List NetWord} (h : ReadRequest f)
    (reg : BitVec 32 → BitVec 32) : let reply := replyWords (answered f reg (readTurns f))
    (reply.drop 42).length = 8*readTurns f ∧
    (udpOf (reply.drop 34)).len.toNat = 8 + 8*readTurns f ∧
    (ipv4Of (reply.drop 14)).totalLength.toNat =
      (udpOf (f.drop 34)).len.toNat + 20 + 4*readTurns f := by
  have hk := h.readTurns_le
  have hle := h.len_le
  obtain ⟨-, hip, hudp, hpay⟩ := replyWords_headers (answered f reg (readTurns f))
  have hcnt := answered_bufCnt f reg (readTurns f)
  have h8 : (8 : BitVec 16).toNat = 8 := rfl
  have h20 : (20 : BitVec 16).toNat = 20 := rfl
  refine ⟨?_, ?_, ?_⟩
  · rw [hpay, replyPayload, List.length_map, List.length_range, hcnt, BitVec.toNat_ofNat,
      Nat.mod_eq_of_lt (by omega)]
  · rw [hudp, replyUdp, hcnt, BitVec.toNat_add, BitVec.toNat_ofNat, h8]
    omega
  · have hreq : (answered f reg (readTurns f)).ipHeader.totalLength =
        (udpOf (f.drop 34)).len + 20 := h.totalLength
    rw [hip, replyIp, hcnt, bufCnt_half (by omega), hreq, BitVec.toNat_add, BitVec.toNat_add,
      BitVec.toNat_ofNat, h20]
    omega

lemma replyWords_zero (f : List NetWord) (reg : BitVec 32 → BitVec 32) (w : NetWord)
    (hw : w ∈ replyWords (answered f reg 0)) : w.last = false := by
  have hempty : replyPayload (answered f reg 0).dataBuf (answered f reg 0).bufCnt = [] := rfl
  rw [replyWords, hempty, List.append_nil] at hw
  exact byteWord_last hw

/-- A read request is answered with one self-consistent frame just when it lists an address and its
length is a multiple of four. -/
lemma ReadRequest.repliesWithFrame_iff {f : Frame} (h : ReadRequest f.words)
    (rest out : List NetWord) (m : (c : Cell) → c.Val) : RepliesWithFrame f rest out m ↔
      12 ≤ (udpOf (f.words.drop 34)).len.toNat ∧ 4 ∣ (udpOf (f.words.drop 34)).len.toNat := by
  have hinv := h.invokes rest out m
  obtain ⟨hpay, hudp, hip⟩ := h.reply_lengths (regSpace m)
  have h20 : (20 : BitVec 16).toNat = 20 := rfl
  have hk := h.readTurns_le
  have hle := h.le_len
  have hle' := h.len_le
  constructor
  · rintro ⟨t, reply, ht, hout, hcons⟩
    obtain rfl := ht.deterministic hinv
    have hwords : reply.words = replyWords (answered f.words (regSpace m) (readTurns f.words)) :=
      (List.append_cancel_left hout).symm
    have hpos : readTurns f.words ≠ 0 := by
      intro h0
      rw [h0] at hwords
      have hlast := replyWords_zero f.words (regSpace m) reply.final
        (by rw [← hwords, Frame.words]; simp)
      rw [reply.final_last] at hlast
      cases hlast
    have htotal := congrArg BitVec.toNat hcons.totalLength
    rw [hwords, hip, BitVec.toNat_add, hudp, h20] at htotal
    have hdef : readTurns f.words = ((udpOf (f.words.drop 34)).len.toNat - 8 + 3)/4 := rfl
    omega
  · rintro ⟨h12, hdvd⟩
    have hdef : readTurns f.words = ((udpOf (f.words.drop 34)).len.toNat - 8 + 3)/4 := rfl
    have hcnt := answered_bufCnt f.words (regSpace m) (readTurns f.words)
    obtain ⟨reply, hreply⟩ := replyWords_frame
      (answered f.words (regSpace m) (readTurns f.words))
      (by rw [hcnt, BitVec.toNat_ofNat]; omega)
    refine ⟨_, reply, hinv, by rw [hreply], ?_, ?_⟩
    · rw [hreply, hpay, hudp]
      omega
    · rw [hreply]
      refine BitVec.eq_of_toNat_eq ?_
      rw [hip, BitVec.toNat_add, hudp, h20]
      omega

/-- Read requests of every length: the reply is one self-consistent frame for whole addresses, at
least one. -/
theorem replies_consistent (f : Frame) (h : ReadRequest f.words) (rest out : List NetWord)
    (m : (c : Cell) → c.Val) : RepliesWithFrame f rest out m ↔
      12 ≤ (udpOf (f.words.drop 34)).len.toNat ∧ 4 ∣ (udpOf (f.words.drop 34)).len.toNat :=
  h.repliesWithFrame_iff rest out m

/-- A read request in a frame of 60 words with its IP length set. -/
def readFrame (len : BitVec 16) : Frame where
  init := (List.replicate 12 0xff ++ [0x08,0x00,0x45,0,(len + 20).extractLsb 15 8,
    (len + 20).extractLsb 7 0] ++ List.replicate 5 0 ++ [0x11] ++ List.replicate 12 0 ++
    [0x9c,0x40,len.extractLsb 15 8,len.extractLsb 7 0] ++ List.replicate 19 0).map byteWord
  final := ⟨0,true,false⟩
  init_last := fun _ => byteWord_last
  final_last := Eq.refl true

/-- A request without addresses is answered with 42 words and no `last`. -/
theorem replies_consistent_fails : ¬ ∀ f : Frame, ReadRequest f.words →
    ∀ rest out m, RepliesWithFrame f rest out m := by
  intro h
  have hreq : ReadRequest (readFrame 8).words :=
    ⟨by decide, by decide, by decide, by decide, by decide, by decide, by decide⟩
  have hlen := (hreq.repliesWithFrame_iff [] [] Cell.zero).mp (h _ hreq [] [] Cell.zero)
  revert hlen
  decide

/-- `replies_consistent` on requests for two addresses, and for one and a half. -/
theorem replies_consistent_twoAddrs : RepliesWithFrame (readFrame 16) [] [] Cell.zero ∧
    ¬ RepliesWithFrame (readFrame 14) [] [] Cell.zero := by
  have h16 : ReadRequest (readFrame 16).words :=
    ⟨by decide, by decide, by decide, by decide, by decide, by decide, by decide⟩
  have h14 : ReadRequest (readFrame 14).words :=
    ⟨by decide, by decide, by decide, by decide, by decide, by decide, by decide⟩
  rw [replies_consistent _ h16, replies_consistent _ h14]
  decide

end EncryptionAccelerators.Net
