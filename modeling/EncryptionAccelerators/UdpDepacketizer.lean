import EncryptionAccelerators.Parser

/-! The core `udp_depacketizer`: it publishes the sender's address and strips the headers. -/
namespace EncryptionAccelerators.Net
open Dataflow

inductive UdpDepacketizerLabel
  | start | passStream
  deriving DecidableEq

def udpDepacketizer :
    UdpDepacketizerLabel → Cmd InputStrm OutputStrm NetWord Cell.Val UdpDepacketizerLabel
  | .start => do
    let ethernetHeader ← readEthernetHeader .inputStrm
    let ipHeader ← readIpHeader .inputStrm
    let _ ← readUdpHeader .inputStrm
    storeCell .dstIpAddr ipHeader.srcIp
    storeCell .dstMacAddr ethernetHeader.srcMacAddr
    return .passStream
  | .passStream => passStream .inputStrm .outputStrm .passStream .start

section UdpDepacketizer
variable {ι : Type} (mem : Memory ι Cell.Val) (i : ι)

lemma udpDepacketizer_start : udpDepacketizer .start =
    readInto .inputStrm 14 [] >>= fun eth => readInto .inputStrm 20 [] >>= fun ip =>
      readInto .inputStrm 8 [] >>= fun _ => .poke .dstIpAddr (ipv4Of ip).srcIp <|
        .poke .dstMacAddr (ethernetOf eth).srcMacAddr (.ret .passStream) := by
  simp only [udpDepacketizer, readEthernetHeader_eq, readIpHeader_eq, readUdpHeader_eq,
    readInto_succ_bind, readInto_zero_bind, storeCell_bind, Cmd.pure_def, Cmd.recv_bind]
  rfl

/-- The memory after the sender of the frame `f` is published. -/
def published (f : List NetWord) (m : mem.State) : mem.State :=
  mem.store i .dstMacAddr (ethernetOf f).srcMacAddr
    (mem.store i .dstIpAddr (ipv4Of (f.drop 14)).srcIp m)

lemma exec_udpDepacketizer (s : Io InputStrm OutputStrm NetWord mem.State) {f : List NetWord}
    (hf : s.inp .inputStrm = f) (hl : 42 ≤ f.length) : exec mem i (udpDepacketizer .start) s =
      some (.passStream,⟨fun _ => f.drop 42,s.out,published mem i f s.mem⟩) := by
  have h14 : 14 ≤ (s.inp .inputStrm).length := by rw [hf]; omega
  rw [udpDepacketizer_start, exec_readInto_bind mem i _ _ _ _ _ h14,
    exec_readInto_bind _ _ _ _ _ _ _ (by simp [hf]; omega),
    exec_readInto_bind _ _ _ _ _ _ _ (by simp [hf]; omega)]
  simp only [Function.update_self, hf, List.nil_append, exec_poke, exec_ret, published,
    ethernetOf_take f le_rfl, ipv4Of_take _ (le_refl 20), List.drop_drop]
  rw [inputStrm_update]

lemma published_append (f rest : List NetWord) (h : 42 ≤ f.length) (m : mem.State) :
    published mem i (f ++ rest) m = published mem i f m := by
  obtain ⟨heth, hip, -⟩ := headers_append f rest h
  rw [published, heth, hip, published]

/-- One invocation takes one frame: its sender is published and its payload forwarded. -/
lemma udpDepacketizer_invokes (f : Frame) (hf : 43 ≤ f.words.length) (rest : List NetWord)
    (s : Io InputStrm OutputStrm NetWord mem.State) (hs : s.inp .inputStrm = f.words ++ rest) :
    Invokes mem i udpDepacketizer .start s ⟨fun _ => rest,
      fun _ => s.out .outputStrm ++ f.words.drop 42,published mem i f.words s.mem⟩ := by
  have hstart := exec_udpDepacketizer mem i s hs (by simp; omega)
  rw [published_append mem i _ _ (by omega)] at hstart
  have hdrop := f.drop_words_append rest (by omega : 42 < f.words.length)
  refine ⟨_, hstart, ?_⟩
  refine (passStream_until mem i udpDepacketizer .inputStrm .outputStrm .passStream .start (by simp)
    rfl (f.init.drop 42) rest f.final (fun x hx => f.init_last x (List.mem_of_mem_drop hx))
    f.final_last _ hdrop).to ?_
  congr 1
  ext q : 2
  · cases q; simp
  · cases q; simp [f.drop_words (by omega : 42 < f.words.length)]
  · rfl

/-- The memory after the senders of the frames are published. -/
def publishedAll (fs : List Frame) (m : mem.State) : mem.State :=
  fs.foldl (fun m f => published mem i f.words m) m

/-- The frames one after the other. -/
lemma udpDepacketizer_frames (fs : List Frame) (hf : ∀ f ∈ fs, 43 ≤ f.words.length)
    (s : Io InputStrm OutputStrm NetWord mem.State) (hs : s.inp .inputStrm = fs.flatMap Frame.words) :
    Blocks mem i udpDepacketizer (.start,s) (.start,⟨fun _ => [],
      fun _ => s.out .outputStrm ++ fs.flatMap fun f => f.words.drop 42,
      publishedAll mem i fs s.mem⟩) := by
  induction fs generalizing s with
  | nil =>
    refine Blocks.to .refl ?_
    congr 1
    ext q : 2
    · cases q; simpa using hs
    · cases q; simp
    · rfl
  | cons f fs ih =>
    have h1 := udpDepacketizer_invokes mem i f (hf f (by simp)) (fs.flatMap Frame.words) s
      (by simpa using hs)
    have h2 := ih (fun g hg => hf g (by simp [hg])) ⟨fun _ => fs.flatMap Frame.words,
      fun _ => s.out .outputStrm ++ f.words.drop 42,published mem i f.words s.mem⟩ rfl
    refine (h1.blocks.trans h2).to ?_
    simp [publishedAll]

end UdpDepacketizer

end EncryptionAccelerators.Net
