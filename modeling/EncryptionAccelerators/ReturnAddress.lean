import EncryptionAccelerators.ReturnService

/-! To whom the ciphertext goes. -/
namespace EncryptionAccelerators.Net
open Dataflow

section Return
variable {core : CipherCore} {lasts : ℕ → Bool} {ports : PacketizerPorts} {cap : PathFifo → ℕ∞}
  {s : (encryptionPath core lasts ports).State (Memory.shared PathCore Cell.Val).State}
  {fs : List Frame} {addr : BitVec 32} {g : Transit core}

/-- The payload bytes emitted so far, each with the address it is emitted to. -/
def delivered {M : Type} (s : (encryptionPath core lasts ports).State M) :
    List (Byte × BitVec 32) :=
  (cutFrames [] (s.fifo .udpOutputBuffer)).flatMap fun f =>
    (udpPayload f).map fun b => (b,(ipv4Of (f.drop 14)).dstIp)

variable (core) in
/-- The ciphertext of each payload, each byte with the address the payload came from. -/
def owed (fs : List Frame) : List (Byte × BitVec 32) :=
  fs.flatMap fun f =>
    (core.cipher (udpPayload f.words)).map fun b => (b,(ipv4Of (f.words.drop 14)).srcIp)

/-- Bytes and addresses in lists of their own. -/
lemma flatMap_owned {α : Type} (xs : List α) (bytes : α → List Byte) (owner : α → BitVec 32) :
    (xs.flatMap fun x => (bytes x).map fun b => (b,owner x)) =
      (xs.flatMap bytes).zip (xs.flatMap fun x => List.replicate (bytes x).length (owner x)) := by
  induction xs with
  | nil => rfl
  | cons x xs ih =>
    have hzip (l : List Byte) : l.zip (List.replicate l.length (owner x)) =
        l.map fun b => (b,owner x) := by
      induction l with
      | nil => rfl
      | cons b l ih => simp [List.replicate_succ, ih]
    rw [List.flatMap_cons, List.flatMap_cons, List.flatMap_cons, ih,
      List.zip_append List.length_replicate.symm, hzip]

/-- Whole blocks are processed one payload after the other. -/
lemma cipher_flatMap (fs : List Frame) (hf : ∀ f ∈ fs, core.blockSize ∣ (udpPayload f.words).length) :
    core.cipher (fs.flatMap fun f => udpPayload f.words) =
      fs.flatMap fun f => core.cipher (udpPayload f.words) := by
  induction fs with
  | nil => exact cipherBlocks_short _ _ core.blockSize_pos
  | cons f fs ih =>
    rw [List.flatMap_cons, List.flatMap_cons, ← ih fun g hg => hf g (by simp [hg])]
    rw [CipherCore.cipher, cipherBlocks_append _ _ _ core.blockSize_pos,
      residue_of_dvd _ (hf f (by simp)), List.nil_append]
    rfl

lemma owed_eq (fs : List Frame)
    (hf : ∀ f ∈ fs, core.blockSize ∣ (udpPayload f.words).length) : owed core fs =
      (core.cipher (fs.flatMap fun f => udpPayload f.words)).zip (fs.flatMap fun f =>
        List.replicate (udpPayload f.words).length (ipv4Of (f.words.drop 14)).srcIp) := by
  rw [owed, flatMap_owned fs (fun f => core.cipher (udpPayload f.words))
    fun f => (ipv4Of (f.words.drop 14)).srcIp, cipher_flatMap fs hf]
  congr 1
  refine List.flatMap_congr fun f hm => ?_
  rw [CipherCore.cipher_length (hf f hm)]

/-- The packets whose address is sampled carry the front of what is owed. -/
lemma TransitAt.delivered_prefix (h : TransitAt fs addr s g)
    (hf : ∀ f ∈ fs, StrmFrame f.words ∧ core.blockSize ∣ (udpPayload f.words).length) :
    delivered s <+: owed core fs := by
  have hpay : ∀ f ∈ fs, (f.words.drop 42).map NetWord.data = udpPayload f.words :=
    fun f hm => (hf f hm).1.udpPayload_eq.symm
  have hcount : (fs.flatMap fun f =>
      List.replicate (f.words.drop 42).length (ipv4Of (f.words.drop 14)).srcIp) = fs.flatMap fun f =>
      List.replicate (udpPayload f.words).length (ipv4Of (f.words.drop 14)).srcIp := by
    refine List.flatMap_congr fun f hm => ?_
    rw [← hpay f hm, List.length_map]
  have hbytes := h.bytes
  have howners := h.owners
  rw [sentData_frames, List.flatMap_congr hpay, Transit.bytes, List.append_assoc,
    List.append_assoc] at hbytes
  rw [senders_frames, Transit.owners, List.append_assoc, hcount] at howners
  have hpackets : (g.packets.flatMap fun f => (udpPayload f.words).map fun b =>
      (b,(ipv4Of (f.words.drop 14)).dstIp)) <+: owed core fs := by
    rw [owed_eq fs fun f hm => (hf f hm).2, ← hbytes, ← howners, List.zip_append,
      flatMap_owned g.packets (fun f => udpPayload f.words)]
    · exact List.prefix_append _ _
    · simp [List.length_flatMap]
  have hcut : cutFrames [] (s.fifo .udpOutputBuffer) <+: g.packets.map Frame.words := by
    rw [← cutFrames_frames, ← h.packets]
    exact cutFrames_prefix (List.prefix_append _ _) []
  refine List.IsPrefix.trans ?_ hpackets
  obtain ⟨more, hmore⟩ := hcut
  have hall := congrArg (List.flatMap fun f =>
    (udpPayload f).map fun b => (b,(ipv4Of (f.drop 14)).dstIp)) hmore
  rw [List.flatMap_append, List.flatMap_map] at hall
  exact ⟨_, hall⟩

lemma StrmFrame.length_le {f : List NetWord} (h : StrmFrame f) : 60 ≤ f.length := by
  obtain ⟨n, hn, -, hl⟩ := h.payload
  omega

/-! Runs of the cores one after the other -/

lemma returnStart_eq {M : Type} (hstrm : ∀ f ∈ fs, classify f.words = .UDP_STRM) (m : M) :
    returnStart core lasts ports fs m =
      pathState core lasts ports (pathLabel core core.start 0 .entry) (fun
        | .strm q => routed fs q
        | _ => []) m := by
  have hrouted (q : DistributerOut) (hq : q ≠ .udpStrmStrm) : routed fs q = [] := by
    have hnone : (fs.filter fun f => q.prot = classify f.words) = [] := by
      refine List.filter_eq_nil_iff.mpr fun f hm => ?_
      rw [hstrm f hm]
      cases q <;> simp [DistributerOut.prot] at hq ⊢
    rw [routed, hnone, List.flatMap_nil]
  have hall : routed fs .udpStrmStrm = fs.flatMap Frame.words := by
    have hself : (fs.filter fun f => DistributerOut.udpStrmStrm.prot = classify f.words) = fs := by
      refine List.filter_eq_self.mpr fun f hm => ?_
      rw [hstrm f hm]
      rfl
    rw [routed, hself]
  rw [returnStart]
  congr 1
  funext c
  cases c with
  | strm q =>
    cases q with
    | udpStrmStrm => exact hall.symm
    | _ => exact (hrouted _ (by simp)).symm
  | _ => rfl

lemma strmFrames_self (hstrm : ∀ f ∈ fs, classify f.words = .UDP_STRM) : strmFrames fs = fs := by
  refine List.filter_eq_self.mpr fun f hm => ?_
  rw [hstrm f hm]
  rfl

/-- The words behind the core carry the ciphertext of all the payloads. -/
lemma ciphered_data (hf : ∀ f ∈ fs, StrmFrame f.words)
    (hstrm : ∀ f ∈ fs, classify f.words = .UDP_STRM) : (ciphered core fs).map NetWord.data =
      core.cipher (fs.flatMap fun f => udpPayload f.words) := by
  have hall : forwarded fs = fs.flatMap fun f => f.words.drop 42 :=
    congrArg (List.flatMap fun f : Frame => f.words.drop 42) (strmFrames_self hstrm)
  have hforwarded : (forwarded fs).map NetWord.data = fs.flatMap fun f => udpPayload f.words := by
    rw [hall, List.map_flatMap]
    exact List.flatMap_congr fun f hm => (hf f hm).udpPayload_eq.symm
  rw [ciphered, hforwarded, List.map_map]
  exact List.map_id _

/-- Everything is read, enciphered and marked before `udp_packetizer` starts. -/
lemma return_marked (hf : ∀ f ∈ fs, StrmFrame f.words)
    (hstrm : ∀ f ∈ fs, classify f.words = .UDP_STRM)
    (m : (Memory.shared PathCore Cell.Val).State) : ∃ piece k,
      (encryptionPath core lasts ports).Run (Memory.shared PathCore Cell.Val) (fun _ => ⊤)
        (returnStart core lasts ports fs m) (pathState core lasts ports
          (pathLabel core piece k .entry) (behind fs [] [] (marked lasts 0 (ciphered core fs)) [])
          (publishedAll (Memory.shared PathCore Cell.Val) .udpDepacketizer fs m)) := by
  have hread := path_depacketized core lasts ports (Memory.shared PathCore Cell.Val) fs
    (fun f hm => (hf f hm).length_le) m
  rw [strmFrames_self hstrm] at hread
  obtain ⟨piece, hcipher⟩ := path_ciphered core lasts ports (Memory.shared PathCore Cell.Val) fs
    (publishedAll (Memory.shared PathCore Cell.Val) .udpDepacketizer fs m)
  obtain ⟨k, hmark⟩ := path_marked core lasts ports (Memory.shared PathCore Cell.Val) fs piece
    (publishedAll (Memory.shared PathCore Cell.Val) .udpDepacketizer fs m)
  rw [returnStart_eq hstrm]
  exact ⟨piece, k, hread.trans (hcipher.trans hmark)⟩

/-- One packet in the buffer to the network. -/
lemma delivered_packet {M : Type} {s : (encryptionPath core lasts ports).State M} (dst : BitVec 32)
    (bytes : List Byte) (b : Byte) (user : Bool) (hl : (bytes ++ [b]).length ≤ 1024)
    (hs : s.fifo .udpOutputBuffer = (packet ports dst bytes b user).words) :
    delivered s = (bytes ++ [b]).map fun b => (b,dst) := by
  have hcut := cutFrames_frames [packet ports dst bytes b user]
  rw [List.flatMap_singleton, List.map_singleton] at hcut
  obtain ⟨-, hip, -⟩ := packet_fields ports dst bytes b user
  rw [delivered, hs, hcut, List.flatMap_singleton, packet_payload _ _ _ _ _ hl, hip]
  rfl

/-- With everything read and the first mark on byte `n`, a packet of `n + 1` bytes of ciphertext
goes to the address published last. -/
lemma return_packet (hf : ∀ f ∈ fs, StrmFrame f.words)
    (hstrm : ∀ f ∈ fs, classify f.words = .UDP_STRM) {n : ℕ}
    (hn : n < (core.cipher (fs.flatMap fun f => udpPayload f.words)).length) (h1024 : n < 1024)
    (hfirst : ∀ j < n, lasts j = false) (hlast : lasts n = true)
    (m : (Memory.shared PathCore Cell.Val).State) :
    ∃ s : (encryptionPath core lasts ports).State (Memory.shared PathCore Cell.Val).State,
      (encryptionPath core lasts ports).Run (Memory.shared PathCore Cell.Val) (fun _ => ⊤)
        (returnStart core lasts ports fs m) s ∧
      delivered s = ((core.cipher (fs.flatMap fun f => udpPayload f.words)).take (n+1)).map
        fun b => (b,publishedIp
          (publishedAll (Memory.shared PathCore Cell.Val) .udpDepacketizer fs m)) := by
  have hn : n < (ciphered core fs).length := by
    rwa [← List.length_map, ciphered_data hf hstrm]
  obtain ⟨init, w, rest, hmarked, hinit, hw, hlen, hpay⟩ :=
    marked_cut lasts 0 (ciphered core fs) hn (by simpa using hfirst) (by simpa using hlast)
  rw [ciphered_data hf hstrm] at hpay
  have hl : (init.map NetWord.data ++ [w.data]).length ≤ 1024 := by
    rw [List.length_append, List.length_map, List.length_singleton]
    omega
  obtain ⟨piece, k, hread⟩ := @return_marked core lasts ports fs hf hstrm m
  generalize publishedAll (Memory.shared PathCore Cell.Val) .udpDepacketizer fs m = M at hread ⊢
  obtain ⟨y, hy, hr⟩ := udpPacketizer_chunk (Memory.shared PathCore Cell.Val)
    PathCore.udpPacketizer ports init rest w .entry hinit
    (by simpa [PayloadBuffering.entry, hlen] using h1024) (.inl hw)
    ⟨fun _ => marked lasts 0 (ciphered core fs),fun _ => [],M⟩ hmarked
  have hsent := path_packetizer core lasts ports (Memory.shared PathCore Cell.Val) fs piece k
    (.head hy hr.blocks)
  refine ⟨_, hread.trans hsent, ?_⟩
  rw [← hpay]
  exact delivered_packet _ _ _ w.user hl rfl

/-- The packets for the frames deliver all that is owed. -/
lemma delivered_answers {packets : List Frame} (h : List.Forall₂ (AnswersFrame core) fs packets)
    (hs : s.fifo .udpOutputBuffer = packets.flatMap Frame.words) : delivered s = owed core fs := by
  rw [delivered, hs, cutFrames_frames, List.flatMap_map, owed]
  clear hs
  induction h with
  | nil => rfl
  | cons hf _ ih =>
    obtain ⟨hpay, hip⟩ := hf
    rw [List.flatMap_cons, List.flatMap_cons, ih, hpay, hip]

/-- Served one after the other, all clients get what they are owed. -/
lemma serve_clients (fs : List Frame)
    (hf : ∀ f ∈ fs, StrmFrame f.words ∧ core.blockSize ∣ (udpPayload f.words).length)
    (hmarks : MarksFrames lasts 0 fs) (m : (Memory.shared PathCore Cell.Val).State) :
    ∃ s, QuietRun (fun _ => ⊤) (returnStart core lasts ports fs m) s ∧
      delivered s = owed core fs := by
  obtain ⟨packets, k, m', hall, hrun⟩ := serve_frames ports fs hf 0 hmarks [] m
  have hstart : betweenFrames core lasts ports (fs.flatMap Frame.words) 0 [] m =
      returnStart core lasts ports fs m := by
    refine congrArg (pathState core lasts ports (pathLabel core core.start 0 .entry) · m)
      (funext fun c => ?_)
    cases c with
    | strm q => cases q <;> rfl
    | _ => rfl
  rw [hstart] at hrun
  exact ⟨_, hrun, delivered_answers hall rfl⟩

end Return

/-- A datagram of 24 bytes `b` for port 60000 from the client 10.0.0.`host`. -/
def clientFrame (host b : Byte) : Frame where
  init := (List.replicate 12 0xff ++ [0x08,0x00,0x45] ++ List.replicate 8 0 ++ [0x11,0x00,0x00] ++
    [0x0a,0x00,0x00,host] ++ List.replicate 6 0 ++ [0xea,0x60,0x00,0x20,0x00,0x00] ++
      List.replicate 23 b).map byteWord
  final := ⟨b,true,false⟩
  init_last := fun _ => byteWord_last
  final_last := rfl

/-- DES with all round keys zero. -/
def zeroDes : CipherCore := .des (.replicate 17 (.replicate 8 0)) 0

lemma clientFrame_strm : ∀ f ∈ [clientFrame 1 0,clientFrame 2 1],
    StrmFrame f.words ∧ zeroDes.blockSize ∣ (udpPayload f.words).length := by
  intro f hf
  rcases List.mem_pair.mp hf with rfl | rfl
  · exact ⟨⟨by decide, 24, by decide, by decide, by decide⟩, 3, by decide⟩
  · exact ⟨⟨by decide, 24, by decide, by decide, by decide⟩, 3, by decide⟩

end EncryptionAccelerators.Net
