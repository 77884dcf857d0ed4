import EncryptionAccelerators.UdpDepacketizer
import EncryptionAccelerators.UdpPacketizer

/-! What `udp_packetizer` cuts from a word stream, and `udp_depacketizer` as its inverse. -/
namespace EncryptionAccelerators.Net
open Dataflow

/-- The complete chunks of a word stream, each cut after a word with `last` or after 1024 words;
`part` holds the words of the chunk being cut. -/
def cutChunks (part : List NetWord) : List NetWord → List (List NetWord)
  | [] => []
  | w::ws =>
    if w.last ∨ part.length + 1 = 1024 then (part ++ [w])::cutChunks [] ws
    else cutChunks (part ++ [w]) ws

def chunks (words : List NetWord) : List (List NetWord) := cutChunks [] words

/-- The words `init` leave a chunk incomplete. -/
def Incomplete (init : List NetWord) : Prop := (∀ w ∈ init, w.last = false) ∧ init.length < 1024

/-- A chunk ends where it is complete and no earlier. -/
def Chunk (c : List NetWord) : Prop :=
  ∃ init w, c = init ++ [w] ∧ Incomplete init ∧ (w.last = true ∨ init.length + 1 = 1024)

lemma Incomplete.concat {part : List NetWord} (h : Incomplete part) {w : NetWord}
    (hw : ¬ (w.last = true ∨ part.length + 1 = 1024)) : Incomplete (part ++ [w]) := by
  obtain ⟨hlast, hlen⟩ := h
  rw [not_or, Bool.not_eq_true] at hw
  constructor
  · intro x hx
    rcases List.mem_append.mp hx with hx | hx
    · exact hlast x hx
    · rw [List.mem_singleton.mp hx]
      exact hw.1
  · rw [List.length_append, List.length_singleton]
    omega

/-- Cutting loses no word, and what is left over is incomplete. -/
lemma cutChunks_spec (part words : List NetWord) (h : Incomplete part) :
    (∀ c ∈ cutChunks part words, Chunk c) ∧
      ∃ tail, part ++ words = (cutChunks part words).flatten ++ tail ∧ Incomplete tail := by
  induction words generalizing part with
  | nil => exact ⟨by simp [cutChunks], part, by simp [cutChunks], h⟩
  | cons w ws ih =>
    by_cases hw : w.last = true ∨ part.length + 1 = 1024
    · obtain ⟨hc, tail, happ, htail⟩ := ih [] ⟨by simp, by decide⟩
      rw [cutChunks, if_pos hw]
      refine ⟨?_, tail, ?_, htail⟩
      · intro c hm
        rcases List.mem_cons.mp hm with rfl | hm
        · exact ⟨part, w, rfl, h, hw⟩
        · exact hc c hm
      · simpa using happ
    · obtain ⟨hc, tail, happ, htail⟩ := ih (part ++ [w]) (h.concat hw)
      rw [cutChunks, if_neg hw]
      exact ⟨hc, tail, by simpa using happ, htail⟩

section UdpPacketizer
variable {ι : Type} (mem : Memory ι Cell.Val) (i : ι) (ports : PacketizerPorts)

lemma push_ne_entry (s : PayloadBuffering) (b : Byte) (h : (s.dataBuf ++ [b]).length < 1024) :
    s.push b h ≠ .entry := by
  intro he
  have hbuf : s.dataBuf ++ [b] = [] := congrArg PayloadBuffering.dataBuf he
  simp at hbuf

/-- The rest of a chunk: it is buffered and its packet emitted. -/
lemma udpPacketizer_chunk (init rest : List NetWord) (w : NetWord) (s : PayloadBuffering)
    (hinit : ∀ x ∈ init, x.last = false) (hlen : s.dataBuf.length + init.length < 1024)
    (hw : w.last = true ∨ s.dataBuf.length + init.length + 1 = 1024)
    (io : Io InputStrm OutputStrm NetWord mem.State)
    (hs : io.inp .inputStrm = init ++ w::rest) : ∃ y,
      Block mem i (udpPacketizer ports) (s,io) y ∧
      Until mem i (udpPacketizer ports) .entry y (.entry,⟨fun _ => rest,
        fun _ => io.out .outputStrm ++ (packet ports (mem.load i .dstIpAddr io.mem).1
          (s.dataBuf ++ init.map NetWord.data) w.data w.user).words,
        (mem.load i .dstIpAddr io.mem).2⟩) := by
  induction init generalizing s io with
  | nil =>
    have hemit : ¬ (w.last = false ∧ (s.dataBuf ++ [w.data]).length < 1024) := by
      rintro ⟨hl, hr⟩
      rw [List.length_append, List.length_singleton] at hr
      rcases hw with hw | hw
      · rw [hl] at hw
        cases hw
      · rw [List.length_nil, Nat.add_zero] at hw
        omega
    refine ⟨_, exec_udpPacketizer_emit mem i ports s io hs hemit, Until.to .refl ?_⟩
    simp
  | cons x init ih =>
    rw [List.length_cons] at hlen hw
    have hpush : x.last = false ∧ (s.dataBuf ++ [x.data]).length < 1024 := by
      refine ⟨hinit x (by simp), ?_⟩
      rw [List.length_append, List.length_singleton]
      omega
    have hbuf : (s.push x.data hpush.2).dataBuf.length = s.dataBuf.length + 1 :=
      List.length_append
    obtain ⟨y, hy, hr⟩ := ih (s.push x.data hpush.2) (fun z hz => hinit z (by simp [hz]))
      (by rw [hbuf]; omega) (hw.imp_right fun h => by rw [hbuf]; omega)
      ⟨fun _ => init ++ w::rest,io.out,io.mem⟩ rfl
    refine ⟨_, exec_udpPacketizer_push mem i ports s io hs hpush, ?_⟩
    refine Until.head (push_ne_entry s x.data hpush.2) hy (hr.to ?_)
    simp [PayloadBuffering.push]

/-- Without a complete chunk on its input an invocation does not return. -/
lemma udpPacketizer_waits (ws : List NetWord) (s : PayloadBuffering)
    (hws : ∀ x ∈ ws, x.last = false) (hlen : s.dataBuf.length + ws.length < 1024)
    (io t : Io InputStrm OutputStrm NetWord mem.State) (hs : io.inp .inputStrm = ws)
    {y : PayloadBuffering × Io InputStrm OutputStrm NetWord mem.State}
    (hy : Block mem i (udpPacketizer ports) (s,io) y)
    (hr : Until mem i (udpPacketizer ports) .entry y (.entry,t)) : False := by
  induction ws generalizing s io y with
  | nil =>
    rw [Block, udpPacketizer, readWord_bind, exec_recv_none mem i _ _ io hs] at hy
    cases hy
  | cons x ws ih =>
    rw [List.length_cons] at hlen
    have hpush : x.last = false ∧ (s.dataBuf ++ [x.data]).length < 1024 := by
      refine ⟨hws x (by simp), ?_⟩
      rw [List.length_append, List.length_singleton]
      omega
    have hbuf : (s.push x.data hpush.2).dataBuf.length = s.dataBuf.length + 1 :=
      List.length_append
    obtain rfl := Block.deterministic hy (exec_udpPacketizer_push mem i ports s io hs hpush)
    rcases hr.cases_head with he | ⟨z, ⟨_, hz⟩, hr⟩
    · exact push_ne_entry s x.data hpush.2 (congrArg Prod.fst he)
    · exact ih (s.push x.data hpush.2) (fun z hz => hws z (by simp [hz])) (by rw [hbuf]; omega) _
        rfl hz hr

end UdpPacketizer

/-- The packet a chunk is sent in. -/
def chunkPacket (ports : PacketizerPorts) (dstIpAddr : BitVec 32) (c : List NetWord) : Frame :=
  packet ports dstIpAddr (c.dropLast.map NetWord.data) (c.getLastD default).data
    (c.getLastD default).user

lemma chunkPacket_concat (ports : PacketizerPorts) (dstIpAddr : BitVec 32) (init : List NetWord)
    (w : NetWord) : chunkPacket ports dstIpAddr (init ++ [w]) =
      packet ports dstIpAddr (init.map NetWord.data) w.data w.user := by
  simp [chunkPacket]

lemma Chunk.length_le {c : List NetWord} (h : Chunk c) : c.length ≤ 1024 := by
  obtain ⟨init, w, rfl, ⟨-, hroom⟩, -⟩ := h
  rw [List.length_append, List.length_singleton]
  omega

/-- What a frame made from a chunk has to be: its lengths fit, its payload is the data of the chunk,
and `udp_depacketizer` gets the chunk and its sender back. -/
structure Packetized (ports : PacketizerPorts) (dstIpAddr : BitVec 32) (c : List NetWord)
    (f : Frame) : Prop where
  length : f.words.length = 42 + c.length
  etherType : (ethernetOf f.words).etherType = 0x0800
  totalLength : (ipv4Of (f.words.drop 14)).totalLength.toNat = 28 + c.length
  len : (udpOf (f.words.drop 34)).len.toNat = 8 + c.length
  srcIp : (ipv4Of (f.words.drop 14)).srcIp = ports.ipAddr
  dstIp : (ipv4Of (f.words.drop 14)).dstIp = dstIpAddr
  payload : udpPayload f.words = c.map NetWord.data
  depacketized : ∀ (rest out : List NetWord) (m : (c : Cell) → c.Val), ∃ g : Frame,
    g.words.map NetWord.data = c.map NetWord.data ∧
    ∀ t, Invokes (Memory.shared Unit Cell.Val) () udpDepacketizer .start
      ⟨fun _ => f.words ++ rest,fun _ => out,m⟩ t ↔
        t = ⟨fun _ => rest,fun _ => out ++ g.words,
          Function.update (Function.update m .dstIpAddr ports.ipAddr) .dstMacAddr
            (ports.macAddrHi ++ ports.macAddrLo)⟩

lemma totalLength_toNat {n : ℕ} (h : n ≤ 1024) : (28 + BitVec.ofNat 16 n).toNat = 28 + n := by
  rw [BitVec.toNat_add, BitVec.toNat_ofNat]
  have h28 : (28 : BitVec 16).toNat = 28 := rfl
  omega

lemma Chunk.packetized (ports : PacketizerPorts) (dstIpAddr : BitVec 32) {c : List NetWord}
    (h : Chunk c) : Packetized ports dstIpAddr c (chunkPacket ports dstIpAddr c) := by
  have hle := h.length_le
  obtain ⟨init, w, rfl, -, -⟩ := h
  have hcount : (init.map NetWord.data ++ [w.data]).length = (init ++ [w]).length := by simp
  obtain ⟨heth, hip, hudp⟩ := packet_fields ports dstIpAddr (init.map NetWord.data) w.data w.user
  rw [chunkPacket_concat]
  set f := packet ports dstIpAddr (init.map NetWord.data) w.data w.user with hf
  have hlength : f.words.length = 42 + (init ++ [w]).length := by
    simp only [hf, packet, Frame.words, List.length_append, List.length_map, packetHeader_length,
      List.length_singleton]
    omega
  have hdrop : f.words.drop 42 =
      ((init.map NetWord.data).map fun x => ⟨x,false,w.user⟩) ++ [⟨w.data,true,w.user⟩] := by
    rw [hf, packet, Frame.words, List.append_assoc]
    exact List.drop_left' (by rw [List.length_map, packetHeader_length])
  constructor
  · exact hlength
  · rw [heth]; rfl
  · rw [hip, packetIpv4, hcount, totalLength_toNat hle]
  · rw [hudp, packetUdp, hcount, len_toNat hle]
  · rw [hip]; rfl
  · rw [hip]; rfl
  · rw [packet_payload ports _ _ _ _ (hcount.trans_le hle)]
    simp
  · intro rest out m
    refine ⟨⟨(init.map NetWord.data).map fun x => ⟨x,false,w.user⟩,⟨w.data,true,w.user⟩,?_,rfl⟩,
      ?_, ?_⟩
    · intro x hx
      obtain ⟨b, -, rfl⟩ := List.mem_map.mp hx
      rfl
    · simp [Frame.words]
    · have hinv := udpDepacketizer_invokes (Memory.shared Unit Cell.Val) () f
        (by rw [hlength, List.length_append, List.length_singleton]; omega) rest
        ⟨fun _ => f.words ++ rest,fun _ => out,m⟩ rfl
      rw [hdrop, published, heth, hip] at hinv
      exact fun t => ⟨fun h => h.deterministic hinv, fun h => h ▸ hinv⟩

lemma Chunk.invokes (ports : PacketizerPorts) {c : List NetWord} (h : Chunk c)
    (rest out : List NetWord) (m : (c : Cell) → c.Val) :
    Invokes (Memory.shared Unit Cell.Val) () (udpPacketizer ports) .entry
      ⟨fun _ => c ++ rest,fun _ => out,m⟩
      ⟨fun _ => rest,fun _ => out ++ (chunkPacket ports (m .dstIpAddr) c).words,m⟩ := by
  obtain ⟨init, w, rfl, ⟨hinit, hroom⟩, hw⟩ := h
  have hempty : PayloadBuffering.entry.dataBuf.length + init.length = init.length := Nat.zero_add _
  rw [chunkPacket_concat]
  exact udpPacketizer_chunk (Memory.shared Unit Cell.Val) () ports init rest w .entry hinit
    (by rwa [hempty]) (by rwa [hempty]) ⟨fun _ => init ++ [w] ++ rest,fun _ => out,m⟩ (by simp)

/-- Each invocation sends one complete chunk, in order, until none is left; each packet gives its
chunk back. -/
theorem packetizing_lossless (ports : PacketizerPorts) (words : List NetWord)
    (m : (c : Cell) → c.Val) : ∃ (tail : List NetWord) (frames : List Frame),
      words = (chunks words).flatten ++ tail ∧
      List.Forall₂ (Packetized ports (m .dstIpAddr)) (chunks words) frames ∧
      ∀ n t, InvokesN (Memory.shared Unit Cell.Val) () (udpPacketizer ports) .entry n
          ⟨fun _ => words,fun _ => [],m⟩ t ↔
        n ≤ (chunks words).length ∧ t = ⟨fun _ => ((chunks words).drop n).flatten ++ tail,
          fun _ => (frames.take n).flatMap Frame.words,m⟩ := by
  obtain ⟨hchunk, tail, happ, htail, hlen⟩ := cutChunks_spec [] words ⟨by simp, by decide⟩
  set cs := chunks words with hcs
  refine ⟨tail, cs.map (chunkPacket ports (m .dstIpAddr)), happ, ?_, ?_⟩
  · rw [List.forall₂_map_right_iff, List.forall₂_same]
    exact fun c hc => (hchunk c hc).packetized ports _
  · intro n t
    refine invokesN_iff (s := fun n => ⟨fun _ => (cs.drop n).flatten ++ tail,
      fun _ => ((cs.map (chunkPacket ports (m .dstIpAddr))).take n).flatMap Frame.words,m⟩)
      (congrArg (fun ws => ⟨fun _ => ws,fun _ => [],m⟩ :
        List NetWord → Io InputStrm OutputStrm NetWord ((c : Cell) → c.Val)) happ.symm) ?_ ?_ n t
    · intro n hn
      have hdrop : cs.drop n = cs[n]::cs.drop (n+1) := List.drop_eq_getElem_cons hn
      have htake : cs.take (n+1) = cs.take n ++ [cs[n]] := List.take_succ_eq_append_getElem hn
      have hinv := (hchunk cs[n] (List.getElem_mem hn)).invokes ports
        ((cs.drop (n+1)).flatten ++ tail)
        (((cs.map (chunkPacket ports (m .dstIpAddr))).take n).flatMap Frame.words) m
      simp only [hdrop, ← List.map_take, htake, List.flatten_cons, List.append_assoc, List.map_append,
        List.flatMap_append]
      simpa [← List.map_take] using hinv
    · rintro t ⟨y, hy, hr⟩
      exact udpPacketizer_waits _ _ ports tail .entry htail
        (by simpa [PayloadBuffering.entry] using hlen) _ t (by simp) hy hr

end EncryptionAccelerators.Net
