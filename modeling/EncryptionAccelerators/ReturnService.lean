import EncryptionAccelerators.Transit
import EncryptionAccelerators.Packetizing

/-! Clients served one after the other: a datagram enters `udp_depacketizer` when all bytes of the
one before it are in a packet. -/
namespace EncryptionAccelerators.Net
open Dataflow

/-- A stream whose first mark is on word `n`, cut there. -/
lemma marked_cut (lasts : ℕ → Bool) (k : ℕ) (ws : List NetWord) {n : ℕ} (hn : n < ws.length)
    (hfirst : ∀ j < n, lasts (k + j) = false) (hlast : lasts (k + n) = true) : ∃ init w rest,
      marked lasts k ws = init ++ w::rest ∧ (∀ x ∈ init, x.last = false) ∧ w.last = true ∧
      init.length = n ∧ init.map NetWord.data ++ [w.data] = (ws.map NetWord.data).take (n+1) := by
  have hlen : n < (marked lasts k ws).length := by
    have hl := congrArg List.length (marked_data lasts k ws)
    rw [List.length_map, List.length_map] at hl
    omega
  have hcut : marked lasts k ws =
      (marked lasts k ws).take n ++ (marked lasts k ws)[n]::(marked lasts k ws).drop (n+1) := by
    rw [← List.drop_eq_getElem_cons hlen, List.take_append_drop]
  refine ⟨_, _, _, hcut, fun x hx => ?_, ?_, List.length_take_of_le hlen.le, ?_⟩
  · obtain ⟨j, hj, rfl⟩ := List.mem_iff_getElem.mp hx
    have hjn : j < n := by
      rw [List.length_take] at hj
      omega
    rw [List.getElem_take, marked_last]
    exact hfirst j hjn
  · rw [marked_last]
    exact hlast
  · rw [← marked_data lasts k ws, ← List.map_take, List.take_succ_eq_append_getElem hlen,
      List.map_append, List.map_singleton]

section Service
variable {core : CipherCore} {lasts : ℕ → Bool} {ports : PacketizerPorts}
  {s t : (encryptionPath core lasts ports).State (Memory.shared PathCore Cell.Val).State}
  {ld st : Cell → Prop}

/-- The words still to be read, those between the cores and those put out. -/
def serving (queue raw enc sel out : List NetWord) : PathFifo → List NetWord
  | .strm q => if q = .udpStrmStrm then queue else []
  | .rawDataBuf => raw
  | .encDataBuf => enc
  | .outSel => sel
  | .udpOutputBuffer => out
  | _ => []

/-! Steps of one core. -/

lemma Quiet.of_only (h : Quiet s) (ho : Network.Only .udpDepacketizer s t)
    (hraw : t.fifo .rawDataBuf = []) : Quiet t where
  rawDataBuf := hraw
  encDataBuf := (ho.2 .encDataBuf (by simp [PathCore.src]) (by simp [PathCore.dst])).trans h.encDataBuf
  outSel := (ho.2 .outSel (by simp [PathCore.src]) (by simp [PathCore.dst])).trans h.outSel
  cipher := by
    rw [ho.1 .cipher (by simp)]
    exact h.cipher
  outSwitch := by
    rw [ho.1 .outSwitch (by simp)]
    exact h.outSwitch
  udpPacketizer := by
    rw [ho.1 .udpPacketizer (by simp)]
    exact h.udpPacketizer

/-- A core that does not store the address. -/
lemma QuietRun.of_stores {i : PathCore} (hst : ¬ st .dstIpAddr)
    (h : (encryptionPath core lasts ports).RunAt (Memory.shared PathCore Cell.Val) i ld st s t) :
    QuietRun (fun _ => ⊤) s t :=
  Relation.ReflTransGen.mono
    (fun _ _ hs => ⟨⟨i, hs.1⟩, fun hne => absurd (hs.1.mem_eq hs.2 hst) hne⟩) _ _ h

/-- `udp_depacketizer` before it forwards a byte. -/
lemma QuietRun.of_quiet (h : (encryptionPath core lasts ports).RunAt
      (Memory.shared PathCore Cell.Val) .udpDepacketizer ld st s t) (hs : Quiet s)
    (hraw : t.fifo .rawDataBuf = []) : QuietRun (fun _ => ⊤) s t ∧ Quiet t := by
  induction h using Relation.ReflTransGen.head_induction_on with
  | refl => exact ⟨.refl, hs⟩
  | @head s u hstep hrest ih =>
    have hgrow : u.fifo .rawDataBuf <+: t.fifo .rawDataBuf :=
      Network.RunAt.dst_grows hrest .outputStrm
    have hu : u.fifo .rawDataBuf = [] := List.prefix_nil.mp (hraw ▸ hgrow)
    obtain ⟨hrun, ht⟩ := ih (hs.of_only hstep.1.only hu)
    exact ⟨.head ⟨⟨_, hstep.1⟩, fun _ => hs⟩ hrun, ht⟩

/-- Blocks of a core that does not store the address. -/
lemma QuietRun.of_blocks {i : PathCore}
    (hacc : ∀ l, ((encryptionPath core lasts ports).body i l).Accesses ld st) (hst : ¬ st .dstIpAddr)
    {x y : (encryptionPath core lasts ports).Label i ×
      Io (PathCore.In i) (PathCore.Out i) NetWord ((c : Cell) → c.Val)}
    [DecidableEq (PathCore.In i)] [DecidableEq (PathCore.Out i)]
    (hb : Blocks (Memory.shared PathCore Cell.Val) i ((encryptionPath core lasts ports).body i) x y)
    (hc : s.code i = .ret x.1) (hs : Network.Sees i s x.2) (hct : t.code i = .ret y.1)
    (ht : Network.Sees i t y.2) (ho : Network.Only i s t) : QuietRun (fun _ => ⊤) s t := by
  have hb' := Relation.ReflTransGen.mono (fun _ _ h => And.intro trivial h) _ _ hb
  exact .of_stores hst
    (Network.runAt_stage (P := fun _ => True) (fun l _ => hacc l) hb' hc hs hct ht ho)

variable (core lasts ports) in
/-- Between two datagrams: `queue` is still to be read, `k` bytes have been enciphered. -/
def betweenFrames (queue : List NetWord) (k : ℕ) (out : List NetWord) (m : (c : Cell) → c.Val) :
    (encryptionPath core lasts ports).State ((c : Cell) → c.Val) :=
  pathState core lasts ports (pathLabel core core.start k .entry) (serving queue [] [] [] out) m

lemma quiet_betweenFrames {queue out : List NetWord} {k : ℕ} {m : (c : Cell) → c.Val} :
    Quiet (betweenFrames core lasts ports queue k out m) :=
  ⟨rfl, rfl, rfl, .inl rfl, ⟨k, .inl rfl⟩, .inr ⟨[], rfl⟩⟩

variable (core lasts ports) in
/-- The frame is stripped: its address is stored while no byte is on its way. -/
lemma strip_frame (f : Frame) (hf : 43 ≤ f.words.length) (rest : List NetWord) (k : ℕ)
    (out : List NetWord) (m : (c : Cell) → c.Val) :
    QuietRun (fun _ => ⊤) (betweenFrames core lasts ports (f.words ++ rest) k out m)
      (pathState core lasts ports (pathLabel core core.start k .entry)
        (serving rest (f.words.drop 42) [] [] out)
        (published (Memory.shared PathCore Cell.Val) .udpDepacketizer f.words m)) := by
  obtain ⟨x, hx, huntil⟩ := udpDepacketizer_invokes (Memory.shared PathCore Cell.Val)
    PathCore.udpDepacketizer f hf rest ⟨fun _ => f.words ++ rest,fun _ => [],m⟩ rfl
  have hheaders := exec_udpDepacketizer (Memory.shared PathCore Cell.Val) PathCore.udpDepacketizer
    ⟨fun _ => f.words ++ rest,fun _ => [],m⟩ (f := f.words ++ rest) rfl (by simp; omega)
  obtain rfl := Block.deterministic hx hheaders
  have hb : Relation.ReflTransGen (fun x y => True ∧ Block (Memory.shared PathCore Cell.Val)
      PathCore.udpDepacketizer udpDepacketizer x y) _ _ := .single ⟨trivial, hx⟩
  obtain ⟨u, hr, hcode, hsees⟩ := Network.runAt_blocks (N := encryptionPath core lasts ports)
    (i := PathCore.udpDepacketizer) (P := fun _ => True) (fun l _ => udpDepacketizer_accesses l) hb
    (s := betweenFrames core lasts ports (f.words ++ rest) k out m) rfl
    ⟨fun p => rfl, fun q => rfl, rfl⟩
  obtain ⟨hquiet, -⟩ := QuietRun.of_quiet hr quiet_betweenFrames (hsees.2.1 .outputStrm)
  have hpass : ∀ l : UdpDepacketizerLabel, l ≠ .start → (udpDepacketizer l).Accesses NoCell NoCell := by
    intro l hl
    cases l with
    | start => exact absurd rfl hl
    | passStream => simp [udpDepacketizer, passStream]
  refine hquiet.trans (@QuietRun.of_stores core lasts ports _ _ NoCell NoCell .udpDepacketizer id ?_)
  refine Network.runAt_stage (N := encryptionPath core lasts ports) (i := PathCore.udpDepacketizer)
    (P := fun l => l ≠ UdpDepacketizerLabel.start) hpass huntil hcode hsees rfl
    ⟨fun p => rfl, fun q => rfl, rfl⟩ (hr.only.symm.trans ⟨fun j hj => rfl, fun c hs hd => ?_⟩)
  cases c with
  | strm q =>
    cases q with
    | udpStrmStrm => exact absurd rfl (hs .inputStrm)
    | _ => rfl
  | rawDataBuf => exact absurd rfl (hd .outputStrm)
  | _ => rfl

variable (core lasts ports) in
lemma encipher_frame (ws rest : List NetWord) (hdvd : core.blockSize ∣ ws.length) (k : ℕ)
    (out : List NetWord) (m : (Memory.shared PathCore Cell.Val).State) : QuietRun (fun _ => ⊤)
      (pathState core lasts ports (pathLabel core core.start k .entry) (serving rest ws [] [] out) m)
      (pathState core lasts ports (pathLabel core core.start k .entry)
        (serving rest [] ((core.cipher (ws.map NetWord.data)).map byteWord) [] out) m) := by
  have hb := blockCore_blocks (Memory.shared PathCore Cell.Val) PathCore.cipher core.blockSize_pos
    core.processBlock ws [] core.start ⟨fun _ => ws,fun _ => [],m⟩ (List.append_nil _).symm
  have hresidue : residue core.blockSize (core.start.val ++ ws.map NetWord.data) = [] :=
    residue_of_dvd _ (by simpa [CipherCore.start] using hdvd)
  simp only [hresidue] at hb
  rw [← core.body_eq] at hb
  refine QuietRun.of_blocks (i := .cipher) (cipher_accesses core) id hb rfl
    ⟨fun p => rfl, fun q => rfl, rfl⟩ rfl ⟨fun p => rfl, fun q => rfl, rfl⟩
    ⟨fun j hj => ?_, fun c hs hd => ?_⟩
  · cases j with
    | cipher => exact absurd rfl hj
    | _ => rfl
  · cases c with
    | rawDataBuf => exact absurd rfl (hs .inputStrm)
    | encDataBuf => exact absurd rfl (hd .outputStrm)
    | _ => rfl

variable (core lasts ports) in
lemma mark_frame (ws rest : List NetWord) (k : ℕ) (out : List NetWord)
    (m : (Memory.shared PathCore Cell.Val).State) : QuietRun (fun _ => ⊤)
      (pathState core lasts ports (pathLabel core core.start k .entry) (serving rest [] ws [] out) m)
      (pathState core lasts ports (pathLabel core core.start (k + ws.length) .entry)
        (serving rest [] [] (marked lasts k ws) out) m) := by
  have hb := outSwitch_blocks (Memory.shared PathCore Cell.Val) PathCore.outSwitch lasts k ws
    ⟨fun _ => ws,fun _ => [],m⟩ rfl
  refine QuietRun.of_blocks (i := .outSwitch) (outSwitch_accesses lasts) id hb rfl
    ⟨fun p => rfl, fun q => rfl, rfl⟩ rfl ⟨fun p => rfl, fun q => rfl, rfl⟩
    ⟨fun j hj => ?_, fun c hs hd => ?_⟩
  · cases j with
    | outSwitch => exact absurd rfl hj
    | _ => rfl
  · cases c with
    | encDataBuf => exact absurd rfl (hs .inputStrm)
    | outSel => exact absurd rfl (hd .outputStrm)
    | _ => rfl

variable (core lasts ports) in
lemma send_frame (init : List NetWord) (w : NetWord) (hinit : ∀ x ∈ init, x.last = false)
    (hw : w.last = true) (hlen : init.length < 1024) (rest : List NetWord) (k : ℕ)
    (out : List NetWord) (m : (Memory.shared PathCore Cell.Val).State) : QuietRun (fun _ => ⊤)
      (pathState core lasts ports (pathLabel core core.start k .entry)
        (serving rest [] [] (init ++ [w]) out) m)
      (betweenFrames core lasts ports rest k
        (out ++ (packet ports (publishedIp m) (init.map NetWord.data) w.data w.user).words) m) := by
  obtain ⟨y, hy, hr⟩ := udpPacketizer_chunk (Memory.shared PathCore Cell.Val)
    PathCore.udpPacketizer ports init [] w .entry hinit
    (by simpa [PayloadBuffering.entry] using hlen) (.inl hw) ⟨fun _ => init ++ [w],fun _ => out,m⟩ rfl
  refine QuietRun.of_blocks (i := .udpPacketizer) (udpPacketizer_accesses ports) id
    (.head hy hr.blocks) rfl ⟨fun p => rfl, fun q => rfl, rfl⟩ rfl
    ⟨fun p => rfl, fun q => rfl, rfl⟩ ⟨fun j hj => ?_, fun c hs hd => ?_⟩
  · cases j with
    | udpPacketizer => exact absurd rfl hj
    | _ => rfl
  · cases c with
    | outSel => exact absurd rfl (hs .inputStrm)
    | udpOutputBuffer => exact absurd rfl (hd .outputStrm)
    | _ => rfl

lemma publishedIp_published (f : List NetWord) (m : (Memory.shared PathCore Cell.Val).State) :
    publishedIp (published (Memory.shared PathCore Cell.Val) .udpDepacketizer f m) =
      (ipv4Of (f.drop 14)).srcIp := by
  have hne : Cell.dstMacAddr ≠ .dstIpAddr := by simp
  have hmac (m' : (c : Cell) → c.Val) (v : BitVec 48) : publishedIp
      ((Memory.shared PathCore Cell.Val).store .udpDepacketizer .dstMacAddr v m') = publishedIp m' :=
    publishedIp_store_of_ne m' .udpDepacketizer v hne
  exact (hmac _ _).trans (publishedIp_store m .udpDepacketizer _)

/-- The next mark is on the last byte of each payload, the first of them being byte `k`. -/
def MarksFrames (lasts : ℕ → Bool) : ℕ → List Frame → Prop
  | _, [] => True
  | k, f::fs => ∃ n < 1024, (udpPayload f.words).length = n + 1 ∧ (∀ j < n, lasts (k + j) = false) ∧
      lasts (k + n) = true ∧ MarksFrames lasts (k + (n + 1)) fs

/-- The packet for the payload of a frame. -/
def AnswersFrame (core : CipherCore) (f packet : Frame) : Prop :=
  udpPayload packet.words = core.cipher (udpPayload f.words) ∧
    (ipv4Of (packet.words.drop 14)).dstIp = (ipv4Of (f.words.drop 14)).srcIp

variable (lasts ports) in
/-- One client is served, and no byte of its datagram is left on the way. -/
lemma serve_frame {f : Frame} (hf : StrmFrame f.words)
    (hdvd : core.blockSize ∣ (udpPayload f.words).length) {n : ℕ} (hn : n < 1024)
    (hlen : (udpPayload f.words).length = n + 1) {k : ℕ} (hfirst : ∀ j < n, lasts (k + j) = false)
    (hlast : lasts (k + n) = true) (rest out : List NetWord)
    (m : (Memory.shared PathCore Cell.Val).State) : ∃ (packet : Frame) (m' : _),
      AnswersFrame core f packet ∧
      QuietRun (fun _ => ⊤) (betweenFrames core lasts ports (f.words ++ rest) k out m)
        (betweenFrames core lasts ports rest (k + (n + 1)) (out ++ packet.words) m') := by
  have h60 : 60 ≤ f.words.length := by
    obtain ⟨l, hl, -, hwords⟩ := hf.payload
    omega
  have hstrip := strip_frame core lasts ports f (by omega) rest k out m
  set m' := published (Memory.shared PathCore Cell.Val) .udpDepacketizer f.words m
  have hpay := hf.udpPayload_eq
  have hcount : (f.words.drop 42).length = (udpPayload f.words).length := by
    rw [hpay, List.length_map]
  have hencipher := encipher_frame core lasts ports
    (f.words.drop 42) rest (by rwa [hcount]) k out m'
  rw [← hpay] at hencipher
  set enc := (core.cipher (udpPayload f.words)).map byteWord
  have hdata : enc.map NetWord.data = core.cipher (udpPayload f.words) := by
    rw [List.map_map]
    exact List.map_id _
  have henc : enc.length = n + 1 := by
    rw [List.length_map, CipherCore.cipher_length hdvd, hlen]
  have hmark := mark_frame core lasts ports enc rest k out m'
  obtain ⟨init, w, tail, hmarked, hinit, hw, hil, hbytes⟩ :=
    marked_cut lasts k enc (by omega) hfirst hlast
  have htail : tail = [] := by
    have hl := congrArg List.length (marked_data lasts k enc)
    rw [hmarked, List.length_map, List.length_map, List.length_append, List.length_cons] at hl
    exact List.length_eq_zero_iff.mp (by omega)
  rw [hmarked, htail, henc] at hmark
  have hsend := send_frame core lasts ports init w hinit hw
    (by omega) rest (k + (n + 1)) out m'
  refine ⟨_, m', ⟨?_, ?_⟩, hstrip.trans (hencipher.trans (hmark.trans hsend))⟩
  · have hl : (init.map NetWord.data ++ [w.data]).length ≤ 1024 := by
      rw [List.length_append, List.length_map, List.length_singleton]
      omega
    rw [packet_payload _ _ _ _ _ hl, hbytes, hdata,
      List.take_of_length_le (by rw [CipherCore.cipher_length hdvd]; omega)]
  · obtain ⟨-, hip, -⟩ := packet_fields ports (publishedIp m') (init.map NetWord.data) w.data w.user
    rw [hip]
    exact publishedIp_published f.words m

variable (ports) in
/-- All clients are served, one after the other, and the address changes only in between. -/
lemma serve_frames (fs : List Frame)
    (hf : ∀ f ∈ fs, StrmFrame f.words ∧ core.blockSize ∣ (udpPayload f.words).length) (k : ℕ)
    (hmarks : MarksFrames lasts k fs) (out : List NetWord)
    (m : (Memory.shared PathCore Cell.Val).State) : ∃ (packets : List Frame) (k' : ℕ) (m' : _),
      List.Forall₂ (AnswersFrame core) fs packets ∧
      QuietRun (fun _ => ⊤)
        (betweenFrames core lasts ports (fs.flatMap Frame.words) k out m)
        (betweenFrames core lasts ports [] k' (out ++ packets.flatMap Frame.words) m') := by
  induction fs generalizing k out m with
  | nil => exact ⟨[], k, m, .nil, by rw [List.flatMap_nil, List.append_nil]; exact .refl⟩
  | cons f fs ih =>
    obtain ⟨hstrm, hdvd⟩ := hf f (by simp)
    obtain ⟨n, hn, hlen, hfirst, hlast, hmarks⟩ := hmarks
    obtain ⟨packet, m₁, hanswers, hrun⟩ := serve_frame lasts ports hstrm hdvd hn hlen hfirst hlast
      (fs.flatMap Frame.words) out m
    obtain ⟨packets, k', m', hall, hruns⟩ := ih (fun g hg => hf g (by simp [hg])) _ hmarks
      (out ++ packet.words) m₁
    rw [List.append_assoc] at hruns
    exact ⟨packet::packets, k', m', .cons hanswers hall, hrun.trans hruns⟩

end Service

end EncryptionAccelerators.Net
