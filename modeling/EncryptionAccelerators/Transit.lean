import EncryptionAccelerators.ReturnPath

/-! Payload bytes and the address of their sender travel apart: where each byte is, and the address
it will meet in `udp_packetizer`. -/
namespace EncryptionAccelerators.Net
open Dataflow

/-- The payload bytes among the events. -/
def sentData (evs : List (Event OutputStrm NetWord Cell.Val)) : List Byte :=
  evs.filterMap fun
    | .send _ w => some w.data
    | .poke _ _ => none

/-- For each payload byte among the events the address published at that time. -/
def senders (addr : BitVec 32) : List (Event OutputStrm NetWord Cell.Val) → List (BitVec 32)
  | [] => []
  | .send _ _::evs => addr::senders addr evs
  | .poke .dstIpAddr v::evs => senders v evs
  | .poke _ _::evs => senders addr evs

@[simp] lemma sentData_send (q : OutputStrm) (w : NetWord)
    (evs : List (Event OutputStrm NetWord Cell.Val)) :
    sentData (.send q w::evs) = w.data::sentData evs := rfl

@[simp] lemma sentData_poke (a : Cell) (v : a.Val)
    (evs : List (Event OutputStrm NetWord Cell.Val)) :
    sentData (.poke a v::evs) = sentData evs := rfl

lemma sentData_append (evs evs' : List (Event OutputStrm NetWord Cell.Val)) :
    sentData (evs ++ evs') = sentData evs ++ sentData evs' := List.filterMap_append

lemma sentData_words (ws : List NetWord) :
    sentData (ws.map (.send .outputStrm)) = ws.map NetWord.data := by
  induction ws with
  | nil => rfl
  | cons w ws ih => rw [List.map_cons, sentData_send, ih, List.map_cons]

lemma senders_words (addr : BitVec 32) (ws : List NetWord)
    (evs : List (Event OutputStrm NetWord Cell.Val)) :
    senders addr (ws.map (.send .outputStrm) ++ evs) =
      List.replicate ws.length addr ++ senders addr evs := by
  induction ws with
  | nil => rfl
  | cons w ws ih =>
    rw [List.map_cons, List.cons_append, senders, ih, List.length_cons, List.replicate_succ,
      List.cons_append]

lemma sentData_frames (fs : List Frame) : sentData (fs.flatMap depacketizerEvents) =
    fs.flatMap fun f => (f.words.drop 42).map NetWord.data := by
  induction fs with
  | nil => rfl
  | cons f fs ih =>
    rw [List.flatMap_cons, sentData_append, ih, List.flatMap_cons, depacketizerEvents,
      sentData_poke, sentData_poke, sentData_words]

lemma senders_frames (addr : BitVec 32) (fs : List Frame) :
    senders addr (fs.flatMap depacketizerEvents) = fs.flatMap fun f =>
      List.replicate (f.words.drop 42).length (ipv4Of (f.words.drop 14)).srcIp := by
  induction fs generalizing addr with
  | nil => rfl
  | cons f fs ih =>
    rw [List.flatMap_cons, List.flatMap_cons, depacketizerEvents, List.cons_append,
      List.cons_append, senders, senders, senders_words, ih]
    simp

/-- Where the payload bytes are: events `udp_depacketizer` has before it, words the cipher core and
the switch have still to write, the buffers, and the packets whose address is sampled. -/
structure Transit (core : CipherCore) where
  events : List (Event OutputStrm NetWord Cell.Val)
  enciphered : List NetWord
  piece : Piece core.blockSize
  held : List NetWord
  count : ℕ
  buf : List Byte
  unsent : List NetWord
  packets : List Frame

namespace Transit
variable {core : CipherCore} (g : Transit core) (fifo : PathFifo → List NetWord)

/-- The bytes forwarded by `udp_depacketizer` and not yet in a packet with an address. -/
def inFlight : ℕ :=
  g.buf.length + (fifo .outSel).length + g.held.length + (fifo .encDataBuf).length +
    g.enciphered.length + g.piece.val.length + (fifo .rawDataBuf).length

/-- All bytes of ciphertext, from the first packet to what is still to be read. -/
def bytes : List Byte :=
  (g.packets.flatMap fun f => udpPayload f.words) ++ g.buf ++
    (fifo .outSel ++ g.held ++ fifo .encDataBuf ++ g.enciphered).map NetWord.data ++
      core.cipher (g.piece.val ++ (fifo .rawDataBuf).map NetWord.data ++ sentData g.events)

/-- The addressees of the packets, of the bytes in flight if they all went to `addr`, and the
senders of the others. -/
def owners (addr : BitVec 32) : List (BitVec 32) :=
  (g.packets.flatMap fun f =>
    List.replicate (udpPayload f.words).length (ipv4Of (f.words.drop 14)).dstIp) ++
      List.replicate (g.inFlight fifo) addr ++ senders addr g.events

end Transit

section Return
variable {core : CipherCore} {lasts : ℕ → Bool} {ports : PacketizerPorts} {cap : PathFifo → ℕ∞}
  {s t : (encryptionPath core lasts ports).State (Memory.shared PathCore Cell.Val).State}

/-- The address `udp_packetizer` would sample. -/
def publishedIp (m : (Memory.shared PathCore Cell.Val).State) : BitVec 32 :=
  ((Memory.shared PathCore Cell.Val).load .udpPacketizer .dstIpAddr m).1

lemma publishedIp_store (m : (c : Cell) → c.Val) (i : PathCore) (v : BitVec 32) :
    publishedIp ((Memory.shared PathCore Cell.Val).store i .dstIpAddr v m) = v :=
  @Function.update_self Cell Cell.Val _ .dstIpAddr v m

lemma publishedIp_store_of_ne (m : (c : Cell) → c.Val) (i : PathCore) {a : Cell} (v : a.Val)
    (h : a ≠ .dstIpAddr) :
    publishedIp ((Memory.shared PathCore Cell.Val).store i a v m) = publishedIp m :=
  Function.update_of_ne h.symm v m

/-- What core `i` does next in the stage `g`. -/
def Transit.At (g : Transit core) (lasts : ℕ → Bool) (ports : PacketizerPorts)
    (fifo : PathFifo → List NetWord) : (i : PathCore) →
      Cmd (PathCore.In i) (PathCore.Out i) NetWord Cell.Val (PathCore.Label core i) → Prop
  | .parser, c => Trace parser c (fun p => fifo (PathCore.src .parser p)) []
  | .distributer, c => Trace distributer c (fun p => fifo (PathCore.src .distributer p)) []
  | .udpDepacketizer, c =>
    Trace udpDepacketizer c (fun p => fifo (PathCore.src .udpDepacketizer p)) g.events
  | .cipher, c => MealyAt core.body .outputStrm g.enciphered g.piece c
  | .outSwitch, c => MealyAt (outSwitch lasts) .outputStrm g.held g.count c
  | .udpPacketizer, c => PacketizerAt ports g.buf g.unsent c

/-- The state `s` has its payload bytes where `g` says, after a start with the frames `fs` and the
address `addr`. -/
structure TransitAt (fs : List Frame) (addr : BitVec 32)
    (s : (encryptionPath core lasts ports).State (Memory.shared PathCore Cell.Val).State)
    (g : Transit core) : Prop where
  cores : ∀ i, g.At lasts ports s.fifo i (s.code i)
  events : g.events <:+ fs.flatMap depacketizerEvents
  packets : s.fifo .udpOutputBuffer ++ g.unsent = g.packets.flatMap Frame.words
  bytes : g.bytes s.fifo = core.cipher (sentData (fs.flatMap depacketizerEvents))
  owners : g.owners s.fifo (publishedIp s.mem) = senders addr (fs.flatMap depacketizerEvents)

variable {fs : List Frame} {addr : BitVec 32} {g g' : Transit core} {i : PathCore}

/-- The cores whose input is all there from the start. -/
def Upstream (i : PathCore) : Prop := i = .parser ∨ i = .distributer ∨ i = .udpDepacketizer

lemma Transit.At.congr {fifo fifo' : PathFifo → List NetWord}
    {c : Cmd (PathCore.In i) (PathCore.Out i) NetWord Cell.Val (PathCore.Label core i)}
    (h : g.At lasts ports fifo i c)
    (hfifo : Upstream i → ∀ p, fifo' (PathCore.src i p) = fifo (PathCore.src i p)) :
    g.At lasts ports fifo' i c := by
  cases i with
  | parser =>
    have hat : Trace parser c (fun p => fifo (PathCore.src .parser p)) [] := h
    rw [← funext (hfifo (.inl rfl))] at hat
    exact hat
  | distributer =>
    have hat : Trace distributer c (fun p => fifo (PathCore.src .distributer p)) [] := h
    rw [← funext (hfifo (.inr (.inl rfl)))] at hat
    exact hat
  | udpDepacketizer =>
    have hat : Trace udpDepacketizer c (fun p => fifo (PathCore.src .udpDepacketizer p)) g.events := h
    rw [← funext (hfifo (.inr (.inr rfl)))] at hat
    exact hat
  | _ => exact h

/-- After a step of core `i` the other cores go on as before. -/
lemma TransitAt.cores_step (h : TransitAt fs addr s g)
    (hi : (encryptionPath core lasts ports).StepAt (Memory.shared PathCore Cell.Val) cap i s t)
    (hat : g'.At lasts ports t.fifo i (t.code i))
    (hfifo : ∀ j ≠ i, Upstream j → ∀ p, t.fifo (PathCore.src j p) = s.fifo (PathCore.src j p))
    (hg : ∀ j ≠ i, ∀ c, g.At lasts ports t.fifo j c → g'.At lasts ports t.fifo j c) (j : PathCore) :
    g'.At lasts ports t.fifo j (t.code j) := by
  by_cases hj : j = i
  · subst hj
    exact hat
  · have hcode : t.code j = s.code j := hi.code_ne hj
    rw [hcode]
    exact hg j hj _ ((h.cores j).congr (hfifo j hj))

/-- Only `parser` and `distributer` write to the inputs of these cores. -/
lemma inputs_step
    (hi : (encryptionPath core lasts ports).StepAt (Memory.shared PathCore Cell.Val) cap i s t)
    (hp : i ≠ .parser) (hd : i ≠ .distributer) (j : PathCore) (hj : j ≠ i) (hu : Upstream j)
    (p : PathCore.In j) : t.fifo (PathCore.src j p) = s.fifo (PathCore.src j p) := by
  refine hi.only.2 _ (fun p' => Network.src_ne hj.symm p' p) fun q => ?_
  rcases hu with rfl | rfl | rfl <;> cases i <;> cases p <;> cases q <;>
    simp_all [PathCore.src, PathCore.dst]

/-- A step that moves no payload byte. -/
lemma TransitAt.silent (h : TransitAt fs addr s g)
    (hcores : ∀ j, g.At lasts ports t.fifo j (t.code j)) (hmem : t.mem = s.mem)
    (hfifo : ∀ c ∈ [PathFifo.rawDataBuf, .encDataBuf, .outSel, .udpOutputBuffer],
      t.fifo c = s.fifo c) : TransitAt fs addr t g := by
  have hraw := hfifo .rawDataBuf (by simp)
  have henc := hfifo .encDataBuf (by simp)
  have hsel := hfifo .outSel (by simp)
  have hout := hfifo .udpOutputBuffer (by simp)
  refine ⟨hcores, h.events, ?_, ?_, ?_⟩
  · rw [hout]
    exact h.packets
  · rw [← h.bytes, Transit.bytes, Transit.bytes, hraw, henc, hsel]
  · rw [← h.owners, Transit.owners, Transit.owners, Transit.inFlight, Transit.inFlight, hraw, henc,
      hsel, hmem]

/-- A step that moves payload bytes between the buffers behind `udp_depacketizer`. -/
lemma TransitAt.moved (h : TransitAt fs addr s g)
    (hcores : ∀ j, g'.At lasts ports t.fifo j (t.code j)) (hmem : t.mem = s.mem)
    (hevents : g'.events = g.events) (hunsent : g'.unsent = g.unsent)
    (hpackets : g'.packets = g.packets) (hout : t.fifo .udpOutputBuffer = s.fifo .udpOutputBuffer)
    (hbytes : g'.bytes t.fifo = g.bytes s.fifo)
    (hcount : g'.inFlight t.fifo = g.inFlight s.fifo) : TransitAt fs addr t g' := by
  refine ⟨hcores, hevents ▸ h.events, ?_, hbytes.trans h.bytes, ?_⟩
  · rw [hout, hunsent, hpackets]
    exact h.packets
  · rw [← h.owners, Transit.owners, Transit.owners, hmem, hcount, hpackets, hevents]

lemma of_update {fifo fifo' : PathFifo → List NetWord} {c : PathFifo} {ws : List NetWord}
    (h : fifo' = Function.update fifo c ws) : fifo' c = ws ∧ ∀ d ≠ c, fifo' d = fifo d := by
  subst h
  exact ⟨Function.update_self _ _ _, fun d hd => Function.update_of_ne hd _ _⟩

lemma TransitAt.step_cipher (h : TransitAt fs addr s g)
    (hi : (encryptionPath core lasts ports).StepAt (Memory.shared PathCore Cell.Val) cap .cipher s t) :
    ∃ g, TransitAt fs addr t g := by
  have hin := inputs_step hi (by simp) (by simp)
  rcases hi.mealy core.body_eq_mealy (h.cores .cipher) with ⟨hmem, ⟨ha, hfifo⟩ |
    ⟨w, ws, hnil, hraw, ha, hfifo⟩ | ⟨w, us, hus, ha, hfifo⟩⟩
  · refine ⟨g, h.silent (h.cores_step hi ha hin fun j _ c hc => hc) hmem fun c _ => ?_⟩
    rw [hfifo]
  · -- a word enters the buffer, or completes a block
    have hraw : s.fifo .rawDataBuf = w::ws := hraw
    obtain ⟨hnext, hsame⟩ : t.fifo .rawDataBuf = ws ∧
        ∀ c ≠ PathFifo.rawDataBuf, t.fifo c = s.fifo c := of_update hfifo
    have hcipher := cipherBlocks_next core.blockSize_pos core.processBlock g.piece w
      (ws.map NetWord.data ++ sentData g.events)
    have hlen := blockReply_length core.blockSize_pos core.processBlock g.piece w
    refine ⟨{ g with
      enciphered := blockReply core.processBlock g.piece w
      piece := nextPiece core.blockSize_pos g.piece w }, h.moved (h.cores_step hi ha hin ?_) hmem
      rfl rfl rfl (hsame _ (by simp)) ?_ ?_⟩
    · intro j hj c hc
      cases j with
      | cipher => exact absurd rfl hj
      | _ => exact hc
    · rw [Transit.bytes, Transit.bytes, hnext, hsame .outSel (by simp), hsame .encDataBuf (by simp),
        hraw, hnil]
      simp [CipherCore.cipher, hcipher]
    · simp only [Transit.inFlight, hnext, hsame .outSel (by simp), hsame .encDataBuf (by simp), hraw,
        hnil, List.length_cons, List.length_nil]
      omega
  · -- a word of a processed block is written
    obtain ⟨hnext, hsame⟩ : t.fifo .encDataBuf = s.fifo .encDataBuf ++ [w] ∧
      ∀ c ≠ PathFifo.encDataBuf, t.fifo c = s.fifo c := of_update hfifo
    refine ⟨{ g with enciphered := us }, h.moved (h.cores_step hi ha hin ?_) hmem rfl rfl rfl
      (hsame _ (by simp)) ?_ ?_⟩
    · intro j hj c hc
      cases j with
      | cipher => exact absurd rfl hj
      | _ => exact hc
    · rw [Transit.bytes, Transit.bytes, hnext, hsame .outSel (by simp), hsame .rawDataBuf (by simp),
        hus]
      simp
    · simp only [Transit.inFlight, hnext, hsame .outSel (by simp), hsame .rawDataBuf (by simp), hus,
        List.length_append, List.length_cons, List.length_nil]
      omega

lemma TransitAt.step_outSwitch (h : TransitAt fs addr s g)
    (hi : (encryptionPath core lasts ports).StepAt (Memory.shared PathCore Cell.Val) cap .outSwitch s
      t) : ∃ g, TransitAt fs addr t g := by
  have hin := inputs_step hi (by simp) (by simp)
  rcases hi.mealy (outSwitch_eq_mealy lasts) (h.cores .outSwitch) with ⟨hmem, ⟨ha, hfifo⟩ |
    ⟨w, ws, hnil, henc, ha, hfifo⟩ | ⟨w, us, hus, ha, hfifo⟩⟩
  · refine ⟨g, h.silent (h.cores_step hi ha hin fun j _ c hc => hc) hmem fun c _ => ?_⟩
    rw [hfifo]
  · have henc : s.fifo .encDataBuf = w::ws := henc
    obtain ⟨hnext, hsame⟩ : t.fifo .encDataBuf = ws ∧
        ∀ c ≠ PathFifo.encDataBuf, t.fifo c = s.fifo c := of_update hfifo
    refine ⟨{ g with
      held := [⟨w.data,lasts g.count,w.user⟩]
      count := g.count + 1 }, h.moved (h.cores_step hi ha hin ?_) hmem rfl rfl rfl
      (hsame _ (by simp)) ?_ ?_⟩
    · intro j hj c hc
      cases j with
      | outSwitch => exact absurd rfl hj
      | _ => exact hc
    · rw [Transit.bytes, Transit.bytes, hnext, hsame .outSel (by simp), hsame .rawDataBuf (by simp),
        henc, hnil]
      simp
    · simp only [Transit.inFlight, hnext, hsame .outSel (by simp), hsame .rawDataBuf (by simp), henc,
        hnil, List.length_cons, List.length_nil]
      omega
  · obtain ⟨hnext, hsame⟩ : t.fifo .outSel = s.fifo .outSel ++ [w] ∧
      ∀ c ≠ PathFifo.outSel, t.fifo c = s.fifo c := of_update hfifo
    refine ⟨{ g with held := us }, h.moved (h.cores_step hi ha hin ?_) hmem rfl rfl rfl
      (hsame _ (by simp)) ?_ ?_⟩
    · intro j hj c hc
      cases j with
      | outSwitch => exact absurd rfl hj
      | _ => exact hc
    · rw [Transit.bytes, Transit.bytes, hnext, hsame .encDataBuf (by simp),
        hsame .rawDataBuf (by simp), hus]
      simp
    · simp only [Transit.inFlight, hnext, hsame .encDataBuf (by simp), hsame .rawDataBuf (by simp),
        hus, List.length_append, List.length_cons, List.length_nil]
      omega

/-- A step of `udp_packetizer` reads a byte, samples the address, writes a word, or is not seen. -/
lemma packetizer_step {buf : List Byte} {unsent : List NetWord}
    (hi : (encryptionPath core lasts ports).StepAt (Memory.shared PathCore Cell.Val) cap
      .udpPacketizer s t) (ha : PacketizerAt ports buf unsent (s.code .udpPacketizer)) :
    t.mem = s.mem ∧
    ((PacketizerAt ports buf unsent (t.code .udpPacketizer) ∧ t.fifo = s.fifo) ∨
    (∃ w ws, unsent = [] ∧ s.fifo .outSel = w::ws ∧
      PacketizerAt ports (buf ++ [w.data]) [] (t.code .udpPacketizer) ∧
      t.fifo = Function.update s.fifo .outSel ws) ∨
    (∃ l b user, unsent = [] ∧ buf = l ++ [b] ∧ (l ++ [b]).length ≤ 1024 ∧
      PacketizerAt ports [] (packet ports (publishedIp s.mem) l b user).words
        (t.code .udpPacketizer) ∧ t.fifo = s.fifo) ∨
    ∃ w us, unsent = w::us ∧ PacketizerAt ports buf us (t.code .udpPacketizer) ∧
      t.fifo = Function.update s.fifo .udpOutputBuffer (s.fifo .udpOutputBuffer ++ [w])) := by
  generalize hcode : s.code .udpPacketizer = c at ha
  cases ha with
  | collecting b =>
    cases hi with
    | @read p k w ws hr hf =>
      have hat := PacketizerAt.read w (hcode.symm.trans hr)
      exact ⟨rfl, .inr (.inl ⟨w, ws, rfl, hf, by simpa using hat, rfl⟩)⟩
    | _ hr => cases hcode.symm.trans hr
  | sampling l b user hl =>
    cases hi with
    | @load a k hr =>
      cases hcode.symm.trans hr
      refine ⟨rfl, .inr (.inr (.inl ⟨l, b, user, rfl, rfl, hl, ?_, rfl⟩))⟩
      have hat : PacketizerAt ports [] _ _ :=
        .writing .entry (packet ports (publishedIp s.mem) l b user).words
      simp only [Function.update_self]
      exact hat
    | _ hr => cases hcode.symm.trans hr
  | writing b unsent =>
    cases unsent with
    | nil =>
      cases hi with
      | @call l hr =>
        cases hcode.symm.trans hr
        have hat : PacketizerAt ports b.dataBuf [] (udpPacketizer ports b) := .collecting b
        exact ⟨rfl, .inl ⟨by simpa using hat, rfl⟩⟩
      | _ hr => cases hcode.symm.trans hr
    | cons w us =>
      cases hi with
      | @write q x k hr room =>
        cases hcode.symm.trans hr
        have hat : PacketizerAt ports b.dataBuf us _ := .writing b us
        refine ⟨rfl, .inr (.inr (.inr ⟨w, us, rfl, ?_, rfl⟩))⟩
        simp only [Function.update_self]
        exact hat
      | _ hr => cases hcode.symm.trans hr

lemma TransitAt.step_udpPacketizer (h : TransitAt fs addr s g)
    (hi : (encryptionPath core lasts ports).StepAt (Memory.shared PathCore Cell.Val) cap
      .udpPacketizer s t) : ∃ g, TransitAt fs addr t g := by
  have hin := inputs_step hi (by simp) (by simp)
  obtain ⟨hmem, ⟨ha, hfifo⟩ | ⟨w, ws, hnil, hsel, ha, hfifo⟩ | ⟨l, b, user, hnil, hbuf, hl, ha, hfifo⟩ |
    ⟨w, us, hus, ha, hfifo⟩⟩ := packetizer_step hi (h.cores .udpPacketizer)
  · refine ⟨g, h.silent (h.cores_step hi ha hin fun j _ c hc => hc) hmem fun c _ => ?_⟩
    rw [hfifo]
  · obtain ⟨hnext, hsame⟩ := of_update hfifo
    have hat : PacketizerAt ports (g.buf ++ [w.data]) g.unsent (t.code .udpPacketizer) := by
      rw [hnil]
      exact ha
    refine ⟨{ g with buf := g.buf ++ [w.data] }, h.moved (h.cores_step hi hat hin ?_) hmem rfl rfl
      rfl (hsame _ (by simp)) ?_ ?_⟩
    · intro j hj c hc
      cases j with
      | udpPacketizer => exact absurd rfl hj
      | _ => exact hc
    · rw [Transit.bytes, Transit.bytes, hnext, hsame .encDataBuf (by simp),
        hsame .rawDataBuf (by simp), hsel]
      simp
    · simp only [Transit.inFlight, hnext, hsame .encDataBuf (by simp), hsame .rawDataBuf (by simp),
        hsel, List.length_append, List.length_cons, List.length_nil]
      omega
  · -- the bytes collected leave with the published address
    obtain ⟨-, hip, -⟩ := packet_fields ports (publishedIp s.mem) l b user
    have hdst : (ipv4Of ((packet ports (publishedIp s.mem) l b user).words.drop 14)).dstIp =
      publishedIp s.mem := by rw [hip]; rfl
    have hpay := packet_payload ports (publishedIp s.mem) l b user hl
    refine ⟨{ g with
      buf := []
      unsent := (packet ports (publishedIp s.mem) l b user).words
      packets := g.packets ++ [packet ports (publishedIp s.mem) l b user] },
      h.cores_step hi ha hin ?_, h.events, ?_, ?_, ?_⟩
    · intro j hj c hc
      cases j with
      | udpPacketizer => exact absurd rfl hj
      | _ => exact hc
    · have hpackets := h.packets
      rw [hnil, List.append_nil] at hpackets
      rw [hfifo, hpackets, List.flatMap_append, List.flatMap_singleton]
    · rw [← h.bytes, hfifo, Transit.bytes, Transit.bytes, List.flatMap_append, List.flatMap_singleton,
        hpay, hbuf, List.append_nil]
    · rw [← h.owners, hfifo, hmem, Transit.owners, Transit.owners, List.flatMap_append,
        List.flatMap_singleton, hpay, hdst, List.append_assoc (g.packets.flatMap _),
        List.replicate_append_replicate]
      simp only [Transit.inFlight, hbuf, List.length_nil, Nat.add_assoc, Nat.zero_add]
  · obtain ⟨hnext, hsame⟩ := of_update hfifo
    refine ⟨{ g with unsent := us }, h.cores_step hi ha hin ?_, h.events, ?_, ?_, ?_⟩
    · intro j hj c hc
      cases j with
      | udpPacketizer => exact absurd rfl hj
      | _ => exact hc
    · rw [← h.packets, hnext, hus, List.append_assoc, List.singleton_append]
    · rw [← h.bytes, Transit.bytes, Transit.bytes, hsame .outSel (by simp),
        hsame .encDataBuf (by simp), hsame .rawDataBuf (by simp)]
    · rw [← h.owners, hmem, Transit.owners, Transit.owners, Transit.inFlight, Transit.inFlight,
        hsame .outSel (by simp), hsame .encDataBuf (by simp), hsame .rawDataBuf (by simp)]

/-- `parser` and `distributer` have nothing to read. -/
lemma TransitAt.step_idle (h : TransitAt fs addr s g)
    (hi : (encryptionPath core lasts ports).StepAt (Memory.shared PathCore Cell.Val) cap i s t)
    (hidle : i = .parser ∨ i = .distributer) : TransitAt fs addr t g := by
  have hin (hfifo : ∀ c, (∀ p, PathCore.src i p ≠ c) → t.fifo c = s.fifo c) :
      ∀ j ≠ i, Upstream j → ∀ p, t.fifo (PathCore.src j p) = s.fifo (PathCore.src j p) := by
    intro j hj _ p
    exact hfifo _ fun p' => Network.src_ne (N := encryptionPath core lasts ports) hj.symm p' p
  rcases hidle with rfl | rfl
  · rcases hi.traced (h.cores .parser) with ⟨ht, hmem, hfifo⟩ | ⟨_, _, _, he, -⟩ |
      ⟨_, _, _, _, -, he, -⟩
    · refine h.silent (h.cores_step hi ht (hin hfifo) fun j _ c hc => hc) hmem fun c hc => ?_
      refine hfifo c fun p hp => ?_
      subst hp
      cases p
      simp [PathCore.src] at hc
    · cases he
    · cases he
  · rcases hi.traced (h.cores .distributer) with ⟨ht, hmem, hfifo⟩ | ⟨_, _, _, he, -⟩ |
      ⟨_, _, _, _, -, he, -⟩
    · refine h.silent (h.cores_step hi ht (hin hfifo) fun j _ c hc => hc) hmem fun c hc => ?_
      refine hfifo c fun p hp => ?_
      subst hp
      cases p <;> simp [PathCore.src] at hc
    · cases he
    · cases he

/-- `udp_depacketizer` may store another address only while no byte is in flight. -/
lemma TransitAt.step_udpDepacketizer (h : TransitAt fs addr s g)
    (hi : (encryptionPath core lasts ports).StepAt (Memory.shared PathCore Cell.Val) cap
      .udpDepacketizer s t)
    (hquiet : publishedIp t.mem ≠ publishedIp s.mem → g.inFlight s.fifo = 0) :
    ∃ g, TransitAt fs addr t g := by
  have hin := inputs_step hi (by simp) (by simp)
  rcases hi.traced (h.cores .udpDepacketizer) with ⟨ht, hmem, hfifo⟩ |
    ⟨q, w, evs, hevs, ht, hmem, hfifo⟩ | ⟨a, v, k, evs, -, hevs, ht, hmem, hfifo⟩
  · refine ⟨g, h.silent (h.cores_step hi ht hin fun j _ c hc => hc) hmem fun c hc => ?_⟩
    refine hfifo c fun p hp => ?_
    subst hp
    cases p
    simp [PathCore.src] at hc
  · obtain ⟨hnext, hsame⟩ : t.fifo .rawDataBuf = s.fifo .rawDataBuf ++ [w] ∧
      ∀ c ≠ PathFifo.rawDataBuf, t.fifo c = s.fifo c := of_update hfifo
    have hcount : Transit.inFlight { g with events := evs } t.fifo = g.inFlight s.fifo + 1 := by
      simp only [Transit.inFlight, hnext, hsame .outSel (by simp), hsame .encDataBuf (by simp),
        List.length_append, List.length_cons, List.length_nil]
      omega
    have hsuffix : evs <:+ fs.flatMap depacketizerEvents :=
      (List.suffix_cons _ _).trans (hevs ▸ h.events)
    refine ⟨{ g with events := evs }, h.cores_step hi ht hin ?_, hsuffix, ?_, ?_, ?_⟩
    · intro j hj c hc
      cases j with
      | udpDepacketizer => exact absurd rfl hj
      | _ => exact hc
    · rw [hsame _ (by simp)]
      exact h.packets
    · rw [← h.bytes, Transit.bytes, Transit.bytes, hnext, hsame .outSel (by simp),
        hsame .encDataBuf (by simp), hevs]
      simp
    · rw [← h.owners, hmem, Transit.owners, Transit.owners, hcount, hevs, senders,
        List.replicate_succ']
      simp
  · have hsuffix : evs <:+ fs.flatMap depacketizerEvents :=
      (List.suffix_cons _ _).trans (hevs ▸ h.events)
    refine ⟨{ g with events := evs }, h.cores_step hi ht hin ?_, hsuffix, ?_, ?_, ?_⟩
    · intro j hj c hc
      cases j with
      | udpDepacketizer => exact absurd rfl hj
      | _ => exact hc
    · rw [hfifo]
      exact h.packets
    · rw [← h.bytes, hfifo, Transit.bytes, Transit.bytes, hevs, sentData_poke]
    · rw [← h.owners, hfifo]
      have hcount : Transit.inFlight { g with events := evs } s.fifo = g.inFlight s.fifo := rfl
      by_cases ha : a = .dstIpAddr
      · subst ha
        have hip : publishedIp t.mem = v := by
          rw [hmem]
          exact publishedIp_store s.mem .udpDepacketizer v
        rw [Transit.owners, Transit.owners, hevs, senders, hcount, hip]
        by_cases hsame : publishedIp s.mem = v
        · rw [hsame]
        · rw [hquiet (by rw [hip]; exact Ne.symm hsame), List.replicate_zero, List.replicate_zero]
      · have hip : publishedIp t.mem = publishedIp s.mem := by
          rw [hmem]
          exact publishedIp_store_of_ne s.mem .udpDepacketizer v ha
        have hsenders : senders (publishedIp s.mem) (.poke a v::evs) =
            senders (publishedIp s.mem) evs := by
          cases a <;> first | rfl | exact absurd rfl ha
        rw [Transit.owners, Transit.owners, hevs, hsenders, hcount, hip]

/-- No byte is on its way between `udp_depacketizer` and the sampling of the address. -/
structure Quiet {M : Type} (s : (encryptionPath core lasts ports).State M) : Prop where
  rawDataBuf : s.fifo .rawDataBuf = []
  encDataBuf : s.fifo .encDataBuf = []
  outSel : s.fifo .outSel = []
  cipher : s.code .cipher = .ret core.start ∨ s.code .cipher = core.body core.start
  outSwitch : ∃ k, s.code .outSwitch = .ret k ∨ s.code .outSwitch = Net.outSwitch lasts k
  udpPacketizer : s.code .udpPacketizer = Net.udpPacketizer ports .entry ∨
    ∃ us, s.code .udpPacketizer = (writeAll .outputStrm us >>= fun _ => .ret .entry)

lemma TransitAt.quiet (h : TransitAt fs addr s g) (hq : Quiet s) : g.inFlight s.fifo = 0 := by
  have hcipher : MealyAt core.body .outputStrm g.enciphered g.piece (s.code .cipher) :=
    h.cores .cipher
  have hswitch : MealyAt (outSwitch lasts) .outputStrm g.held g.count (s.code .outSwitch) :=
    h.cores .outSwitch
  have hpacketizer : PacketizerAt ports g.buf g.unsent (s.code .udpPacketizer) :=
    h.cores .udpPacketizer
  have hcode := hq.cipher
  rw [core.body_eq_mealy] at hcipher hcode
  obtain ⟨henc, hpiece⟩ := hcipher.settled hcode
  have hpiece : g.piece.val = [] := by
    rcases hpiece with hpiece | hpiece
    · rw [hpiece]
      rfl
    · rw [← blockCore_eq_mealy] at hpiece
      exact blockCore_start _ _ hpiece
  obtain ⟨k, hk⟩ := hq.outSwitch
  rw [outSwitch_eq_mealy] at hswitch hk
  obtain ⟨hheld, -⟩ := hswitch.settled hk
  have hbuf : g.buf = [] := by
    rcases hq.udpPacketizer with hentry | ⟨us, hwriting⟩
    · rw [hentry] at hpacketizer
      exact hpacketizer.settled_entry
    · rw [hwriting] at hpacketizer
      exact hpacketizer.settled_writing
  simp [Transit.inFlight, hbuf, henc, hpiece, hheld, hq.rawDataBuf, hq.encDataBuf, hq.outSel]

/-- A step that changes the published address only where no byte is in flight. -/
def QuietStep (cap : PathFifo → ℕ∞)
    (s t : (encryptionPath core lasts ports).State (Memory.shared PathCore Cell.Val).State) : Prop :=
  (encryptionPath core lasts ports).Step (Memory.shared PathCore Cell.Val) cap s t ∧
    (publishedIp t.mem ≠ publishedIp s.mem → Quiet s)

def QuietRun (cap : PathFifo → ℕ∞) : (encryptionPath core lasts ports).State
      (Memory.shared PathCore Cell.Val).State →
    (encryptionPath core lasts ports).State (Memory.shared PathCore Cell.Val).State → Prop :=
  Relation.ReflTransGen (QuietStep cap)

lemma TransitAt.step (h : TransitAt fs addr s g) (hs : QuietStep cap s t) :
    ∃ g, TransitAt fs addr t g := by
  obtain ⟨⟨i, hi⟩, hquiet⟩ := hs
  cases i with
  | parser => exact ⟨g, h.step_idle hi (.inl rfl)⟩
  | distributer => exact ⟨g, h.step_idle hi (.inr rfl)⟩
  | udpDepacketizer => exact h.step_udpDepacketizer hi fun hne => h.quiet (hquiet hne)
  | cipher => exact h.step_cipher hi
  | outSwitch => exact h.step_outSwitch hi
  | udpPacketizer => exact h.step_udpPacketizer hi

variable (core lasts ports) in
/-- The words of the frames wait before `udp_depacketizer` and no core has started. -/
def returnStart {M : Type} (fs : List Frame) (m : M) : (encryptionPath core lasts ports).State M :=
  pathState core lasts ports (pathLabel core core.start 0 .entry) (fun
    | .strm .udpStrmStrm => fs.flatMap Frame.words
    | _ => []) m

lemma TransitAt.start (hf : ∀ f ∈ fs, 43 ≤ f.words.length)
    (m : (Memory.shared PathCore Cell.Val).State) :
    TransitAt fs (publishedIp m) (returnStart core lasts ports fs m)
      ⟨fs.flatMap depacketizerEvents,[],core.start,[],0,[],[],[]⟩ where
  cores i := by
    cases i with
    | parser =>
      have hstarve : Trace (V := Cell.Val) parser (parser .start) (fun _ => []) [] := by
        rw [parser_start, passInto_succ_bind]
        exact .starve rfl
      exact .call hstarve
    | distributer => exact .call (.starve (p := DistributerIn.protStrm) rfl)
    | udpDepacketizer => exact trace_depacketizerFrames fs hf
    | cipher => exact .inl rfl
    | outSwitch => exact .inl rfl
    | udpPacketizer => exact .writing .entry []
  events := List.suffix_rfl
  packets := rfl
  bytes := rfl
  owners := rfl

lemma TransitAt.of_run (hf : ∀ f ∈ fs, 43 ≤ f.words.length)
    {m : (Memory.shared PathCore Cell.Val).State}
    (hs : QuietRun cap (returnStart core lasts ports fs m) s) :
    ∃ g, TransitAt fs (publishedIp m) s g := by
  induction hs with
  | refl => exact ⟨_, .start hf m⟩
  | tail _ hstep ih =>
    obtain ⟨g, h⟩ := ih
    exact h.step hstep

end Return

end EncryptionAccelerators.Net
