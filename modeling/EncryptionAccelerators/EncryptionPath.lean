import EncryptionAccelerators.Routing
import EncryptionAccelerators.CipherPath

/-! The data path of a datagram: from the received frames through the cipher core to the emitted
frames, every core stepping on its own. -/
namespace EncryptionAccelerators.Net
open Dataflow

inductive PathCore
  | parser | distributer | udpDepacketizer | cipher | outSwitch | udpPacketizer
  deriving DecidableEq

instance : Fintype PathCore :=
  ⟨{.parser,.distributer,.udpDepacketizer,.cipher,.outSwitch,.udpPacketizer},
    fun i => by cases i <;> simp⟩

/-- The FIFOs of the block design; `outSel` is the link from the switch to `udp_packetizer`. -/
inductive PathFifo
  | networkRxFifo | packetBuffer | protFifo | strm (q : DistributerOut) | rawDataBuf | encDataBuf
  | outSel | udpOutputBuffer
  deriving DecidableEq

namespace PathCore

@[reducible] def In : PathCore → Type
  | distributer => DistributerIn
  | _ => InputStrm

@[reducible] def Out : PathCore → Type
  | parser => ParserOut
  | distributer => DistributerOut
  | _ => OutputStrm

@[reducible] def Label (core : CipherCore) : PathCore → Type
  | parser => ParserLabel
  | distributer => DistributerLabel
  | udpDepacketizer => UdpDepacketizerLabel
  | cipher => Piece core.blockSize
  | outSwitch => ℕ
  | udpPacketizer => PayloadBuffering

def src : (i : PathCore) → In i → PathFifo
  | parser, _ => .networkRxFifo
  | distributer, .inputStrm => .packetBuffer
  | distributer, .protStrm => .protFifo
  | udpDepacketizer, _ => .strm .udpStrmStrm
  | cipher, _ => .rawDataBuf
  | outSwitch, _ => .encDataBuf
  | udpPacketizer, _ => .outSel

def dst : (i : PathCore) → Out i → PathFifo
  | parser, .outputStrm => .packetBuffer
  | parser, .protStrm => .protFifo
  | distributer, q => .strm q
  | udpDepacketizer, _ => .rawDataBuf
  | cipher, _ => .encDataBuf
  | outSwitch, _ => .outSel
  | udpPacketizer, _ => .udpOutputBuffer

end PathCore

@[reducible] def encryptionPath (core : CipherCore) (lasts : ℕ → Bool) (ports : PacketizerPorts) :
    Network PathCore PathFifo NetWord Cell.Val where
  In := PathCore.In
  Out := PathCore.Out
  Label := PathCore.Label core
  body
    | .parser => parser
    | .distributer => distributer
    | .udpDepacketizer => udpDepacketizer
    | .cipher => core.body
    | .outSwitch => outSwitch lasts
    | .udpPacketizer => udpPacketizer ports
  src := PathCore.src
  dst := PathCore.dst
  src_inj {i j p q} h := by cases i <;> cases j <;> cases p <;> cases q <;> simp_all [PathCore.src]
  dst_inj {i j p q} h := by cases i <;> cases j <;> cases p <;> cases q <;> simp_all [PathCore.dst]
  loopless {i} p q := by cases i <;> cases p <;> cases q <;> simp [PathCore.src, PathCore.dst]

/-! The cells the cores use. -/

def NoCell (_ : Cell) : Prop := False

/-- The cells in which `udp_depacketizer` publishes the sender of a frame. -/
def SenderCell (c : Cell) : Prop := c = .dstIpAddr ∨ c = .dstMacAddr

lemma udpDepacketizer_accesses (l : UdpDepacketizerLabel) :
    (udpDepacketizer l).Accesses NoCell SenderCell := by
  cases l with
  | start =>
    rw [udpDepacketizer_start]
    apply accesses_readInto_bind
    intro eth
    apply accesses_readInto_bind
    intro ip
    apply accesses_readInto_bind
    simp [SenderCell]
  | passStream => simp [udpDepacketizer, passStream]

lemma cipher_accesses (core : CipherCore) (piece : Piece core.blockSize) :
    (core.body piece : Cmd InputStrm OutputStrm NetWord Cell.Val _).Accesses (fun _ => True) NoCell := by
  rw [core.body_eq, blockCore, readWord_bind, accesses_recv]
  intro w
  split_ifs
  · simp
  · apply accesses_writeAll_bind
    simp

lemma outSwitch_accesses (lasts : ℕ → Bool) (k : ℕ) :
    (outSwitch lasts k : Cmd InputStrm OutputStrm NetWord Cell.Val _).Accesses NoCell NoCell := by
  simp [outSwitch]

lemma udpPacketizer_accesses (ports : PacketizerPorts) (buf : PayloadBuffering) :
    (udpPacketizer ports buf).Accesses SenderCell NoCell := by
  rw [udpPacketizer, readWord_bind, accesses_recv]
  intro w
  dsimp only
  split_ifs
  · simp
  · rw [loadCell_bind, accesses_peek]
    refine ⟨.inl rfl, fun dstIpAddr => ?_⟩
    rw [writeEthernetHeader_eq, writeIpHeader_eq, writeUdpHeader_eq]
    apply accesses_writeAll_bind
    apply accesses_writeAll_bind
    apply accesses_writeAll_bind
    apply accesses_writeAll_bind
    simp

section Path
variable (core : CipherCore) (lasts : ℕ → Bool) (ports : PacketizerPorts) {M : Type}

/-- Every core between two of its blocks. -/
def pathLabel (piece : Piece core.blockSize) (k : ℕ) (buf : PayloadBuffering) :
    (i : PathCore) → PathCore.Label core i
  | .parser => .start
  | .distributer => .start
  | .udpDepacketizer => .start
  | .cipher => piece
  | .outSwitch => k
  | .udpPacketizer => buf

def pathState (label : (i : PathCore) → PathCore.Label core i) (fifo : PathFifo → List NetWord)
    (m : M) : (encryptionPath core lasts ports).State M where
  code i := .ret (label i)
  fifo := fifo
  mem := m

/-- All words of the frames have been received and no core has started. -/
def pathStart (fs : List Frame) (m : M) : (encryptionPath core lasts ports).State M :=
  pathState core lasts ports (pathLabel core core.start 0 .entry) (fun
    | .networkRxFifo => fs.flatMap Frame.words
    | _ => []) m

/-- The words `distributer` puts on each of its outputs. -/
def routed (fs : List Frame) (q : DistributerOut) : List NetWord :=
  (fs.filter fun f => q.prot = classify f.words).flatMap Frame.words

/-- The bytes `udp_depacketizer` forwards. -/
def forwarded (fs : List Frame) : List NetWord :=
  (fs.filter fun f => DistributerOut.udpStrmStrm.prot = classify f.words).flatMap fun f =>
    f.words.drop 42

variable (mem : Memory PathCore Cell.Val)

lemma path_routed (fs : List Frame) (hf : ∀ f ∈ fs, 60 ≤ f.words.length) (m : mem.State) :
    (encryptionPath core lasts ports).Run mem (fun _ => ⊤) (pathStart core lasts ports fs m)
      (pathState core lasts ports (pathLabel core core.start 0 .entry) (fun
        | .strm q => routed fs q
        | _ => []) m) := by
  have hf' : ∀ f ∈ fs, 43 ≤ f.words.length := fun f hm => by have h := hf f hm; omega
  have h1 : (encryptionPath core lasts ports).Run mem (fun _ => ⊤) (pathStart core lasts ports fs m)
      (pathState core lasts ports (pathLabel core core.start 0 .entry) (fun
        | .packetBuffer => fs.flatMap Frame.words
        | .protFifo => fs.map fun f => byteWord (classify f.words).code
        | _ => []) m) := by
    refine Network.run_stage (i := PathCore.parser)
      (parser_frames mem .parser fs hf' ⟨fun _ => fs.flatMap Frame.words,fun _ => [],m⟩ rfl) rfl
      ⟨fun p => by cases p; rfl, fun q => by cases q <;> rfl, rfl⟩ rfl
      ⟨fun p => by cases p; rfl, fun q => by cases q <;> rfl, rfl⟩
      ⟨fun j hj => rfl, fun c hs hd => ?_⟩
    cases c with
    | networkRxFifo => exact absurd rfl (hs .inputStrm)
    | packetBuffer => exact absurd rfl (hd .outputStrm)
    | protFifo => exact absurd rfl (hd .protStrm)
    | _ => rfl
  refine h1.trans (Network.run_stage (i := PathCore.distributer)
    (distributer_input mem .distributer fs (fun f => classify f.words) m) rfl
    ⟨fun p => by cases p <;> rfl, fun q => rfl, rfl⟩ rfl
    ⟨fun p => by cases p <;> rfl, fun q => rfl, rfl⟩ ⟨fun j hj => rfl, fun c hs hd => ?_⟩)
  cases c with
  | packetBuffer => exact absurd rfl (hs .inputStrm)
  | protFifo => exact absurd rfl (hs .protStrm)
  | strm q => exact absurd rfl (hd q)
  | _ => rfl

/-- The FIFO contents once `udp_depacketizer` has read everything. -/
def behind (fs : List Frame) (raw enc sel out : List NetWord) : PathFifo → List NetWord
  | .strm q => if q = .udpStrmStrm then [] else routed fs q
  | .rawDataBuf => raw
  | .encDataBuf => enc
  | .outSel => sel
  | .udpOutputBuffer => out
  | _ => []

/-- The frames for the cipher path. -/
def strmFrames (fs : List Frame) : List Frame :=
  fs.filter fun f => DistributerOut.udpStrmStrm.prot = classify f.words

lemma path_depacketized (fs : List Frame) (hf : ∀ f ∈ fs, 60 ≤ f.words.length) (m : mem.State) :
    (encryptionPath core lasts ports).Run mem (fun _ => ⊤)
      (pathState core lasts ports (pathLabel core core.start 0 .entry) (fun
        | .strm q => routed fs q
        | _ => []) m)
      (pathState core lasts ports (pathLabel core core.start 0 .entry)
        (behind fs (forwarded fs) [] [] [])
        (publishedAll mem .udpDepacketizer (strmFrames fs) m)) := by
  have hb := udpDepacketizer_frames mem PathCore.udpDepacketizer (strmFrames fs)
    (fun f hm => by have h := hf f (List.mem_of_mem_filter hm); omega)
    ⟨fun _ => routed fs .udpStrmStrm,fun _ => [],m⟩ rfl
  refine Network.run_stage (i := PathCore.udpDepacketizer) hb rfl
    ⟨fun p => rfl, fun q => rfl, rfl⟩ rfl
    ⟨fun p => rfl, fun q => rfl, rfl⟩ ⟨fun j hj => rfl, fun c hs hd => ?_⟩
  cases c with
  | strm q => exact if_neg fun he => hs .inputStrm (congrArg PathFifo.strm he.symm)
  | rawDataBuf => exact absurd rfl (hd .outputStrm)
  | _ => rfl

/-- The words on the output of the cipher core once it has read all the payloads. -/
def ciphered (fs : List Frame) : List NetWord :=
  (core.cipher ((forwarded fs).map NetWord.data)).map byteWord

lemma path_ciphered (fs : List Frame) (m : mem.State) : ∃ piece,
    (encryptionPath core lasts ports).Run mem (fun _ => ⊤)
      (pathState core lasts ports (pathLabel core core.start 0 .entry)
        (behind fs (forwarded fs) [] [] []) m)
      (pathState core lasts ports (pathLabel core piece 0 .entry)
        (behind fs [] (ciphered core fs) [] []) m) := by
  have hb := blockCore_blocks mem PathCore.cipher core.blockSize_pos core.processBlock
    (forwarded fs) [] core.start ⟨fun _ => forwarded fs,fun _ => [],m⟩ (List.append_nil _).symm
  rw [← core.body_eq] at hb
  refine ⟨_, Network.run_stage (i := PathCore.cipher) hb rfl
    ⟨fun p => rfl, fun q => rfl, rfl⟩ rfl ⟨fun p => rfl, fun q => rfl, rfl⟩
    ⟨fun j hj => ?_, fun c hs hd => ?_⟩⟩
  · cases j with
    | cipher => exact absurd rfl hj
    | _ => rfl
  · cases c with
    | rawDataBuf => exact absurd rfl (hs .inputStrm)
    | encDataBuf => exact absurd rfl (hd .outputStrm)
    | _ => rfl

lemma path_marked (fs : List Frame) (piece : Piece core.blockSize) (m : mem.State) : ∃ k,
    (encryptionPath core lasts ports).Run mem (fun _ => ⊤)
      (pathState core lasts ports (pathLabel core piece 0 .entry)
        (behind fs [] (ciphered core fs) [] []) m)
      (pathState core lasts ports (pathLabel core piece k .entry)
        (behind fs [] [] (marked lasts 0 (ciphered core fs)) []) m) := by
  have hb := outSwitch_blocks mem PathCore.outSwitch lasts 0 (ciphered core fs)
    ⟨fun _ => ciphered core fs,fun _ => [],m⟩ rfl
  refine ⟨_, Network.run_stage (i := PathCore.outSwitch) hb rfl
    ⟨fun p => rfl, fun q => rfl, rfl⟩ rfl ⟨fun p => rfl, fun q => rfl, rfl⟩
    ⟨fun j hj => ?_, fun c hs hd => ?_⟩⟩
  · cases j with
    | outSwitch => exact absurd rfl hj
    | _ => rfl
  · cases c with
    | encDataBuf => exact absurd rfl (hs .inputStrm)
    | outSel => exact absurd rfl (hd .outputStrm)
    | _ => rfl

/-- A run of `udp_packetizer` alone. -/
lemma path_packetizer (fs : List Frame) (piece : Piece core.blockSize) (k : ℕ)
    {ws rest out out' : List NetWord} {buf buf' : PayloadBuffering} {m m' : mem.State}
    (hb : Blocks mem PathCore.udpPacketizer (udpPacketizer ports)
      (buf',⟨fun _ => ws,fun _ => out',m⟩) (buf,⟨fun _ => rest,fun _ => out,m'⟩)) :
    (encryptionPath core lasts ports).Run mem (fun _ => ⊤)
      (pathState core lasts ports (pathLabel core piece k buf') (behind fs [] [] ws out') m)
      (pathState core lasts ports (pathLabel core piece k buf) (behind fs [] [] rest out) m') := by
  refine Network.run_stage (i := PathCore.udpPacketizer) hb rfl
    ⟨fun p => rfl, fun q => rfl, rfl⟩ rfl ⟨fun p => rfl, fun q => rfl, rfl⟩
    ⟨fun j hj => ?_, fun c hs hd => ?_⟩
  · cases j with
    | udpPacketizer => exact absurd rfl hj
    | _ => rfl
  · cases c with
    | outSel => exact absurd rfl (hs .inputStrm)
    | udpOutputBuffer => exact absurd rfl (hd .outputStrm)
    | _ => rfl

/-- The packets emitted in the end, and the words still in the buffer of `udp_packetizer`. -/
lemma path_packetized (fs : List Frame) (piece : Piece core.blockSize) (k : ℕ) (m : mem.State) :
    ∃ (buf : PayloadBuffering) (m' : mem.State) (packets : List Frame) (init tail : List NetWord),
      (encryptionPath core lasts ports).Run mem (fun _ => ⊤)
        (pathState core lasts ports (pathLabel core piece k .entry)
          (behind fs [] [] (marked lasts 0 (ciphered core fs)) []) m)
        (pathState core lasts ports (pathLabel core piece k buf)
          (behind fs [] [] [] (packets.flatMap Frame.words)) m') ∧
      marked lasts 0 (ciphered core fs) = init ++ tail ∧ (∀ w ∈ tail, w.last = false) ∧
      tail.length < 1024 ∧
      (packets.flatMap fun f => udpPayload f.words) = init.map NetWord.data := by
  obtain ⟨buf, m', packets, init, tail, hb, happ, htail, hdata, hpay⟩ :=
    udpPacketizer_blocks mem PathCore.udpPacketizer ports (marked lasts 0 (ciphered core fs)) [] []
      .entry (by simp) rfl ⟨fun _ => marked lasts 0 (ciphered core fs),fun _ => [],m⟩
      (List.append_nil _).symm
  have hlen : tail.length < 1024 := by
    have hroom := buf.room
    rwa [hdata, List.length_map] at hroom
  exact ⟨buf, m', packets, init, tail, path_packetizer core lasts ports mem fs piece k hb, happ,
    htail, hlen, hpay⟩

/-- With nothing left to read every core enters its next block and waits. -/
lemma path_waits (fs : List Frame) (piece : Piece core.blockSize) (k : ℕ) (buf : PayloadBuffering)
    (out : List NetWord) (m : mem.State) : ∃ t : (encryptionPath core lasts ports).State mem.State,
      (encryptionPath core lasts ports).Run mem (fun _ => ⊤)
        (pathState core lasts ports (pathLabel core piece k buf) (behind fs [] [] [] out) m) t ∧
      (encryptionPath core lasts ports).Starved t ∧ t.fifo .udpOutputBuffer = out := by
  obtain ⟨t, ht, hfifo, -, hcode⟩ := Network.run_calls (pathLabel core piece k buf)
    (s := pathState core lasts ports (pathLabel core piece k buf) (behind fs [] [] [] out) m)
    (fun _ => rfl)
  refine ⟨t, ht, fun i => ?_, by rw [hfifo]; rfl⟩
  have hempty : ∀ p, t.fifo ((encryptionPath core lasts ports).src i p) = [] := by
    intro p
    rw [hfifo]
    cases i <;> cases p <;> rfl
  rw [hcode]
  cases i with
  | cipher => cases core <;> exact ⟨.inputStrm, _, rfl, hempty .inputStrm⟩
  | distributer => exact ⟨.protStrm, _, rfl, hempty .protStrm⟩
  | _ => exact ⟨.inputStrm, _, rfl, hempty .inputStrm⟩

/-- Some run passes everything through and leaves every core waiting. -/
lemma path_final (fs : List Frame) (hf : ∀ f ∈ fs, 60 ≤ f.words.length) (m : mem.State) :
    ∃ (t : (encryptionPath core lasts ports).State mem.State) (packets : List Frame)
      (init tail : List NetWord),
      (encryptionPath core lasts ports).Run mem (fun _ => ⊤) (pathStart core lasts ports fs m) t ∧
      (encryptionPath core lasts ports).Starved t ∧
      t.fifo .udpOutputBuffer = packets.flatMap Frame.words ∧
      marked lasts 0 (ciphered core fs) = init ++ tail ∧ (∀ w ∈ tail, w.last = false) ∧
      tail.length < 1024 ∧
      (packets.flatMap fun f => udpPayload f.words) = init.map NetWord.data := by
  have h1 := path_routed core lasts ports mem fs hf m
  have h2 := path_depacketized core lasts ports mem fs hf m
  obtain ⟨piece, h3⟩ := path_ciphered core lasts ports mem fs
    (publishedAll mem .udpDepacketizer (strmFrames fs) m)
  obtain ⟨k, h4⟩ := path_marked core lasts ports mem fs piece
    (publishedAll mem .udpDepacketizer (strmFrames fs) m)
  obtain ⟨buf, m2, packets, init, tail, h5, hcut⟩ := path_packetized core lasts ports mem fs piece k
    (publishedAll mem .udpDepacketizer (strmFrames fs) m)
  obtain ⟨t, h6, hst, hout⟩ := path_waits core lasts ports mem fs piece k buf
    (packets.flatMap Frame.words) m2
  exact ⟨t, packets, init, tail, h1.trans (h2.trans (h3.trans (h4.trans (h5.trans h6)))), hst, hout,
    hcut⟩

/-- A datagram for the cipher path: no IP options and no padding. -/
structure StrmFrame (f : List NetWord) : Prop where
  ihl : (ipv4Of (f.drop 14)).IHL = 5
  payload : ∃ n ≥ 18, (udpOf (f.drop 34)).len.toNat = n + 8 ∧ f.length = 42 + n

lemma StrmFrame.udpPayload_eq {f : List NetWord} (h : StrmFrame f) :
    udpPayload f = (f.drop 42).map NetWord.data := by
  obtain ⟨n, -, hlen, hf⟩ := h.payload
  have h5 : (5 : BitVec 4).toNat = 5 := rfl
  simp only [udpPayload, h.ihl, h5, hlen]
  rw [List.take_of_length_le (by simp [hf])]

/-- The payloads of the frames whose own code is that of the cipher path. -/
def sentPayloads (fs : List Frame) : List Byte :=
  (fs.filter fun f => parserCode f = some Prot.UDP_STRM.code).flatMap fun f => udpPayload f.words

lemma sentPayloads_eq (fs : List Frame) (hf : ∀ f ∈ fs, 60 ≤ f.words.length)
    (hstrm : ∀ f ∈ fs, parserCode f = some Prot.UDP_STRM.code → StrmFrame f.words) :
    sentPayloads fs = (forwarded fs).map NetWord.data := by
  have hcode : ∀ f ∈ fs, decide (parserCode f = some Prot.UDP_STRM.code) =
      decide (DistributerOut.udpStrmStrm.prot = classify f.words) := by
    intro f hm
    have h60 := hf f hm
    have hle := headerLength_le f.words
    rw [parserCode_eq f (by omega)]
    refine decide_eq_decide.2 ?_
    rw [Option.some.injEq, Prot.code_injective.eq_iff]
    exact eq_comm
  rw [sentPayloads, forwarded, ← List.filter_congr hcode, List.map_flatMap]
  refine List.flatMap_congr fun f hm => (hstrm f (List.mem_of_mem_filter hm) ?_).udpPayload_eq
  simpa using (List.mem_filter.mp hm).2

/-- The payloads of the complete frames emitted so far. -/
def receivedPayloads (s : (encryptionPath core lasts ports).State M) : List Byte :=
  (cutFrames [] (s.fifo .udpOutputBuffer)).flatMap udpPayload

variable {core lasts ports}

/-- In every interleaving the emitted payloads are a prefix of the cipher of the payloads sent;
once every core waits for input, only bytes of a packet not yet closed are missing. -/
theorem encryption_path (fs : List Frame) (hf : ∀ f ∈ fs, 60 ≤ f.words.length)
    (hstrm : ∀ f ∈ fs, parserCode f = some Prot.UDP_STRM.code → StrmFrame f.words)
    (cap : PathFifo → ℕ∞) (m : (Memory.shared PathCore Cell.Val).State)
    (s : (encryptionPath core lasts ports).State (Memory.shared PathCore Cell.Val).State)
    (hs : (encryptionPath core lasts ports).Run (Memory.shared PathCore Cell.Val) cap
      (pathStart core lasts ports fs m) s) :
    receivedPayloads core lasts ports s <+: core.cipher (sentPayloads fs) ∧
    ((encryptionPath core lasts ports).Starved s →
      ∃ tail, receivedPayloads core lasts ports s ++ tail = core.cipher (sentPayloads fs) ∧
        tail.length < 1024 ∧
        ∀ k, (receivedPayloads core lasts ports s).length ≤ k →
          k < (core.cipher (sentPayloads fs)).length → lasts k = false) := by
  obtain ⟨m1, m2, hr⟩ := hs.scripted
  obtain ⟨t, packets, init, tail, ht, hst, htx, happ, htail, hlen, hpay⟩ :=
    path_final core lasts ports _ fs hf m1
  have hind := Network.script_independent PathCore Cell.Val
  have hsink : ∀ i p, (encryptionPath core lasts ports).src i p ≠ .udpOutputBuffer := by
    intro i p
    cases i <;> cases p <;> simp [PathCore.src]
  have hcut : (cutFrames [] (t.fifo .udpOutputBuffer)).flatMap udpPayload =
      init.map NetWord.data := by
    rw [htx, cutFrames_frames, List.flatMap_map, hpay]
  have hall : core.cipher (sentPayloads fs) = init.map NetWord.data ++ tail.map NetWord.data := by
    rw [← List.map_append, ← happ, marked_data, ciphered, sentPayloads_eq fs hf hstrm]
    simp [Function.comp_def]
  constructor
  · have hpre := hr.sink_final hind ht hst hsink
    obtain ⟨more, hmore⟩ := cutFrames_prefix hpre []
    refine (List.prefix_append _ (more.flatMap udpPayload)).trans ?_
    rw [receivedPayloads, ← List.flatMap_append, hmore, hcut, hall]
    exact List.prefix_append _ _
  · intro hstarved
    -- the state is the one in which the run above ends
    have heq := congrFun (congrArg Network.State.fifo
      (Network.Run.starved_unique hind hr ht hst hstarved)) .udpOutputBuffer
    have hrec : receivedPayloads core lasts ports s = init.map NetWord.data := by
      rw [receivedPayloads, ← hcut]
      exact congrArg (fun ws => (cutFrames [] ws).flatMap udpPayload) heq
    refine ⟨tail.map NetWord.data, by rw [hrec, hall], by rwa [List.length_map], ?_⟩
    intro k hk hlt
    rw [hrec, List.length_map] at hk
    rw [hall, List.length_append, List.length_map, List.length_map] at hlt
    have hkl : k < (marked lasts 0 (ciphered core fs)).length := by
      rw [happ, List.length_append]
      exact hlt
    have hmark := marked_last lasts 0 (ciphered core fs) k hkl
    have hget : (marked lasts 0 (ciphered core fs))[k] = tail[k - init.length] := by
      simp only [happ, List.getElem_append_right hk]
    rw [Nat.zero_add] at hmark
    rw [← hmark, hget]
    exact htail _ (List.getElem_mem _)

/-- A UDP frame for port 60000 with 18 zero bytes of payload. -/
def strmFrame : Frame where
  init := (List.replicate 12 0xff ++ [0x08,0x00,0x45] ++ List.replicate 8 0 ++ [0x11] ++
    List.replicate 12 0 ++ [0xea,0x60,0x00,0x1a] ++ List.replicate 19 0).map byteWord
  final := ⟨0,true,false⟩
  init_last := fun _ => byteWord_last
  final_last := Eq.refl true

/-- An ARP frame between two datagrams. -/
def pathFrames : List Frame := [strmFrame,
  ⟨(List.replicate 12 0xff ++ [0x08,0x06] ++ List.replicate 45 0).map byteWord,⟨0,true,false⟩,
    fun _ => byteWord_last,Eq.refl true⟩,strmFrame]

lemma sentPayloads_pathFrames : sentPayloads pathFrames = List.replicate 36 0 := by decide

lemma pathFrames_strm : ∀ f ∈ pathFrames, parserCode f = some Prot.UDP_STRM.code →
    StrmFrame f.words := by
  have hstrm : StrmFrame strmFrame.words := ⟨by decide, 18, by decide, by decide, by decide⟩
  intro f hm hc
  simp only [pathFrames, List.mem_cons, List.not_mem_nil, or_false] at hm
  rcases hm with rfl | rfl | rfl
  · exact hstrm
  · exact absurd hc (by decide)
  · exact hstrm

/-- Behind a mark `udp_packetizer` holds no byte back. -/
lemma init_of_mark {ws init tail : List NetWord} {lasts : ℕ → Bool} {n : ℕ}
    (hn : n < (marked lasts 0 ws).length) (hmark : lasts n = true)
    (happ : [] ++ (marked lasts 0 ws).take (n+1) = init ++ tail)
    (htail : ∀ w ∈ tail, w.last = false) : init = (marked lasts 0 ws).take (n+1) ∧ tail = [] := by
  rw [List.nil_append] at happ
  have hlen : init.length + tail.length = n + 1 := by
    rw [← List.length_append, ← happ, List.length_take_of_le hn]
  suffices h : tail = [] by
    rw [h, List.append_nil] at happ
    exact ⟨happ.symm, h⟩
  by_contra hne
  have hpos : 0 < tail.length := List.length_pos_iff.mpr hne
  have hget : ((marked lasts 0 ws).take (n+1))[n]? = tail[n - init.length]? := by
    rw [happ, List.getElem?_append_right (by omega)]
  rw [List.getElem?_take_of_lt (by omega), List.getElem?_eq_getElem hn,
    List.getElem?_eq_getElem (by omega), Option.some_inj] at hget
  have hlast := marked_last lasts 0 ws n hn
  rw [hget, htail _ (List.getElem_mem _), Nat.zero_add, hmark] at hlast
  cases hlast

/-- `encryption_path` on a run from where the first packet is out and the words of the second wait
behind the switch, to its end. -/
theorem encryption_path_pathFrames :
    let core := CipherCore.des (.replicate 17 (.replicate 8 0)) 0
    let lasts := fun k => decide (k = 15 ∨ k = 31)
    let ports : PacketizerPorts := ⟨0,0,0,0⟩
    ∃ s t, (encryptionPath core lasts ports).Run (Memory.shared PathCore Cell.Val) (fun _ => ⊤)
        (pathStart core lasts ports pathFrames Cell.zero) s ∧
      (s.fifo .outSel).length = 16 ∧
      receivedPayloads core lasts ports s = (core.cipher (sentPayloads pathFrames)).take 16 ∧
      (encryptionPath core lasts ports).Run (Memory.shared PathCore Cell.Val) (fun _ => ⊤) s t ∧
      receivedPayloads core lasts ports t = core.cipher (sentPayloads pathFrames) := by
  intro core lasts ports
  set mem := Memory.shared PathCore Cell.Val
  have hf : ∀ f ∈ pathFrames, 60 ≤ f.words.length := by decide
  have hlen : (core.cipher (sentPayloads pathFrames)).length = 32 := by
    rw [sentPayloads_pathFrames]
    exact (cipherBlocks_length core.processBlock _).trans (by decide)
  have hciphered : (ciphered core pathFrames).length = 32 := by
    rw [ciphered, List.length_map, ← sentPayloads_eq pathFrames hf pathFrames_strm, hlen]
  set ws := marked lasts 0 (ciphered core pathFrames)
  have hws : ws.length = 32 := by
    have hdata := congrArg List.length (marked_data lasts 0 (ciphered core pathFrames))
    rwa [List.length_map, List.length_map, hciphered] at hdata
  have h1 := path_routed core lasts ports mem pathFrames hf Cell.zero
  have h2 := path_depacketized core lasts ports mem pathFrames hf Cell.zero
  set m := publishedAll mem .udpDepacketizer (strmFrames pathFrames) Cell.zero
  obtain ⟨piece, h3⟩ := path_ciphered core lasts ports mem pathFrames m
  obtain ⟨k, h4⟩ := path_marked core lasts ports mem pathFrames piece m
  -- the first packet
  obtain ⟨buf, m₁, packets, init, tail, hb, happ, htail, hbuf, hpay⟩ :=
    udpPacketizer_blocks mem PathCore.udpPacketizer ports (ws.take 16) (ws.drop 16) [] .entry
      (by simp) rfl ⟨fun _ => ws,fun _ => [],m⟩ (List.take_append_drop 16 ws).symm
  have h15 : 15 < ws.length := by omega
  obtain ⟨rfl, rfl⟩ := init_of_mark h15 rfl happ htail
  have h5 := path_packetizer core lasts ports mem pathFrames piece k hb
  -- the second packet
  obtain ⟨buf', m₂, packets', init', tail', hb', happ', htail', hbuf', hpay'⟩ :=
    udpPacketizer_blocks mem PathCore.udpPacketizer ports (ws.drop 16) [] [] buf (by simp) hbuf
      ⟨fun _ => ws.drop 16,fun _ => [] ++ packets.flatMap Frame.words,m₁⟩ (List.append_nil _).symm
  have h6 := path_packetizer core lasts ports mem pathFrames piece k hb'
  obtain ⟨t, h7, hst, hout⟩ := path_waits core lasts ports mem pathFrames piece k buf'
    ([] ++ packets.flatMap Frame.words ++ packets'.flatMap Frame.words) m₂
  have hs := h1.trans (h2.trans (h3.trans (h4.trans h5)))
  have ht := h6.trans h7
  refine ⟨_, t, hs, ?_, ?_, ht, ?_⟩
  · exact (List.length_drop ..).trans (by omega)
  · obtain ⟨hpre, -⟩ := encryption_path pathFrames hf pathFrames_strm _ Cell.zero _ hs
    rw [List.prefix_iff_eq_take] at hpre
    rw [hpre]
    congr 1
    have hrec : receivedPayloads core lasts ports (pathState core lasts ports (pathLabel core piece k buf)
        (behind pathFrames [] [] (ws.drop 16) ([] ++ packets.flatMap Frame.words)) m₁) =
        (ws.take 16).map NetWord.data := by
      rw [← hpay]
      exact (congrArg (List.flatMap udpPayload) (cutFrames_frames packets)).trans
        (List.flatMap_map ..)
    rw [hrec, List.length_map, List.length_take_of_le (by omega)]
  · obtain ⟨-, hend⟩ := encryption_path pathFrames hf pathFrames_strm _ Cell.zero t (hs.trans ht)
    obtain ⟨rest, hrest, -, hlasts⟩ := hend hst
    -- the mark on byte 31 leaves nothing behind
    have h32 : ¬ (receivedPayloads core lasts ports t).length ≤ 31 := by
      intro h31
      exact absurd (hlasts 31 h31 (by omega)) (by decide)
    have hnone : rest = [] := by
      have hl := congrArg List.length hrest
      rw [List.length_append, hlen] at hl
      exact List.length_eq_zero_iff.mp (by omega)
    rwa [hnone, List.append_nil] at hrest

end Path

end EncryptionAccelerators.Net
