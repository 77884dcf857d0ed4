import EncryptionAccelerators.Device

/-! One run of the device over a sequence of frames, core by core, up to where all of them wait. -/
namespace EncryptionAccelerators.Net
open Dataflow

section Blocks
variable {ι : Type} (mem : Memory ι Cell.Val) (i : ι)

/-- The frames one after the other, each with its answer. -/
lemma answers_blocks {L : Type} {body : L → Cmd InputStrm OutputStrm NetWord Cell.Val L} {start : L}
    (answer : Frame → List NetWord) (fs : List Frame)
    (hone : ∀ f ∈ fs, ∀ (rest : List NetWord) (s : Io InputStrm OutputStrm NetWord mem.State),
      s.inp .inputStrm = f.words ++ rest → Invokes mem i body start s
        ⟨fun _ => rest,fun _ => s.out .outputStrm ++ answer f,s.mem⟩)
    (out : List NetWord) (m : mem.State) :
    Blocks mem i body (start,⟨fun _ => fs.flatMap Frame.words,fun _ => out,m⟩)
      (start,⟨fun _ => [],fun _ => out ++ fs.flatMap answer,m⟩) := by
  induction fs generalizing out with
  | nil => exact Blocks.to .refl (by simp)
  | cons f fs ih =>
    have hf := hone f (by simp) (fs.flatMap Frame.words)
      ⟨fun _ => (f::fs).flatMap Frame.words,fun _ => out,m⟩ rfl
    have hrest := ih (fun g hg => hone g (by simp [hg])) (out ++ answer f)
    rw [List.append_assoc, ← List.flatMap_cons] at hrest
    exact hf.blocks.trans hrest

/-- A packet of `udp_packetizer`. -/
def IsPacket (ports : PacketizerPorts) (f : Frame) : Prop :=
  ∃ dstIpAddr l b user, (l ++ [b]).length ≤ 1024 ∧ f = packet ports dstIpAddr l b user

/-- `udp_packetizer` puts out nothing but packets. -/
lemma udpPacketizer_packets (ports : PacketizerPorts)
    {x y : PayloadBuffering × Io InputStrm OutputStrm NetWord mem.State}
    (h : Blocks mem i (udpPacketizer ports) x y) : ∃ packets : List Frame,
      y.2.out .outputStrm = x.2.out .outputStrm ++ packets.flatMap Frame.words ∧
      ∀ f ∈ packets, IsPacket ports f := by
  induction h with
  | refl => exact ⟨[], by simp, by simp⟩
  | @tail y z _ hs ih =>
    obtain ⟨packets, hout, hp⟩ := ih
    obtain ⟨s, io⟩ := y
    cases hin : io.inp .inputStrm with
    | nil =>
      rw [Block, udpPacketizer, readWord_bind, exec_recv_none mem i _ _ io hin] at hs
      cases hs
    | cons w ws =>
      by_cases hpush : w.last = false ∧ (s.dataBuf ++ [w.data]).length < 1024
      · have hb : Block mem i (udpPacketizer ports) (s,io) _ :=
          exec_udpPacketizer_push mem i ports s io hin hpush
        obtain rfl := hs.deterministic hb
        exact ⟨packets, hout, hp⟩
      · have hb : Block mem i (udpPacketizer ports) (s,io) _ :=
          exec_udpPacketizer_emit mem i ports s io hin hpush
        obtain rfl := hs.deterministic hb
        set f := packet ports (mem.load i .dstIpAddr io.mem).1 s.dataBuf w.data w.user with hf
        have hpacket : IsPacket ports f := by
          refine ⟨_, _, _, _, ?_, hf⟩
          have hroom := s.room
          rw [List.length_append, List.length_singleton]
          omega
        refine ⟨packets ++ [f], ?_, fun g hg => ?_⟩
        · rw [List.flatMap_append, List.flatMap_singleton, ← List.append_assoc, ← hout]
        · rcases List.mem_append.mp hg with hg | hg
          · exact hp g hg
          · exact List.mem_singleton.mp hg ▸ hpacket

end Blocks

/-! The cipher core of the device. -/

/-- The core reads word by word, stores nothing, and given the words `ws` puts out some `us` with
`Out ws us`. -/
structure Enciphers {n : ℕ} (hn : 0 < n)
    (cipher : Piece n → Cmd InputStrm OutputStrm NetWord Cell.Val (Piece n))
    (Out : List NetWord → List NetWord → Prop) : Prop where
  reads : ∀ piece, ∃ k, cipher piece = .recv .inputStrm k
  accesses : ∀ piece, (cipher piece).Accesses (fun _ => True) NoCell
  blocks : ∀ (mem : Memory DeviceCore Cell.Val) ws m, ∃ piece us m', Out ws us ∧
    Blocks mem .cipher cipher (⟨[],hn⟩,⟨fun _ => ws,fun _ => [],m⟩)
      (piece,⟨fun _ => [],fun _ => us,m'⟩)

/-- The words on the output of a core that has its table on its port. -/
def CipherOut (core : CipherCore) (ws us : List NetWord) : Prop :=
  us = (core.cipher (ws.map NetWord.data)).map byteWord

lemma core_enciphers (core : CipherCore) :
    Enciphers core.blockSize_pos core.body (CipherOut core) where
  reads piece := by
    rw [core.body_eq, blockCore, readWord_bind]
    exact ⟨_, rfl⟩
  accesses := cipher_accesses core
  blocks mem ws m := by
    have hb := blockCore_blocks mem .cipher core.blockSize_pos core.processBlock ws [] core.start
      ⟨fun _ => ws,fun _ => [],m⟩ (List.append_nil _).symm
    rw [← core.body_eq] at hb
    exact ⟨_, _, _, rfl, hb⟩

/-- The frames with the code `p`. -/
def framesFor (p : Prot) (fs : List Frame) : List Frame :=
  fs.filter fun f => parserCode f = some p.code

lemma framesFor_eq (fs : List Frame) (hf : ∀ f ∈ fs, 60 ≤ f.words.length) (q : DistributerOut) :
    framesFor q.prot fs = fs.filter fun f => q.prot = classify f.words := by
  refine List.filter_congr fun f hm => decide_eq_decide.2 ?_
  have h60 := hf f hm
  have hle := headerLength_le f.words
  rw [parserCode_eq f (by omega), Option.some.injEq, Prot.code_injective.eq_iff]
  exact eq_comm

/-- Frames the cores behind `distributer` are made for. -/
structure DeviceFrames (fs : List Frame) : Prop where
  words : ∀ f ∈ fs, 60 ≤ f.words.length
  icmp : ∀ f ∈ framesFor .ICMP fs, IcmpFrame f.words
  udpReg : ∀ f ∈ framesFor .UDP_REG fs, RegFrame f
  udpStrm : ∀ f ∈ framesFor .UDP_STRM fs, StrmFrame f.words

def arpReplies (ports : ArpPorts) (fs : List Frame) : List NetWord :=
  (framesFor .ARP fs).flatMap fun f =>
    answerWords ports (ethernetOf f.words) (arpOf (f.words.drop 14))

def echoReplies (ports : IcmpPorts) (fs : List Frame) : List NetWord :=
  (framesFor .ICMP fs).flatMap fun f => echoWords ports f.words

section Final
variable {n : ℕ} {hn : 0 < n}
  {cipher : Piece n → Cmd InputStrm OutputStrm NetWord Cell.Val (Piece n)} {lasts : ℕ → Bool}
  {ports : DevicePorts} {Out : List NetWord → List NetWord → Prop}

section Stages
variable (mem : Memory DeviceCore Cell.Val)

/-- `parser` may run by itself where there is room for all the frames. -/
lemma device_parsed (fs : List Frame) (hf : ∀ f ∈ fs, 43 ≤ f.words.length) (m : mem.State)
    {cap : DeviceFifo → ℕ∞} (hpacket : ((fs.flatMap Frame.words).length : ℕ∞) ≤ cap .packetBuffer)
    (hprot : (fs.length : ℕ∞) ≤ cap .protFifo) : (deviceAround cipher lasts ports).Run mem cap
      (aroundStart hn cipher lasts ports fs m) (aroundState hn cipher lasts ports (fun
        | .packetBuffer => fs.flatMap Frame.words
        | .protFifo => fs.map fun f => byteWord (classify f.words).code
        | _ => []) m) := by
  refine Network.run_stage_bounded (i := DeviceCore.parser)
    (parser_frames mem .parser fs hf ⟨fun _ => fs.flatMap Frame.words,fun _ => [],m⟩ rfl) rfl
    ⟨fun p => by cases p; rfl, fun q => by cases q <;> rfl, rfl⟩ rfl
    ⟨fun p => by cases p; rfl, fun q => by cases q <;> rfl, rfl⟩
    ⟨fun j hj => rfl, fun c hs hd => ?_⟩ fun q => ?_
  · cases c with
    | networkRxFifo => exact absurd rfl (hs .inputStrm)
    | packetBuffer => exact absurd rfl (hd .outputStrm)
    | protFifo => exact absurd rfl (hd .protStrm)
    | _ => rfl
  · cases q with
    | outputStrm => exact hpacket
    | protStrm =>
      have hlen : (fs.map fun f => byteWord (classify f.words).code).length = fs.length :=
        List.length_map _
      exact le_of_eq_of_le (congrArg Nat.cast hlen) hprot

/-- `parser` and `distributer` pass all frames on. -/
lemma device_routed (fs : List Frame) (hf : ∀ f ∈ fs, 60 ≤ f.words.length)
    (m : mem.State) : (deviceAround cipher lasts ports).Run mem (fun _ => ⊤)
      (aroundStart hn cipher lasts ports fs m) (aroundState hn cipher lasts ports (fun
        | .arpInputBuffer => (framesFor .ARP fs).flatMap Frame.words
        | .icmpInputBuffer => (framesFor .ICMP fs).flatMap Frame.words
        | .udpRcvBuf => (framesFor .UDP_STRM fs).flatMap Frame.words
        | .udpRegBuf => (framesFor .UDP_REG fs).flatMap Frame.words
        | _ => []) m) := by
  have hf' : ∀ f ∈ fs, 43 ≤ f.words.length := fun f hm => by have h := hf f hm; omega
  have hparser : (deviceAround cipher lasts ports).Run mem (fun _ => ⊤)
      (aroundStart hn cipher lasts ports fs m) _ := device_parsed mem fs hf' m le_top le_top
  have hb := distributer_input mem .distributer fs (fun f => classify f.words) m
  refine hparser.trans (Network.run_stage (i := DeviceCore.distributer) hb rfl
    ⟨fun p => by cases p <;> rfl, fun q => by cases q <;> rfl, rfl⟩ rfl
    ⟨fun p => by cases p <;> rfl, fun q => ?_, rfl⟩ ⟨fun j hj => rfl, fun c hs hd => ?_⟩)
  · cases q with
    | arpStrm => exact congrArg (List.flatMap Frame.words) (framesFor_eq fs hf .arpStrm)
    | icmpStrm => exact congrArg (List.flatMap Frame.words) (framesFor_eq fs hf .icmpStrm)
    | udpStrmStrm => exact congrArg (List.flatMap Frame.words) (framesFor_eq fs hf .udpStrmStrm)
    | udpRegStrm => exact congrArg (List.flatMap Frame.words) (framesFor_eq fs hf .udpRegStrm)
  · cases c with
    | packetBuffer => exact absurd rfl (hs .inputStrm)
    | protFifo => exact absurd rfl (hs .protStrm)
    | arpInputBuffer => exact absurd rfl (hd .arpStrm)
    | icmpInputBuffer => exact absurd rfl (hd .icmpStrm)
    | udpRcvBuf => exact absurd rfl (hd .udpStrmStrm)
    | udpRegBuf => exact absurd rfl (hd .udpRegStrm)
    | _ => rfl

end Stages

variable {mem : Memory DeviceCore Cell.Val}

/-- Cores between two blocks with nothing to read enter the next one and wait. -/
lemma device_waits (hreads : ∀ piece, ∃ k, cipher piece = .recv .inputStrm k)
    {s₀ s : (deviceAround cipher lasts ports).State mem.State}
    (h : (deviceAround cipher lasts ports).Run mem (fun _ => ⊤) s₀ s) (piece : Piece n)
    (k : ℕ) (buf : PayloadBuffering) (hc : ∀ i, s.code i = .ret (deviceLabel piece k buf i))
    (hempty : ∀ i p, s.fifo ((deviceAround cipher lasts ports).src i p) = []) :
    ∃ t, (deviceAround cipher lasts ports).Run mem (fun _ => ⊤) s₀ t ∧
      (deviceAround cipher lasts ports).Starved t ∧ t.fifo = s.fifo ∧ t.mem = s.mem := by
  obtain ⟨t, hr, hfifo, hmem, hcode⟩ := Network.run_calls (N := deviceAround cipher lasts ports)
    (deviceLabel piece k buf) hc
  refine ⟨t, h.trans hr, fun i => ?_, hfifo, hmem⟩
  rw [hcode, hfifo]
  have hi := hempty i
  cases i with
  | cipher =>
    obtain ⟨next, hnext⟩ := hreads piece
    exact ⟨.inputStrm, next, hnext, hi .inputStrm⟩
  | distributer => exact ⟨.protStrm, _, rfl, hi .protStrm⟩
  | _ => exact ⟨.inputStrm, _, rfl, hi .inputStrm⟩

/-- Some run answers everything and leaves all cores waiting. What holds of the memory after the
writes to the registers and is kept by the cores that use other cells holds of it in the end. -/
lemma device_final {cells : mem.State → (c : Cell) → c.Val} (hreg : OwnsRegisters mem .udpReg cells)
    (hcipher : Enciphers hn cipher Out) {P : mem.State → Prop}
    (hdep : ∀ {x y}, Blocks mem .udpDepacketizer udpDepacketizer x y → P x.2.mem → P y.2.mem)
    (hciph : ∀ {x y}, Blocks mem .cipher cipher x y → P x.2.mem → P y.2.mem)
    (hpack : ∀ {x y}, Blocks mem .udpPacketizer (udpPacketizer ports.udpPacketizer) x y →
      P x.2.mem → P y.2.mem)
    (fs : List Frame) (hf : DeviceFrames fs) (m : mem.State)
    (hm : P (storeAll mem .udpReg m (writeHistory (framesFor .UDP_REG fs)))) :
    ∃ (t : (deviceAround cipher lasts ports).State mem.State) (packets : List Frame)
      (us init tail : List NetWord),
      (deviceAround cipher lasts ports).Run mem (fun _ => ⊤)
        (aroundStart hn cipher lasts ports fs m) t ∧
      (deviceAround cipher lasts ports).Starved t ∧
      t.fifo .arpOutputBuffer = arpReplies ports.arp fs ∧
      t.fifo .icmpOutputBuffer = echoReplies ports.icmp fs ∧
      t.fifo .udpRegOutBuf = replies (cells m) (framesFor .UDP_REG fs) ∧ P t.mem ∧
      t.fifo .udpOutputBuffer = packets.flatMap Frame.words ∧ Out (forwarded fs) us ∧
      marked lasts 0 us = init ++ tail ∧ (∀ w ∈ tail, w.last = false) ∧
      tail.length < 1024 ∧ (∀ f ∈ packets, IsPacket ports.udpPacketizer f) ∧
      (packets.flatMap fun f => udpPayload f.words) = init.map NetWord.data := by
  have hone (p' : InputStrm) : p' = .inputStrm := by cases p'; rfl
  have hone' (q' : OutputStrm) : q' = .outputStrm := by cases q'; rfl
  have hlong (p : Prot) (f : Frame) (hm : f ∈ framesFor p fs) : 43 ≤ f.words.length := by
    have h60 := hf.words f (List.mem_of_mem_filter hm)
    omega
  have hstrm : framesFor .UDP_STRM fs = strmFrames fs := framesFor_eq fs hf.words .udpStrmStrm
  -- the answers to ARP and ICMP
  have h1 : (deviceAround cipher lasts ports).Run mem (fun _ => ⊤)
      (aroundStart hn cipher lasts ports fs m) _ := device_routed mem fs hf.words m
  have h2 := h1.piped (i := DeviceCore.arp) hone hone' (answers_blocks mem .arp _ _
    (fun f hm rest s hs => arp_invokes mem .arp ports.arp f
      (by have h := hlong _ f hm; omega) rest s hs) [] m) rfl rfl rfl rfl
  have h3 := h2.piped (i := DeviceCore.icmp) hone hone' (answers_blocks mem .icmp _ _
    (fun f hm rest s hs => (hf.icmp f hm).invokes mem .icmp ports.icmp rest s hs) [] m)
    rfl rfl rfl rfl
  -- the registers
  set m₁ : mem.State := storeAll mem .udpReg m (writeHistory (framesFor .UDP_REG fs))
  have h4 := h3.piped (i := DeviceCore.udpReg) hone hone'
    (hreg.registers_blocks (framesFor .UDP_REG fs) hf.udpReg [] m) rfl rfl rfl rfl
  -- the payloads through the cipher
  have hdepacketizer := udpDepacketizer_frames mem DeviceCore.udpDepacketizer
    (framesFor .UDP_STRM fs) (hlong _)
    ⟨fun _ => (framesFor .UDP_STRM fs).flatMap Frame.words,fun _ => [],m₁⟩ rfl
  set m₂ : mem.State := publishedAll mem .udpDepacketizer (framesFor .UDP_STRM fs) m₁
  have h5 := h4.piped (i := DeviceCore.udpDepacketizer) hone hone' hdepacketizer rfl rfl rfl rfl
  obtain ⟨piece, us, m₃, hus, hblocks⟩ := hcipher.blocks mem (forwarded fs) m₂
  have h6 := h5.piped (i := DeviceCore.cipher) hone hone' hblocks rfl (by rw [hstrm]; rfl) rfl rfl
  have h7 := h6.piped (i := DeviceCore.outSwitch) hone hone'
    (outSwitch_blocks mem DeviceCore.outSwitch lasts 0 us ⟨fun _ => us,fun _ => [],m₃⟩ rfl)
    rfl rfl rfl rfl
  obtain ⟨buf, m', packets, init, tail, hb, happ, htail, hdata, hpay⟩ :=
    udpPacketizer_blocks mem DeviceCore.udpPacketizer ports.udpPacketizer
      (marked lasts 0 us) [] [] .entry (by simp) rfl
      ⟨fun _ => marked lasts 0 us,fun _ => [],m₃⟩ (List.append_nil _).symm
  have hlen : tail.length < 1024 := by
    have hroom := buf.room
    rwa [hdata, List.length_map] at hroom
  obtain ⟨packets', hout, hpackets⟩ :=
    udpPacketizer_packets mem DeviceCore.udpPacketizer ports.udpPacketizer hb
  have hsame : packets.map Frame.words = packets'.map Frame.words := by
    rw [← cutFrames_frames, ← cutFrames_frames]
    exact congrArg (cutFrames []) hout
  have hpay' : (packets'.flatMap fun f => udpPayload f.words) = init.map NetWord.data := by
    have hmap (ps : List Frame) : (ps.flatMap fun f => udpPayload f.words) =
        (ps.map Frame.words).flatMap udpPayload := by rw [List.flatMap_map]
    rw [hmap, ← hsame, ← hmap, hpay]
  have h8 := h7.piped (i := DeviceCore.udpPacketizer) hone hone' hb rfl rfl rfl rfl
  obtain ⟨t, ht, hstarved, hfifo, hmem⟩ := device_waits hcipher.reads h8 piece (0 + us.length) buf
    (fun i => by cases i <;> rfl) (fun i p => by cases i <;> cases p <;> rfl)
  refine ⟨t, packets', us, init, tail, ht, hstarved, by rw [hfifo]; rfl, by rw [hfifo]; rfl,
    by rw [hfifo]; rfl, ?_, ?_, hus, happ, htail, hlen, hpackets, hpay'⟩
  · rw [hmem]
    exact hpack hb (hciph hblocks (hdep hdepacketizer hm))
  · rw [hfifo]
    exact hout

end Final

/-! The registers in the memory of the device. -/

/-- The memory the cores run on: the registers belong to `udp_reg`. -/
abbrev regMemory : Memory DeviceCore Cell.Val := Memory.owned Cell.Val regOwner

lemma ownedCells_bram (m₀ m : (c : Cell) → c.Val) (index : BitVec 32) :
    ownedCells regOwner m₀ m (.bram index) = m (.bram index) := by
  have hown : regOwner (.bram index) = some .udpReg := rfl
  exact ownedCells_of_owner hown

lemma ownsRegisters : OwnsRegisters regMemory .udpReg Prod.snd where
  load index m := by
    have hown : regOwner (.bram index) = some .udpReg := rfl
    exact owned_load (V := Cell.Val) hown m
  store index data m := by
    have hown : regOwner (.bram index) = some .udpReg := rfl
    exact congrArg Prod.snd (owned_store (V := Cell.Val) hown data m)

lemma udpDepacketizer_frame {x y} (h : Blocks regMemory .udpDepacketizer udpDepacketizer x y) :
    y.2.mem.2 = x.2.mem.2 :=
  blocks_owned_frame DeviceCore.udpDepacketizer
    (fun l => (udpDepacketizer_accesses l).mono (fun _ h => h.elim) fun a h => by simp [h.regOwner]) h

lemma udpPacketizer_frame {ports : PacketizerPorts} {x y}
    (h : Blocks regMemory .udpPacketizer (udpPacketizer ports) x y) : y.2.mem.2 = x.2.mem.2 :=
  blocks_owned_frame DeviceCore.udpPacketizer
    (fun l => (udpPacketizer_accesses ports l).mono (fun a h => by simp [h.regOwner]) fun _ h => h.elim) h

section Registers
variable {n : ℕ} {hn : 0 < n}
  {cipher : Piece n → Cmd InputStrm OutputStrm NetWord Cell.Val (Piece n)} {lasts : ℕ → Bool}
  {ports : DevicePorts} {Out : List NetWord → List NetWord → Prop}

lemma cipher_frame (hcipher : Enciphers hn cipher Out) {x y}
    (h : Blocks regMemory .cipher cipher x y) : y.2.mem.2 = x.2.mem.2 := by
  have hother (c : Cell) : regOwner c ≠ some .cipher := by cases c <;> simp [regOwner]
  exact blocks_owned_frame DeviceCore.cipher
    (fun piece => (hcipher.accesses piece).mono (fun c _ => hother c) fun c _ => hother c) h

variable (lasts ports) in
/-- `device_final` on this memory: the registers hold what the frames have written. -/
lemma device_final_registers (hcipher : Enciphers hn cipher Out) (fs : List Frame)
    (hf : DeviceFrames fs) (m : regMemory.State) :
    ∃ (t : (deviceAround cipher lasts ports).State regMemory.State)
      (packets : List Frame) (us init tail : List NetWord),
      (deviceAround cipher lasts ports).Run regMemory (fun _ => ⊤)
        (aroundStart hn cipher lasts ports fs m) t ∧
      (deviceAround cipher lasts ports).Starved t ∧
      t.fifo .arpOutputBuffer = arpReplies ports.arp fs ∧
      t.fifo .icmpOutputBuffer = echoReplies ports.icmp fs ∧
      t.fifo .udpRegOutBuf = replies m.2 (framesFor .UDP_REG fs) ∧
      t.mem.2 = storePairs m.2 (writeHistory (framesFor .UDP_REG fs)) ∧
      t.fifo .udpOutputBuffer = packets.flatMap Frame.words ∧ Out (forwarded fs) us ∧
      marked lasts 0 us = init ++ tail ∧ (∀ w ∈ tail, w.last = false) ∧
      tail.length < 1024 ∧ (∀ f ∈ packets, IsPacket ports.udpPacketizer f) ∧
      (packets.flatMap fun f => udpPayload f.words) = init.map NetWord.data :=
  device_final ownsRegisters hcipher
    (P := fun m' => m'.2 = storePairs m.2 (writeHistory (framesFor .UDP_REG fs)))
    (fun h => (udpDepacketizer_frame h).trans) (fun h => (cipher_frame hcipher h).trans)
    (fun h => (udpPacketizer_frame h).trans) fs hf m (ownsRegisters.cells_storeAll m _)

end Registers

end EncryptionAccelerators.Net
