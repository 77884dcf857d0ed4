import EncryptionAccelerators.Distributer
/-! `parser` and `distributer` joined by two FIFOs: a frame and its code travel apart. -/
namespace EncryptionAccelerators.Net
open Dataflow

inductive RoutingCore
  | parser | distributer
  deriving DecidableEq

instance : Fintype RoutingCore := ⟨{.parser,.distributer}, fun i => by cases i <;> simp⟩

/-- `packet_buffer` and `prot_fifo` join the two cores. -/
inductive RoutingFifo
  | inputStrm | packetBuffer | protFifo | strm (q : DistributerOut)
  deriving DecidableEq

namespace RoutingCore

@[reducible] def In : RoutingCore → Type
  | parser => InputStrm
  | distributer => DistributerIn

@[reducible] def Out : RoutingCore → Type
  | parser => ParserOut
  | distributer => DistributerOut

@[reducible] def Label : RoutingCore → Type
  | parser => ParserLabel
  | distributer => DistributerLabel

def src : (i : RoutingCore) → In i → RoutingFifo
  | parser, .inputStrm => .inputStrm
  | distributer, .inputStrm => .packetBuffer
  | distributer, .protStrm => .protFifo

def dst : (i : RoutingCore) → Out i → RoutingFifo
  | parser, .outputStrm => .packetBuffer
  | parser, .protStrm => .protFifo
  | distributer, q => .strm q

end RoutingCore

@[reducible] def routing : Network RoutingCore RoutingFifo NetWord Cell.Val where
  In := RoutingCore.In
  Out := RoutingCore.Out
  Label := RoutingCore.Label
  body
    | .parser => parser
    | .distributer => distributer
  src := RoutingCore.src
  dst := RoutingCore.dst
  src_inj {i j p q} h := by cases i <;> cases j <;> cases p <;> cases q <;> simp_all [RoutingCore.src]
  dst_inj {i j p q} h := by cases i <;> cases j <;> cases p <;> cases q <;> simp_all [RoutingCore.dst]
  loopless {i} p q := by cases i <;> cases p <;> cases q <;> simp [RoutingCore.src, RoutingCore.dst]

/-- Both cores at their entries; the FIFOs as given. -/
def routingState {M : Type} (fifo : RoutingFifo → List NetWord) (m : M) : routing.State M where
  code
    | .parser => .ret .start
    | .distributer => .ret .start
  fifo := fifo
  mem := m

/-- All words of the frames wait on the input. -/
def routingStart {M : Type} (fs : List Frame) (m : M) : routing.State M :=
  routingState (fun
    | .inputStrm => fs.flatMap Frame.words
    | _ => []) m

/-- `parser` has passed the frames on, `distributer` has read none of them. -/
def parsedFifos (fs : List Frame) : RoutingFifo → List NetWord
  | .packetBuffer => fs.flatMap Frame.words
  | .protFifo => fs.map fun f => byteWord (classify f.words).code
  | _ => []

section Stages
variable (fs : List Frame) (mem : Memory RoutingCore Cell.Val) (m : mem.State)

/-- `parser` may run by itself where there is room for all the frames. -/
lemma routing_parsed (hf : ∀ f ∈ fs, 43 ≤ f.words.length) {cap : RoutingFifo → ℕ∞}
    (hpacket : ((fs.flatMap Frame.words).length : ℕ∞) ≤ cap .packetBuffer)
    (hprot : (fs.length : ℕ∞) ≤ cap .protFifo) :
    routing.Run mem cap (routingStart fs m) (routingState (parsedFifos fs) m) := by
  refine Network.run_stage_bounded (i := RoutingCore.parser)
    (parser_frames mem .parser fs hf ⟨fun _ => fs.flatMap Frame.words,fun _ => [],m⟩ rfl) rfl
    ⟨fun p => by cases p; rfl, fun q => by cases q <;> rfl, rfl⟩ rfl
    ⟨fun p => by cases p; rfl, fun q => by cases q <;> rfl, rfl⟩ ⟨fun j hj => ?_, fun c hs hd => ?_⟩
    fun q => ?_
  · cases j <;> rfl
  · cases c with
    | inputStrm => exact absurd rfl (hs .inputStrm)
    | packetBuffer => exact absurd rfl (hd .outputStrm)
    | protFifo => exact absurd rfl (hd .protStrm)
    | strm q => rfl
  · cases q with
    | outputStrm => exact hpacket
    | protStrm =>
      have hlen : (parsedFifos fs .protFifo).length = fs.length := List.length_map _
      exact le_of_eq_of_le (congrArg Nat.cast hlen) hprot

lemma routing_distributed : routing.Run mem (fun _ => ⊤) (routingState (parsedFifos fs) m)
    (routingState (fun
      | .strm q => (fs.filter fun f => q.prot = classify f.words).flatMap Frame.words
      | _ => []) m) := by
  refine Network.run_stage (i := RoutingCore.distributer)
    (distributer_input mem .distributer fs (fun f => classify f.words) m) rfl
    ⟨fun p => by cases p <;> rfl, fun q => rfl, rfl⟩ rfl
    ⟨fun p => by cases p <;> rfl, fun q => rfl, rfl⟩ ⟨fun j hj => ?_, fun c hs hd => ?_⟩
  · cases j <;> rfl
  · cases c with
    | inputStrm => rfl
    | packetBuffer => exact absurd rfl (hs .inputStrm)
    | protFifo => exact absurd rfl (hs .protStrm)
    | strm q => exact absurd rfl (hd q)

end Stages

/-- Some run forwards everything and leaves both cores waiting. -/
lemma routing_final (fs : List Frame) (hf : ∀ f ∈ fs, 43 ≤ f.words.length)
    (mem : Memory RoutingCore Cell.Val) (m : mem.State) : ∃ t,
      routing.Run mem (fun _ => ⊤) (routingStart fs m) t ∧ routing.Starved t ∧
      ∀ q, t.fifo (.strm q) = (fs.filter fun f => q.prot = classify f.words).flatMap Frame.words := by
  have h1 : routing.Run mem (fun _ => ⊤) (routingStart fs m) _ :=
    routing_parsed fs mem m hf le_top le_top
  have h2 := routing_distributed fs mem m
  obtain ⟨u, h3, hfifo, _, hcode⟩ := Network.run_calls (N := routing)
    (s := routingState (fun
      | .strm q => (fs.filter fun f => q.prot = classify f.words).flatMap Frame.words
      | _ => []) m) (fun
    | .parser => .start
    | .distributer => .start) (fun i => by cases i <;> rfl)
  refine ⟨u, h1.trans (h2.trans h3), fun i => ?_, fun q => by rw [hfifo]; rfl⟩
  cases i with
  | parser => exact ⟨_, _, hcode .parser, congrFun hfifo _⟩
  | distributer => exact ⟨_, _, hcode .distributer, congrFun hfifo _⟩

/-- The code `parser` writes while reading a frame. -/
def parserCode (f : Frame) : Option Byte :=
  (exec Memory.none () (parser .start) ⟨fun _ => f.words,fun _ => [],nofun⟩).bind fun r => (r.2.out .protStrm).head?.map NetWord.data

lemma parserCode_eq (f : Frame) (h : headerLength f.words ≤ f.words.length) :
    parserCode f = some (classify f.words).code := by
  unfold parserCode
  rw [exec_parserStart _ _ _ (f := f.words) rfl h]
  rfl

lemma Prot.code_injective : Function.Injective Prot.code := by
  intro a b h
  cases a <;> cases b <;> first | rfl | exact absurd h (by decide)

/-- In every interleaving each output of `distributer` carries, whole and in order, words of
exactly the frames whose own code selects it. -/
theorem routing_integrity (fs : List Frame) (hf : ∀ f ∈ fs, 43 ≤ f.words.length)
    (cap : RoutingFifo → ℕ∞) (m : (Memory.shared RoutingCore Cell.Val).State)
    (s : routing.State (Memory.shared RoutingCore Cell.Val).State)
    (hs : routing.Run (Memory.shared RoutingCore Cell.Val) cap (routingStart fs m) s)
    (q : DistributerOut) :
    s.fifo (.strm q) <+: (fs.filter fun f => parserCode f = some q.prot.code).flatMap Frame.words := by
  obtain ⟨m', m'', hr⟩ := hs.scripted
  obtain ⟨t, ht, hst, hq⟩ := routing_final fs hf _ m'
  have hsink : ∀ i p, routing.src i p ≠ .strm q := by
    rintro i p
    cases i <;> cases p <;> simp [RoutingCore.src]
  have hp := hr.sink_final (Network.script_independent _ _) ht hst hsink
  have hcode : ∀ f ∈ fs, decide (q.prot = classify f.words) =
      decide (parserCode f = some q.prot.code) := by
    intro f hfm
    have hle := headerLength_le f.words
    have h43 := hf f hfm
    rw [parserCode_eq f (by omega)]
    simp [Prot.code_injective.eq_iff, eq_comm]
  rwa [hq, List.filter_congr hcode] at hp

/-- An ARP frame of 43 words. -/
def arpFrame : Frame where
  init := (List.replicate 12 0xff ++ [0x08,0x06] ++ List.replicate 28 0).map byteWord
  final := ⟨0,true,false⟩
  init_last := fun _ => byteWord_last
  final_last := Eq.refl true

/-- A frame of 43 words that is no ARP frame, with the given type, protocol and port. -/
def portFrame (etherType : BitVec 16) (protocol : Byte) (dstPort : BitVec 16) : Frame where
  init := (List.replicate 12 0xff ++ [etherType.extractLsb 15 8,etherType.extractLsb 7 0,0x45] ++
    List.replicate 8 0 ++ [protocol] ++ List.replicate 12 0 ++
    [dstPort.extractLsb 15 8,dstPort.extractLsb 7 0] ++ List.replicate 4 0).map byteWord
  final := ⟨0,true,false⟩
  init_last := fun _ => byteWord_last
  final_last := Eq.refl true

/-- An ARP frame, a datagram, a frame of an unknown type and a register request. -/
def mixedFrames : List Frame := [arpFrame,portFrame ETHER_TYPE_IPv4 IP_PROTOCOL_UDP 60000,
  portFrame 0x86dd 0 0,portFrame ETHER_TYPE_IPv4 IP_PROTOCOL_UDP 50000]

/-- `routing_integrity` on a run from where all the frames wait in `packet_buffer`, their codes on
the way, to where they are delivered. -/
theorem routing_integrity_mixedFrames : ∃ s t,
    routing.Run (Memory.shared RoutingCore Cell.Val) (fun _ => ⊤)
      (routingStart mixedFrames Cell.zero) s ∧
    s.fifo .packetBuffer = mixedFrames.flatMap Frame.words ∧
    (s.fifo .protFifo).map NetWord.data = [Prot.ARP.code,Prot.UDP_STRM.code,Prot.OTHER.code,
      Prot.UDP_REG.code] ∧
    routing.Run (Memory.shared RoutingCore Cell.Val) (fun _ => ⊤) s t ∧
    t.fifo (.strm .udpRegStrm) = (portFrame ETHER_TYPE_IPv4 IP_PROTOCOL_UDP 50000).words ∧
    ∀ q, t.fifo (.strm q) <+: (mixedFrames.filter fun f =>
      parserCode f = some q.prot.code).flatMap Frame.words := by
  have hf : ∀ f ∈ mixedFrames, 43 ≤ f.words.length := by decide
  have h1 : routing.Run (Memory.shared RoutingCore Cell.Val) (fun _ => ⊤)
      (routingStart mixedFrames Cell.zero) _ :=
    routing_parsed mixedFrames (Memory.shared RoutingCore Cell.Val) Cell.zero hf le_top le_top
  have h2 := routing_distributed mixedFrames (Memory.shared RoutingCore Cell.Val) Cell.zero
  refine ⟨_, _, h1, rfl, by decide, h2, ?_, fun q => ?_⟩
  · change (mixedFrames.filter fun f =>
      DistributerOut.udpRegStrm.prot = classify f.words).flatMap Frame.words = _
    decide
  · exact routing_integrity mixedFrames hf _ _ _ (h1.trans h2) q

end EncryptionAccelerators.Net
