import EncryptionAccelerators.DataflowOwned
import EncryptionAccelerators.EncryptionPath
import EncryptionAccelerators.RoutingProgress
import EncryptionAccelerators.Arp
import EncryptionAccelerators.IcmpReplies
import EncryptionAccelerators.RegisterCoherence

/-! The whole device: the path of a datagram with `arp`, `icmp` and `udp_reg` next to it, all cores
on one memory. The outputs end in the buffers in front of `axis_switch_0`. -/
namespace EncryptionAccelerators.Net
open Dataflow

inductive DeviceCore
  | parser | distributer | arp | icmp | udpReg | udpDepacketizer | cipher | outSwitch | udpPacketizer
  deriving DecidableEq

instance : Fintype DeviceCore :=
  ⟨{.parser,.distributer,.arp,.icmp,.udpReg,.udpDepacketizer,.cipher,.outSwitch,.udpPacketizer},
    fun i => by cases i <;> simp⟩

instance : Nonempty DeviceCore := ⟨.parser⟩

inductive DeviceFifo
  | networkRxFifo | packetBuffer | protFifo | arpInputBuffer | icmpInputBuffer | udpRcvBuf | udpRegBuf
  | arpOutputBuffer | icmpOutputBuffer | udpRegOutBuf | rawDataBuf | encDataBuf | outSel
  | udpOutputBuffer
  deriving DecidableEq

/-- The addresses each core is given on its own ports. -/
structure DevicePorts where
  arp : ArpPorts
  icmp : IcmpPorts
  udpPacketizer : PacketizerPorts

namespace DeviceCore

@[reducible] def In : DeviceCore → Type
  | distributer => DistributerIn
  | _ => InputStrm

@[reducible] def Out : DeviceCore → Type
  | parser => ParserOut
  | distributer => DistributerOut
  | _ => OutputStrm

@[reducible] def Label (n : ℕ) : DeviceCore → Type
  | parser => ParserLabel
  | distributer => DistributerLabel
  | arp => ArpLabel
  | icmp => IcmpLabel
  | udpReg => UdpRegLabel
  | udpDepacketizer => UdpDepacketizerLabel
  | cipher => Piece n
  | outSwitch => ℕ
  | udpPacketizer => PayloadBuffering

def src : (i : DeviceCore) → In i → DeviceFifo
  | parser, _ => .networkRxFifo
  | distributer, .inputStrm => .packetBuffer
  | distributer, .protStrm => .protFifo
  | arp, _ => .arpInputBuffer
  | icmp, _ => .icmpInputBuffer
  | udpReg, _ => .udpRegBuf
  | udpDepacketizer, _ => .udpRcvBuf
  | cipher, _ => .rawDataBuf
  | outSwitch, _ => .encDataBuf
  | udpPacketizer, _ => .outSel

def dst : (i : DeviceCore) → Out i → DeviceFifo
  | parser, .outputStrm => .packetBuffer
  | parser, .protStrm => .protFifo
  | distributer, .arpStrm => .arpInputBuffer
  | distributer, .icmpStrm => .icmpInputBuffer
  | distributer, .udpStrmStrm => .udpRcvBuf
  | distributer, .udpRegStrm => .udpRegBuf
  | arp, _ => .arpOutputBuffer
  | icmp, _ => .icmpOutputBuffer
  | udpReg, _ => .udpRegOutBuf
  | udpDepacketizer, _ => .rawDataBuf
  | cipher, _ => .encDataBuf
  | outSwitch, _ => .outSel
  | udpPacketizer, _ => .udpOutputBuffer

end DeviceCore

/-- The cores around `cipher`, which takes blocks of `n` bytes. -/
@[reducible] def deviceAround {n : ℕ}
    (cipher : Piece n → Cmd InputStrm OutputStrm NetWord Cell.Val (Piece n)) (lasts : ℕ → Bool)
    (ports : DevicePorts) : Network DeviceCore DeviceFifo NetWord Cell.Val where
  In := DeviceCore.In
  Out := DeviceCore.Out
  Label := DeviceCore.Label n
  body
    | .parser => parser
    | .distributer => distributer
    | .arp => arp ports.arp
    | .icmp => icmp ports.icmp
    | .udpReg => udpReg
    | .udpDepacketizer => udpDepacketizer
    | .cipher => cipher
    | .outSwitch => outSwitch lasts
    | .udpPacketizer => udpPacketizer ports.udpPacketizer
  src := DeviceCore.src
  dst := DeviceCore.dst
  src_inj {i j p q} h := by
    cases i <;> cases j <;> cases p <;> cases q <;> simp_all [DeviceCore.src]
  dst_inj {i j p q} h := by
    cases i <;> cases j <;> cases p <;> cases q <;> simp_all [DeviceCore.dst]
  loopless {i} p q := by cases i <;> cases p <;> cases q <;> simp [DeviceCore.src, DeviceCore.dst]

@[reducible] def device (core : CipherCore) (lasts : ℕ → Bool) (ports : DevicePorts) :
    Network DeviceCore DeviceFifo NetWord Cell.Val := deviceAround core.body lasts ports

/-- Every core between two of its blocks. -/
def deviceLabel {n : ℕ} (piece : Piece n) (k : ℕ) (buf : PayloadBuffering) :
    (i : DeviceCore) → DeviceCore.Label n i
  | .parser => .start
  | .distributer => .start
  | .arp => .start
  | .icmp => .start
  | .udpReg => .start
  | .udpDepacketizer => .start
  | .cipher => piece
  | .outSwitch => k
  | .udpPacketizer => buf

/-- All words of the frames have been received. -/
def received (fs : List Frame) : DeviceFifo → List NetWord
  | .networkRxFifo => fs.flatMap Frame.words
  | _ => []

section Device
variable {n : ℕ} (hn : 0 < n)
  (cipher : Piece n → Cmd InputStrm OutputStrm NetWord Cell.Val (Piece n)) (core : CipherCore)
  (lasts : ℕ → Bool) (ports : DevicePorts) {M : Type}

/-- Every core at its entry, the FIFOs as given. -/
def aroundState (fifo : DeviceFifo → List NetWord) (m : M) :
    (deviceAround cipher lasts ports).State M where
  code i := .ret (deviceLabel ⟨[],hn⟩ 0 .entry i)
  fifo := fifo
  mem := m

/-- No core has started. -/
@[reducible] def aroundStart (fs : List Frame) (m : M) : (deviceAround cipher lasts ports).State M :=
  aroundState hn cipher lasts ports (received fs) m

@[reducible] def deviceStart (fs : List Frame) (m : M) : (device core lasts ports).State M :=
  aroundStart core.blockSize_pos core.body lasts ports fs m

end Device

/-! The register space belongs to `udp_reg`. -/

def regOwner : Cell → Option DeviceCore
  | .bram _ => some .udpReg
  | _ => none

lemma SenderCell.regOwner {c : Cell} (h : SenderCell c) : regOwner c = none := by
  rcases h with rfl | rfl <;> rfl

lemma parser_accesses (l : ParserLabel) :
    (parser l : Cmd InputStrm ParserOut NetWord Cell.Val _).Accesses NoCell NoCell := by
  cases l with
  | start =>
    rw [parser_start]
    apply accesses_passInto_bind
    intro eth
    split_ifs
    · simp
    · apply accesses_passInto_bind
      intro ip
      split_ifs
      · simp
      · apply accesses_passInto_bind
        intro udp
        split_ifs <;> simp
      · simp
    · simp
  | passStream => simp [parser, passStream]

lemma distributer_accesses (l : DistributerLabel) :
    (distributer l : Cmd DistributerIn _ NetWord Cell.Val _).Accesses NoCell NoCell := by
  cases l with
  | start =>
    obtain ⟨next, -, hstart⟩ := distributer_start (V := Cell.Val)
    rw [hstart]
    simp
  | passStream q => simp [distributer, passStream]
  | discardStream => simp [distributer, discardStream]

lemma arp_accesses (ports : ArpPorts) (l : ArpLabel) :
    (arp ports l : Cmd InputStrm OutputStrm NetWord Cell.Val _).Accesses NoCell NoCell := by
  cases l with
  | start =>
    rw [arp_start]
    apply accesses_readInto_bind
    intro eth
    apply accesses_readInto_bind
    simp
  | skip eth packet => simp [arp, discardStream]
  | answer eth packet =>
    rw [arp_answer]
    apply accesses_writeAll_bind
    simp

lemma icmp_accesses (ports : IcmpPorts) (l : IcmpLabel) :
    (icmp ports l : Cmd InputStrm OutputStrm NetWord Cell.Val _).Accesses NoCell NoCell := by
  cases l with
  | start =>
    rw [icmp_start]
    apply accesses_readInto_bind
    intro eth
    apply accesses_readInto_bind
    intro ip
    apply accesses_readInto_bind
    intro options
    apply accesses_readInto_bind
    intro msg
    split_ifs
    · apply accesses_writeAll_bind
      simp
    · simp
  | passStream => simp [icmp, passStream]
  | discardStream => simp [icmp, discardStream]

/-- `udp_reg` loads from the register space and stores to it. -/
lemma udpReg_accesses (l : UdpRegLabel) :
    (udpReg l).Accesses (regOwner · = some .udpReg) (regOwner · = some .udpReg) := by
  cases l with
  | start =>
    rw [udpReg_start]
    apply accesses_readInto_bind
    intro eth
    apply accesses_readInto_bind
    intro ip
    apply accesses_readInto_bind
    intro udp
    split_ifs <;> simp
  | writeRegister len j last =>
    by_cases hj : j < len
    · rw [udpReg_writeRegister len j last hj]
      apply accesses_readInto_bind
      intro a
      apply accesses_readInto_bind
      simp [regOwner]
    · simp [udpReg, hj]
  | readRegister r =>
    by_cases hj : r.i < r.udpHeader.len
    · rw [udpReg_readRegister r hj]
      apply accesses_readInto_bind
      simp [regOwner]
    · rw [udpReg]
      simp only [hj, if_false, writeEthernetHeader_eq, writeIpHeader_eq, writeUdpHeader_eq]
      apply accesses_writeAll_bind
      apply accesses_writeAll_bind
      apply accesses_writeAll_bind
      apply accesses_writeAll_bind
      simp
  | discardStream => simp [udpReg, discardStream]

/-- What a core loads, when the cipher core loads `ld`. -/
def DeviceCore.Loads (ld : Cell → Prop) : DeviceCore → Cell → Prop
  | udpReg => fun c => regOwner c = some .udpReg
  | udpPacketizer => SenderCell
  | cipher => ld
  | _ => NoCell

def DeviceCore.Stores : DeviceCore → Cell → Prop
  | udpReg => fun c => regOwner c = some .udpReg
  | udpDepacketizer => SenderCell
  | _ => NoCell

lemma around_accesses {n : ℕ} {ld : Cell → Prop}
    {cipher : Piece n → Cmd InputStrm OutputStrm NetWord Cell.Val (Piece n)} {lasts : ℕ → Bool}
    {ports : DevicePorts} (hc : ∀ piece, (cipher piece).Accesses ld NoCell) (i : DeviceCore)
    (l : (deviceAround cipher lasts ports).Label i) :
    ((deviceAround cipher lasts ports).body i l).Accesses (i.Loads ld) i.Stores := by
  cases i with
  | parser => exact parser_accesses l
  | distributer => exact distributer_accesses l
  | arp => exact arp_accesses ports.arp l
  | icmp => exact icmp_accesses ports.icmp l
  | udpReg => exact udpReg_accesses l
  | udpDepacketizer => exact udpDepacketizer_accesses l
  | cipher => exact hc l
  | outSwitch => exact outSwitch_accesses lasts l
  | udpPacketizer => exact udpPacketizer_accesses ports.udpPacketizer l

lemma DeviceCore.Stores.owner {i : DeviceCore} {c : Cell} (h : i.Stores c) :
    regOwner c = none ∨ regOwner c = some i := by
  cases i with
  | udpReg => exact .inr h
  | udpDepacketizer => exact .inl (SenderCell.regOwner h)
  | _ => exact h.elim

/-- No core stores to a register but `udp_reg`. -/
lemma around_keeps {n : ℕ} {cipher : Piece n → Cmd InputStrm OutputStrm NetWord Cell.Val (Piece n)}
    {lasts : ℕ → Bool} {ports : DevicePorts}
    (hacc : ∀ piece, (cipher piece).Accesses (fun _ => True) NoCell) (i : DeviceCore)
    (l : (deviceAround cipher lasts ports).Label i) :
    ((deviceAround cipher lasts ports).body i l).Accesses (fun _ => True)
      fun a => regOwner a = none ∨ regOwner a = some i :=
  (around_accesses hacc i l).mono (fun _ _ => trivial) fun _ h => h.owner

end EncryptionAccelerators.Net
