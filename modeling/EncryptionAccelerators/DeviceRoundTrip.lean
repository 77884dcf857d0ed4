import EncryptionAccelerators.Classification
import EncryptionAccelerators.DesRoundTrip
import EncryptionAccelerators.KeyedDevice

/-! Two devices with the same key and DES in opposite modes: the second one gives back what the first
one has been sent. -/
namespace EncryptionAccelerators.Net
open Dataflow BitString

/-- DES in one mode undoes DES in the other. -/
lemma desBlock_cancel (K : Vector Byte 16) {mode mode' : BitVec 1} (h : mode ≠ mode')
    (block : Vector Byte 8) : desBlock K mode' (desBlock K mode block) = block := by
  rw [← processMessage_desSchedule, ← processMessage_desSchedule]
  have hmodes : mode = ENCRYPTION_MODE ∧ mode' = DECRYPTION_MODE ∨
      mode = DECRYPTION_MODE ∧ mode' = ENCRYPTION_MODE := by
    revert mode mode'
    decide
  rcases hmodes with ⟨rfl, rfl⟩ | ⟨rfl, rfl⟩
  · exact decrypt_encrypt (desSchedule K) block
  · exact encrypt_decrypt (desSchedule K) block

section RoundTrip
variable {lastsA lastsB : ℕ → Bool} {portsA portsB : DevicePorts} {mA mB : (c : Cell) → c.Val}

/-- The payloads put out by a device under DES. -/
lemma desReplied {m : (c : Cell) → c.Val} {lasts : ℕ → Bool} {ports : DevicePorts}
    {K : Vector Byte 16} (hm : Provisioned K m) {fs : List Frame} (hf : DeviceFrames fs)
    (hkey : KeepsKey m fs) {cap : DeviceFifo → ℕ∞} {st : ControlState}
    {s : Supervised (keyedDevice .des lasts ports) ControlState}
    (hs : Supervised.Run controlPass cap ⟨keyedStart .des lasts ports fs m,.ret st⟩ s) :
    Replied (CipherKind.core m .des) lasts ports fs m s.net.fifo s.net.mem (Network.Starved s.net) ∧
      (CipherKind.core m .des).cipher (sentPayloads fs) =
        cipherBlocks 8 (desBlock K (m .desMode)) (sentPayloads fs) := by
  have hrep := around_replies (CipherKind.core m .des) (CipherKind.body_accesses .des) settle_des
    hm hf hkey hs
  exact ⟨hrep.1, hm.cipher .des _⟩

/-- The first device is sent datagrams, and the payloads it puts out are sent on to a second one
with the same key and the other mode. What the second one puts out is, in any order of the steps of
both, the first blocks of what the first one was sent, and in the end all but what `udp_packetizer` of
either still buffers. -/
theorem keyed_roundTrip (K : Vector Byte 16) (hA : Provisioned K mA) (hB : Provisioned K mB)
    (hmode : mA .desMode ≠ mB .desMode) (fsA fsB : List Frame) (hfA : DeviceFrames fsA)
    (hfB : DeviceFrames fsB) (hkeyA : KeepsKey mA fsA) (hkeyB : KeepsKey mB fsB)
    (capA capB : DeviceFifo → ℕ∞) (stA stB : ControlState)
    (sA : Supervised (keyedDevice .des lastsA portsA) ControlState)
    (hsA : Supervised.Run controlPass capA ⟨keyedStart .des lastsA portsA fsA mA,.ret stA⟩ sA)
    (sB : Supervised (keyedDevice .des lastsB portsB) ControlState)
    (hsB : Supervised.Run controlPass capB ⟨keyedStart .des lastsB portsB fsB mB,.ret stB⟩ sB)
    (hsent : sentPayloads fsB <+: packetPayloads sA.net.fifo) :
    packetPayloads sB.net.fifo <+: wholeBlocks 8 (sentPayloads fsA) ∧
    (Network.Starved sA.net → Network.Starved sB.net →
      sentPayloads fsB = packetPayloads sA.net.fifo →
      (∃ tail, packetPayloads sB.net.fifo ++ tail = sentPayloads fsA ∧ tail.length ≤ 2060) ∧
      ((∀ k, k + 1 = (wholeBlocks 8 (sentPayloads fsA)).length → lastsA k = true ∧ lastsB k = true) →
        packetPayloads sB.net.fifo = wholeBlocks 8 (sentPayloads fsA))) := by
  obtain ⟨hrepA, hcipherA⟩ := desReplied hA hfA hkeyA hsA
  obtain ⟨hrepB, hcipherB⟩ := desReplied hB hfB hkeyB hsB
  have hundo : cipherBlocks 8 (desBlock K (mB .desMode))
      (cipherBlocks 8 (desBlock K (mA .desMode)) (sentPayloads fsA)) =
        wholeBlocks 8 (sentPayloads fsA) :=
    cipherBlocks_undo _ (desBlock_cancel K hmode) (by omega) _
  have hpreA := hrepA.udpStrm.start
  have hpreB := hrepB.udpStrm.start
  rw [hcipherA] at hpreA
  rw [hcipherB] at hpreB
  have hpre : packetPayloads sB.net.fifo <+: wholeBlocks 8 (sentPayloads fsA) := by
    rw [← hundo]
    exact hpreB.trans (cipherBlocks_mono _ (by omega) (hsent.trans hpreA))
  refine ⟨hpre, fun hstA hstB hall => ⟨?_, fun hmark => ?_⟩⟩
  · obtain ⟨tailA, happA, hlenA, -⟩ := hrepA.udpStrm.rest hstA
    obtain ⟨tailB, happB, hlenB, -⟩ := hrepB.udpStrm.rest hstB
    obtain ⟨tail, htail⟩ := hpre.trans (List.take_prefix _ _)
    have hA := congrArg List.length happA
    have hB := congrArg List.length happB
    have hlen := congrArg List.length htail
    rw [hcipherA, cipherBlocks_length, List.length_append] at hA
    rw [hcipherB, cipherBlocks_length, List.length_append, hall] at hB
    rw [List.length_append] at hlen
    exact ⟨tail, htail, by omega⟩
  · have hlen : (cipherBlocks 8 (desBlock K (mA .desMode)) (sentPayloads fsA)).length =
        (wholeBlocks 8 (sentPayloads fsA)).length := by
      rw [cipherBlocks_length, wholeBlocks_length]
    have hendA := hrepA.udpStrm.complete hstA fun k hk => by
      rw [hcipherA, hlen] at hk
      exact (hmark k hk).1
    have hendB : cipherBlocks 8 (desBlock K (mB .desMode)) (sentPayloads fsB) =
        wholeBlocks 8 (sentPayloads fsA) := by
      rw [hall, hendA, hcipherA, hundo]
    have hput := hrepB.udpStrm.complete hstB fun k hk => by
      rw [hcipherB, hendB] at hk
      exact (hmark k hk).2
    rw [hput, hcipherB, hendB]

end RoundTrip

/-! One datagram of 24 bytes there and back. -/

/-- The headers of a datagram of 24 bytes for port 60000. -/
def datagramHeader : List NetWord :=
  (List.replicate 12 0xff ++ [0x08,0x00,0x45] ++ List.replicate 8 0 ++ [0x11] ++
    List.replicate 12 0 ++ [0xea,0x60,0x00,0x20,0x00,0x00]).map byteWord

lemma datagramHeader_last {w : NetWord} (h : w ∈ datagramHeader) : w.last = false := by
  obtain ⟨b, -, rfl⟩ := List.mem_map.mp h
  rfl

def datagram (bs : List Byte) : Frame where
  init := datagramHeader ++ bs.dropLast.map byteWord
  final := ⟨bs.getLastD 0,true,false⟩
  init_last w hw := by
    rcases List.mem_append.mp hw with h | h
    · exact datagramHeader_last h
    · exact byteWord_last h
  final_last := Eq.refl true

lemma datagram_words (bs : List Byte) : (datagram bs).words =
    datagramHeader ++ (bs.dropLast.map byteWord ++ [⟨bs.getLastD 0,true,false⟩]) :=
  List.append_assoc _ _ _

lemma datagram_strm {bs : List Byte} (h : bs.length = 24) : StrmFrame (datagram bs).words ∧
    classify (datagram bs).words = .UDP_STRM ∧ udpPayload (datagram bs).words = bs := by
  have hwords := datagram_words bs
  obtain ⟨-, hip, hudp⟩ := headers_append datagramHeader
    (bs.dropLast.map byteWord ++ [⟨bs.getLastD 0,true,false⟩]) (by decide)
  rw [← hwords] at hip hudp
  have hlen : (datagram bs).words.length = 42 + 24 := by
    rw [hwords]
    simp [datagramHeader, h]
  have hframe : StrmFrame (datagram bs).words := by
    constructor
    · rw [hip]
      decide
    · refine ⟨24, by omega, ?_, hlen⟩
      rw [hudp]
      decide
  refine ⟨hframe, ?_, ?_⟩
  · rw [hwords, (classify_append datagramHeader _ (by decide)).1]
    decide
  · have hne : bs ≠ [] := List.ne_nil_of_length_pos (by omega)
    rw [hframe.udpPayload_eq, hwords, List.drop_left' (by decide), List.map_append, List.map_map]
    simpa [Function.comp_def, List.getLastD_eq_getLast?, List.getLast?_eq_some_getLast hne] using
      List.dropLast_append_getLast hne

lemma datagram_device {bs : List Byte} (h : bs.length = 24) : DeviceFrames [datagram bs] ∧
    framesFor .UDP_REG [datagram bs] = [] ∧ sentPayloads [datagram bs] = bs := by
  obtain ⟨hstrm, hclass, hpay⟩ := datagram_strm h
  obtain ⟨n, hn, -, hlen⟩ := hstrm.payload
  have hcode (c : Prot) : parserCode (datagram bs) = some c.code ↔ c = .UDP_STRM := by
    rw [parserCode_iff _ (by omega), hclass]
    exact eq_comm
  have hnone {c : Prot} (hc : c ≠ .UDP_STRM) : framesFor c [datagram bs] = [] := by
    simp [framesFor, hcode, hc]
  refine ⟨⟨?_, ?_, ?_, ?_⟩, hnone (by decide), ?_⟩
  · simp
    omega
  · simp [hnone]
  · simp [hnone]
  · simp [framesFor, hcode, hstrm]
  · simp [sentPayloads, hcode, hpay]

/-- The DIP switches of the device that enciphers. -/
def encipherRegisters : (c : Cell) → c.Val := Function.update Cell.zero .dipSwitches 0x02

lemma desMode_afterPass (m : (c : Cell) → c.Val) :
    afterPass m .desMode = ((m .dipSwitches &&& 0x02) >>> 1).setWidth 1 := by
  have hdip : afterPass m .dipSwitches = m .dipSwitches := by
    have hloaded := loaded_of_ne m (desColumnsOf (storedKey m)) (aesColumnsOf (storedKey m))
      (c := .dipSwitches) (by simp) (by simp)
    simpa [afterPass, switched] using hloaded
  rw [(provisioned_pass m).mode, hdip]

lemma datagram_keepsKey {bs : List Byte} (h : bs.length = 24) (m : (c : Cell) → c.Val) :
    KeepsKey m [datagram bs] := by
  rw [KeepsKey, (datagram_device h).2.1]
  simp [writeHistory]

lemma datagram_ends {bs : List Byte} (h : bs.length = 24) (m : (c : Cell) → c.Val) :
    ∃ s, Supervised.Run controlPass openDepth
      ⟨keyedStart .des (fun k => k = 23) somePorts [datagram bs] (afterPass m),.ret someControl⟩ s ∧
      Network.Starved s.net :=
  keyed_waits (datagram_device h).1 fifoDepth_room

/-- `keyed_roundTrip` where the mark on byte 23 leaves nothing behind. -/
theorem keyed_roundTrip_datagram : ∃ sA sB,
    Supervised.Run controlPass openDepth ⟨keyedStart .des (fun k => k = 23) somePorts
      [datagram (.replicate 24 7)] (afterPass encipherRegisters),.ret someControl⟩ sA ∧
    Supervised.Run controlPass openDepth ⟨keyedStart .des (fun k => k = 23) somePorts
      [datagram (packetPayloads sA.net.fifo)] (afterPass Cell.zero),.ret someControl⟩ sB ∧
    packetPayloads sB.net.fifo = .replicate 24 7 := by
  have hA := provisioned_pass encipherRegisters
  have hB : Provisioned (storedKey encipherRegisters) (afterPass Cell.zero) :=
    provisioned_pass Cell.zero
  have hmode : afterPass encipherRegisters .desMode ≠ afterPass Cell.zero .desMode := by
    rw [desMode_afterPass, desMode_afterPass]
    decide
  have h24 : (List.replicate 24 (7 : Byte)).length = 24 := rfl
  obtain ⟨hfA, -, hsentA⟩ := datagram_device h24
  have hkeyA := datagram_keepsKey h24 (afterPass encipherRegisters)
  obtain ⟨sA, hsA, hstA⟩ := datagram_ends h24 encipherRegisters
  obtain ⟨hrep, hcipher⟩ := desReplied hA hfA hkeyA hsA
  have hcount : ((CipherKind.core (afterPass encipherRegisters) .des).cipher
      (sentPayloads [datagram (.replicate 24 7)])).length = 24 := by
    rw [hcipher, hsentA, cipherBlocks_length]
    rfl
  have hlen : (packetPayloads sA.net.fifo).length = 24 := by
    rw [hrep.udpStrm.complete hstA fun k hk => decide_eq_true (by omega), hcount]
  obtain ⟨hfB, -, hsentB⟩ := datagram_device hlen
  obtain ⟨sB, hsB, hstB⟩ := datagram_ends hlen Cell.zero
  have h := keyed_roundTrip _ hA hB hmode _ _ hfA hfB hkeyA (datagram_keepsKey hlen _) openDepth
    openDepth someControl someControl sA hsA sB hsB (by rw [hsentB])
  have hwhole : wholeBlocks 8 (sentPayloads [datagram (.replicate 24 7)]) = .replicate 24 7 := by
    rw [hsentA]
    rfl
  refine ⟨sA, sB, hsA, hsB, ?_⟩
  rw [(h.2 hstA hstB hsentB).2 ?_, hwhole]
  intro k hk
  rw [hwhole, h24] at hk
  have hk23 : k = 23 := by omega
  exact ⟨decide_eq_true hk23, decide_eq_true hk23⟩

end EncryptionAccelerators.Net
