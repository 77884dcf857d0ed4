import EncryptionAccelerators.DeviceProgress

/-! What the device answers to a sequence of frames, whatever the order of the steps of its
cores. -/
namespace EncryptionAccelerators.Net
open Dataflow WriteHistory

/-- The payloads of the complete packets of `udp_packetizer`. -/
def packetPayloads (fifo : DeviceFifo → List NetWord) : List Byte :=
  (cutFrames [] (fifo .udpOutputBuffer)).flatMap udpPayload

/-- Where the words behind `init` carry no mark, their bytes have none. -/
lemma unmarked_tail {lasts : ℕ → Bool} {ws init tail : List NetWord}
    (happ : marked lasts 0 ws = init ++ tail) (htail : ∀ w ∈ tail, w.last = false) {k : ℕ}
    (hk : init.length ≤ k) (hlt : k < (init ++ tail).length) : lasts k = false := by
  have hkl : k < (marked lasts 0 ws).length := by rwa [happ]
  rw [List.length_append] at hlt
  have hmark := marked_last lasts 0 ws k hkl
  have hkt : k - init.length < tail.length := by omega
  have hget : (marked lasts 0 ws)[k] = tail[k - init.length] := by
    simp only [happ, List.getElem_append_right hk]
  rw [Nat.zero_add] at hmark
  rw [← hmark, hget]
  exact htail _ (List.getElem_mem hkt)

section Replies
variable {n : ℕ} {hn : 0 < n}
  {cipher : Piece n → Cmd InputStrm OutputStrm NetWord Cell.Val (Piece n)} {lasts : ℕ → Bool}
  {ports : DevicePorts} {Out : List NetWord → List NetWord → Prop}

variable (ports) in
/-- The answers to the ARP frames and to the ICMP frames. -/
lemma deviceAnswers {fs : List Frame} (hf : DeviceFrames fs) :
    List.Forall₂ (ArpAnswer ports.arp) (framesFor .ARP fs) ((framesFor .ARP fs).map fun f =>
      answerWords ports.arp (ethernetOf f.words) (arpOf (f.words.drop 14))) ∧
    List.Forall₂ (EchoAnswer ports.icmp) (framesFor .ICMP fs)
      ((framesFor .ICMP fs).map fun f => echoWords ports.icmp f.words) := by
  constructor
  · exact List.forall₂_map_right_iff.mpr (List.forall₂_same.mpr fun f _ => arpAnswer ports.arp f)
  · exact List.forall₂_map_right_iff.mpr
      (List.forall₂_same.mpr fun f hm => (hf.icmp f hm).echoAnswer ports.icmp)

/-- The outputs of a run are prefixes of those of the run of `device_final_registers`. -/
lemma around_outputs (hcipher : Enciphers hn cipher Out) {fs : List Frame} (hf : DeviceFrames fs)
    {cap : DeviceFifo → ℕ∞} {m : regMemory.State}
    {s : (deviceAround cipher lasts ports).State regMemory.State}
    (hs : (deviceAround cipher lasts ports).Run regMemory cap
      (aroundStart hn cipher lasts ports fs m) s) :
    ∃ (t : (deviceAround cipher lasts ports).State regMemory.State) (packets : List Frame)
      (us : List NetWord) (tail : List Byte),
      t.fifo .arpOutputBuffer = arpReplies ports.arp fs ∧
      t.fifo .icmpOutputBuffer = echoReplies ports.icmp fs ∧
      t.fifo .udpRegOutBuf = replies m.2 (framesFor .UDP_REG fs) ∧
      t.mem.2 = storePairs m.2 (writeHistory (framesFor .UDP_REG fs)) ∧
      t.fifo .udpOutputBuffer = packets.flatMap Frame.words ∧
      (∀ f ∈ packets, IsPacket ports.udpPacketizer f) ∧ Out (forwarded fs) us ∧
      (packets.flatMap fun f => udpPayload f.words) ++ tail = us.map NetWord.data ∧
      tail.length < 1024 ∧
      (∀ k, (packets.flatMap fun f => udpPayload f.words).length ≤ k → k < us.length →
        lasts k = false) ∧
      (∀ c ∈ [DeviceFifo.arpOutputBuffer,.icmpOutputBuffer,.udpRegOutBuf,.udpOutputBuffer],
        s.fifo c <+: t.fifo c) ∧
      ((deviceAround cipher lasts ports).Starved s → s = t) := by
  obtain ⟨t, packets, us, init, tail, ht, hst, harp, hicmp, hreg, hmem, hudp, hus, happ, htail, hlen,
    hpackets, hpay⟩ := device_final_registers lasts ports hcipher fs hf m
  have hind : regMemory.Independent := owned_independent
  have hall : init.map NetWord.data ++ tail.map NetWord.data = us.map NetWord.data := by
    rw [← List.map_append, ← happ, marked_data]
  refine ⟨t, packets, us, tail.map NetWord.data, harp, hicmp, hreg, hmem, hudp, hpackets, hus,
    by rw [hpay, hall], by rwa [List.length_map], fun k hk hlt => ?_, fun c hc => ?_,
    fun hstarved => Network.Run.starved_unique hind hs ht hst hstarved⟩
  · have hcount := congrArg List.length hall
    rw [List.length_append, List.length_map, List.length_map, List.length_map] at hcount
    rw [hpay, List.length_map] at hk
    exact unmarked_tail happ htail hk (by rw [List.length_append]; omega)
  · refine hs.sink_final hind ht hst fun i p => ?_
    simp only [List.mem_cons, List.not_mem_nil, or_false] at hc
    rcases hc with rfl | rfl | rfl | rfl <;> cases i <;> cases p <;> simp [DeviceCore.src]

variable (ports) in
/-- Each output carries answers to the frames meant for its core, in their order; once all cores
wait it carries all of them, and the registers hold the latest values written. -/
structure Answered (fs : List Frame) (m : (c : Cell) → c.Val) (fifo : DeviceFifo → List NetWord)
    (mem : (c : Cell) → c.Val) (waiting : Prop) : Prop where
  arp : ∃ answers : List (List NetWord),
    List.Forall₂ (ArpAnswer ports.arp) (framesFor .ARP fs) answers ∧
    fifo .arpOutputBuffer <+: answers.flatten ∧
    (waiting → fifo .arpOutputBuffer = answers.flatten)
  icmp : ∃ answers : List (List NetWord),
    List.Forall₂ (EchoAnswer ports.icmp) (framesFor .ICMP fs) answers ∧
    fifo .icmpOutputBuffer <+: answers.flatten ∧
    (waiting → fifo .icmpOutputBuffer = answers.flatten)
  udpReg : fifo .udpRegOutBuf <+: replies m (framesFor .UDP_REG fs) ∧
    (waiting → fifo .udpRegOutBuf = replies m (framesFor .UDP_REG fs))
  registers : waiting → ∀ index, regSpace mem index =
    latest wordIndex (regSpace m) (writeHistory (framesFor .UDP_REG fs)) index

/-- The payloads of the packets are the first of the bytes `bs`; once all cores wait only bytes of a
packet not yet closed are missing. -/
structure PacketsOf (lasts : ℕ → Bool) (bs : List Byte) (fifo : DeviceFifo → List NetWord)
    (waiting : Prop) : Prop where
  start : packetPayloads fifo <+: bs
  rest : waiting → ∃ tail, packetPayloads fifo ++ tail = bs ∧ tail.length < 1024 ∧
    ∀ k, (packetPayloads fifo).length ≤ k → k < bs.length → lasts k = false

/-- What a device with the given cipher core puts out for the frames. -/
structure Replied (core : CipherCore) (lasts : ℕ → Bool) (ports : DevicePorts) (fs : List Frame)
    (m : (c : Cell) → c.Val) (fifo : DeviceFifo → List NetWord) (mem : (c : Cell) → c.Val)
    (waiting : Prop) : Prop extends Answered ports fs m fifo mem waiting where
  udpStrm : PacketsOf lasts (core.cipher (sentPayloads fs)) fifo waiting

section Waiting
variable {fs : List Frame} {m mem : (c : Cell) → c.Val} {fifo : DeviceFifo → List NetWord}
  {bs : List Byte} {waiting waiting' : Prop}

lemma Answered.mono (h : Answered ports fs m fifo mem waiting) (hw : waiting' → waiting) :
    Answered ports fs m fifo mem waiting' := by
  constructor
  · obtain ⟨answers, hall, hout, hend⟩ := h.arp
    exact ⟨answers, hall, hout, fun hwait => hend (hw hwait)⟩
  · obtain ⟨answers, hall, hout, hend⟩ := h.icmp
    exact ⟨answers, hall, hout, fun hwait => hend (hw hwait)⟩
  · exact ⟨h.udpReg.1, fun hwait => h.udpReg.2 (hw hwait)⟩
  · exact fun hwait => h.registers (hw hwait)

lemma PacketsOf.mono (h : PacketsOf lasts bs fifo waiting) (hw : waiting' → waiting) :
    PacketsOf lasts bs fifo waiting' := ⟨h.start, fun hwait => h.rest (hw hwait)⟩

lemma Replied.mono {core : CipherCore} (h : Replied core lasts ports fs m fifo mem waiting)
    (hw : waiting' → waiting) : Replied core lasts ports fs m fifo mem waiting' :=
  ⟨h.toAnswered.mono hw, h.udpStrm.mono hw⟩

/-- A mark on the last byte leaves nothing behind. -/
lemma PacketsOf.complete (h : PacketsOf lasts bs fifo waiting) (hwait : waiting)
    (hmark : ∀ k, k + 1 = bs.length → lasts k = true) : packetPayloads fifo = bs := by
  obtain ⟨tail, happ, -, hlasts⟩ := h.rest hwait
  have hlen := congrArg List.length happ
  rw [List.length_append] at hlen
  by_contra hne
  have htail : tail.length ≠ 0 := by
    intro hnil
    rw [List.length_eq_zero_iff.mp hnil, List.append_nil] at happ
    exact hne happ
  have hfalse := hlasts (bs.length - 1) (by omega) (by omega)
  rw [hmark _ (by omega)] at hfalse
  cases hfalse

end Waiting

variable (ports) in
/-- The frames `gs` are answered as the frames `fs` are. -/
structure SameReplies (fs gs : List Frame) : Prop where
  arp : arpReplies ports.arp fs = arpReplies ports.arp gs
  icmp : echoReplies ports.icmp fs = echoReplies ports.icmp gs
  udpReg : framesFor .UDP_REG fs = framesFor .UDP_REG gs
  udpStrm : sentPayloads fs = sentPayloads gs

variable {cap : DeviceFifo → ℕ∞} {fs gs : List Frame} {m : (c : Cell) → c.Val}
  {s : (deviceAround cipher lasts ports).State (Memory.shared DeviceCore Cell.Val).State}

lemma Reached.answered (hcipher : Enciphers hn cipher Out) (hf : DeviceFrames fs)
    (hg : DeviceFrames gs) (hsame : SameReplies ports fs gs) (hs : Reached hn cap fs m s) :
    Answered ports gs m s.fifo s.mem ((deviceAround cipher lasts ports).Starved s) := by
  obtain ⟨script, hr⟩ := hs fun _ _ => m
  obtain ⟨t, packets, us, tail, harp, hicmp, hreg, hmem, -, -, -, -, -, -, hout, hend⟩ :=
    around_outputs hcipher hf hr
  rw [hsame.arp] at harp
  rw [hsame.icmp] at hicmp
  rw [hsame.udpReg] at hreg hmem
  have harps : t.fifo .arpOutputBuffer = _ := harp.trans (List.flatMap_def ..)
  have hechos : t.fifo .icmpOutputBuffer = _ := hicmp.trans (List.flatMap_def ..)
  have hfifo (hstarved : (deviceAround cipher lasts ports).Starved s) : s.fifo = t.fifo :=
    congrArg Network.State.fifo (hend hstarved)
  obtain ⟨harpAnswers, hechoAnswers⟩ := deviceAnswers ports hg
  constructor
  · refine ⟨_, harpAnswers, ?_, fun hstarved => ?_⟩
    · rw [← harps]
      exact hout _ (by simp)
    · rw [← harps, hfifo hstarved]
  · refine ⟨_, hechoAnswers, ?_, fun hstarved => ?_⟩
    · rw [← hechos]
      exact hout _ (by simp)
    · rw [← hechos, hfifo hstarved]
  · rw [← hreg]
    exact ⟨hout .udpRegOutBuf (by simp), fun hstarved => by rw [hfifo hstarved]⟩
  · intro hstarved index
    have hcells : ownedCells regOwner m s.mem = t.mem.2 :=
      congrArg (fun u => u.mem.2) (hend hstarved)
    have hindex := congrFun (hcells.trans hmem) (.bram index)
    exact (ownedCells_bram m s.mem index).symm.trans (hindex.trans (regSpace_latest m _ index))

lemma Reached.packets (hcipher : Enciphers hn cipher Out) (hf : DeviceFrames fs)
    (hs : Reached hn cap fs m s) : ∃ us, Out (forwarded fs) us ∧
      PacketsOf lasts (us.map NetWord.data) s.fifo
        ((deviceAround cipher lasts ports).Starved s) := by
  obtain ⟨script, hr⟩ := hs fun _ _ => m
  obtain ⟨t, packets, us, tail, -, -, -, -, hudp, -, hus, hpay, hlen, hlasts, hout, hend⟩ :=
    around_outputs hcipher hf hr
  have hcut : (cutFrames [] (t.fifo .udpOutputBuffer)).flatMap udpPayload =
      packets.flatMap fun f => udpPayload f.words := by
    rw [hudp, cutFrames_frames, List.flatMap_map]
  refine ⟨us, hus, ?_, fun hstarved => ?_⟩
  · obtain ⟨more, hmore⟩ := cutFrames_prefix (hout .udpOutputBuffer (by simp)) []
    refine (List.prefix_append _ (more.flatMap udpPayload)).trans ?_
    rw [← hpay, ← hcut, ← hmore, List.flatMap_append]
    exact List.prefix_append _ _
  · have hfifo : s.fifo = t.fifo := congrArg Network.State.fifo (hend hstarved)
    rw [packetPayloads, hfifo, hcut, List.length_map]
    exact ⟨tail, hpay, hlen, hlasts⟩

end Replies

section Device
variable {core : CipherCore} {lasts : ℕ → Bool} {ports : DevicePorts}

lemma forwarded_data {fs : List Frame} (hf : DeviceFrames fs) :
    (forwarded fs).map NetWord.data = sentPayloads fs := by
  have hstrm : ∀ f ∈ fs, parserCode f = some Prot.UDP_STRM.code → StrmFrame f.words :=
    fun f hm hc => hf.udpStrm f (List.mem_filter.mpr ⟨hm, decide_eq_true hc⟩)
  exact (sentPayloads_eq fs hf.words hstrm).symm

lemma cipherOut_forwarded {fs : List Frame} (hf : DeviceFrames fs) {us : List NetWord}
    (h : CipherOut core (forwarded fs) us) : us.map NetWord.data = core.cipher (sentPayloads fs) := by
  rw [h, map_byteWord_data, forwarded_data hf]

lemma replied_of_run {fs gs : List Frame} (hf : DeviceFrames fs) (hg : DeviceFrames gs)
    (hsame : SameReplies ports fs gs) {cap : DeviceFifo → ℕ∞}
    {m : (Memory.shared DeviceCore Cell.Val).State}
    {s : (device core lasts ports).State (Memory.shared DeviceCore Cell.Val).State}
    (hs : (device core lasts ports).Run (Memory.shared DeviceCore Cell.Val) cap
      (deviceStart core lasts ports fs m) s) :
    Replied core lasts ports gs m s.fifo s.mem ((device core lasts ports).Starved s) := by
  have hreached := reached_of_run (core_enciphers core) hs
  obtain ⟨us, hus, hpackets⟩ := hreached.packets (core_enciphers core) hf
  rw [cipherOut_forwarded hf hus, hsame.udpStrm] at hpackets
  exact ⟨hreached.answered (core_enciphers core) hf hg hsame, hpackets⟩

/-- What every run puts out for the frames received. -/
theorem device_replies (fs : List Frame) (hf : DeviceFrames fs) (cap : DeviceFifo → ℕ∞)
    (m : (Memory.shared DeviceCore Cell.Val).State)
    (s : (device core lasts ports).State (Memory.shared DeviceCore Cell.Val).State)
    (hs : (device core lasts ports).Run (Memory.shared DeviceCore Cell.Val) cap
      (deviceStart core lasts ports fs m) s) :
    Replied core lasts ports fs m s.fifo s.mem ((device core lasts ports).Starved s) :=
  replied_of_run hf hf ⟨rfl, rfl, rfl, rfl⟩ hs

end Device

lemma framesFor_someFrames : framesFor .UDP_REG someFrames =
    [requestFrame 50000 16 [0xc0,0,0,4,0xde,0xad,0xbe,0xef],requestFrame 40000 12 [0xc0,0,0,4]] := rfl

/-- `device_replies` where all cores wait in the end: the word written is in the register and is read
back. -/
theorem device_replies_someFrames : ∃ s, (device someCore (fun _ => false) somePorts).Run
    (Memory.shared DeviceCore Cell.Val) openDepth
    (deviceStart someCore (fun _ => false) somePorts someFrames Cell.zero) s ∧
    regSpace s.mem 0x30000001 = 0xdeadbeef ∧
    ((s.fifo .udpRegOutBuf).drop 42).map NetWord.data = [0xc0,0,0,4,0xde,0xad,0xbe,0xef] := by
  obtain ⟨s, hs, hst⟩ := someDevice_ends someFrames_device
  have h := device_replies someFrames someFrames_device openDepth Cell.zero s hs
  refine ⟨s, hs, ?_, ?_⟩
  · rw [h.registers hst, framesFor_someFrames]
    decide
  · rw [h.udpReg.2 hst, framesFor_someFrames]
    decide

end EncryptionAccelerators.Net
