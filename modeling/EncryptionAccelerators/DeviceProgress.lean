import EncryptionAccelerators.DataflowOutlets
import EncryptionAccelerators.DeviceRun
import EncryptionAccelerators.RequestFraming

/-! The device on bounded FIFOs, with `axis_switch_0` behind its outputs: it does not block before it
has read all frames, and it comes to an end. -/
namespace EncryptionAccelerators.Net
open Dataflow

variable {n : ℕ} {hn : 0 < n}
  {cipher : Piece n → Cmd InputStrm OutputStrm NetWord Cell.Val (Piece n)} {lasts : ℕ → Bool}
  {ports : DevicePorts}

/-! `parser` and `distributer` by themselves. -/

section Routing
variable {mem : Memory DeviceCore Cell.Val}

@[reducible] def RoutingCore.device : RoutingCore → DeviceCore
  | .parser => .parser
  | .distributer => .distributer

def RoutingFifo.device : RoutingFifo → DeviceFifo
  | .inputStrm => .networkRxFifo
  | .packetBuffer => .packetBuffer
  | .protFifo => .protFifo
  | .strm q => DeviceCore.dst .distributer q

lemma RoutingFifo.device_injective : Function.Injective RoutingFifo.device := by
  rintro (_ | _ | _ | (_ | _ | _ | _)) (_ | _ | _ | (_ | _ | _ | _)) h <;> first | rfl | cases h

/-- The memory of the device as the two cores see it. -/
@[reducible] def routingMemory (mem : Memory DeviceCore Cell.Val) : Memory RoutingCore Cell.Val where
  State := mem.State
  load i := mem.load i.device
  store i := mem.store i.device

/-- The two cores of the device with their FIFOs. -/
def routingView (s : (deviceAround cipher lasts ports).State mem.State) :
    routing.State (routingMemory mem).State where
  code
    | .parser => s.code .parser
    | .distributer => s.code .distributer
  fifo c := s.fifo c.device
  mem := s.mem

variable {s t : (deviceAround cipher lasts ports).State mem.State} {cap : DeviceFifo → ℕ∞}

lemma routingView_fifo (fifo : DeviceFifo → List NetWord) (c : RoutingFifo) (ws : List NetWord) :
    (fun c' : RoutingFifo => Function.update fifo c.device ws c'.device) =
      Function.update (fun c' : RoutingFifo => fifo c'.device) c ws :=
  Function.update_comp_eq_of_injective fifo RoutingFifo.device_injective c ws

lemma routingView_ofParser {fifo : DeviceFifo → List NetWord} {fifo' : RoutingFifo → List NetWord}
    {m : mem.State} {c : Cmd InputStrm ParserOut NetWord Cell.Val ParserLabel}
    (hf : (fun c : RoutingFifo => fifo c.device) = fifo') :
    routingView (⟨Function.update s.code .parser c,fifo,m⟩ : (deviceAround cipher lasts ports).State mem.State) =
      ⟨Function.update (routingView s).code .parser c,fifo',m⟩ :=
  Network.State.ext (funext fun j => by cases j <;> rfl) hf rfl

lemma routingView_ofDistributer {fifo : DeviceFifo → List NetWord}
    {fifo' : RoutingFifo → List NetWord} {m : mem.State}
    {c : Cmd DistributerIn DistributerOut NetWord Cell.Val DistributerLabel}
    (hf : (fun c : RoutingFifo => fifo c.device) = fifo') :
    routingView (⟨Function.update s.code .distributer c,fifo,m⟩ :
        (deviceAround cipher lasts ports).State mem.State) =
      ⟨Function.update (routingView s).code .distributer c,fifo',m⟩ :=
  Network.State.ext (funext fun j => by cases j <;> rfl) hf rfl

lemma routingView_parserStep (h : (deviceAround cipher lasts ports).StepAt mem cap .parser s t) :
    routing.StepAt (routingMemory mem) (fun c => cap c.device) .parser (routingView s)
      (routingView t) := by
  cases h with
  | call hc => exact .to (.call hc) (routingView_ofParser rfl).symm
  | @read p k w ws hc hf =>
    exact .to (.read hc hf) (routingView_ofParser (routingView_fifo s.fifo .inputStrm ws)).symm
  | @write q w k hc room =>
    cases q with
    | outputStrm =>
      exact .to (.write hc room) (routingView_ofParser (routingView_fifo s.fifo .packetBuffer _)).symm
    | protStrm =>
      exact .to (.write hc room) (routingView_ofParser (routingView_fifo s.fifo .protFifo _)).symm
  | load hc => exact .to (.load hc) (routingView_ofParser rfl).symm
  | store hc => exact .to (.store hc) (routingView_ofParser rfl).symm

lemma routingView_distributerStep
    (h : (deviceAround cipher lasts ports).StepAt mem cap .distributer s t) :
    routing.StepAt (routingMemory mem) (fun c => cap c.device) .distributer (routingView s)
      (routingView t) := by
  cases h with
  | call hc => exact .to (.call hc) (routingView_ofDistributer rfl).symm
  | @read p k w ws hc hf =>
    cases p with
    | inputStrm =>
      exact .to (.read hc hf) (routingView_ofDistributer (routingView_fifo s.fifo .packetBuffer ws)).symm
    | protStrm =>
      exact .to (.read hc hf) (routingView_ofDistributer (routingView_fifo s.fifo .protFifo ws)).symm
  | @write q w k hc room =>
    exact .to (.write hc room) (routingView_ofDistributer (routingView_fifo s.fifo (.strm q) _)).symm
  | load hc => exact .to (.load hc) (routingView_ofDistributer rfl).symm
  | store hc => exact .to (.store hc) (routingView_ofDistributer rfl).symm

variable {fs gs : List Frame} {cur : List NetWord} {evs : List (Event ParserOut NetWord Cell.Val)}

/-- What the other cores do is not seen by the two. -/
lemma RoutingAt.other (h : RoutingAt fs (routingView s) evs gs cur) {i : DeviceCore}
    (hi : (deviceAround cipher lasts ports).StepAt mem cap i s t) (hparser : i ≠ .parser)
    (hdist : i ≠ .distributer) : RoutingAt fs (routingView t) evs gs cur := by
  have hcode : (routingView t).code = (routingView s).code := by
    funext j
    cases j with
    | parser => exact hi.code_ne hparser.symm
    | distributer => exact hi.code_ne hdist.symm
  have hfifo (c : DeviceFifo) (hc : c = .networkRxFifo ∨ c = .packetBuffer ∨ c = .protFifo) :
      t.fifo c = s.fifo c := by
    refine hi.only.2 c (fun p => ?_) (fun q => ?_)
    · rcases hc with rfl | rfl | rfl <;> cases i <;> cases p <;>
        first | exact absurd rfl hparser | exact absurd rfl hdist | simp [DeviceCore.src]
    · rcases hc with rfl | rfl | rfl <;> cases i <;> cases q <;>
        first | exact absurd rfl hparser | exact absurd rfl hdist | simp [DeviceCore.dst]
  have hin : t.fifo .networkRxFifo = s.fifo .networkRxFifo := hfifo _ (.inl rfl)
  have hpacket : t.fifo .packetBuffer = s.fifo .packetBuffer := hfifo _ (.inr (.inl rfl))
  have hprot : t.fifo .protFifo = s.fifo .protFifo := hfifo _ (.inr (.inr rfl))
  have hsrc : (fun p => (routingView t).fifo (routing.src .parser p)) =
      fun p => (routingView s).fifo (routing.src .parser p) := funext fun _ => hin
  refine ⟨?_, h.events, ?_, h.frames, ?_, ?_⟩
  · rw [hcode, hsrc]
    exact h.parser
  · rw [hcode]
    exact h.distributer
  · exact (congrArg (· ++ sentWords evs) hpacket).trans h.words
  · exact (congrArg (· ++ sentCodes evs) hprot).trans h.codes

lemma RoutingAt.of_device_run (hf : ∀ f ∈ fs, 43 ≤ f.words.length) {m : mem.State}
    (hs : (deviceAround cipher lasts ports).Run mem cap (aroundStart hn cipher lasts ports fs m) s) :
    ∃ evs gs cur, RoutingAt fs (routingView s) evs gs cur := by
  induction hs with
  | refl =>
    have hstart : routingView (aroundStart hn cipher lasts ports fs m) = routingStart fs m := by
      refine Network.State.ext (funext fun j => ?_) (funext fun c => ?_) rfl
      · cases j <;> rfl
      · cases c with
        | strm q => cases q <;> rfl
        | _ => rfl
    rw [hstart]
    exact ⟨_, _, _, .start (routingMemory mem) hf m⟩
  | tail _ hstep ih =>
    obtain ⟨evs, gs, cur, h⟩ := ih
    obtain ⟨i, hi⟩ := hstep
    by_cases hparser : i = .parser
    · subst hparser
      exact h.step ⟨.parser, routingView_parserStep hi⟩
    · by_cases hdist : i = .distributer
      · subst hdist
        exact h.step ⟨.distributer, routingView_distributerStep hi⟩
      · exact ⟨evs, gs, cur, h.other hi hparser hdist⟩

end Routing

/-- The output FIFOs, which `axis_switch_0` reads. -/
def deviceOutlets : Finset DeviceFifo :=
  {.arpOutputBuffer,.icmpOutputBuffer,.udpRegOutBuf,.udpOutputBuffer}

/-- Room for a word in each FIFO, and for the headers of a frame in `packet_buffer`. -/
structure DeviceRoom (cap : DeviceFifo → ℕ∞) : Prop where
  room : ∀ c, 1 ≤ cap c
  packetBuffer : 42 ≤ cap .packetBuffer

lemma DeviceRoom.opened {cap : DeviceFifo → ℕ∞} (h : DeviceRoom cap) :
    DeviceRoom (opened deviceOutlets cap) where
  room c := by
    unfold Dataflow.opened
    split_ifs
    · exact le_top
    · exact h.room c
  packetBuffer := h.packetBuffer

section Progress
variable {mem : Memory DeviceCore Cell.Val} {s : (deviceAround cipher lasts ports).State mem.State}
  {cap : DeviceFifo → ℕ∞}

open Network in
/-- Where no core can take a step, all but `parser` wait for a word. -/
lemma device_waits_behind (hroom : DeviceRoom cap)
    (h : ∀ t, ¬ (deviceAround cipher lasts ports).Step mem (opened deviceOutlets cap) s t)
    (i : DeviceCore) (hi : i ≠ .parser) : Waits s i := by
  have hroom := hroom.opened
  have harp : Waits s .arp := .of_readers h _ fun q => .inl rfl
  have hicmp : Waits s .icmp := .of_readers h _ fun q => .inl rfl
  have hreg : Waits s .udpReg := .of_readers h _ fun q => .inl rfl
  have hpacketizer : Waits s .udpPacketizer := .of_readers h _ fun q => .inl rfl
  have hswitch : Waits s .outSwitch :=
    .of_readers h _ fun q => .inr ⟨hroom.room _, .udpPacketizer, fun p => rfl, hpacketizer⟩
  have hcipher : Waits s .cipher :=
    .of_readers h _ fun q => .inr ⟨hroom.room _, .outSwitch, fun p => rfl, hswitch⟩
  have hdepacketizer : Waits s .udpDepacketizer :=
    .of_readers h _ fun q => .inr ⟨hroom.room _, .cipher, fun p => rfl, hcipher⟩
  cases i with
  | parser => exact absurd rfl hi
  | distributer =>
    refine .of_readers h _ fun q => .inr ⟨hroom.room _, ?_⟩
    cases q with
    | arpStrm => exact ⟨.arp, fun p => rfl, harp⟩
    | icmpStrm => exact ⟨.icmp, fun p => rfl, hicmp⟩
    | udpStrmStrm => exact ⟨.udpDepacketizer, fun p => rfl, hdepacketizer⟩
    | udpRegStrm => exact ⟨.udpReg, fun p => rfl, hreg⟩
  | _ => assumption

/-- A core that waits is not ready. -/
lemma not_ready_of_waits {cap : RoutingFifo → ℕ∞} {s : routing.State (routingMemory mem).State}
    {i : RoutingCore} (h : Network.Waits s i) : ¬ routing.Ready cap s i := by
  obtain ⟨p, k, hc, hf⟩ := h
  rintro ⟨c, hcode | ⟨l, hl, -⟩, hio⟩
  · rw [hc] at hcode
    subst hcode
    rcases hio with ⟨p', k', w, ws, he, hw⟩ | ⟨q, w, k', he, -⟩
    · obtain ⟨rfl, -⟩ := Cmd.recv.inj he
      rw [hf] at hw
      cases hw
    · cases he
  · cases hc.symm.trans hl

/-- A reachable state without a step is one in which all cores wait. -/
lemma device_stuck {fs : List Frame} (hf : ∀ f ∈ fs, 43 ≤ f.words.length) (hroom : DeviceRoom cap)
    {m : mem.State} (hs : (deviceAround cipher lasts ports).Run mem (opened deviceOutlets cap)
      (aroundStart hn cipher lasts ports fs m) s)
    (h : ∀ t, ¬ (deviceAround cipher lasts ports).Step mem (opened deviceOutlets cap) s t) :
    (deviceAround cipher lasts ports).Starved s := by
  have hbehind := device_waits_behind hroom h
  intro i
  by_cases hi : i = .parser
  swap
  · exact hbehind i hi
  subst hi
  rcases Network.waits_or_full h .parser with hparser | ⟨q, w, k, hc, hfull⟩
  · exact hparser
  obtain ⟨evs, gs, cur, hat⟩ := RoutingAt.of_device_run hf hs
  obtain ⟨evs', rfl⟩ : ∃ evs', evs = .send q w::evs' := by
    have htrace := hat.parser
    have hcode : (routingView s).code .parser = .send q w k := hc
    rw [hcode] at htrace
    cases htrace
    exact ⟨_, rfl⟩
  have hdist : (cur = [] ∧ s.fifo .protFifo = []) ∨ cur ≠ [] ∧ s.fifo .packetBuffer = [] := by
    have hwaits : Network.Waits (routingView s) .distributer := by
      obtain ⟨p, k', hc', hf'⟩ := hbehind .distributer (by simp)
      cases p with
      | inputStrm => exact ⟨.inputStrm, k', hc', hf'⟩
      | protStrm => exact ⟨.protStrm, k', hc', hf'⟩
    have hready : routing.Ready (fun _ => ⊤) (routingView s) .distributer ∨ _ :=
      distributer_ready (fun _ => rfl) hat.distributer
    exact hready.resolve_left (not_ready_of_waits hwaits)
  cases q with
  | outputStrm =>
    have hfull : 42 ≤ (s.fifo .packetBuffer).length := by
      exact_mod_cast hroom.opened.packetBuffer.trans hfull
    rcases hdist with ⟨rfl, hnone⟩ | ⟨-, hnone⟩
    · have hlt : (s.fifo .packetBuffer).length < 42 := hat.packetBuffer_room hf rfl hnone
      omega
    · simp [hnone] at hfull
  | protStrm =>
    have hfull : 1 ≤ (s.fifo .protFifo).length := by
      exact_mod_cast (hroom.opened.room _).trans hfull
    rcases hdist with ⟨-, hnone⟩ | ⟨hcur, hnone⟩
    · simp [hnone] at hfull
    · have hempty : s.fifo .protFifo = [] := hat.protFifo_empty (by simp) hcur hnone
      simp [hempty] at hfull

end Progress

section Runs
variable {cap : DeviceFifo → ℕ∞} {fs : List Frame} {m : (c : Cell) → c.Val}
  {s t : (deviceAround cipher lasts ports).State (Memory.shared DeviceCore Cell.Val).State}

variable (hn cap fs m s) in
/-- Whatever the loads still to come find outside the registers, the state is reached on
`regMemory`. -/
def Reached : Prop := ∀ script, ∃ script', (deviceAround cipher lasts ports).Run regMemory cap
  (aroundStart hn cipher lasts ports fs (script',m)) (s.owned regOwner m script)

lemma keeps_start : Network.Keeps regOwner (aroundStart hn cipher lasts ports fs m) :=
  fun _ => .ret _

lemma aroundStart_owned (script : DeviceCore → ℕ → (c : Cell) → c.Val) :
    (aroundStart hn cipher lasts ports fs m).owned regOwner m script =
      aroundStart hn cipher lasts ports fs (script,m) :=
  congrArg (fun cells => Network.State.mk _ _ (script,cells)) (ownedCells_self _)

lemma reached_start : Reached hn cap fs m (aroundStart hn cipher lasts ports fs m) :=
  fun script => ⟨script, aroundStart_owned script ▸ Relation.ReflTransGen.refl⟩

variable {Out : List NetWord → List NetWord → Prop} (hcipher : Enciphers hn cipher Out)

section
include hcipher

/-- A core can do what the cores can do that own the registers. -/
lemma Reached.run (hs : Reached hn cap fs m s) (hkeeps : Network.Keeps regOwner s)
    (h : (deviceAround cipher lasts ports).Run (Memory.shared DeviceCore Cell.Val) cap s t) :
    Reached hn cap fs m t := by
  intro script
  obtain ⟨script', ht⟩ := h.owned (around_keeps hcipher.accesses) hkeeps m script
  obtain ⟨script'', hr⟩ := hs script'
  exact ⟨script'', hr.trans ht⟩

lemma reached_of_run (hs : (deviceAround cipher lasts ports).Run (Memory.shared DeviceCore Cell.Val)
    cap (aroundStart hn cipher lasts ports fs m) s) : Reached hn cap fs m s :=
  reached_start.run hcipher keeps_start hs

/-- From such a state all runs come to an end. -/
lemma Reached.acc (hf : DeviceFrames fs) (hs : Reached hn cap fs m s)
    (hkeeps : Network.Keeps regOwner s) :
    Acc (flip ((deviceAround cipher lasts ports).Step (Memory.shared DeviceCore Cell.Val) cap)) s := by
  refine Network.acc_step (around_keeps hcipher.accesses) hkeeps m fun script => ?_
  obtain ⟨script', hr⟩ := hs script
  obtain ⟨t, -, -, -, -, ht, hst, -⟩ :=
    device_final_registers lasts ports hcipher fs hf (script',m)
  exact ⟨t, hr.unbounded.to_final owned_independent ht hst, hst⟩

end

/-- Such a state without a step is one in which all cores wait. -/
lemma Reached.starved (hf : ∀ f ∈ fs, 43 ≤ f.words.length) (hroom : DeviceRoom cap)
    (hs : Reached hn (opened deviceOutlets cap) fs m s)
    (h : ∀ t, ¬ (deviceAround cipher lasts ports).Step (Memory.shared DeviceCore Cell.Val)
      (opened deviceOutlets cap) s t) :
    (deviceAround cipher lasts ports).Starved s := by
  obtain ⟨script, hr⟩ := hs fun _ _ => m
  have hstarved : (deviceAround cipher lasts ports).Starved (s.owned regOwner m fun _ _ => m) :=
    device_stuck hf hroom hr fun t ht => not_exists.mpr h (Network.exists_step_of ht rfl rfl)
  exact hstarved

include hcipher

/-- Such a state has a run to one where all cores wait and the switch has taken all words. -/
lemma Reached.ends (hf : DeviceFrames fs) (hroom : DeviceRoom cap)
    (hs : Reached hn (opened deviceOutlets cap) fs m s) (hkeeps : Network.Keeps regOwner s)
    {taken : DeviceFifo → ℕ} (htaken : ∀ c ∉ deviceOutlets, taken c = 0) :
    ∃ t taken', OutletRun ((deviceAround cipher lasts ports).Step (Memory.shared DeviceCore Cell.Val))
        Network.State.fifo deviceOutlets cap (s,taken) (t,taken') ∧
      (deviceAround cipher lasts ports).Starved t ∧
      ∀ c ∈ deviceOutlets, (t.fifo c).length ≤ taken' c := by
  have hlong : ∀ f ∈ fs, 43 ≤ f.words.length := fun f hm => by have h := hf.words f hm; omega
  obtain ⟨t, taken', ht, hstuck, hall⟩ :=
    exists_outletRun Network.asksRoom hroom.room (hs.acc hcipher hf hkeeps) htaken
  have hrun := (ht.opened Network.asksRoom htaken).1
  exact ⟨t, taken', ht, (hs.run hcipher hkeeps hrun).starved hlong hroom hstuck, hall⟩

end Runs

/-- Frames for which the cores keep within `ip_options` and `data_buf`. -/
structure FramesFit (fs : List Frame) : Prop where
  words : ∀ f ∈ fs, 43 ≤ f.words.length
  icmp : ∀ f ∈ framesFor .ICMP fs, IcmpFrame f.words
  udpReg : ∀ f ∈ framesFor .UDP_REG fs, Fits f.words

lemma WriteFrame.fits {f : List NetWord} {k : ℕ} (h : WriteFrame f k) : Fits f := by
  have hstride : stride f = 8 := if_pos h.port
  have hlen := h.len
  have hw := h.words
  have hframe := h.frame
  constructor
  · rw [hstride]
    omega
  · rw [loopWords, hstride]
    omega
  · intro hport
    rw [h.port] at hport
    cases hport

lemma ReadFrame.fits {f : List NetWord} {k : ℕ} (h : ReadFrame f k) : Fits f := by
  have hne : ¬ (udpOf (f.drop 34)).dstPort = 50000 := by
    rw [h.port]
    decide
  have hstride : stride f = 4 := if_neg hne
  have hlen := h.len
  have hw := h.words
  have hle := h.le
  constructor
  · rw [hstride]
    omega
  · rw [loopWords, hstride]
    omega
  · omega

lemma DeviceFrames.fit {fs : List Frame} (h : DeviceFrames fs) : FramesFit fs where
  words f hm := by
    have h60 := h.words f hm
    omega
  icmp := h.icmp
  udpReg f hm := by
    rcases h.udpReg f hm with ⟨k, hw⟩ | ⟨k, hr⟩
    · exact hw.fits
    · exact hr.fits

section Device
variable {core : CipherCore} {cap : DeviceFifo → ℕ∞} {m : (Memory.shared DeviceCore Cell.Val).State}

/-- The state of the device and how many words the switch has taken from each FIFO. -/
abbrev Switched (core : CipherCore) (lasts : ℕ → Bool) (ports : DevicePorts) : Type :=
  (device core lasts ports).State (Memory.shared DeviceCore Cell.Val).State × (DeviceFifo → ℕ)

/-- A step of a core of the device or of the switch behind it. -/
abbrev SwitchedStep (core : CipherCore) (lasts : ℕ → Bool) (ports : DevicePorts)
    (cap : DeviceFifo → ℕ∞) : Switched core lasts ports → Switched core lasts ports → Prop :=
  OutletStep ((device core lasts ports).Step (Memory.shared DeviceCore Cell.Val)) Network.State.fifo
    deviceOutlets cap

abbrev SwitchedRun (core : CipherCore) (lasts : ℕ → Bool) (ports : DevicePorts)
    (cap : DeviceFifo → ℕ∞) : Switched core lasts ports → Switched core lasts ports → Prop :=
  OutletRun ((device core lasts ports).Step (Memory.shared DeviceCore Cell.Val)) Network.State.fifo
    deviceOutlets cap

/-- All cores wait for a word and the switch has nothing to take. -/
def Idle {N : Network DeviceCore DeviceFifo NetWord Cell.Val} {M : Type} (s : N.State M)
    (taken : DeviceFifo → ℕ) : Prop :=
  N.Starved s ∧ ∀ c ∈ deviceOutlets, (s.fifo c).length ≤ taken c

/-- The device does not deadlock: as long as there is something to do, a core or the switch can do
something. -/
theorem device_progress (fs : List Frame) (hf : FramesFit fs) (hroom : DeviceRoom cap)
    (s : (device core lasts ports).State (Memory.shared DeviceCore Cell.Val).State)
    (taken : DeviceFifo → ℕ)
    (hs : SwitchedRun core lasts ports cap (deviceStart core lasts ports fs m,fun _ => 0) (s,taken)) :
    Idle s taken ∨ ∃ y, SwitchedStep core lasts ports cap (s,taken) y := by
  by_cases h : ∃ y, SwitchedStep core lasts ports cap (s,taken) y
  · exact .inr h
  · obtain ⟨hstuck, hall⟩ := outletStep_stuck Network.asksRoom hroom.room (not_exists.mp h)
    have hrun := (hs.opened Network.asksRoom fun _ _ => rfl).1
    exact .inl ⟨device_stuck hf.words hroom hrun hstuck, hall⟩

lemma device_keeps {fs : List Frame}
    {s : (device core lasts ports).State (Memory.shared DeviceCore Cell.Val).State}
    (hs : (device core lasts ports).Run (Memory.shared DeviceCore Cell.Val) cap
      (deviceStart core lasts ports fs m) s) : Network.Keeps regOwner s :=
  Network.Run.keeps (around_keeps (cipher_accesses core)) hs keeps_start

/-- From every state reached all runs come to an end, one does, and the end is always a state where
nothing is left to do. -/
theorem device_completes (fs : List Frame) (hf : DeviceFrames fs) (hroom : DeviceRoom cap)
    (s : (device core lasts ports).State (Memory.shared DeviceCore Cell.Val).State)
    (taken : DeviceFifo → ℕ)
    (hs : SwitchedRun core lasts ports cap (deviceStart core lasts ports fs m,fun _ => 0) (s,taken)) :
    (∀ x : ℕ → Switched core lasts ports, x 0 = (s,taken) →
      ∃ n, ¬ SwitchedStep core lasts ports cap (x n) (x (n+1))) ∧
    (∃ t taken', SwitchedRun core lasts ports cap (s,taken) (t,taken') ∧ Idle t taken') ∧
    ∀ t taken', SwitchedRun core lasts ports cap (s,taken) (t,taken') →
      (∀ y, ¬ SwitchedStep core lasts ports cap (t,taken') y) → Idle t taken' := by
  obtain ⟨hrun, htaken⟩ := hs.opened Network.asksRoom fun _ _ => rfl
  have hreached := reached_of_run (core_enciphers core) hrun
  have hacc := hreached.acc (core_enciphers core) hf (device_keeps hrun)
  refine ⟨fun x h0 => ?_, ?_, fun t taken' ht hstuck => ?_⟩
  · by_contra hx
    exact not_acc_iff_exists_descending_chain.mpr ⟨x, h0, not_exists_not.mp hx⟩
      (acc_outletStep Network.asksRoom hacc htaken)
  · exact hreached.ends (core_enciphers core) hf hroom (device_keeps hrun) htaken
  · exact (device_progress fs hf.fit hroom t taken' (hs.trans ht)).resolve_right
      (not_exists.mpr hstuck)

end Device

/-! Frames of all kinds: an ARP and an echo request for 192.168.1.10, a register written and read
back, and a datagram. -/

def someFrames : List Frame :=
  [arpFrameTo 1 (10::List.replicate 17 0) 0,echoFrame,
    requestFrame 50000 16 [0xc0,0,0,4,0xde,0xad,0xbe,0xef],requestFrame 40000 12 [0xc0,0,0,4],strmFrame]

def somePorts : DevicePorts := ⟨⟨0xc0a8010a,1,0x200⟩,⟨0xc0a8010a,1,0x200⟩,⟨0xc0a8010a,1,0x200,0⟩⟩

def someCore : CipherCore := .des (.replicate 17 (.replicate 8 0)) 0

lemma mem_someFrames {f : Frame} {p : Prot} (h : f ∈ framesFor p someFrames) :
    f = arpFrameTo 1 (10::List.replicate 17 0) 0 ∧ p = .ARP ∨ f = echoFrame ∧ p = .ICMP ∨
      (f = requestFrame 50000 16 [0xc0,0,0,4,0xde,0xad,0xbe,0xef] ∨
        f = requestFrame 40000 12 [0xc0,0,0,4]) ∧ p = .UDP_REG ∨ f = strmFrame ∧ p = .UDP_STRM := by
  obtain ⟨hf, hc⟩ := List.mem_filter.mp h
  have hcode := of_decide_eq_true hc
  simp only [someFrames, List.mem_cons, List.not_mem_nil, or_false] at hf
  rcases hf with rfl | rfl | rfl | rfl | rfl <;> cases p <;>
    first | exact absurd hcode (by decide) | simp

lemma someFrames_device : DeviceFrames someFrames where
  words := by decide
  icmp f hm := by
    rcases mem_someFrames hm with ⟨-, h⟩ | ⟨rfl, -⟩ | ⟨-, h⟩ | ⟨-, h⟩
    · cases h
    · exact echoFrame_request.icmpFrame
    · cases h
    · cases h
  udpReg f hm := by
    rcases mem_someFrames hm with ⟨-, h⟩ | ⟨-, h⟩ | ⟨rfl | rfl, -⟩ | ⟨-, h⟩
    · cases h
    · cases h
    · exact .inl ⟨1, by decide, by decide, by decide, by decide, by decide, by decide⟩
    · exact .inr ⟨1, by decide, by decide, by decide, by decide, by decide, by decide⟩
    · cases h
  udpStrm f hm := by
    rcases mem_someFrames hm with ⟨-, h⟩ | ⟨-, h⟩ | ⟨-, h⟩ | ⟨rfl, -⟩
    · cases h
    · cases h
    · cases h
    · exact ⟨by decide, 18, by decide, by decide, by decide⟩

/-- The depths of the FIFOs in the block design. -/
def fifoDepth : DeviceFifo → ℕ∞
  | .networkRxFifo => 2048
  | .packetBuffer => 2048
  | .protFifo => 16
  | .arpInputBuffer => 512
  | .icmpInputBuffer => 512
  | .udpRcvBuf => 2048
  | .udpRegBuf => 512
  | .arpOutputBuffer => 512
  | .icmpOutputBuffer => 2048
  | .udpRegOutBuf => 2048
  | .rawDataBuf => 2048
  | .encDataBuf => 2048
  | .outSel => 1
  | .udpOutputBuffer => 2048

lemma fifoDepth_room : DeviceRoom fifoDepth where
  room c := by cases c <;> simp [fifoDepth]
  packetBuffer := by
    have h : ((42 : ℕ) : ℕ∞) ≤ (2048 : ℕ) := Nat.cast_le.mpr (by decide)
    exact h

/-- The same with outputs that are never full. -/
abbrev openDepth : DeviceFifo → ℕ∞ := opened deviceOutlets fifoDepth

lemma someDevice_ends {fs : List Frame} (hf : DeviceFrames fs) :
    ∃ s, (device someCore (fun _ => false) somePorts).Run (Memory.shared DeviceCore Cell.Val) openDepth
      (deviceStart someCore (fun _ => false) somePorts fs Cell.zero) s ∧
      (device someCore (fun _ => false) somePorts).Starved s := by
  have hnone : ∀ c ∉ deviceOutlets, (fun _ => 0 : DeviceFifo → ℕ) c = 0 := fun _ _ => rfl
  obtain ⟨s, taken, hs, hst, -⟩ := reached_start.ends (core_enciphers someCore) hf fifoDepth_room
    keeps_start hnone
  exact ⟨s, (hs.opened Network.asksRoom hnone).1, hst⟩

/-- `device_progress` where all frames wait in `packet_buffer`, their codes on the way. -/
theorem device_progress_someFrames : ∃ s,
    SwitchedRun someCore (fun _ => false) somePorts fifoDepth
      (deviceStart someCore (fun _ => false) somePorts someFrames Cell.zero,fun _ => 0)
      (s,fun _ => 0) ∧
    s.fifo .packetBuffer = someFrames.flatMap Frame.words ∧ (s.fifo .protFifo).length = 5 ∧
    ∃ y, SwitchedStep someCore (fun _ => false) somePorts fifoDepth (s,fun _ => 0) y := by
  have hpacket : (((someFrames.flatMap Frame.words).length : ℕ) : ℕ∞) ≤ (2048 : ℕ) :=
    Nat.cast_le.mpr (by decide +kernel)
  have hprot : ((someFrames.length : ℕ) : ℕ∞) ≤ (16 : ℕ) := Nat.cast_le.mpr (by decide)
  have hparsed : (device someCore (fun _ => false) somePorts).Run (Memory.shared DeviceCore Cell.Val)
      fifoDepth (deviceStart someCore (fun _ => false) somePorts someFrames Cell.zero) _ :=
    device_parsed (Memory.shared DeviceCore Cell.Val) someFrames someFrames_device.fit.words Cell.zero
      hpacket hprot
  have hs : SwitchedRun someCore (fun _ => false) somePorts fifoDepth (_,fun _ => 0) (_,fun _ => 0) :=
    .of_run hparsed
  refine ⟨_, hs, rfl, rfl, ?_⟩
  refine (device_progress someFrames someFrames_device.fit fifoDepth_room _ _ hs).resolve_left
    fun h => ?_
  obtain ⟨p, k, hc, -⟩ := h.1 .parser
  cases hc

/-- `device_completes` from the start. -/
theorem device_completes_someFrames : ∃ t taken,
    SwitchedRun someCore (fun _ => false) somePorts fifoDepth
      (deviceStart someCore (fun _ => false) somePorts someFrames Cell.zero,fun _ => 0) (t,taken) ∧
    Idle t taken :=
  (device_completes someFrames someFrames_device fifoDepth_room _ _ .refl).2.1

end EncryptionAccelerators.Net
