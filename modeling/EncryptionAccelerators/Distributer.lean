import EncryptionAccelerators.Parser

/-! The core `distributer`: it reads the code of a frame and passes the frame to the stream the
code selects, or discards it. -/
namespace EncryptionAccelerators.Net
open Dataflow

inductive DistributerIn
  | inputStrm | protStrm
  deriving DecidableEq

inductive DistributerOut
  | arpStrm | icmpStrm | udpStrmStrm | udpRegStrm
  deriving DecidableEq

/-- The entry of `distributer` and the stream loop of each of its branches. -/
inductive DistributerLabel
  | start | passStream (q : DistributerOut) | discardStream
  deriving DecidableEq

section Distributer
variable {ι A : Type} {V : A → Type}

def distributer : DistributerLabel → Cmd DistributerIn DistributerOut NetWord V DistributerLabel
  | .start => do
    let detectedProt ← readWord .protStrm
    if detectedProt.data = Prot.ARP.code then return .passStream .arpStrm
    else if detectedProt.data = Prot.ICMP.code then return .passStream .icmpStrm
    else if detectedProt.data = Prot.UDP_STRM.code then return .passStream .udpStrmStrm
    else if detectedProt.data = Prot.UDP_REG.code then return .passStream .udpRegStrm
    else return .discardStream
  | .passStream q => passStream .inputStrm q (.passStream q) .start
  | .discardStream => discardStream .inputStrm .discardStream .start

/-- The code that selects an output stream. -/
def DistributerOut.prot : DistributerOut → Prot
  | arpStrm => .ARP
  | icmpStrm => .ICMP
  | udpStrmStrm => .UDP_STRM
  | udpRegStrm => .UDP_REG

def branch : Prot → DistributerLabel
  | .ARP => .passStream .arpStrm
  | .ICMP => .passStream .icmpStrm
  | .UDP_STRM => .passStream .udpStrmStrm
  | .UDP_REG => .passStream .udpRegStrm
  | .OTHER => .discardStream

variable (mem : Memory ι V) (i : ι)

lemma exec_distributer (s : Io DistributerIn DistributerOut NetWord mem.State) (c : Prot)
    {cs : List NetWord} (hs : s.inp .protStrm = byteWord c.code::cs) :
    exec mem i (distributer .start) s =
      some (branch c,⟨Function.update s.inp .protStrm cs,s.out,s.mem⟩) := by
  unfold distributer
  simp only [readWord_bind, Cmd.pure_def]
  rw [exec_recv mem i _ _ s hs]
  cases c <;> rfl

/-- The two input streams. -/
def distributerInput (words codes : List NetWord) : DistributerIn → List NetWord
  | .inputStrm => words
  | .protStrm => codes

/-- One frame with its code: the words go to the stream the code selects, or nowhere. -/
lemma distributer_frame (f : Frame) (c : Prot) (rest cs : List NetWord)
    (s : Io DistributerIn DistributerOut NetWord mem.State)
    (hi : s.inp .inputStrm = f.words ++ rest) (hp : s.inp .protStrm = byteWord c.code::cs) :
    Blocks mem i distributer (.start,s) (.start,⟨distributerInput rest cs,
      fun q => s.out q ++ if q.prot = c then f.words else [],s.mem⟩) := by
  have hin : f.init ++ f.final::rest = s.inp .inputStrm := by simp [hi, Frame.words]
  have hstart : Block mem i distributer (.start,s) _ := exec_distributer mem i s c hp
  refine .head hstart ?_
  have hpass : ∀ q : DistributerOut, q.prot = c → branch c = .passStream q →
      Blocks mem i distributer (branch c,⟨Function.update s.inp .protStrm cs,s.out,s.mem⟩)
        (.start,⟨distributerInput rest cs,
          fun q => s.out q ++ if q.prot = c then f.words else [],s.mem⟩) := by
    rintro q rfl hb
    rw [hb]
    refine (passStream_until mem i distributer .inputStrm q (.passStream q) .start (by simp) rfl
      f.init rest f.final f.init_last f.final_last _ (by simp [hin])).blocks.to ?_
    congr 1
    ext p : 2
    · cases p <;> simp [distributerInput]
    · by_cases hq : p = q
      · subst hq; simp [Frame.words]
      · have hne : p.prot ≠ q.prot := by
          cases p <;> cases q <;> first | exact absurd rfl hq | decide
        simp [hq, hne]
    · rfl
  cases c with
  | ARP => exact hpass .arpStrm rfl rfl
  | ICMP => exact hpass .icmpStrm rfl rfl
  | UDP_STRM => exact hpass .udpStrmStrm rfl rfl
  | UDP_REG => exact hpass .udpRegStrm rfl rfl
  | OTHER =>
    refine (discardStream_until mem i distributer .inputStrm .start .discardStream .start (by decide) rfl
      f.init rest f.final f.init_last f.final_last _ (by simp [hin])).blocks.to ?_
    congr 1
    ext p : 2
    · cases p <;> simp [distributerInput]
    · cases p <;> simp [DistributerOut.prot]
    · rfl

/-- A sequence of frames, each with its own code. -/
lemma distributer_frames (fs : List Frame) (code : Frame → Prot)
    (s : Io DistributerIn DistributerOut NetWord mem.State)
    (hi : s.inp .inputStrm = fs.flatMap Frame.words)
    (hp : s.inp .protStrm = fs.map fun f => byteWord (code f).code) :
    Blocks mem i distributer (.start,s) (.start,⟨fun _ => [],fun q =>
      s.out q ++ (fs.filter fun f => q.prot = code f).flatMap Frame.words,s.mem⟩) := by
  induction fs generalizing s with
  | nil =>
    refine Blocks.to .refl ?_
    congr 1
    ext p : 2
    · cases p
      · simpa using hi
      · simpa using hp
    · simp
    · rfl
  | cons f fs ih =>
    have h1 := distributer_frame mem i f (code f) (fs.flatMap Frame.words)
      (fs.map fun f => byteWord (code f).code) s (by simpa using hi) (by simpa using hp)
    refine (h1.trans (ih _ (by rfl) (by rfl))).to ?_
    congr 2
    funext q
    by_cases hq : q.prot = code f
    · simp [hq]
    · simp [hq]

/-- The frames and their codes as the two FIFOs deliver them. -/
lemma distributer_input (fs : List Frame) (code : Frame → Prot) (m : mem.State) :
    Blocks mem i distributer
      (.start,⟨distributerInput (fs.flatMap Frame.words) (fs.map fun f => byteWord (code f).code),
        fun _ => [],m⟩)
      (.start,⟨fun _ => [],fun q => (fs.filter fun f => q.prot = code f).flatMap Frame.words,m⟩) :=
  distributer_frames mem i fs code _ rfl rfl

end Distributer

end EncryptionAccelerators.Net
