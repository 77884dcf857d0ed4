import EncryptionAccelerators.CipherPath
import EncryptionAccelerators.ControlLoop
import EncryptionAccelerators.Dma

/-! SD mode of `main.cc`: the control loop passes a file of the SD card through the selected cipher
core, 1024 bytes at a time. -/
namespace EncryptionAccelerators.Net
open Dataflow

/-- How many bytes `fsread` returns for the number asked and the number left in the file: at least
one while there are any. -/
structure FileReads where
  bytesRead : ℕ → ℕ → ℕ
  le_asked : ∀ asked left, bytesRead asked left ≤ asked
  le_left : ∀ asked left, bytesRead asked left ≤ left
  progress : ∀ asked left, 0 < asked → 0 < left → 0 < bytesRead asked left

lemma min_progress (asked left : ℕ) (ha : 0 < asked) (hl : 0 < left) : 0 < min asked left :=
  Nat.lt_min.mpr ⟨ha, hl⟩

/-- `fsread` returns as many bytes as are asked for and left, none at the end of the file. -/
def exactReads : FileReads := ⟨min,Nat.min_le_left,Nat.min_le_right,min_progress⟩

inductive SdIn
  | sdSwitch | mm2sDone | dmaBuf1
  deriving DecidableEq

inductive SdOut
  | dmaBuf0 | s2mmStart | encFile
  deriving DecidableEq

/-- `main` while it waits for the SD switch, and at its statements in SD mode. `inputFile` is what
is left to read of the file, `half` the `totalBytesRead` bytes a loop of reads has put in its half
of `dma_buf0`. -/
inductive SdLabel
  | idle
  | whileLoop (inputFile : List Byte)
  | firstHalf (inputFile half : List Byte)
  | secondHalf (inputFile first half : List Byte)
  | transfer (inputFile dmaBuf0 : List Byte)
  | busy (inputFile : List Byte)

section SdMode
variable {ι : Type}

/-- One turn of a `do` loop that reads into one half of `dma_buf0`; every call succeeds. -/
def readHalf (reads : FileReads) (again done : List Byte → List Byte → SdLabel)
    (inputFile half : List Byte) : Cmd SdIn SdOut NetWord Cell.Val SdLabel := do
  let bytesRead := reads.bytesRead (512 - half.length) inputFile.length
  let half := half ++ inputFile.take bytesRead
  let inputFile := inputFile.drop bytesRead
  return if half.length < 512 then again inputFile half else done inputFile half

/-- SD mode with the file `rand1M` and the core at master port `enabledMaster` of the raw data
switch. -/
def sdMode (reads : FileReads) (rand1M : List Byte) (enabledMaster : BitVec 32) :
    SdLabel → Cmd SdIn SdOut NetWord Cell.Val SdLabel
  | .idle => do
    let _ ← readWord .sdSwitch
    storeCell .rawDataSwitch (enabledMaster,1)
    storeCell .outSelSwitch (1,0)
    return .whileLoop rand1M
  | .whileLoop inputFile => do
    if inputFile = [] then
      storeCell .rawDataSwitch (enabledMaster,SLAVE_0)
      storeCell .outSelSwitch (0,0)
      return .idle
    else return .firstHalf inputFile []
  | .firstHalf inputFile half =>
    readHalf reads .firstHalf (fun inputFile half => .secondHalf inputFile half []) inputFile half
  | .secondHalf inputFile first half =>
    readHalf reads (fun inputFile half => .secondHalf inputFile first half)
      (fun inputFile half => .transfer inputFile (first ++ half)) inputFile half
  | .transfer inputFile dmaBuf0 => do
    writeWord .s2mmStart (byteWord 0)
    writeAll .dmaBuf0 (dmaBuf0.map byteWord)
    return .busy inputFile
  | .busy inputFile => do
    let dmaBuf1 ← readInto .dmaBuf1 1024 []
    let _ ← readWord .mm2sDone
    writeAll .encFile (dmaBuf1.take 512)
    writeAll .encFile (dmaBuf1.drop 512)
    return .whileLoop inputFile

variable (mem : Memory ι Cell.Val) (j : ι) (reads : FileReads) (rand1M : List Byte)
  (enabledMaster : BitVec 32)

/-- The loop ends with 512 bytes, whatever the sizes of its reads. -/
lemma readHalf_blocks (again done : List Byte → List Byte → SdLabel)
    (hb : ∀ inputFile half, sdMode reads rand1M enabledMaster (again inputFile half) =
      readHalf reads again done inputFile half)
    (half front inputFile : List Byte) (hf : front ≠ []) (hl : half.length + front.length = 512)
    (s : Io SdIn SdOut NetWord mem.State) : Blocks mem j (sdMode reads rand1M enabledMaster)
      (again (front ++ inputFile) half,s) (done inputFile (half ++ front),s) := by
  induction hk : front.length using Nat.strong_induction_on generalizing half front with
  | _ k ih =>
    have hfront := List.length_pos_iff.mpr hf
    have hasked : 512 - half.length = front.length := by omega
    have hall : (front ++ inputFile).length = front.length + inputFile.length :=
      List.length_append
    generalize hn : reads.bytesRead front.length (front ++ inputFile).length = n
    have hpos : 0 < n := hn ▸ reads.progress _ _ hfront (by omega)
    have hle : n ≤ front.length := hn ▸ reads.le_asked _ _
    have hexec : exec mem j (sdMode reads rand1M enabledMaster (again (front ++ inputFile) half)) s =
        some (if (half ++ front.take n).length < 512
          then again (front.drop n ++ inputFile) (half ++ front.take n)
          else done (front.drop n ++ inputFile) (half ++ front.take n),s) := by
      rw [hb, readHalf, hasked, hn, List.take_append_of_le_length hle,
        List.drop_append_of_le_length hle]
      rfl
    have htake : (half ++ front.take n).length = half.length + n := by
      rw [List.length_append, List.length_take_of_le hle]
    by_cases hlast : n = front.length
    · subst hlast
      rw [if_neg (by omega), List.take_length, List.drop_length] at hexec
      exact .single hexec
    · rw [if_pos (by omega)] at hexec
      have hdrop : (front.drop n).length = front.length - n := List.length_drop
      have hrest := ih (front.drop n).length (by omega) (half ++ front.take n) (front.drop n)
        (List.ne_nil_of_length_pos (by omega)) (by omega) rfl
      rw [List.append_assoc, List.take_append_drop] at hrest
      exact .head hexec hrest

/-- The memory once the switches join the core to the DMA, or to the network again. -/
def rejoined (slave outMaster : BitVec 32) (m : mem.State) : mem.State :=
  mem.store j .outSelSwitch (outMaster,0) (mem.store j .rawDataSwitch (enabledMaster,slave) m)

lemma exec_sdMode_idle (s : Io SdIn SdOut NetWord mem.State) {w : NetWord} {ws : List NetWord}
    (hs : s.inp .sdSwitch = w::ws) : exec mem j (sdMode reads rand1M enabledMaster .idle) s =
      some (.whileLoop rand1M,⟨Function.update s.inp .sdSwitch ws,s.out,
        rejoined mem j enabledMaster 1 1 s.mem⟩) := by
  rw [sdMode, readWord_bind, exec_recv mem j _ _ s hs]
  rfl

lemma exec_sdMode_end (s : Io SdIn SdOut NetWord mem.State) :
    exec mem j (sdMode reads rand1M enabledMaster (.whileLoop [])) s =
      some (.idle,⟨s.inp,s.out,rejoined mem j enabledMaster SLAVE_0 0 s.mem⟩) := rfl

/-- The bytes of one transfer go to the DMA. -/
lemma sdMode_transfer (half₁ half₂ inputFile : List Byte) (h₁ : half₁.length = 512)
    (h₂ : half₂.length = 512) (s : Io SdIn SdOut NetWord mem.State) :
    Blocks mem j (sdMode reads rand1M enabledMaster) (.whileLoop (half₁ ++ (half₂ ++ inputFile)),s)
      (.busy inputFile,⟨s.inp,fun
        | .dmaBuf0 => s.out .dmaBuf0 ++ (half₁ ++ half₂).map byteWord
        | .s2mmStart => s.out .s2mmStart ++ [byteWord 0]
        | .encFile => s.out .encFile,s.mem⟩) := by
  have hne₁ : half₁ ≠ [] := List.ne_nil_of_length_pos (by omega)
  have hne₂ : half₂ ≠ [] := List.ne_nil_of_length_pos (by omega)
  have hwhile : exec mem j (sdMode reads rand1M enabledMaster
      (.whileLoop (half₁ ++ (half₂ ++ inputFile)))) s =
      some (.firstHalf (half₁ ++ (half₂ ++ inputFile)) [],s) := by
    rw [sdMode, if_neg (by simp [hne₁])]
    rfl
  have hfirst := readHalf_blocks mem j reads rand1M enabledMaster .firstHalf
    (fun inputFile half => .secondHalf inputFile half []) (fun _ _ => rfl) [] half₁
    (half₂ ++ inputFile) hne₁ (by simpa using h₁) s
  have hsecond := readHalf_blocks mem j reads rand1M enabledMaster
    (fun inputFile half => .secondHalf inputFile half₁ half)
    (fun inputFile half => .transfer inputFile (half₁ ++ half)) (fun _ _ => rfl) [] half₂ inputFile
    hne₂ (by simpa using h₂) s
  refine .head hwhile (hfirst.trans (hsecond.trans (.single ?_)))
  rw [Block, sdMode, writeWord_bind, exec_send, exec_writeAll_bind]
  simp only [Cmd.pure_def, exec_ret, List.nil_append]
  congr 3
  funext q
  cases q <;> simp

/-- The bytes of one transfer go to the file. -/
lemma sdMode_busy (inputFile : List Byte) (ws rest done : List NetWord) (w : NetWord)
    (hws : ws.length = 1024) (s : Io SdIn SdOut NetWord mem.State)
    (hbuf : s.inp .dmaBuf1 = ws ++ rest) (hdone : s.inp .mm2sDone = w::done) :
    Block mem j (sdMode reads rand1M enabledMaster) (.busy inputFile,s)
      (.whileLoop inputFile,⟨fun
        | .sdSwitch => s.inp .sdSwitch
        | .mm2sDone => done
        | .dmaBuf1 => rest,fun
        | .dmaBuf0 => s.out .dmaBuf0
        | .s2mmStart => s.out .s2mmStart
        | .encFile => s.out .encFile ++ ws,s.mem⟩) := by
  have htake : (s.inp .dmaBuf1).take 1024 = ws := by rw [hbuf, ← hws, List.take_left]
  have hdrop : (s.inp .dmaBuf1).drop 1024 = rest := by rw [hbuf, ← hws, List.drop_left]
  rw [Block, sdMode, exec_readInto_bind mem j _ _ _ _ s (by simp [hbuf, hws]), htake, hdrop,
    readWord_bind, exec_recv mem j _ _ _ (by simpa using hdone)]
  simp only [exec_writeAll_bind, Cmd.pure_def, exec_ret, List.nil_append]
  congr 3
  · funext p
    cases p <;> simp
  · funext q
    cases q <;> simp

end SdMode

inductive SdCore
  | control | mm2s | cipher | tlastGen | s2mm
  deriving DecidableEq

instance : Fintype SdCore :=
  ⟨{.control,.mm2s,.cipher,.tlastGen,.s2mm}, fun i => by cases i <;> simp⟩

/-- The streams as the switches join them in SD mode, the buffers in memory and the file written:
`rawData` runs from slave port 1 of the raw data switch to the core, `encDataBuf` through master
port 1 of the output switch to `tlast_gen`. -/
inductive SdFifo
  | sdSwitch | dmaBuf0 | mm2sDone | rawData | encDataBuf | s2mmStart | s2mmStrm | dmaBuf1 | encFile
  deriving DecidableEq

namespace SdCore

@[reducible] def In : SdCore → Type
  | control => SdIn
  | s2mm => S2mmIn
  | _ => InputStrm

@[reducible] def Out : SdCore → Type
  | control => SdOut
  | mm2s => Mm2sOut
  | _ => OutputStrm

@[reducible] def Label (core : CipherCore) : SdCore → Type
  | control => SdLabel
  | mm2s => ℕ
  | cipher => Piece core.blockSize
  | tlastGen => BitVec 11
  | s2mm => S2mmLabel

def src : (i : SdCore) → In i → SdFifo
  | control, .sdSwitch => .sdSwitch
  | control, .mm2sDone => .mm2sDone
  | control, .dmaBuf1 => .dmaBuf1
  | mm2s, _ => .dmaBuf0
  | cipher, _ => .rawData
  | tlastGen, _ => .encDataBuf
  | s2mm, .start => .s2mmStart
  | s2mm, .strm => .s2mmStrm

def dst : (i : SdCore) → Out i → SdFifo
  | control, .dmaBuf0 => .dmaBuf0
  | control, .s2mmStart => .s2mmStart
  | control, .encFile => .encFile
  | mm2s, .strm => .rawData
  | mm2s, .done => .mm2sDone
  | cipher, _ => .encDataBuf
  | tlastGen, _ => .s2mmStrm
  | s2mm, _ => .dmaBuf1

end SdCore

/-- What the SD card, the DIP switches and the hardware contribute. -/
structure SdSetting where
  reads : FileReads
  rand1M : List Byte
  enabledMaster : BitVec 32
  userUnset : Bool

@[reducible] def sdPath (core : CipherCore) (sd : SdSetting) :
    Network SdCore SdFifo NetWord Cell.Val where
  In := SdCore.In
  Out := SdCore.Out
  Label := SdCore.Label core
  body
    | .control => sdMode sd.reads sd.rand1M sd.enabledMaster
    | .mm2s => mm2s
    | .cipher => core.body
    | .tlastGen => tlastGen sd.userUnset
    | .s2mm => s2mm
  src := SdCore.src
  dst := SdCore.dst
  src_inj {i j p q} h := by cases i <;> cases j <;> cases p <;> cases q <;> simp_all [SdCore.src]
  dst_inj {i j p q} h := by cases i <;> cases j <;> cases p <;> cases q <;> simp_all [SdCore.dst]
  loopless {i} p q := by cases i <;> cases p <;> cases q <;> simp [SdCore.src, SdCore.dst]

section SdPath
variable (core : CipherCore) (sd : SdSetting) {M : Type}

/-- Between two transfers. `dmaBuf1` is what the last one left in the buffer. -/
def sdLabel (control : SdLabel) (piece : Piece core.blockSize) (dmaBuf1 : List Byte) :
    (i : SdCore) → SdCore.Label core i
  | .control => control
  | .mm2s => (0 : ℕ)
  | .cipher => piece
  | .tlastGen => (0 : BitVec 11)
  | .s2mm => .idle dmaBuf1

def sdState (label : (i : SdCore) → SdCore.Label core i) (fifo : SdFifo → List NetWord) (m : M) :
    (sdPath core sd).State M where
  code i := .ret (label i)
  fifo := fifo
  mem := m

/-- The SD switch has been toggled while `piece` is in the buffer of the core. -/
def sdStart (piece : Piece core.blockSize) (dmaBuf1 : List Byte) (m : M) :
    (sdPath core sd).State M :=
  sdState core sd (sdLabel core .idle piece dmaBuf1) (fun
    | .sdSwitch => [byteWord 0]
    | _ => []) m

variable (mem : Memory SdCore Cell.Val) (piece : Piece core.blockSize) (dmaBuf1 : List Byte)
  (out : List NetWord) (m : mem.State)

/-- The bytes of a transfer on their way to the core, the last one marked. -/
def transferWords (bs : List Byte) (b : Byte) : List NetWord := bs.map byteWord ++ [⟨b,true,false⟩]

lemma transferWords_data (bs : List Byte) (b : Byte) :
    (transferWords bs b).map NetWord.data = bs ++ [b] := by
  simp [transferWords, Function.comp_def]

/-- From the file to the stream of the core. -/
lemma sd_load (bs : List Byte) (b : Byte) (inputFile : List Byte) (hbs : bs.length = 1023) :
    (sdPath core sd).Run mem (fun _ => ⊤)
      (sdState core sd (sdLabel core (.whileLoop (bs ++ [b] ++ inputFile)) piece dmaBuf1) (fun
        | .encFile => out
        | _ => []) m)
      (sdState core sd (sdLabel core (.busy inputFile) piece dmaBuf1) (fun
        | .rawData => transferWords bs b
        | .mm2sDone => [byteWord 0]
        | .s2mmStart => [byteWord 0]
        | .encFile => out
        | _ => []) m) := by
  have hhalves : bs ++ [b] ++ inputFile =
      (bs ++ [b]).take 512 ++ ((bs ++ [b]).drop 512 ++ inputFile) := by
    rw [← List.append_assoc, List.take_append_drop]
  have hcontrol := sdMode_transfer mem SdCore.control sd.reads sd.rand1M sd.enabledMaster
    ((bs ++ [b]).take 512) ((bs ++ [b]).drop 512) inputFile (by simp [hbs]) (by simp [hbs])
    ⟨fun _ => [],fun
      | .encFile => out
      | _ => [],m⟩
  rw [← hhalves, List.take_append_drop] at hcontrol
  have h1 : (sdPath core sd).Run mem (fun _ => ⊤)
      (sdState core sd (sdLabel core (.whileLoop (bs ++ [b] ++ inputFile)) piece dmaBuf1) (fun
        | .encFile => out
        | _ => []) m)
      (sdState core sd (sdLabel core (.busy inputFile) piece dmaBuf1) (fun
        | .dmaBuf0 => (bs ++ [b]).map byteWord
        | .s2mmStart => [byteWord 0]
        | .encFile => out
        | _ => []) m) := by
    refine Network.run_stage (i := SdCore.control) hcontrol rfl
      ⟨fun p => by cases p <;> rfl, fun q => by cases q <;> rfl, rfl⟩ rfl
      ⟨fun p => by cases p <;> rfl, fun q => by cases q <;> rfl, rfl⟩
      ⟨fun j hj => ?_, fun c hs hd => ?_⟩
    · cases j with
      | control => exact absurd rfl hj
      | _ => rfl
    · cases c with
      | dmaBuf0 => exact absurd rfl (hd .dmaBuf0)
      | s2mmStart => exact absurd rfl (hd .s2mmStart)
      | _ => rfl
  have hmm2s := mm2s_blocks mem SdCore.mm2s (bs.map byteWord) [] (byteWord b) 0 (by simpa using hbs)
    ⟨fun _ => (bs ++ [b]).map byteWord,fun _ => [],m⟩ (by simp)
  refine h1.trans (Network.run_stage (i := SdCore.mm2s) hmm2s rfl
    ⟨fun p => rfl, fun q => by cases q <;> rfl, rfl⟩ rfl
    ⟨fun p => rfl, fun q => ?_, rfl⟩ ⟨fun j hj => rfl, fun c hs hd => ?_⟩)
  · cases q with
    | strm => simp [transferWords, Function.comp_def, SdCore.dst, sdState]
    | done => rfl
  · cases c with
    | dmaBuf0 => exact absurd rfl (hs .inputStrm)
    | rawData => exact absurd rfl (hd .strm)
    | mm2sDone => exact absurd rfl (hd .done)
    | _ => rfl

/-- A whole transfer leaves the core as it came in: 1024 bytes for 1024 bytes. -/
lemma cipher_length_chunk (bs : List Byte) (hbs : bs.length = 1024) :
    (core.cipher (piece.val ++ bs)).length = 1024 := by
  have hpiece := piece.2
  rw [CipherCore.cipher, cipherBlocks_length, List.length_append, hbs]
  cases core with
  | des keySetsK mode =>
    change piece.val.length < 8 at hpiece
    change 8*((piece.val.length + 1024)/8) = 1024
    omega
  | aesCipher w =>
    change piece.val.length < 16 at hpiece
    change 16*((piece.val.length + 1024)/16) = 1024
    omega

/-- The buffer of the core after more bytes. -/
def CipherCore.after (bs : List Byte) : Piece core.blockSize :=
  ⟨residue core.blockSize bs, residue_length bs core.blockSize_pos⟩

/-- Through the core and `tlast_gen`. -/
lemma sd_cipher (bs es : List Byte) (b e : Byte) (inputFile : List Byte) (hes : es.length = 1023)
    (henc : core.cipher (piece.val ++ (bs ++ [b])) = es ++ [e]) :
    (sdPath core sd).Run mem (fun _ => ⊤)
      (sdState core sd (sdLabel core (.busy inputFile) piece dmaBuf1) (fun
        | .rawData => transferWords bs b
        | .mm2sDone => [byteWord 0]
        | .s2mmStart => [byteWord 0]
        | .encFile => out
        | _ => []) m)
      (sdState core sd
        (sdLabel core (.busy inputFile) (core.after (piece.val ++ (bs ++ [b]))) dmaBuf1) (fun
        | .s2mmStrm => (es.map fun x => ⟨x,false,sd.userUnset⟩) ++ [⟨e,true,sd.userUnset⟩]
        | .mm2sDone => [byteWord 0]
        | .s2mmStart => [byteWord 0]
        | .encFile => out
        | _ => []) m) := by
  have hcipher := blockCore_blocks mem SdCore.cipher core.blockSize_pos core.processBlock
    (transferWords bs b) [] piece ⟨fun _ => transferWords bs b,fun _ => [],m⟩
    (List.append_nil _).symm
  rw [← core.body_eq, transferWords_data] at hcipher
  have h1 : (sdPath core sd).Run mem (fun _ => ⊤)
      (sdState core sd (sdLabel core (.busy inputFile) piece dmaBuf1) (fun
        | .rawData => transferWords bs b
        | .mm2sDone => [byteWord 0]
        | .s2mmStart => [byteWord 0]
        | .encFile => out
        | _ => []) m)
      (sdState core sd
        (sdLabel core (.busy inputFile) (core.after (piece.val ++ (bs ++ [b]))) dmaBuf1) (fun
        | .encDataBuf => (es ++ [e]).map byteWord
        | .mm2sDone => [byteWord 0]
        | .s2mmStart => [byteWord 0]
        | .encFile => out
        | _ => []) m) := by
    refine Network.run_stage (i := SdCore.cipher) hcipher rfl
      ⟨fun p => rfl, fun q => rfl, rfl⟩ rfl
      ⟨fun p => rfl, fun q => by rw [← henc]; rfl, rfl⟩
      ⟨fun j hj => ?_, fun c hs hd => ?_⟩
    · cases j with
      | cipher => exact absurd rfl hj
      | _ => rfl
    · cases c with
      | rawData => exact absurd rfl (hs .inputStrm)
      | encDataBuf => exact absurd rfl (hd .outputStrm)
      | _ => rfl
  have htlast := tlastGen_blocks mem SdCore.tlastGen sd.userUnset (es.map byteWord) [] (byteWord e) 0
    (by simpa using hes) ⟨fun _ => (es ++ [e]).map byteWord,fun _ => [],m⟩ (by simp)
  refine h1.trans (Network.run_stage (i := SdCore.tlastGen) htlast rfl
    ⟨fun p => rfl, fun q => rfl, rfl⟩ rfl ⟨fun p => rfl, fun q => ?_, rfl⟩
    ⟨fun j hj => rfl, fun c hs hd => ?_⟩)
  · simp [Function.comp_def, SdCore.dst, sdState]
  · cases c with
    | encDataBuf => exact absurd rfl (hs .inputStrm)
    | s2mmStrm => exact absurd rfl (hd .outputStrm)
    | _ => rfl

/-- From the stream to the file. -/
lemma sd_store (es : List Byte) (e : Byte) (inputFile : List Byte) (hes : es.length = 1023)
    (hbuf : dmaBuf1.length = 1024) : (sdPath core sd).Run mem (fun _ => ⊤)
      (sdState core sd (sdLabel core (.busy inputFile) piece dmaBuf1) (fun
        | .s2mmStrm => (es.map fun x => ⟨x,false,sd.userUnset⟩) ++ [⟨e,true,sd.userUnset⟩]
        | .mm2sDone => [byteWord 0]
        | .s2mmStart => [byteWord 0]
        | .encFile => out
        | _ => []) m)
      (sdState core sd (sdLabel core (.whileLoop inputFile) piece (es ++ [e])) (fun
        | .encFile => out ++ (es ++ [e]).map byteWord
        | _ => []) m) := by
  set ws : List NetWord := es.map fun x => ⟨x,false,sd.userUnset⟩ with hws
  set w : NetWord := ⟨e,true,sd.userUnset⟩
  have hdata : (ws ++ [w]).map NetWord.data = es ++ [e] := by simp [hws, w, Function.comp_def]
  have hdrop : dmaBuf1.drop (0 + ws.length + 1) = [] := by
    rw [hws, List.length_map]
    exact List.drop_of_length_le (by omega)
  have hstart : Block mem SdCore.s2mm s2mm (.idle dmaBuf1,_) _ :=
    exec_s2mm_start mem SdCore.s2mm dmaBuf1 ⟨fun
      | .start => [byteWord 0]
      | .strm => ws ++ [w],fun _ => [],m⟩ rfl
  have hfill := Blocks.head hstart (s2mm_blocks mem SdCore.s2mm ws [] w (by simp [hws]) rfl []
    dmaBuf1 (by simp [hws, hes]) _ rfl)
  rw [List.length_nil, hdrop, List.append_nil, List.nil_append, hdata] at hfill
  have h1 : (sdPath core sd).Run mem (fun _ => ⊤)
      (sdState core sd (sdLabel core (.busy inputFile) piece dmaBuf1) (fun
        | .s2mmStrm => ws ++ [w]
        | .mm2sDone => [byteWord 0]
        | .s2mmStart => [byteWord 0]
        | .encFile => out
        | _ => []) m)
      (sdState core sd (sdLabel core (.busy inputFile) piece (es ++ [e])) (fun
        | .dmaBuf1 => (es ++ [e]).map byteWord
        | .mm2sDone => [byteWord 0]
        | .encFile => out
        | _ => []) m) := by
    refine Network.run_stage (i := SdCore.s2mm) hfill rfl
      ⟨fun p => by cases p <;> rfl, fun q => rfl, rfl⟩ rfl
      ⟨fun p => by cases p <;> rfl, fun q => rfl, rfl⟩ ⟨fun j hj => ?_, fun c hs hd => ?_⟩
    · cases j with
      | s2mm => exact absurd rfl hj
      | _ => rfl
    · cases c with
      | s2mmStrm => exact absurd rfl (hs .strm)
      | s2mmStart => exact absurd rfl (hs .start)
      | dmaBuf1 => exact absurd rfl (hd .outputStrm)
      | _ => rfl
  have hbusy := sdMode_busy mem SdCore.control sd.reads sd.rand1M sd.enabledMaster inputFile
    ((es ++ [e]).map byteWord) [] [] (byteWord 0) (by simp [hes]) ⟨fun
      | .dmaBuf1 => (es ++ [e]).map byteWord
      | .mm2sDone => [byteWord 0]
      | .sdSwitch => [],fun
      | .encFile => out
      | _ => [],m⟩ (List.append_nil _).symm rfl
  refine h1.trans (Network.run_stage (i := SdCore.control) (.single hbusy) rfl
    ⟨fun p => by cases p <;> rfl, fun q => by cases q <;> rfl, rfl⟩ rfl
    ⟨fun p => by cases p <;> rfl, fun q => by cases q <;> rfl, rfl⟩
    ⟨fun j hj => ?_, fun c hs hd => ?_⟩)
  · cases j with
    | control => exact absurd rfl hj
    | _ => rfl
  · cases c with
    | dmaBuf1 => exact absurd rfl (hs .dmaBuf1)
    | mm2sDone => exact absurd rfl (hs .mm2sDone)
    | encFile => exact absurd rfl (hd .encFile)
    | _ => rfl

/-- One transfer. -/
lemma sd_round (bs inputFile : List Byte) (hbs : bs.length = 1024) (hbuf : dmaBuf1.length = 1024) :
    ∃ dmaBuf1' : List Byte, dmaBuf1'.length = 1024 ∧ (sdPath core sd).Run mem (fun _ => ⊤)
      (sdState core sd (sdLabel core (.whileLoop (bs ++ inputFile)) piece dmaBuf1) (fun
        | .encFile => out
        | _ => []) m)
      (sdState core sd (sdLabel core (.whileLoop inputFile) (core.after (piece.val ++ bs)) dmaBuf1')
        (fun
        | .encFile => out ++ (core.cipher (piece.val ++ bs)).map byteWord
        | _ => []) m) := by
  have hlen := cipher_length_chunk core piece bs hbs
  obtain ⟨es, e, henc⟩ := List.eq_nil_or_concat' (core.cipher (piece.val ++ bs)) |>.resolve_left
    (List.ne_nil_of_length_pos (by omega))
  obtain ⟨cs, b, rfl⟩ := List.eq_nil_or_concat' bs |>.resolve_left
    (List.ne_nil_of_length_pos (by omega))
  have hcs : cs.length = 1023 := by simpa using hbs
  have hes : es.length = 1023 := by simpa [henc] using hlen
  refine ⟨es ++ [e], by simp [hes], ?_⟩
  have hload := sd_load core sd mem piece dmaBuf1 out m cs b inputFile hcs
  have hcipher := sd_cipher core sd mem piece dmaBuf1 out m cs es b e inputFile hes henc
  have hstore := sd_store core sd mem (core.after (piece.val ++ (cs ++ [b]))) dmaBuf1 out m es e
    inputFile hes hbuf
  rw [henc]
  exact hload.trans (hcipher.trans hstore)

/-- All transfers of a file. -/
lemma sd_rounds (file : List Byte) (hfile : 1024 ∣ file.length) (hbuf : dmaBuf1.length = 1024) :
    ∃ dmaBuf1' : List Byte, (sdPath core sd).Run mem (fun _ => ⊤)
      (sdState core sd (sdLabel core (.whileLoop file) piece dmaBuf1) (fun
        | .encFile => out
        | _ => []) m)
      (sdState core sd (sdLabel core (.whileLoop []) (core.after (piece.val ++ file)) dmaBuf1')
        (fun
        | .encFile => out ++ (core.cipher (piece.val ++ file)).map byteWord
        | _ => []) m) := by
  obtain ⟨n, hn⟩ := hfile
  induction n generalizing file piece dmaBuf1 out with
  | zero =>
    obtain rfl := List.length_eq_zero_iff.mp hn
    have hafter : core.after (piece.val ++ []) = piece := by
      rw [List.append_nil]
      exact Subtype.ext (residue_short _ piece.2)
    have hnone : core.cipher (piece.val ++ []) = [] := by
      rw [List.append_nil, CipherCore.cipher, cipherBlocks_short _ _ piece.2]
    refine ⟨dmaBuf1, ?_⟩
    rw [hafter, hnone, List.map_nil, List.append_nil]
    exact .refl
  | succ n ih =>
    have htake : (file.take 1024).length = 1024 := by
      rw [List.length_take]
      omega
    have hdrop : (file.drop 1024).length = 1024*n := by
      rw [List.length_drop]
      omega
    obtain ⟨buf, hbuf', hround⟩ := sd_round core sd mem piece dmaBuf1 out m (file.take 1024)
      (file.drop 1024) htake hbuf
    obtain ⟨buf', hrest⟩ := ih (core.after (piece.val ++ file.take 1024)) buf
      (out ++ (core.cipher (piece.val ++ file.take 1024)).map byteWord) (file.drop 1024) hbuf' hdrop
    have hsplit : piece.val ++ file = piece.val ++ file.take 1024 ++ file.drop 1024 := by
      rw [List.append_assoc, List.take_append_drop]
    have hafter : core.after ((core.after (piece.val ++ file.take 1024)).val ++ file.drop 1024) =
        core.after (piece.val ++ file) := by
      refine Subtype.ext ?_
      rw [hsplit]
      exact residue_append _ _ core.blockSize_pos
    have hcipher : core.cipher (piece.val ++ file) = core.cipher (piece.val ++ file.take 1024) ++
        core.cipher ((core.after (piece.val ++ file.take 1024)).val ++ file.drop 1024) := by
      rw [hsplit]
      exact cipherBlocks_append core.processBlock _ _ core.blockSize_pos
    rw [List.take_append_drop] at hround
    rw [hafter, List.append_assoc, ← List.map_append, ← hcipher] at hrest
    exact ⟨buf', hround.trans hrest⟩

lemma sd_open : (sdPath core sd).Run mem (fun _ => ⊤) (sdStart core sd piece dmaBuf1 m)
    (sdState core sd (sdLabel core (.whileLoop sd.rand1M) piece dmaBuf1) (fun
      | .encFile => []
      | _ => []) (rejoined mem .control sd.enabledMaster 1 1 m)) := by
  have hidle : Block mem SdCore.control (sdMode sd.reads sd.rand1M sd.enabledMaster) (.idle,_) _ :=
    exec_sdMode_idle mem SdCore.control sd.reads sd.rand1M sd.enabledMaster ⟨fun
      | .sdSwitch => [byteWord 0]
      | _ => [],fun _ => [],m⟩ rfl
  refine Network.run_stage (i := SdCore.control) (.single hidle) rfl
    ⟨fun p => by cases p <;> rfl, fun q => by cases q <;> rfl, rfl⟩ rfl
    ⟨fun p => by cases p <;> rfl, fun q => by cases q <;> rfl, rfl⟩
    ⟨fun j hj => ?_, fun c hs hd => ?_⟩
  · cases j with
    | control => exact absurd rfl hj
    | _ => rfl
  · cases c with
    | sdSwitch => exact absurd rfl (hs .sdSwitch)
    | _ => rfl

lemma sd_close : (sdPath core sd).Run mem (fun _ => ⊤)
    (sdState core sd (sdLabel core (.whileLoop []) piece dmaBuf1) (fun
      | .encFile => out
      | _ => []) m)
    (sdState core sd (sdLabel core .idle piece dmaBuf1) (fun
      | .encFile => out
      | _ => []) (rejoined mem .control sd.enabledMaster SLAVE_0 0 m)) := by
  have hend : Block mem SdCore.control (sdMode sd.reads sd.rand1M sd.enabledMaster)
      (.whileLoop [],_) _ :=
    exec_sdMode_end mem SdCore.control sd.reads sd.rand1M sd.enabledMaster ⟨fun _ => [],fun
      | .encFile => out
      | _ => [],m⟩
  refine Network.run_stage (i := SdCore.control) (.single hend) rfl
    ⟨fun p => by cases p <;> rfl, fun q => by cases q <;> rfl, rfl⟩ rfl
    ⟨fun p => by cases p <;> rfl, fun q => by cases q <;> rfl, rfl⟩
    ⟨fun j hj => ?_, fun c hs hd => rfl⟩
  cases j with
  | control => exact absurd rfl hj
  | _ => rfl

/-- Some run encrypts the whole file behind what the core has in its buffer, and leaves every core
waiting. -/
lemma sd_final (hfile : 1024 ∣ sd.rand1M.length) (hbuf : dmaBuf1.length = 1024) :
    ∃ t : (sdPath core sd).State mem.State,
      (sdPath core sd).Run mem (fun _ => ⊤) (sdStart core sd piece dmaBuf1 m) t ∧
      (sdPath core sd).Starved t ∧
      t.fifo .encFile = (core.cipher (piece.val ++ sd.rand1M)).map byteWord := by
  have hopen := sd_open core sd mem piece dmaBuf1 m
  obtain ⟨buf, hrounds⟩ := sd_rounds core sd mem piece dmaBuf1 []
    (rejoined mem .control sd.enabledMaster 1 1 m) sd.rand1M hfile hbuf
  have hclose := sd_close core sd mem (core.after (piece.val ++ sd.rand1M)) buf
    ([] ++ (core.cipher (piece.val ++ sd.rand1M)).map byteWord)
    (rejoined mem .control sd.enabledMaster 1 1 m)
  obtain ⟨t, hcalls, hfifo, -, hcode⟩ := Network.run_calls
    (sdLabel core .idle (core.after (piece.val ++ sd.rand1M)) buf)
    (s := sdState core sd (sdLabel core .idle (core.after (piece.val ++ sd.rand1M)) buf) _ _)
    (fun _ => rfl)
  refine ⟨t, hopen.trans (hrounds.trans (hclose.trans hcalls)), fun i => ?_, by rw [hfifo]; rfl⟩
  have hempty : ∀ p, t.fifo ((sdPath core sd).src i p) = [] := by
    intro p
    rw [hfifo]
    cases i <;> cases p <;> rfl
  rw [hcode]
  cases i with
  | control => exact ⟨.sdSwitch, _, rfl, hempty .sdSwitch⟩
  | cipher => cases core <;> exact ⟨.inputStrm, _, rfl, hempty .inputStrm⟩
  | s2mm => exact ⟨.start, _, rfl, hempty .start⟩
  | _ => exact ⟨.inputStrm, _, rfl, hempty .inputStrm⟩

/-- The bytes written to `enc_file`. -/
def encFile (s : (sdPath core sd).State M) : List Byte := (s.fifo .encFile).map NetWord.data

/-- The core has read the words `ws` of the network and written all complete blocks; `piece` is in
its buffer. -/
def NetworkLeft (ws : List NetWord) (piece : Piece core.blockSize) : Prop :=
  ∃ us, Blocks Memory.none () core.body (core.start,⟨fun _ => ws,fun _ => [],nofun⟩)
    (piece,⟨fun _ => [],fun _ => us,nofun⟩)

variable {core sd}

/-- What the network leaves in the buffer is the incomplete block at its end. -/
lemma networkLeft_iff {ws : List NetWord} {piece : Piece core.blockSize} :
    NetworkLeft core ws piece ↔ piece.val = residue core.blockSize (ws.map NetWord.data) := by
  have hrun := blockCore_blocks Memory.none () core.blockSize_pos core.processBlock ws []
    core.start ⟨fun _ => ws,fun _ => [],nofun⟩ (List.append_nil ws).symm
  rw [← core.body_eq] at hrun
  constructor
  · rintro ⟨us, hus⟩
    have hstuck (piece : Piece core.blockSize) (us : List NetWord) (u) : ¬ Block Memory.none ()
        core.body (piece,⟨fun _ => [],fun _ => us,nofun⟩) u := by
      rw [core.body_eq]
      exact blockCore_stuck Memory.none () core.blockSize_pos core.processBlock piece _ rfl u
    have heq := hus.stuck_unique hrun (hstuck _ _) (hstuck _ _)
    exact congrArg (fun x => x.1.val) heq
  · intro h
    obtain rfl : piece = core.after (ws.map NetWord.data) := Subtype.ext h
    exact ⟨_, hrun⟩

/-- In every interleaving the file written is the cipher of the file read behind what is in the
buffer of the core. -/
lemma encFile_piece {piece : Piece core.blockSize} {dmaBuf1 : List Byte}
    (hfile : 1024 ∣ sd.rand1M.length) (hbuf : dmaBuf1.length = 1024) {cap : SdFifo → ℕ∞}
    {m : (Memory.shared SdCore Cell.Val).State}
    {s : (sdPath core sd).State (Memory.shared SdCore Cell.Val).State}
    (hs : (sdPath core sd).Run (Memory.shared SdCore Cell.Val) cap
      (sdStart core sd piece dmaBuf1 m) s) :
    encFile core sd s <+: core.cipher (piece.val ++ sd.rand1M) ∧
    ((sdPath core sd).Starved s → encFile core sd s = core.cipher (piece.val ++ sd.rand1M)) := by
  obtain ⟨m1, m2, hr⟩ := hs.scripted
  obtain ⟨t, ht, hst, hfinal⟩ := sd_final core sd _ piece dmaBuf1 m1 hfile hbuf
  have hind := Network.script_independent SdCore Cell.Val
  have hsink : ∀ i p, (sdPath core sd).src i p ≠ .encFile := by
    intro i p
    cases i <;> cases p <;> simp [SdCore.src]
  have hdata : (t.fifo .encFile).map NetWord.data = core.cipher (piece.val ++ sd.rand1M) := by
    simp [hfinal, Function.comp_def]
  rw [← hdata]
  constructor
  · exact (hr.sink_final hind ht hst hsink).map NetWord.data
  · intro hstarved
    have heq := Network.Run.starved_unique hind hr ht hst hstarved
    exact congrArg (fun u => (u.fifo .encFile).map NetWord.data) heq

/-- After network payloads that end with a complete block, the file written is the cipher of the
file read. -/
theorem sd_mode (ws : List NetWord) (hws : core.blockSize ∣ ws.length) (piece : Piece core.blockSize)
    (hnet : NetworkLeft core ws piece) (hfile : 1024 ∣ sd.rand1M.length) (dmaBuf1 : Vector Byte 1024)
    (cap : SdFifo → ℕ∞) (m : (Memory.shared SdCore Cell.Val).State)
    (s : (sdPath core sd).State (Memory.shared SdCore Cell.Val).State)
    (hs : (sdPath core sd).Run (Memory.shared SdCore Cell.Val) cap
      (sdStart core sd piece dmaBuf1.toList m) s) :
    encFile core sd s <+: core.cipher sd.rand1M ∧
    ((sdPath core sd).Starved s → encFile core sd s = core.cipher sd.rand1M) := by
  have hempty : piece.val = [] := by
    rw [networkLeft_iff.mp hnet]
    exact residue_of_dvd _ (by rwa [List.length_map])
  have henc := encFile_piece hfile Vector.length_toList hs
  rwa [hempty, List.nil_append] at henc

/-- The DES core with an empty table, a file of zeros and reads as large as asked for. -/
def zeroCore : CipherCore := .des (.replicate 17 (.replicate 8 0)) 0

def zeroSetting : SdSetting where
  reads := exactReads
  rand1M := .replicate 1024 0
  enabledMaster := 0
  userUnset := false

lemma zeroSetting_dvd : 1024 ∣ zeroSetting.rand1M.length := by
  rw [zeroSetting, List.length_replicate]

/-- `sd_mode` after one block from the network. -/
theorem sd_mode_zeros : ∃ s, (sdPath zeroCore zeroSetting).Run (Memory.shared SdCore Cell.Val)
      (fun _ => ⊤) (sdStart zeroCore zeroSetting zeroCore.start (List.replicate 1024 0) Cell.zero) s ∧
    encFile zeroCore zeroSetting s = zeroCore.cipher zeroSetting.rand1M := by
  have hnet : NetworkLeft zeroCore (.replicate 8 (byteWord 0)) zeroCore.start :=
    networkLeft_iff.mpr rfl
  obtain ⟨t, ht, hst, -⟩ := sd_final zeroCore zeroSetting (Memory.shared SdCore Cell.Val)
    zeroCore.start (List.replicate 1024 0) Cell.zero zeroSetting_dvd List.length_replicate
  have hbuf : (Vector.replicate 1024 (0 : Byte)).toList = .replicate 1024 0 := Vector.toList_replicate
  rw [← hbuf] at ht
  exact ⟨t, hbuf ▸ ht, (sd_mode _ (by decide) _ hnet zeroSetting_dvd _ _ _ _ ht).2 hst⟩

/-- One byte from the network: it is encrypted in front of the file. -/
theorem sd_mode_fails : ∃ (piece : Piece zeroCore.blockSize)
    (s : (sdPath zeroCore zeroSetting).State (Memory.shared SdCore Cell.Val).State),
    NetworkLeft zeroCore [byteWord 1] piece ∧
    (sdPath zeroCore zeroSetting).Run (Memory.shared SdCore Cell.Val) (fun _ => ⊤)
      (sdStart zeroCore zeroSetting piece (List.replicate 1024 0) Cell.zero) s ∧
    (sdPath zeroCore zeroSetting).Starved s ∧
    encFile zeroCore zeroSetting s ≠ zeroCore.cipher zeroSetting.rand1M := by
  obtain ⟨t, ht, hst, -⟩ := sd_final zeroCore zeroSetting (Memory.shared SdCore Cell.Val)
    ⟨[1], by decide⟩ (List.replicate 1024 0) Cell.zero zeroSetting_dvd List.length_replicate
  refine ⟨⟨[1], by decide⟩, t, networkLeft_iff.mpr rfl, ht, hst, ?_⟩
  rw [(encFile_piece zeroSetting_dvd List.length_replicate ht).2 hst]
  have hpiece : [1] ++ zeroSetting.rand1M = (1::List.replicate 7 0) ++ List.replicate 1017 0 := rfl
  have hfile : zeroSetting.rand1M = List.replicate 8 0 ++ List.replicate 1016 0 := by
    rw [zeroSetting, ← List.replicate_add]
  rw [hpiece, hfile, CipherCore.cipher, CipherCore.cipher,
    cipherBlocks_block _ _ _ zeroCore.blockSize_pos rfl,
    cipherBlocks_block _ _ _ zeroCore.blockSize_pos rfl]
  -- the first blocks differ
  intro heq
  have hfirst := (List.append_inj heq (by rw [Vector.length_toList, Vector.length_toList])).1
  exact absurd hfirst (by decide +kernel)

end SdPath

end EncryptionAccelerators.Net
