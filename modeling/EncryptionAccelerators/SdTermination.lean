import EncryptionAccelerators.SdMode

/-! Whether the loops of SD mode end. -/
namespace EncryptionAccelerators.Net
open Dataflow

/-- Where the DMA answers often enough the program leaves the loop over the file. -/
def SdLoopEnds (enabledMaster : BitVec 32) (inputFile : List Byte) : Prop :=
  ∃ transfers, ∀ s : Io SdIn SdOut NetWord ((c : Cell) → c.Val),
    1024*transfers ≤ (s.inp .dmaBuf1).length → transfers ≤ (s.inp .mm2sDone).length →
    ∃ t, Blocks (Memory.shared Unit Cell.Val) () (sdMode exactReads inputFile enabledMaster)
      (.whileLoop inputFile,s) (.idle,t)

section Ends
variable {ι : Type} (mem : Memory ι Cell.Val) (j : ι) (rand1M : List Byte)
  (enabledMaster : BitVec 32)

/-- One transfer, from the file back to the head of the loop. -/
lemma sdMode_round (inputFile : List Byte) (hfile : 1024 ≤ inputFile.length)
    (s : Io SdIn SdOut NetWord mem.State) (hbuf : 1024 ≤ (s.inp .dmaBuf1).length) {w : NetWord}
    {done : List NetWord} (hdone : s.inp .mm2sDone = w::done) : ∃ t,
      Blocks mem j (sdMode exactReads rand1M enabledMaster) (.whileLoop inputFile,s)
        (.whileLoop (inputFile.drop 1024),t) ∧
      t.inp .dmaBuf1 = (s.inp .dmaBuf1).drop 1024 ∧ t.inp .mm2sDone = done := by
  have hhalves : inputFile =
      inputFile.take 512 ++ ((inputFile.drop 512).take 512 ++ inputFile.drop 1024) := by
    have hrest : inputFile.drop 1024 = (inputFile.drop 512).drop 512 := by rw [List.drop_drop]
    rw [hrest, List.take_append_drop, List.take_append_drop]
  have hfirst : (inputFile.take 512).length = 512 := List.length_take_of_le (by omega)
  have hsecond : ((inputFile.drop 512).take 512).length = 512 := by
    rw [List.length_take, List.length_drop]
    omega
  have hload := sdMode_transfer mem j exactReads rand1M enabledMaster (inputFile.take 512)
    ((inputFile.drop 512).take 512) (inputFile.drop 1024) hfirst hsecond s
  rw [← hhalves] at hload
  obtain ⟨u, hu, hinp⟩ : ∃ u, Blocks mem j (sdMode exactReads rand1M enabledMaster)
      (.whileLoop inputFile,s) (.busy (inputFile.drop 1024),u) ∧ u.inp = s.inp := ⟨_, hload, rfl⟩
  rw [← hinp] at hbuf hdone ⊢
  have htake : ((u.inp .dmaBuf1).take 1024).length = 1024 := List.length_take_of_le hbuf
  have hbusy := sdMode_busy mem j exactReads rand1M enabledMaster (inputFile.drop 1024) _ _ done w
    htake u (List.take_append_drop 1024 _).symm hdone
  exact ⟨_, hu.tail hbusy, rfl, rfl⟩

/-- A file of whole transfers is read to its end. -/
lemma sdLoop_ends (n : ℕ) (inputFile : List Byte) (hn : inputFile.length = 1024*n)
    (s : Io SdIn SdOut NetWord mem.State) (hbuf : 1024*n ≤ (s.inp .dmaBuf1).length)
    (hdone : n ≤ (s.inp .mm2sDone).length) : ∃ t, Blocks mem j
      (sdMode exactReads rand1M enabledMaster) (.whileLoop inputFile,s) (.idle,t) := by
  induction n generalizing inputFile s with
  | zero =>
    obtain rfl := List.eq_nil_of_length_eq_zero hn
    exact ⟨_, .single (exec_sdMode_end mem j exactReads rand1M enabledMaster s)⟩
  | succ n ih =>
    rw [Nat.mul_succ] at hn hbuf
    obtain ⟨w, done, hw⟩ := List.exists_cons_of_length_pos (by omega : 0 < (s.inp .mm2sDone).length)
    obtain ⟨u, hu, hbuf', hdone'⟩ := sdMode_round mem j rand1M enabledMaster inputFile (by omega) s
      (by omega) hw
    have hrest : (inputFile.drop 1024).length = 1024*n := by
      rw [List.length_drop]
      omega
    have hbufLeft : 1024*n ≤ (u.inp .dmaBuf1).length := by
      rw [hbuf', List.length_drop]
      omega
    have hdoneLeft : n ≤ (u.inp .mm2sDone).length := by
      rw [hw, List.length_cons] at hdone
      rw [hdone']
      omega
    obtain ⟨t, ht⟩ := ih (inputFile.drop 1024) hrest u hbufLeft hdoneLeft
    exact ⟨t, hu.trans ht⟩

/-- What is left of a file that does not end with a transfer, at each statement. -/
def Uneven : SdLabel → Prop
  | .idle => False
  | .whileLoop inputFile => ¬ 1024 ∣ inputFile.length
  | .firstHalf inputFile half => half.length < 512 ∧ ¬ 1024 ∣ inputFile.length + half.length
  | .secondHalf inputFile first half =>
    first.length = 512 ∧ half.length < 512 ∧ ¬ 1024 ∣ inputFile.length + 512 + half.length
  | .transfer inputFile _ => ¬ 1024 ∣ inputFile.length
  | .busy inputFile => ¬ 1024 ∣ inputFile.length

/-- One turn of a loop of reads: the bytes are read from the file into the half. -/
lemma readHalf_block {again done : List Byte → List Byte → SdLabel} {inputFile half : List Byte}
    (hhalf : half.length < 512) {s : Io SdIn SdOut NetWord mem.State}
    {y : SdLabel × Io SdIn SdOut NetWord mem.State}
    (h : exec mem j (readHalf exactReads again done inputFile half) s =
      some y) : ∃ inputFile' half', half'.length + inputFile'.length =
        half.length + inputFile.length ∧
      (half'.length < 512 ∧ y.1 = again inputFile' half' ∨
        half'.length = 512 ∧ y.1 = done inputFile' half') := by
  set n := min (512 - half.length) inputFile.length with hn
  obtain rfl := Option.some.inj h
  have hlen : (half ++ inputFile.take n).length = half.length + n := by
    rw [List.length_append, List.length_take, Nat.min_eq_left (by omega)]
  refine ⟨inputFile.drop n, half ++ inputFile.take n, ?_, ?_⟩
  · rw [hlen, List.length_drop]
    omega
  · by_cases hlt : half.length + n < 512
    · exact .inl ⟨by omega, if_pos (hlen.symm ▸ hlt)⟩
    · exact .inr ⟨by omega, if_neg (hlen.symm ▸ hlt)⟩

/-- The loop over such a file never comes to its end. -/
lemma Uneven.block {x y : SdLabel × Io SdIn SdOut NetWord mem.State}
    (hx : Uneven x.1) (h : Block mem j
      (sdMode exactReads rand1M enabledMaster) x y) : Uneven y.1 := by
  obtain ⟨l, s⟩ := x
  cases l with
  | idle => exact hx.elim
  | whileLoop inputFile =>
    obtain rfl | hne := eq_or_ne inputFile []
    · exact absurd (dvd_zero 1024) hx
    · have hrun : exec mem j (sdMode exactReads rand1M enabledMaster
          (.whileLoop inputFile)) s = some y := h
      rw [sdMode, if_neg hne] at hrun
      obtain rfl := Option.some.inj hrun
      exact ⟨Nat.succ_pos 511, hx⟩
  | firstHalf inputFile half =>
    obtain ⟨hhalf, hdvd⟩ := hx
    have hrun : exec mem j (readHalf exactReads .firstHalf
        (fun inputFile half => .secondHalf inputFile half []) inputFile half) s = some y := h
    obtain ⟨f', half', hlen, ⟨hlt, hy⟩ | ⟨hfull, hy⟩⟩ := readHalf_block mem j hhalf hrun
    · rw [hy]
      exact ⟨hlt, by omega⟩
    · have hleft : f'.length + 512 = inputFile.length + half.length := by omega
      rw [hy]
      exact ⟨hfull, Nat.succ_pos 511, hleft ▸ hdvd⟩
  | secondHalf inputFile first half =>
    obtain ⟨hfirst, hhalf, hdvd⟩ := hx
    have hrun : exec mem j (readHalf exactReads
        (fun inputFile half => .secondHalf inputFile first half)
        (fun inputFile half => .transfer inputFile (first ++ half)) inputFile half) s = some y := h
    obtain ⟨f', half', hlen, ⟨hlt, hy⟩ | ⟨hfull, hy⟩⟩ := readHalf_block mem j hhalf hrun
    · rw [hy]
      exact ⟨hfirst, hlt, by omega⟩
    · -- both halves have been taken from the file
      have hleft : inputFile.length + 512 + half.length = f'.length + 1024 := by omega
      rw [hleft, Nat.dvd_add_self_right] at hdvd
      rw [hy]
      exact hdvd
  | transfer inputFile dmaBuf0 =>
    have hrun : exec mem j (sdMode exactReads rand1M enabledMaster
        (.transfer inputFile dmaBuf0)) s = some y := h
    rw [sdMode, writeWord_bind, exec_send, exec_writeAll_bind] at hrun
    obtain rfl := Option.some.inj hrun
    exact hx
  | busy inputFile =>
    have hrun : exec mem j (sdMode exactReads rand1M enabledMaster
        (.busy inputFile)) s = some y := h
    rw [sdMode] at hrun
    obtain ⟨ws, rest, -, -, hrun⟩ := exists_of_exec_readInto_bind _ _ hrun
    rw [readWord_bind] at hrun
    obtain ⟨w, done, -, hrun⟩ := exists_of_exec_recv _ _ hrun
    simp only [exec_writeAll_bind] at hrun
    obtain rfl := Option.some.inj hrun
    exact hx

end Ends

/-- For any other file they do not end, however often the DMA answers. -/
lemma not_sdLoopEnds {enabledMaster : BitVec 32} {inputFile : List Byte}
    (hfile : ¬ 1024 ∣ inputFile.length) :
    ¬ SdLoopEnds enabledMaster inputFile := by
  rintro ⟨transfers, hends⟩
  have hdone : transfers ≤ (List.replicate (1024*transfers) (byteWord 0)).length := by
    rw [List.length_replicate]
    omega
  obtain ⟨t, ht⟩ := hends ⟨fun _ => .replicate (1024*transfers) (byteWord 0),fun _ => [],Cell.zero⟩
    List.length_replicate.ge hdone
  have hstays : ∀ x, Blocks (Memory.shared Unit Cell.Val) ()
      (sdMode exactReads inputFile enabledMaster) (.whileLoop inputFile,
        ⟨fun _ => .replicate (1024*transfers) (byteWord 0),fun _ => [],Cell.zero⟩) x →
      Uneven x.1 := by
    intro x hx
    induction hx with
    | refl => exact hfile
    | tail _ hblock ih => exact ih.block _ _ inputFile enabledMaster hblock
  exact hstays _ ht

/-- The loops end exactly for the files that are a whole number of transfers. -/
theorem sd_loops_end (enabledMaster : BitVec 32) (inputFile : List Byte) :
    SdLoopEnds enabledMaster inputFile ↔ 1024 ∣ inputFile.length := by
  constructor
  · intro hends
    by_contra hfile
    exact not_sdLoopEnds hfile hends
  · rintro ⟨n, hn⟩
    refine ⟨n, ?_⟩
    intro s hbuf hdone
    exact sdLoop_ends (Memory.shared Unit Cell.Val) () inputFile enabledMaster n inputFile hn s hbuf
      hdone

/-- A file of one byte: the loop that fills the first half never ends. -/
theorem sd_loops_end_fails : ¬ ∀ enabledMaster inputFile, SdLoopEnds enabledMaster inputFile := by
  intro h
  have hfile : ¬ 1024 ∣ [(0 : Byte)].length := by decide
  exact not_sdLoopEnds hfile (h 0 [0])

end EncryptionAccelerators.Net
