import EncryptionAccelerators.RegRequests
import EncryptionAccelerators.WriteHistory

/-! Write and read requests over a whole sequence of frames: `udp_reg` is a memory. -/
namespace EncryptionAccelerators.Net
open Dataflow WriteHistory

lemma regSpace_storePairs (m : (c : Cell) → c.Val) (pairs : List (BitVec 32 × BitVec 32)) :
    regSpace (storePairs m pairs) = replay wordIndex (regSpace m) pairs := by
  induction pairs generalizing m with
  | nil => rfl
  | cons p pairs ih =>
    refine (ih _).trans ?_
    rw [replay, replay, List.foldl_cons]
    congr 1
    funext index
    by_cases h : index = wordIndex p.1
    · subst h
      simp [regSpace]
    · have hc : Cell.bram index ≠ .bram (wordIndex p.1) := fun he => h (Cell.bram.inj he)
      simp [regSpace, h, hc]

/-- Each register holds the latest value written to it. -/
lemma regSpace_latest (m : (c : Cell) → c.Val) (pairs : List (BitVec 32 × BitVec 32))
    (index : BitVec 32) :
    regSpace (storePairs m pairs) index = latest wordIndex (regSpace m) pairs index := by
  rw [regSpace_storePairs, replay_eq_latest]

/-- Only the cells of the addressed words change. -/
lemma storePairs_of_ne (m : (c : Cell) → c.Val) (pairs : List (BitVec 32 × BitVec 32)) (c : Cell)
    (h : ∀ p ∈ pairs, c ≠ .bram (wordIndex p.1)) : storePairs m pairs c = m c :=
  foldl_update_of_ne (V := Cell.Val) (fun p : BitVec 32 × BitVec 32 => Cell.bram (wordIndex p.1))
    Prod.snd pairs m h

/-! A sequence of frames, one invocation each. -/

/-- The writes asked for by a sequence of frames. -/
def writeHistory (fs : List Frame) : List (BitVec 32 × BitVec 32) :=
  fs.flatMap fun f => writesOf f.words

lemma writeHistory_concat (fs : List Frame) (f : Frame) :
    writeHistory (fs ++ [f]) = writeHistory fs ++ writesOf f.words := by
  rw [writeHistory, List.flatMap_append, List.flatMap_singleton, writeHistory]

/-- The replies to a sequence of frames, from the memory before it. -/
def replies (m : (c : Cell) → c.Val) : List Frame → List NetWord
  | [] => []
  | f::fs => replyOf f.words (regSpace m) ++ replies (storePairs m (writesOf f.words)) fs

lemma storePairs_append (m : (c : Cell) → c.Val) (ps qs : List (BitVec 32 × BitVec 32)) :
    storePairs m (ps ++ qs) = storePairs (storePairs m ps) qs := List.foldl_append

lemma replies_concat (m : (c : Cell) → c.Val) (fs : List Frame) (f : Frame) :
    replies m (fs ++ [f]) =
      replies m fs ++ replyOf f.words (regSpace (storePairs m (writeHistory fs))) := by
  induction fs generalizing m with
  | nil => simp [replies, writeHistory, storePairs]
  | cons g fs ih =>
    rw [List.cons_append, replies, replies, ih, List.append_assoc, writeHistory, writeHistory,
      List.flatMap_cons, storePairs_append]

/-- A frame `udp_reg` is made for. -/
def RegFrame (f : Frame) : Prop := (∃ k, WriteFrame f.words k) ∨ ∃ k, ReadFrame f.words k

lemma RegFrame.invokes {ι : Type} {mem : Memory ι Cell.Val} {i : ι}
    {cells : mem.State → (c : Cell) → c.Val} (hregs : OwnsRegisters mem i cells) {f : Frame}
    (h : RegFrame f) (rest out : List NetWord) (m : mem.State) :
    Invokes mem i udpReg .start ⟨fun _ => f.words ++ rest,fun _ => out,m⟩ ⟨fun _ => rest,
      fun _ => out ++ replyOf f.words (regSpace (cells m)),storeAll mem i m (writesOf f.words)⟩ := by
  rcases h with ⟨k, h⟩ | ⟨k, h⟩
  · rw [h.replyOf_eq, List.append_nil]
    exact h.invokes mem i _ m rest
  · rw [h.writesOf_eq]
    exact h.invokes _ m hregs rest

/-- The core after `n` of the frames. -/
def afterFrames (fs : List Frame) (rest : List NetWord) (m : (c : Cell) → c.Val) (n : ℕ) :
    Io InputStrm OutputStrm NetWord ((c : Cell) → c.Val) where
  inp _ := (fs.drop n).flatMap Frame.words ++ rest
  out _ := replies m (fs.take n)
  mem := storePairs m (writeHistory (fs.take n))

lemma afterFrames_invokes (fs : List Frame) (hf : ∀ f ∈ fs, RegFrame f) (rest : List NetWord)
    (m : (c : Cell) → c.Val) (n : ℕ) (hn : n < fs.length) :
    Invokes (Memory.shared Unit Cell.Val) () udpReg .start (afterFrames fs rest m n)
      (afterFrames fs rest m (n+1)) := by
  have htake : fs.take (n+1) = fs.take n ++ [fs[n]] := List.take_succ_eq_append_getElem hn
  have hdrop : fs.drop n = fs[n]::fs.drop (n+1) := List.drop_eq_getElem_cons hn
  have h := (hf fs[n] (List.getElem_mem hn)).invokes (ownsRegisters_shared ())
    ((fs.drop (n+1)).flatMap Frame.words ++ rest) (replies m (fs.take n))
    (storePairs m (writeHistory (fs.take n)))
  rw [storeAll_shared] at h
  rw [← replies_concat, ← storePairs_append, ← writeHistory_concat] at h
  simp only [afterFrames, htake, hdrop, List.flatMap_cons, List.append_assoc]
  exact h

/-- A sequence of frames: the replies to it, and the writes it asks for. -/
lemma OwnsRegisters.registers_blocks {ι : Type} {mem : Memory ι Cell.Val} {i : ι}
    {cells : mem.State → (c : Cell) → c.Val} (h : OwnsRegisters mem i cells) (fs : List Frame)
    (hf : ∀ f ∈ fs, RegFrame f) (out : List NetWord) (m : mem.State) : Blocks mem i udpReg
      (.start,⟨fun _ => fs.flatMap Frame.words,fun _ => out,m⟩)
      (.start,⟨fun _ => [],fun _ => out ++ replies (cells m) fs,
        storeAll mem i m (writeHistory fs)⟩) := by
  induction fs generalizing out m with
  | nil => exact Blocks.to .refl (by simp [replies, writeHistory, storeAll])
  | cons f fs ih =>
    have hone := (hf f (by simp)).invokes h (fs.flatMap Frame.words) out m
    have hrest := ih (fun g hg => hf g (by simp [hg])) (out ++ replyOf f.words (regSpace (cells m)))
      (storeAll mem i m (writesOf f.words))
    rw [h.cells_storeAll, ← storeAll_append, List.append_assoc] at hrest
    exact hone.blocks.trans hrest

/-- Every invocation takes exactly its own frame; a write changes only the words it addresses and
is not answered; a read is answered with the latest values written. -/
theorem registers_coherent (fs : List Frame) (hf : ∀ f ∈ fs, RegFrame f) (rest : List NetWord)
    (m : (c : Cell) → c.Val) : ∃ s : ℕ → Io InputStrm OutputStrm NetWord ((c : Cell) → c.Val),
      s 0 = ⟨fun _ => fs.flatMap Frame.words ++ rest,fun _ => [],m⟩ ∧
      ∀ n (hn : n < fs.length),
        (∀ t, Invokes (Memory.shared Unit Cell.Val) () udpReg .start (s n) t ↔ t = s (n+1)) ∧
        (s (n+1)).inp .inputStrm = (fs.drop (n+1)).flatMap Frame.words ++ rest ∧
        (∀ k, WriteFrame fs[n].words k → (s (n+1)).out = (s n).out ∧
          ∀ c, (∀ p ∈ writePairs fs[n].words 42 k, c ≠ .bram (wordIndex p.1)) →
            (s (n+1)).mem c = (s n).mem c) ∧
        ∀ k, ReadFrame fs[n].words k → (s (n+1)).mem = (s n).mem ∧
          ∃ reply : Frame, (s (n+1)).out .outputStrm = (s n).out .outputStrm ++ reply.words ∧
            ReplyTo fs[n].words reply.words k ∧
            (reply.words.drop 42).map NetWord.data = (List.range k).flatMap fun j =>
              ((fs[n].words.drop (42 + 4*j)).take 4).map NetWord.data ++
                wordBytes (latest wordIndex (regSpace m) (writeHistory (fs.take n))
                  (wordIndex (regWord (fs[n].words.drop (42 + 4*j))))) := by
  refine ⟨afterFrames fs rest m, rfl, fun n hn => ?_⟩
  have hinv := afterFrames_invokes fs hf rest m n hn
  have htake : fs.take (n+1) = fs.take n ++ [fs[n]] := List.take_succ_eq_append_getElem hn
  have hhist : writeHistory (fs.take (n+1)) = writeHistory (fs.take n) ++ writesOf fs[n].words := by
    rw [htake, writeHistory_concat]
  have hout : replies m (fs.take (n+1)) = replies m (fs.take n) ++
      replyOf fs[n].words (regSpace (storePairs m (writeHistory (fs.take n)))) := by
    rw [htake, replies_concat]
  refine ⟨fun t => ⟨fun h => h.deterministic hinv, fun h => h ▸ hinv⟩, rfl, ?_, ?_⟩
  · intro k h
    constructor
    · simp only [afterFrames, hout, h.replyOf_eq, List.append_nil]
    · intro c hc
      simp only [afterFrames, hhist, storePairs_append, h.writesOf_eq]
      exact storePairs_of_ne _ _ c hc
  · intro k h
    constructor
    · simp only [afterFrames, hhist, h.writesOf_eq, List.append_nil]
    · obtain ⟨reply, hreply, hto, hpay⟩ :=
        h.reply (regSpace (storePairs m (writeHistory (fs.take n))))
      refine ⟨reply, by simp only [afterFrames, hout, hreply], hto, ?_⟩
      rw [hpay, readBytes_readAddrs _ _ _ _ h.words]
      simp only [regSpace_latest]

/-- A request for the given port in a frame of 60 words. -/
def requestFrame (dstPort len : BitVec 16) (payload : List Byte) : Frame where
  init := (List.replicate 12 0xff ++ [0x08,0x00,0x45] ++ List.replicate 8 0 ++ [0x11] ++
    List.replicate 12 0 ++ [dstPort.extractLsb 15 8,dstPort.extractLsb 7 0,
      len.extractLsb 15 8,len.extractLsb 7 0,0,0] ++ payload ++
    List.replicate (17 - payload.length) 0).map byteWord
  final := ⟨0,true,false⟩
  init_last := fun _ => byteWord_last
  final_last := Eq.refl true

/-- A word that is written is read back: the hypothesis of `registers_coherent` holds of the two
requests. -/
theorem registers_coherent_readBack :
    let write := requestFrame 50000 16 [0xc0,0,0,4,0xde,0xad,0xbe,0xef]
    let read := requestFrame 40000 12 [0xc0,0,0,4]
    ∃ s : ℕ → Io InputStrm OutputStrm NetWord ((c : Cell) → c.Val),
      s 0 = ⟨fun _ => [write,read].flatMap Frame.words ++ [],fun _ => [],Cell.zero⟩ ∧
      Invokes (Memory.shared Unit Cell.Val) () udpReg .start (s 0) (s 1) ∧
      Invokes (Memory.shared Unit Cell.Val) () udpReg .start (s 1) (s 2) ∧
      ∃ reply : Frame, (s 2).out .outputStrm = (s 1).out .outputStrm ++ reply.words ∧
        (reply.words.drop 42).map NetWord.data = [0xc0,0,0,4,0xde,0xad,0xbe,0xef] := by
  intro write read
  have hwrite : WriteFrame write.words 1 :=
    ⟨by decide, by decide, by decide, by decide, by decide, by decide⟩
  have hread : ReadFrame read.words 1 :=
    ⟨by decide, by decide, by decide, by decide, by decide, by decide⟩
  have hf : ∀ f ∈ [write,read], RegFrame f := by
    intro f hm
    rcases List.mem_pair.mp hm with rfl | rfl
    · exact .inl ⟨1, hwrite⟩
    · exact .inr ⟨1, hread⟩
  obtain ⟨s, h0, hs⟩ := registers_coherent [write,read] hf [] Cell.zero
  obtain ⟨hinv0, -, -, -⟩ := hs 0 (by decide)
  obtain ⟨hinv1, -, -, hrd⟩ := hs 1 (by decide)
  obtain ⟨-, reply, hout, -, hpay⟩ := hrd 1 hread
  exact ⟨s, h0, (hinv0 _).2 rfl, (hinv1 _).2 rfl, reply, hout, hpay.trans (by decide)⟩

end EncryptionAccelerators.Net
