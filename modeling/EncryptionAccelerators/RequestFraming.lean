import EncryptionAccelerators.ReplyBuffer

/-! The request loops of `udp_reg` count by the sender's length field; the frame ends where its
`last` word is. -/
namespace EncryptionAccelerators.Net
open Dataflow

section Loops
variable {ι : Type} {mem : Memory ι Cell.Val} {i : ι}
  {x y : UdpRegLabel × Io InputStrm OutputStrm NetWord mem.State} {d : ℕ} {len j : BitVec 16}

/-- A request loop that comes to its end has read its words, and its count has not wrapped. -/
lemma requestLoop_consumes {t : Io InputStrm OutputStrm NetWord mem.State}
    (h : Until mem i udpReg .start x (.start,t)) (hx : requestLoop x.1 = some (d,len,j))
    (hd : d = 8 ∨ d = 4) (hj : j.toNat%d = 0) : len.toNat ≤ 2^16 - d ∧
      (t.inp .inputStrm).length + d*((len.toNat - j.toNat + (d - 1))/d) ≤
        (x.2.inp .inputStrm).length := by
  induction h using Relation.ReflTransGen.head_induction_on generalizing j with
  | refl => cases hx
  | head hs hr ih =>
    by_cases hlt : j < len
    · obtain ⟨hwords, hy, hinp⟩ := requestLoop_step hx hlt hs.2
      have hj' : (j + BitVec.ofNat 16 d).toNat = (j.toNat + d)%2^16 := by
        rw [BitVec.toNat_add, BitVec.toNat_ofNat]
        omega
      have hrest := ih hy (by rw [hj']; rcases hd with rfl | rfl <;> omega)
      rw [hinp, List.length_drop, hj'] at hrest
      have hlen := len.isLt
      rw [BitVec.lt_def] at hlt
      rcases hd with rfl | rfl <;> omega
    · have hsuffix : (t.inp .inputStrm).length ≤ _ :=
        ((Until.head hs.1 hs.2 hr).blocks.inp_suffix .inputStrm).length_le
      rw [BitVec.lt_def] at hlt
      have hzero : len.toNat - j.toNat = 0 := by omega
      have hjlt := j.isLt
      rw [hzero]
      rcases hd with rfl | rfl <;> omega

end Loops

/-- The words a turn of the loop for the request reads. -/
def stride (f : List NetWord) : ℕ := if (udpOf (f.drop 34)).dstPort = 50000 then 8 else 4

/-- The words the whole loop reads. -/
def loopWords (f : List NetWord) : ℕ :=
  stride f*(((udpOf (f.drop 34)).len.toNat - 8 + (stride f - 1))/stride f)

/-- The loop ends within the frame and within the buffer. -/
structure Fits (f : List NetWord) : Prop where
  len : (udpOf (f.drop 34)).len.toNat ≤ 2^16 - stride f
  words : 42 + loopWords f ≤ f.length
  buffer : (udpOf (f.drop 34)).dstPort = 40000 → (udpOf (f.drop 34)).len.toNat ≤ 776

/-- A frame for `udp_reg`, whatever its length field. -/
structure RegRequest (f : List NetWord) : Prop where
  reg : classify f = .UDP_REG
  words : 60 ≤ f.length

lemma RegRequest.port {f : List NetWord} (h : RegRequest f) :
    (udpOf (f.drop 34)).dstPort = 50000 ∨ (udpOf (f.drop 34)).dstPort = 40000 := by
  have hreg := h.reg
  unfold classify at hreg
  split_ifs at hreg with _ _ _ _ _ hport
  exact hport

/-- One invocation takes one frame and stores to `data_buf` only within it. -/
def TakesFrame (f : Frame) (rest : List NetWord)
    (s t : Io InputStrm OutputStrm NetWord ((c : Cell) → c.Val)) : Prop :=
  s.inp .inputStrm = f.words ++ rest ∧ t.inp .inputStrm = rest ∧
    Invokes (Memory.shared Unit Cell.Val) () udpReg .start s t ∧ BufferBounded s

lemma RegRequest.takesFrame {f : Frame} (h : RegRequest f.words) (hf : Fits f.words)
    (rest : List NetWord) (s : Io InputStrm OutputStrm NetWord ((c : Cell) → c.Val))
    (hs : s.inp .inputStrm = f.words ++ rest) : ∃ t, TakesFrame f rest s t := by
  obtain ⟨inp, out, m⟩ := s
  obtain rfl : inp = fun _ => f.words ++ rest := by
    funext p
    cases p
    exact hs
  obtain ⟨hlen, hwords, hbuffer⟩ := hf
  have h60 := h.words
  have hudp := (headers_append f.words rest (by omega)).2.2
  have h42 : 42 ≤ (f.words ++ rest).length := by
    rw [List.length_append]
    omega
  unfold loopWords stride at hwords
  unfold stride at hlen
  rcases h.port with hport | hport
  · rw [if_pos hport] at hlen hwords
    exact ⟨_, rfl, rfl, writeRequest_invokes (Memory.shared Unit Cell.Val) () out m hport
      (k := ((udpOf (f.words.drop 34)).len.toNat - 8 + 7)/8) (by intro x hx; omega) (by omega)
      (by omega) hwords (by omega) rest, bufferBounded_write h42 (by rw [hudp]; exact hport)⟩
  · have hne : ¬ (udpOf (f.words.drop 34)).dstPort = 50000 := by
      rw [hport]
      decide
    rw [if_neg hne] at hlen hwords
    have hsmall := hbuffer hport
    exact ⟨_, rfl, rfl, (ownsRegisters_shared ()).readRequest_invokes out m hport
      (k := ((udpOf (f.words.drop 34)).len.toNat - 8 + 3)/4) (by intro x hx; omega) (by omega)
      (by omega) hwords (by omega) rest, bufferBounded_read h42 (by rw [hudp]; exact hport)
      (by rw [hudp]; omega) (.inl (by rw [hudp]; exact hsmall))⟩

lemma RegRequest.fits {f : Frame} (h : RegRequest f.words) {rest : List NetWord}
    {s t : Io InputStrm OutputStrm NetWord ((c : Cell) → c.Val)} (ht : TakesFrame f rest s t) :
    Fits f.words := by
  obtain ⟨hs, hrest, ⟨x, hx, hr⟩, hbounded⟩ := ht
  have h60 := h.words
  have hstart : Block (Memory.shared Unit Cell.Val) () udpReg (.start,s) _ :=
    exec_udpReg_start (Memory.shared Unit Cell.Val) () s hs (by rw [List.length_append]; omega)
  obtain rfl := hx.deterministic hstart
  rw [requestLabel_append _ _ (by omega)] at hr
  have hloop : requestLoop (requestLabel f.words) =
      some (stride f.words,(udpOf (f.words.drop 34)).len,8) := by
    rcases h.port with hport | hport
    · rw [requestLabel, stride, if_pos hport, if_pos hport]
      rfl
    · have hne : ¬ (udpOf (f.words.drop 34)).dstPort = 50000 := by
        rw [hport]
        decide
      rw [requestLabel, stride, if_neg hne, if_pos hport, if_neg hne]
      rfl
  have hstride : stride f.words = 8 ∨ stride f.words = 4 := by
    unfold stride
    split_ifs
    · exact .inl rfl
    · exact .inr rfl
  have h8 : (8 : BitVec 16).toNat = 8 := rfl
  have hc := requestLoop_consumes hr hloop hstride (by rcases hstride with he | he <;> rw [he, h8])
  rw [h8, hrest, List.length_drop, List.length_append] at hc
  have hwords : 42 + loopWords f.words ≤ f.words.length := by
    rw [loopWords]
    omega
  refine ⟨hc.1, hwords, fun hport => ?_⟩
  obtain ⟨inp, out, m⟩ := s
  obtain rfl : inp = fun _ => f.words ++ rest := by
    funext p
    cases p
    exact hs
  have hudp := (headers_append f.words rest (by omega)).2.2
  have hsmall := hbounded.small (by rw [hudp]; exact hport)
  rw [hudp, List.length_append] at hsmall
  have hread : stride f.words = 4 := by
    rw [stride, if_neg (by rw [hport]; decide)]
  rw [loopWords, hread] at hwords
  omega

/-- Each invocation reads exactly the words of its frame and stays in its buffer. -/
def RequestsFramed (fs : List Frame) (m : (c : Cell) → c.Val) : Prop :=
  ∀ (k : ℕ) (hk : k < fs.length), ∃ s t, InvokesN (Memory.shared Unit Cell.Val) () udpReg .start k
    ⟨fun _ => fs.flatMap Frame.words,fun _ => [],m⟩ s ∧
    TakesFrame fs[k] ((fs.drop (k+1)).flatMap Frame.words) s t

lemma requestsFramed_iff (fs : List Frame) (h : ∀ f ∈ fs, RegRequest f.words)
    (m : (c : Cell) → c.Val) : RequestsFramed fs m ↔ ∀ f ∈ fs, Fits f.words := by
  constructor
  · intro hr f hf
    obtain ⟨k, hk, rfl⟩ := List.getElem_of_mem hf
    obtain ⟨s, t, -, ht⟩ := hr k hk
    exact (h _ hf).fits ht
  · intro hf
    have hreach : ∀ k ≤ fs.length, ∃ s, InvokesN (Memory.shared Unit Cell.Val) () udpReg .start k
        ⟨fun _ => fs.flatMap Frame.words,fun _ => [],m⟩ s ∧
        s.inp .inputStrm = (fs.drop k).flatMap Frame.words := by
      intro k
      induction k with
      | zero => exact fun _ => ⟨_, .zero _, rfl⟩
      | succ k ih =>
        intro hk
        obtain ⟨s, hs, hsin⟩ := ih (Nat.le_of_succ_le hk)
        rw [List.drop_eq_getElem_cons hk, List.flatMap_cons] at hsin
        obtain ⟨t, -, htin, ht, -⟩ := (h fs[k] (List.getElem_mem hk)).takesFrame
          (hf fs[k] (List.getElem_mem hk)) _ s hsin
        exact ⟨t, .succ hs ht, htin⟩
    intro k hk
    obtain ⟨s, hs, hsin⟩ := hreach k hk.le
    rw [List.drop_eq_getElem_cons hk, List.flatMap_cons] at hsin
    obtain ⟨t, ht⟩ := (h fs[k] (List.getElem_mem hk)).takesFrame
      (hf fs[k] (List.getElem_mem hk)) _ s hsin
    exact ⟨s, t, hs, ht⟩

/-- The frames stay apart and the buffer is kept to just when the loop for each ends within both. -/
theorem requests_framed (fs : List Frame) (h : ∀ f ∈ fs, RegRequest f.words)
    (m : (c : Cell) → c.Val) : RequestsFramed fs m ↔ ∀ f ∈ fs,
      (udpOf (f.words.drop 34)).len.toNat ≤ 2^16 - stride f.words ∧
      42 + stride f.words*(((udpOf (f.words.drop 34)).len.toNat - 8 + (stride f.words - 1))/
        stride f.words) ≤ f.words.length ∧
      ((udpOf (f.words.drop 34)).dstPort = 40000 → (udpOf (f.words.drop 34)).len.toNat ≤ 776) := by
  rw [requestsFramed_iff fs h m]
  exact forall₂_congr fun f _ => ⟨fun hf => ⟨hf.len, hf.words, hf.buffer⟩,
    fun hf => ⟨hf.1, hf.2.1, hf.2.2⟩⟩

/-- A read request whose length field says 100 swallows the frame after it. -/
theorem requests_framed_fails : ¬ ∀ fs : List Frame, (∀ f ∈ fs, RegRequest f.words) →
    ∀ m, RequestsFramed fs m := by
  intro h
  have hreg : ∀ f ∈ [requestFrame 40000 100 [],requestFrame 50000 16 []], RegRequest f.words := by
    intro f hf
    simp only [List.mem_cons, List.not_mem_nil, or_false] at hf
    rcases hf with rfl | rfl
    · exact ⟨by decide, by decide⟩
    · exact ⟨by decide, by decide⟩
  have hfits := (requestsFramed_iff _ hreg Cell.zero).mp (h _ hreg Cell.zero)
  have hwords := (hfits _ (List.mem_cons_self ..)).words
  revert hwords
  decide

/-- `requests_framed` on two requests whose length fields are no multiples of the strides. -/
theorem requests_framed_uneven :
    RequestsFramed [requestFrame 40000 21 [],requestFrame 50000 19 []] Cell.zero := by
  have hreg : ∀ f ∈ [requestFrame 40000 21 [],requestFrame 50000 19 []], RegRequest f.words := by
    intro f hf
    simp only [List.mem_cons, List.not_mem_nil, or_false] at hf
    rcases hf with rfl | rfl
    · exact ⟨by decide, by decide⟩
    · exact ⟨by decide, by decide⟩
  exact (requests_framed _ hreg _).mpr (by decide)

end EncryptionAccelerators.Net
