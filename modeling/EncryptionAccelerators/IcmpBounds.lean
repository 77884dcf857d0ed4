import EncryptionAccelerators.IcmpBuffer

/-! The indices `icmp` stores its options at and the words it takes for a frame. -/
namespace EncryptionAccelerators.Net
open Dataflow

/-- All words of the frames wait; nothing is stored yet. -/
def bufferedStart (fs : List Frame) (out : List NetWord) (ipOptions : BitVec 8 → Byte) :
    Io InputStrm OutputStrm NetWord OptionBuffer where
  inp _ := fs.flatMap Frame.words
  out _ := out
  mem := ⟨ipOptions,[]⟩

/-- In every state reached the options are stored at indices below 40, and the `k`-th invocation
takes exactly the `k`-th frame. -/
structure StaysInside (ports : IcmpPorts) (fs : List Frame) (out : List NetWord)
    (ipOptions : BitVec 8 → Byte) : Prop where
  indices : ∀ x, Blocks optionMemory () (icmpBuffered ports)
    (.start,bufferedStart fs out ipOptions) x → ∀ i ∈ x.2.mem.stores, i.toNat < 40
  frames : ∀ k < fs.length, ∃ s t,
    InvokesN optionMemory () (icmpBuffered ports) .start k (bufferedStart fs out ipOptions) s ∧
    s.inp .inputStrm = (fs.drop k).flatMap Frame.words ∧
    Invokes optionMemory () (icmpBuffered ports) .start s t ∧
    t.inp .inputStrm = (fs.drop (k+1)).flatMap Frame.words

/-- The words a run at a label has still to read, at the least, before the frame can end. -/
def wordsNeeded : BufferedLabel → ℕ
  | .start => 0
  | .readOptions _ _ ipOptionsLen i => ipOptionsLen.toNat - i.toNat + 5
  | .writeOptions .. => 1
  | .passStream => 1
  | .discardStream => 1

/-- The number of options being read. -/
def optionsRead : BufferedLabel → ℕ
  | .readOptions _ _ ipOptionsLen _ => ipOptionsLen.toNat
  | _ => 0

/-- All indices so far are in the array, and those to come will be. -/
def IndexSafe (x : BufferedLabel × Io InputStrm OutputStrm NetWord OptionBuffer) : Prop :=
  (∀ i ∈ x.2.mem.stores, i.toNat < 40) ∧ optionsRead x.1 ≤ 40

section Blocks
variable (ports : IcmpPorts)

lemma start_cases {s : Io InputStrm OutputStrm NetWord OptionBuffer}
    {x : BufferedLabel × Io InputStrm OutputStrm NetWord OptionBuffer}
    (h : Block optionMemory () (icmpBuffered ports) (.start,s) x) : ∃ eth ip rest : List NetWord,
      eth.length = 14 ∧ ip.length = 20 ∧ s.inp .inputStrm = eth ++ (ip ++ rest) ∧
      x = (.readOptions (ethernetOf eth) (ipv4Of ip) (ipOptionsLen (ipv4Of ip).IHL) 0,
        ⟨fun _ => rest,s.out,s.mem⟩) := by
  have hread : exec optionMemory () (icmpBuffered ports .start) s = some x := h
  rw [icmpBuffered_start] at hread
  obtain ⟨eth, r14, heth, hs14, hread⟩ := exists_of_exec_readInto_bind _ _ hread
  obtain ⟨ip, rest, hip, hs34, hread⟩ := exists_of_exec_readInto_bind _ _ hread
  simp only [Function.update_self] at hs34
  rw [inputStrm_update] at hread
  exact ⟨eth, ip, rest, heth, hip, by rw [hs14, hs34], (Option.some.inj hread).symm⟩

/-- A turn of the first loop, or its end. -/
lemma readOptions_cases {eth : EthernetHeader} {ip : Ipv4Header} {len i : BitVec 8}
    {s : Io InputStrm OutputStrm NetWord OptionBuffer}
    {y : BufferedLabel × Io InputStrm OutputStrm NetWord OptionBuffer}
    (h : Block optionMemory () (icmpBuffered ports) (.readOptions eth ip len i,s) y) :
    (i < len ∧ ∃ w ws, s.inp .inputStrm = w::ws ∧ y = (.readOptions eth ip len (i + 1),
      ⟨fun _ => ws,s.out,⟨Function.update s.mem.ipOptions i w.data,s.mem.stores ++ [i]⟩⟩)) ∨
    (¬ i < len ∧ wordsNeeded y.1 = 1 ∧ optionsRead y.1 = 0 ∧ y.2.mem = s.mem ∧
      (y.2.inp .inputStrm).length + 4 = (s.inp .inputStrm).length) := by
  have hread : exec optionMemory () (icmpBuffered ports (.readOptions eth ip len i)) s = some y := h
  by_cases hi : i < len
  · rw [icmpBuffered, if_pos hi] at hread
    obtain ⟨w, ws, hw, hread⟩ := exists_of_exec_recv _ _ hread
    rw [inputStrm_update] at hread
    exact .inl ⟨hi, w, ws, hw, (Option.some.inj hread).symm⟩
  · rw [icmpBuffered, if_neg hi] at hread
    obtain ⟨type, ws1, hw1, hread⟩ := exists_of_exec_recv _ _ hread
    obtain ⟨code, ws2, hw2, hread⟩ := exists_of_exec_recv _ _ hread
    obtain ⟨hi', ws3, hw3, hread⟩ := exists_of_exec_recv _ _ hread
    obtain ⟨lo, ws4, hw4, -⟩ := exists_of_exec_recv _ _ hread
    simp only [Function.update_self] at hw2 hw3 hw4
    have hs : s = ⟨fun _ => type::code::hi'::lo::ws4,fun _ => s.out .outputStrm,s.mem⟩ := by
      ext p : 2
      · cases p
        rw [hw1, hw2, hw3, hw4]
      · cases p
        rfl
      · rfl
    rw [hs] at h ⊢
    obtain rfl := h.deterministic (message_block ports eth ip hi type code hi' lo ws4 _ _)
    refine .inr ⟨hi, ?_⟩
    split_ifs <;> exact ⟨rfl, rfl, rfl, rfl⟩

/-- A loop that takes a word of the frame and stores nothing. -/
lemma word_block {s u : Io InputStrm OutputStrm NetWord OptionBuffer} {l l' : BufferedLabel}
    {w : NetWord} {ws : List NetWord} (hl : wordsNeeded l = 1) (hl' : optionsRead l' = 0)
    (hw : s.inp .inputStrm = w::ws) (hu : u.inp .inputStrm = ws) (hmem : u.mem = s.mem) :
    wordsNeeded l + (u.inp .inputStrm).length ≤ wordsNeeded l' + (s.inp .inputStrm).length ∧
      (IndexSafe (l,s) → IndexSafe (l',u)) := by
  constructor
  · rw [hl, hw, hu, List.length_cons]
    omega
  · rintro ⟨hs, -⟩
    constructor
    · rw [hmem]
      exact hs
    · rw [hl']
      exact Nat.zero_le 40

/-- What every block away from the entry does to the words still needed and to the indices. -/
lemma buffered_block {x y : BufferedLabel × Io InputStrm OutputStrm NetWord OptionBuffer}
    (hx : x.1 ≠ .start) (h : Block optionMemory () (icmpBuffered ports) x y) :
    wordsNeeded x.1 + (y.2.inp .inputStrm).length ≤
        wordsNeeded y.1 + (x.2.inp .inputStrm).length ∧ (IndexSafe x → IndexSafe y) := by
  obtain ⟨l, s⟩ := x
  cases l with
  | start => exact absurd rfl hx
  | readOptions eth ip len i =>
    rcases readOptions_cases ports h with ⟨hi, w, ws, hw, rfl⟩ | ⟨hi, hneed, hread, hmem, hlen⟩
    · have hilt := BitVec.lt_def.mp hi
      have hlen := len.isLt
      have hone : (1 : BitVec 8).toNat = 1 := rfl
      have hnext : (i + 1).toNat = i.toNat + 1 := by
        rw [BitVec.toNat_add, hone, Nat.mod_eq_of_lt (by omega)]
      constructor
      · simp only [wordsNeeded, hnext, hw, List.length_cons]
        omega
      · rintro ⟨hs, h40⟩
        refine ⟨?_, h40⟩
        intro j hj
        rcases List.mem_append.mp hj with hj | hj
        · exact hs j hj
        · rw [List.mem_singleton.mp hj]
          exact lt_of_lt_of_le hilt h40
    · have hend := BitVec.lt_def.not.mp hi
      constructor
      · rw [hneed]
        simp only [wordsNeeded]
        omega
      · rintro ⟨hs, -⟩
        exact ⟨by rw [hmem]; exact hs, by rw [hread]; exact Nat.zero_le _⟩
  | writeOptions len i code checksum user =>
    have hrun : exec optionMemory () (icmpBuffered ports (.writeOptions len i code checksum user)) s =
      some y := h
    rw [icmpBuffered] at hrun
    split_ifs at hrun with hi <;> obtain rfl := Option.some.inj hrun <;>
      exact ⟨le_rfl, fun hs => ⟨hs.1, Nat.zero_le _⟩⟩
  | passStream =>
    obtain ⟨w, ws, hw, hy⟩ := exists_of_exec_recv _ _ h
    obtain rfl := Option.some.inj hy
    have hu : Function.update s.inp .inputStrm ws .inputStrm = ws := Function.update_self _ _ _
    exact word_block rfl (by cases w.last <;> rfl) hw hu rfl
  | discardStream =>
    obtain ⟨w, ws, hw, hy⟩ := exists_of_exec_recv _ _ h
    obtain rfl := Option.some.inj hy
    have hu : Function.update s.inp .inputStrm ws .inputStrm = ws := Function.update_self _ _ _
    exact word_block rfl (by cases w.last <;> rfl) hw hu rfl

lemma wordsNeeded_le {x : BufferedLabel × Io InputStrm OutputStrm NetWord OptionBuffer}
    {t : Io InputStrm OutputStrm NetWord OptionBuffer}
    (h : Until optionMemory () (icmpBuffered ports) .start x (.start,t)) :
    wordsNeeded x.1 + (t.inp .inputStrm).length ≤ (x.2.inp .inputStrm).length := by
  have hle := Until.consumes wordsNeeded .inputStrm
    (fun _ _ hx hb => (buffered_block ports hx hb).1) h
  rw [wordsNeeded, Nat.zero_add] at hle
  exact hle

lemma indexSafe_until {x y : BufferedLabel × Io InputStrm OutputStrm NetWord OptionBuffer}
    (h : Until optionMemory () (icmpBuffered ports) .start x y) (hx : IndexSafe x) : IndexSafe y :=
  h.invariant (fun _ _ hl hb => (buffered_block ports hl hb).2) hx

/-- A loop that runs to its end passes each index. -/
lemma readOptions_passes {eth : EthernetHeader} {ip : Ipv4Header} {len : BitVec 8}
    {s t : Io InputStrm OutputStrm NetWord OptionBuffer}
    (h : Until optionMemory () (icmpBuffered ports) .start (.readOptions eth ip len 0,s) (.start,t))
    (n : ℕ) (hn : n ≤ len.toNat) : ∃ u,
      Until optionMemory () (icmpBuffered ports) .start (.readOptions eth ip len 0,s)
        (.readOptions eth ip len (BitVec.ofNat 8 n),u) ∧
      Until optionMemory () (icmpBuffered ports) .start
        (.readOptions eth ip len (BitVec.ofNat 8 n),u) (.start,t) := by
  induction n with
  | zero => exact ⟨s, .refl, h⟩
  | succ n ih =>
    obtain ⟨u, hu, hr⟩ := ih (by omega)
    obtain ⟨y, hy, hend⟩ := hr.next (by simp)
    rcases readOptions_cases ports hy with ⟨_, w, ws, _, rfl⟩ | ⟨hi, -⟩
    · rw [BitVec.ofNat_add]
      exact ⟨_, hu.tail ⟨by simp, hy⟩, hend⟩
    · exact absurd (index_lt (by omega)) hi

/-- So with more than 40 options one is stored behind the array. -/
lemma stores_beyond {eth : EthernetHeader} {ip : Ipv4Header} {len : BitVec 8}
    {s t : Io InputStrm OutputStrm NetWord OptionBuffer}
    (h : Until optionMemory () (icmpBuffered ports) .start (.readOptions eth ip len 0,s) (.start,t))
    (hlen : 40 < len.toNat) : ∃ y,
      Until optionMemory () (icmpBuffered ports) .start (.readOptions eth ip len 0,s) y ∧
      40 ∈ y.2.mem.stores := by
  obtain ⟨u, hu, hr⟩ := readOptions_passes ports h 40 hlen.le
  obtain ⟨y, hy, -⟩ := hr.next (by simp)
  rcases readOptions_cases ports hy with ⟨_, w, ws, _, rfl⟩ | ⟨hi, -⟩
  · exact ⟨_, hu.tail ⟨by simp, hy⟩, List.mem_append_right _ (List.mem_singleton.mpr rfl)⟩
  · exact absurd (index_lt hlen) hi

lemma ipOptionsLen_short (x : BitVec 4) (h : x.toNat < 5) : 40 < (ipOptionsLen x).toNat := by
  revert x
  decide

lemma ipOptionsLen_le (x : BitVec 4) (h : 5 ≤ x.toNat) : (ipOptionsLen x).toNat ≤ 40 := by
  have hx := x.isLt
  rw [ipOptionsLen_toNat x h]
  omega

/-- The header that is read is the one of the frame. -/
lemma headerWords_eq {f rest eth ip r : List NetWord} (h34 : 34 ≤ f.length)
    (he : f ++ rest = eth ++ (ip ++ r)) (heth : eth.length = 14) (hip : ip.length = 20) :
    headerWords f = (ipv4Of ip).IHL.toNat := by
  have hdrop := congrArg (List.drop 14) he
  rw [List.drop_append_of_le_length (by omega), List.drop_left' heth] at hdrop
  rw [headerWords, ← ipv4Of_append (f.drop 14) rest (by rw [List.length_drop]; omega), hdrop,
    ipv4Of_append ip r hip.ge]

/-- An invocation that takes just one frame and stores nothing behind the array. -/
lemma invokes_within {f rest : List NetWord} (h34 : 34 ≤ f.length)
    {s t : Io InputStrm OutputStrm NetWord OptionBuffer} (hs : s.inp .inputStrm = f ++ rest)
    (ht : t.inp .inputStrm = rest) (h : Invokes optionMemory () (icmpBuffered ports) .start s t)
    (hsafe : ∀ x, Blocks optionMemory () (icmpBuffered ports) (.start,s) x →
      ∀ i ∈ x.2.mem.stores, i.toNat < 40) :
    5 ≤ headerWords f ∧ 18 + 4*headerWords f < f.length := by
  obtain ⟨x, hx, hr⟩ := h
  obtain ⟨eth, ip, r, heth, hip, hinp, rfl⟩ := start_cases ports hx
  have hsplit : f ++ rest = eth ++ (ip ++ r) := hs.symm.trans hinp
  rw [headerWords_eq h34 hsplit heth hip]
  have h5 : 5 ≤ (ipv4Of ip).IHL.toNat := by
    by_contra hlt
    obtain ⟨y, hy, h40⟩ := stores_beyond ports hr (ipOptionsLen_short _ (by omega))
    exact absurd (hsafe y (.head hx hy.blocks) 40 h40) (by decide)
  have hneed := wordsNeeded_le ports hr
  have hlen := congrArg List.length hsplit
  have h0 : (0 : BitVec 8).toNat = 0 := rfl
  simp only [List.length_append, heth, hip] at hlen
  simp only [wordsNeeded, ht, ipOptionsLen_toNat _ h5, h0] at hneed
  omega

/-- Within a frame with a header of five words or more the indices stay below 40. -/
lemma indexSafe_block {f rest : List NetWord} (h34 : 34 ≤ f.length) (h5 : 5 ≤ headerWords f)
    {s : Io InputStrm OutputStrm NetWord OptionBuffer} (hs : s.inp .inputStrm = f ++ rest)
    (hsafe : ∀ i ∈ s.mem.stores, i.toNat < 40)
    {y : BufferedLabel × Io InputStrm OutputStrm NetWord OptionBuffer}
    (h : Block optionMemory () (icmpBuffered ports) (.start,s) y) : IndexSafe y := by
  obtain ⟨eth, ip, r, heth, hip, hinp, rfl⟩ := start_cases ports h
  rw [headerWords_eq h34 (hs.symm.trans hinp) heth hip] at h5
  exact ⟨hsafe, ipOptionsLen_le _ h5⟩

lemma IcmpFrame.invokes_buffered {f : Frame} (h : IcmpFrame f.words) {rest : List NetWord}
    {s : Io InputStrm OutputStrm NetWord OptionBuffer} (hs : s.inp .inputStrm = f.words ++ rest) :
    ∃ t, Invokes optionMemory () (icmpBuffered ports) .start s t ∧ t.inp .inputStrm = rest := by
  obtain ⟨b, hb⟩ := icmp_buffered ports
    (h.invokes Memory.none () ports rest ⟨s.inp,s.out,fun _ => ()⟩ hs) s.mem
  exact ⟨_, hb, rfl⟩

/-- A block of the entry needs a frame. -/
lemma lt_length_of_block {fs : List Frame} {n : ℕ}
    {u : Io InputStrm OutputStrm NetWord OptionBuffer}
    {y : BufferedLabel × Io InputStrm OutputStrm NetWord OptionBuffer}
    (hinp : u.inp .inputStrm = (fs.drop n).flatMap Frame.words)
    (h : Block optionMemory () (icmpBuffered ports) (.start,u) y) : n < fs.length := by
  by_contra hge
  obtain ⟨eth, ip, r, heth, -, hr, -⟩ := start_cases ports h
  rw [hinp, List.drop_eq_nil_of_le (by omega)] at hr
  have hnil := congrArg List.length hr
  rw [List.flatMap_nil, List.length_nil, List.length_append] at hnil
  omega

end Blocks

section Runs
variable (ports : IcmpPorts) {fs : List Frame} (hf : ∀ f ∈ fs, IcmpFrame f.words)
  (out : List NetWord) (ipOptions : BitVec 8 → Byte)
include hf

/-- The first block of an invocation. -/
lemma indexSafe_first {n : ℕ} {u : Io InputStrm OutputStrm NetWord OptionBuffer}
    (hinp : u.inp .inputStrm = (fs.drop n).flatMap Frame.words)
    (hsafe : ∀ i ∈ u.mem.stores, i.toNat < 40)
    {y : BufferedLabel × Io InputStrm OutputStrm NetWord OptionBuffer}
    (h : Block optionMemory () (icmpBuffered ports) (.start,u) y) : IndexSafe y := by
  have hlt := lt_length_of_block ports hinp h
  rw [List.drop_eq_getElem_cons hlt, List.flatMap_cons] at hinp
  have hframe := hf fs[n] (List.getElem_mem hlt)
  have hihl := hframe.ihl
  have hlen := hframe.length_lt
  exact indexSafe_block ports (by omega) hihl hinp hsafe h

/-- Where a sequence of invocations ends. -/
lemma bufferedInvocations {n : ℕ} {u : Io InputStrm OutputStrm NetWord OptionBuffer}
    (h : InvokesN optionMemory () (icmpBuffered ports) .start n (bufferedStart fs out ipOptions) u) :
    u.inp .inputStrm = (fs.drop n).flatMap Frame.words ∧ ∀ i ∈ u.mem.stores, i.toNat < 40 := by
  induction n generalizing u with
  | zero =>
    obtain ⟨⟩ := h
    exact ⟨rfl, nofun⟩
  | succ n ih =>
    obtain _ | ⟨hn, hu⟩ := h
    obtain ⟨hinp, hsafe⟩ := ih hn
    have hu' := hu
    obtain ⟨y, hy, hr⟩ := hu'
    have hlt := lt_length_of_block ports hinp hy
    refine ⟨?_, (indexSafe_until ports hr (indexSafe_first ports hf hinp hsafe hy)).1⟩
    rw [List.drop_eq_getElem_cons hlt, List.flatMap_cons] at hinp
    obtain ⟨t, ht, htinp⟩ := (hf fs[n] (List.getElem_mem hlt)).invokes_buffered ports hinp
    obtain rfl := hu.deterministic ht
    exact htinp

lemma exists_bufferedInvocations {n : ℕ} (hn : n ≤ fs.length) : ∃ u,
    InvokesN optionMemory () (icmpBuffered ports) .start n (bufferedStart fs out ipOptions) u := by
  induction n with
  | zero => exact ⟨_, .zero _⟩
  | succ n ih =>
    obtain ⟨u, hu⟩ := ih (by omega)
    obtain ⟨hinp, -⟩ := bufferedInvocations ports hf out ipOptions hu
    rw [List.drop_eq_getElem_cons hn, List.flatMap_cons] at hinp
    obtain ⟨t, ht, -⟩ := (hf fs[n] (List.getElem_mem hn)).invokes_buffered ports hinp
    exact ⟨t, .succ hu ht⟩

lemma staysInside : StaysInside ports fs out ipOptions := by
  constructor
  · intro x hx
    obtain ⟨n, u, hn, hcase⟩ := hx.invocations
    obtain ⟨hinp, hsafe⟩ := bufferedInvocations ports hf out ipOptions hn
    rcases hcase with rfl | ⟨y, hy, hr⟩
    · exact hsafe
    · exact (indexSafe_until ports hr (indexSafe_first ports hf hinp hsafe hy)).1
  · intro k hk
    obtain ⟨t, ht⟩ := exists_bufferedInvocations ports hf out ipOptions hk
    have hend := (bufferedInvocations ports hf out ipOptions ht).1
    obtain _ | ⟨hu, hstep⟩ := ht
    exact ⟨_, _, hu, (bufferedInvocations ports hf out ipOptions hu).1, hstep, hend⟩

end Runs

/-- On a sequence of frames `icmp` stays in its array and in each frame just when every frame has a
header of five words or more and goes on behind the checksum of its message. -/
theorem icmp_stays_inside (ports : IcmpPorts) (fs : List Frame)
    (hf : ∀ f ∈ fs, classify f.words = .ICMP ∧ 60 ≤ f.words.length) (out : List NetWord)
    (ipOptions : BitVec 8 → Byte) : StaysInside ports fs out ipOptions ↔
      ∀ f ∈ fs, 5 ≤ headerWords f.words ∧ 18 + 4*headerWords f.words < f.words.length := by
  constructor
  · intro h f hm
    obtain ⟨k, hk, rfl⟩ := List.getElem_of_mem hm
    obtain ⟨s, t, hs, hinp, hst, ht⟩ := h.frames k hk
    rw [List.drop_eq_getElem_cons hk, List.flatMap_cons] at hinp
    have h60 := (hf _ hm).2
    refine invokes_within ports (by omega) hinp ht hst fun x hx => h.indices x ?_
    exact hs.blocks.trans hx
  · intro h
    apply staysInside
    intro f hm
    obtain ⟨h5, hlt⟩ := h f hm
    refine ⟨h5, ?_⟩
    rw [icmpWords, List.length_drop]
    omega

/-- An ICMP frame with the given first byte of its IPv4 header and `n` bytes behind that header. -/
def headerFrame (first : Byte) (n : ℕ) : Frame where
  init := (List.replicate 12 0xff ++ [0x08,0x00,first] ++ List.replicate 8 0 ++ [0x01] ++
    List.replicate (10 + n) 0).map byteWord
  final := ⟨0,true,false⟩
  init_last := fun _ => byteWord_last
  final_last := Eq.refl true

lemma headerFrame_icmp (first : Byte) (h : first = 0x40 ∨ first = 0x45 ∨ first = 0x47) :
    classify (headerFrame first 65).words = .ICMP ∧ 60 ≤ (headerFrame first 65).words.length := by
  rcases h with rfl | rfl | rfl <;> exact ⟨by decide, by decide⟩

/-- A frame of 100 words whose IHL is 0. -/
theorem icmp_leaves_array : ¬ ∀ ports fs,
    (∀ f ∈ fs, classify (Frame.words f) = .ICMP ∧ 60 ≤ f.words.length) →
    ∀ out ipOptions, StaysInside ports fs out ipOptions := by
  intro h
  have hf : ∀ f ∈ [headerFrame 0x40 65], classify (Frame.words f) = .ICMP ∧ 60 ≤ f.words.length :=
    List.forall_mem_singleton.mpr (headerFrame_icmp _ (.inl rfl))
  have hin := h ⟨0,0,0⟩ _ hf [] fun _ => 0
  obtain ⟨s, t, hs, hinp, hst, ht⟩ := hin.frames 0 (by decide)
  have hinp' : s.inp .inputStrm = (headerFrame 0x40 65).words ++ [] := hinp
  have ht' : t.inp .inputStrm = [] := ht
  have h5 := (invokes_within ⟨0,0,0⟩ (by decide) hinp' ht' hst fun x hx =>
    hin.indices x (hs.blocks.trans hx)).1
  revert h5
  decide

/-- `icmp_stays_inside` on two frames, of which the second has eight bytes of options. -/
theorem icmp_stays_inside_options : (∀ f ∈ [headerFrame 0x45 65,headerFrame 0x47 65],
      classify f.words = .ICMP ∧ 60 ≤ f.words.length) ∧
    StaysInside ⟨0,0,0⟩ [headerFrame 0x45 65,headerFrame 0x47 65] [] fun _ => 0 := by
  have hf : ∀ f ∈ [headerFrame 0x45 65,headerFrame 0x47 65],
      classify (Frame.words f) = .ICMP ∧ 60 ≤ f.words.length :=
    List.forall_mem_cons.mpr ⟨headerFrame_icmp _ (.inr (.inl rfl)),
      List.forall_mem_singleton.mpr (headerFrame_icmp _ (.inr (.inr rfl)))⟩
  exact ⟨hf, (icmp_stays_inside _ _ hf _ _).mpr
    (List.forall_mem_cons.mpr ⟨⟨by decide, by decide⟩,
      List.forall_mem_singleton.mpr ⟨by decide, by decide⟩⟩)⟩

end EncryptionAccelerators.Net
