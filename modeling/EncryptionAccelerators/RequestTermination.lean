import EncryptionAccelerators.RequestFraming

/-! The request loops of `udp_reg` on input that never ends. -/
namespace EncryptionAccelerators.Net
open Dataflow

section Turns
variable {ι : Type} (mem : Memory ι Cell.Val) (i : ι)

/-- `n` turns of the loop at whose head `x` is. -/
inductive Turns : ℕ → UdpRegLabel × Io InputStrm OutputStrm NetWord mem.State →
    UdpRegLabel × Io InputStrm OutputStrm NetWord mem.State → Prop
  | zero (x : UdpRegLabel × Io InputStrm OutputStrm NetWord mem.State) : Turns 0 x x
  | succ {n d : ℕ} {len j : BitVec 16}
      {x y z : UdpRegLabel × Io InputStrm OutputStrm NetWord mem.State} (h : Turns n x y)
      (hy : requestLoop y.1 = some (d,len,j)) (hj : j < len) (hb : Block mem i udpReg y z) :
      Turns (n+1) x z

/-- The loop is left after exactly `n` turns. -/
def LeavesAfter (n : ℕ) (x : UdpRegLabel × Io InputStrm OutputStrm NetWord mem.State) : Prop :=
  ∃ y d len j, Turns mem i n x y ∧ requestLoop y.1 = some (d,len,j) ∧ ¬ j < len

/-- In each turn the count has the value it would have without a bound. -/
def NeverWraps (x : UdpRegLabel × Io InputStrm OutputStrm NetWord mem.State) : Prop :=
  ∀ k y d len j, Turns mem i k x y → requestLoop y.1 = some (d,len,j) → j.toNat = 8 + d*k

/-- On every stream, once enough of its words are there, the loop entered at the label `l` makes
`(len - 8)/d` turns, rounded up, and its count does not wrap. -/
def LoopCounts (l : UdpRegLabel) (d : ℕ) (len : BitVec 16) : Prop :=
  ∀ (strm : ℕ → NetWord) (out : OutputStrm → List NetWord) (m : mem.State), ∃ words, ∀ n ≥ words,
    LeavesAfter mem i ((len.toNat - 8 + (d - 1))/d)
      (l,⟨fun _ => (List.range n).map strm,out,m⟩) ∧
    NeverWraps mem i (l,⟨fun _ => (List.range n).map strm,out,m⟩)

variable {mem i} {d : ℕ} {len j : BitVec 16}
  {x y : UdpRegLabel × Io InputStrm OutputStrm NetWord mem.State}

lemma requestLoop_inj {l : UdpRegLabel} {d' : ℕ} {len' j' : BitVec 16}
    (h : requestLoop l = some (d,len,j)) (h' : requestLoop l = some (d',len',j')) :
    d = d' ∧ len = len' ∧ j = j' := by
  have he := Option.some.inj (h.symm.trans h')
  exact ⟨congrArg Prod.fst he, congrArg (fun t => t.2.1) he, congrArg (fun t => t.2.2) he⟩

lemma requestLoop_turn (hx : requestLoop x.1 = some (d,len,j)) (hj : j < len)
    (hd : d ≤ (x.2.inp .inputStrm).length) : ∃ y, Block mem i udpReg x y := by
  obtain ⟨l, s⟩ := x
  cases l with
  | start => cases hx
  | discardStream => cases hx
  | writeRegister len' j' last =>
    obtain ⟨rfl, rfl, rfl⟩ : 8 = d ∧ len' = len ∧ j' = j := by simpa [requestLoop] using hx
    exact ⟨_, exec_writeRegister mem i len' j' last hj s rfl hd⟩
  | readRegister r =>
    obtain ⟨rfl, rfl, rfl⟩ : 4 = d ∧ r.udpHeader.len = len ∧ r.i = j := by
      simpa [requestLoop] using hx
    exact ⟨_, exec_readRegister mem i r hj s rfl hd⟩

/-- The loop stays the same loop, and its count a multiple of its stride. -/
lemma Turns.requestLoop {n : ℕ} (h : Turns mem i n x y) (hx : requestLoop x.1 = some (d,len,j)) :
    requestLoop y.1 = some (d,len,j + BitVec.ofNat 16 (d*n)) := by
  induction h with
  | zero => simpa using hx
  | succ _ hy hj hb ih =>
    obtain ⟨rfl, rfl, rfl⟩ := requestLoop_inj hy (ih hx)
    rw [(requestLoop_step hy hj hb).2.1, BitVec.add_assoc, ← BitVec.ofNat_add, Nat.mul_succ]

/-- A loop that is left has not stepped over the end of its count. -/
lemma LeavesAfter.len_le {n : ℕ} (h : LeavesAfter mem i n x)
    (hx : Net.requestLoop x.1 = some (d,len,8)) (hd : d = 8 ∨ d = 4) : len.toNat ≤ 2^16 - d := by
  obtain ⟨y, d', len', j, hturns, hy, hj⟩ := h
  obtain ⟨rfl, rfl, rfl⟩ := requestLoop_inj hy (hturns.requestLoop hx)
  have h8 : (8 : BitVec 16).toNat = 8 := rfl
  rw [BitVec.lt_def, BitVec.toNat_add, BitVec.toNat_ofNat, h8] at hj
  rcases hd with rfl | rfl <;> omega

/-- Without a wrap the count is known. -/
lemma Turns.count {n : ℕ} (h : Turns mem i n x y) (hx : Net.requestLoop x.1 = some (d,len,8))
    (hd : d = 8 ∨ d = 4) (hlen : len.toNat ≤ 2^16 - d) :
    (8 + BitVec.ofNat 16 (d*n)).toNat = 8 + d*n := by
  have h8 : (8 : BitVec 16).toNat = 8 := rfl
  induction h with
  | zero => simp
  | @succ n _ _ _ _ _ _ h hy hj hb ih =>
    have hcount := ih hx
    obtain ⟨rfl, rfl, rfl⟩ := requestLoop_inj hy (h.requestLoop hx)
    rw [BitVec.lt_def, hcount] at hj
    rw [BitVec.toNat_add, BitVec.toNat_ofNat, h8]
    rcases hd with rfl | rfl <;> omega

/-- With enough words the turns follow one another. -/
lemma exists_turns (hx : Net.requestLoop x.1 = some (d,len,8)) (hd : d = 8 ∨ d = 4)
    (hlen : len.toNat ≤ 2^16 - d) (n : ℕ) (hn : ∀ k < n, 8 + d*k < len.toNat)
    (hwords : d*n ≤ (x.2.inp .inputStrm).length) : ∃ y, Turns mem i n x y ∧
      (y.2.inp .inputStrm).length + d*n = (x.2.inp .inputStrm).length := by
  induction n with
  | zero => exact ⟨x, .zero x, rfl⟩
  | succ n ih =>
    obtain ⟨y, hy, hleft⟩ := ih (fun k hk => hn k (by omega)) (by rw [Nat.mul_succ] at hwords; omega)
    have hloop := hy.requestLoop hx
    have hj : 8 + BitVec.ofNat 16 (d*n) < len := by
      rw [BitVec.lt_def, hy.count hx hd hlen]
      exact hn n (Nat.lt_succ_self n)
    rw [Nat.mul_succ] at hwords ⊢
    obtain ⟨z, hz⟩ : ∃ z, Block mem i udpReg y z := requestLoop_turn hloop hj (by omega)
    have hinp := (requestLoop_step hloop hj hz).2.2
    refine ⟨z, .succ hy hloop hj hz, ?_⟩
    rw [hinp, List.length_drop]
    omega

/-- The loop entered at `l` counts as it should just when its bound is not among the last values of
its count. -/
lemma loopCounts_iff {l : UdpRegLabel} (hl : Net.requestLoop l = some (d,len,8))
    (hd : d = 8 ∨ d = 4) (m : mem.State) : LoopCounts mem i l d len ↔ len.toNat ≤ 2^16 - d := by
  constructor
  · intro h
    obtain ⟨words, hwords⟩ := h (fun _ => default) (fun _ => []) m
    exact (hwords words le_rfl).1.len_le hl hd
  · intro hlen strm out m
    set n := (len.toNat - 8 + (d - 1))/d with hn
    refine ⟨d*n, fun words hwords => ⟨?_, ?_⟩⟩
    · have hturns : ∀ k < n, 8 + d*k < len.toNat := by
        intro k hk
        rcases hd with rfl | rfl <;> omega
      have hfound : d*n ≤ ((List.range words).map strm).length := by
        rwa [List.length_map, List.length_range]
      obtain ⟨y, hy, -⟩ : ∃ y, Turns mem i n (l,⟨fun _ => (List.range words).map strm,out,m⟩) y ∧
          (y.2.inp .inputStrm).length + d*n = ((List.range words).map strm).length :=
        exists_turns hl hd hlen n hturns hfound
      refine ⟨y, d, len, _, hy, hy.requestLoop hl, ?_⟩
      rw [BitVec.lt_def, hy.count hl hd hlen]
      rcases hd with rfl | rfl <;> omega
    · intro k y d' len' j hy hj
      obtain ⟨rfl, rfl, rfl⟩ := requestLoop_inj hj (hy.requestLoop hl)
      exact hy.count hl hd hlen

end Turns

/-- The write loop makes `(len - 8)/8` turns, rounded up, and its count does not wrap, just when
`len` is at most 65528; for the read loop and its stride of 4 the bound is 65532. -/
theorem request_loops_count (ethernetHeader : EthernetHeader) (ipHeader : Ipv4Header)
    (udpHeader : UdpHeader) :
    (LoopCounts (Memory.shared Unit Cell.Val) () (.writeRegister udpHeader.len 8 false) 8
      udpHeader.len ↔ udpHeader.len.toNat ≤ 65528) ∧
    (LoopCounts (Memory.shared Unit Cell.Val) ()
      (.readRegister (.entry ethernetHeader ipHeader udpHeader)) 4 udpHeader.len ↔
      udpHeader.len.toNat ≤ 65532) :=
  ⟨loopCounts_iff rfl (.inl rfl) Cell.zero, loopCounts_iff rfl (.inr rfl) Cell.zero⟩

/-- With a length field of 65535 the write loop is never left. -/
theorem request_loops_count_fails : ¬ ∀ len : BitVec 16,
    LoopCounts (Memory.shared Unit Cell.Val) () (.writeRegister len 8 false) 8 len := by
  intro h
  have hlen := (loopCounts_iff rfl (.inl rfl) Cell.zero).mp (h 65535)
  revert hlen
  decide

end EncryptionAccelerators.Net
