import EncryptionAccelerators.RegisterCoherence

/-! The turns of the request loops of `udp_reg`, and the buffer the read loop stores to. -/
namespace EncryptionAccelerators.Net
open Dataflow

/-- The stride of a request loop, its bound and its count. -/
def requestLoop : UdpRegLabel → Option (ℕ × BitVec 16 × BitVec 16)
  | .writeRegister len i _ => some (8,len,i)
  | .readRegister s => some (4,s.udpHeader.len,s.i)
  | _ => none

section Loops
variable {ι : Type} {mem : Memory ι Cell.Val} {i : ι}
  {x y : UdpRegLabel × Io InputStrm OutputStrm NetWord mem.State} {d : ℕ} {len j : BitVec 16}

/-- A turn of a request loop reads as many words as it counts. -/
lemma requestLoop_step (hx : requestLoop x.1 = some (d,len,j)) (hj : j < len)
    (h : Block mem i udpReg x y) : d ≤ (x.2.inp .inputStrm).length ∧
      requestLoop y.1 = some (d,len,j + BitVec.ofNat 16 d) ∧
      y.2.inp .inputStrm = (x.2.inp .inputStrm).drop d := by
  obtain ⟨l, s⟩ := x
  cases l with
  | start => cases hx
  | discardStream => cases hx
  | writeRegister len' j' last =>
    obtain ⟨rfl, rfl, rfl⟩ : 8 = d ∧ len' = len ∧ j' = j := by simpa [requestLoop] using hx
    have hwords : 8 ≤ (s.inp .inputStrm).length := by
      have h' := h
      rw [Block, udpReg_writeRegister _ _ _ hj] at h'
      have h4 := length_of_exec_readInto_bind _ _ h'
      rw [exec_readInto_bind _ _ _ _ _ _ _ h4] at h'
      have h8 := length_of_exec_readInto_bind _ _ h'
      simp only [Function.update_self, List.length_drop] at h8 h4
      omega
    have hb : Block mem i udpReg (.writeRegister len' j' last,s) _ :=
      exec_writeRegister mem i len' j' last hj s rfl hwords
    obtain rfl := h.deterministic hb
    exact ⟨hwords, rfl, rfl⟩
  | readRegister r =>
    obtain ⟨rfl, rfl, rfl⟩ : 4 = d ∧ r.udpHeader.len = len ∧ r.i = j := by
      simpa [requestLoop] using hx
    have hwords : 4 ≤ (s.inp .inputStrm).length := by
      have h' := h
      rw [Block, udpReg_readRegister _ hj] at h'
      exact length_of_exec_readInto_bind _ _ h'
    have hb : Block mem i udpReg (.readRegister r,s) _ := exec_readRegister mem i r hj s rfl hwords
    obtain rfl := h.deterministic hb
    exact ⟨hwords, rfl, rfl⟩

end Loops

lemma endOfFrame_ne (last : Bool) (r : ReadRegister) : endOfFrame last ≠ .readRegister r := by
  cases last <;> simp [endOfFrame]

/-- The head of the read loop is reached from the entry or by a turn. -/
lemma readRegister_pred {ι : Type} {mem : Memory ι Cell.Val} {i : ι}
    {x y : UdpRegLabel × Io InputStrm OutputStrm NetWord mem.State} (hne : x.1 ≠ .start)
    (h : Block mem i udpReg x y) {r' : ReadRegister} (hy : y.1 = .readRegister r') :
    ∃ r a d last, x.1 = .readRegister r ∧ r.i < r.udpHeader.len ∧ r' = r.push a d last ∧
      4 ≤ (x.2.inp .inputStrm).length ∧ y.2.inp .inputStrm = (x.2.inp .inputStrm).drop 4 := by
  obtain ⟨l, s⟩ := x
  cases l with
  | start => exact absurd rfl hne
  | discardStream =>
    cases hs : s.inp .inputStrm with
    | nil =>
      rw [Block, udpReg, discardStream, readWord_bind, exec_recv_none mem i _ _ s hs] at h
      cases h
    | cons w ws =>
      have hb : Block mem i udpReg (.discardStream,s) _ :=
        exec_udpReg_discardStream mem i s hs
      obtain rfl := h.deterministic hb
      cases hw : w.last <;> simp [hw] at hy
  | writeRegister len j last =>
    by_cases hj : j < len
    · have hl := (requestLoop_step (x := (.writeRegister len j last,s)) rfl hj h).2.1
      rw [hy] at hl
      simp [requestLoop] at hl
    · have hb : Block mem i udpReg (.writeRegister len j last,s) _ :=
        exec_writeRegister_end mem i len j last hj s
      obtain rfl := h.deterministic hb
      exact absurd hy (endOfFrame_ne _ _)
  | readRegister r =>
    by_cases hj : r.i < r.udpHeader.len
    · have hwords := (requestLoop_step (x := (.readRegister r,s)) rfl hj h).1
      have hb : Block mem i udpReg (.readRegister r,s) _ :=
        exec_readRegister mem i r hj s rfl hwords
      obtain rfl := h.deterministic hb
      exact ⟨r, _, _, _, rfl, hj, (UdpRegLabel.readRegister.inj hy).symm, hwords, rfl⟩
    · have hb : Block mem i udpReg (.readRegister r,s) _ := exec_readRegister_end mem i r hj s
      obtain rfl := h.deterministic hb
      exact absurd hy (endOfFrame_ne _ _)

/-- In the invocation from the state `s` the read loop takes a turn at `r`. -/
def TakesTurn (s : Io InputStrm OutputStrm NetWord ((c : Cell) → c.Val)) (r : ReadRegister) : Prop :=
  ∃ x t r' t', Block (Memory.shared Unit Cell.Val) () udpReg (.start,s) x ∧
    Until (Memory.shared Unit Cell.Val) () udpReg .start x (.readRegister r,t) ∧
    Block (Memory.shared Unit Cell.Val) () udpReg (.readRegister r,t) (.readRegister r',t')

/-- The eight bytes of every turn are stored within `data_buf`. -/
def BufferBounded (s : Io InputStrm OutputStrm NetWord ((c : Cell) → c.Val)) : Prop :=
  ∀ r, TakesTurn s r → ∀ n < 8, (r.bufCnt + BitVec.ofNat 16 n).toNat < 1536

/-- The loop with `k` turns behind it, `total` words on the stream in all. -/
structure AfterTurns (len : BitVec 16) (total k : ℕ) (r : ReadRegister) (ws : List NetWord) :
    Prop where
  len_eq : r.udpHeader.len = len
  i_eq : r.i.toNat = 8 + 4*k
  bufCnt_eq : r.bufCnt.toNat = 8*k
  words : ws.length + 4*k + 42 = total

lemma AfterTurns.push {len : BitVec 16} {total k : ℕ} {r : ReadRegister} {ws : List NetWord}
    (h : AfterTurns len total k r ws) (hlen : len.toNat ≤ 1480) (hi : r.i < r.udpHeader.len)
    (hws : 4 ≤ ws.length) (a d : BitVec 32) (last : Bool) :
    AfterTurns len total (k+1) (r.push a d last) (ws.drop 4) := by
  obtain ⟨hl, hj, hb, hw⟩ := h
  have h4 : (4 : BitVec 16).toNat = 4 := rfl
  have h8 : (8 : BitVec 16).toNat = 8 := rfl
  rw [hl, BitVec.lt_def] at hi
  constructor
  · exact hl
  · rw [ReadRegister.push, BitVec.toNat_add, h4]
    omega
  · rw [ReadRegister.push, BitVec.toNat_add, h8]
    omega
  · rw [List.length_drop]
    omega

section Invocation
variable {ws : List NetWord} {out : OutputStrm → List NetWord} {m : (c : Cell) → c.Val}

lemma udpReg_headers (h : 42 ≤ ws.length) : Block (Memory.shared Unit Cell.Val) () udpReg
    (.start,⟨fun _ => ws,out,m⟩) (requestLabel ws,⟨fun _ => ws.drop 42,out,m⟩) :=
  exec_udpReg_start (Memory.shared Unit Cell.Val) () ⟨fun _ => ws,out,m⟩ rfl h

lemma requestLabel_read (hport : (udpOf (ws.drop 34)).dstPort = 40000) : requestLabel ws =
    .readRegister (.entry (ethernetOf ws) (ipv4Of (ws.drop 14)) (udpOf (ws.drop 34))) := by
  rw [requestLabel, if_neg (by rw [hport]; decide), if_pos hport]

lemma requestLabel_write (hport : (udpOf (ws.drop 34)).dstPort = 50000) :
    requestLabel ws = .writeRegister (udpOf (ws.drop 34)).len 8 false := if_pos hport

/-- Every loop head reached has counted its turns. -/
lemma afterTurns (h42 : 42 ≤ ws.length) (hport : (udpOf (ws.drop 34)).dstPort = 40000)
    (hlen : (udpOf (ws.drop 34)).len.toNat ≤ 1480)
    {x y : UdpRegLabel × Io InputStrm OutputStrm NetWord ((c : Cell) → c.Val)}
    (hx : Block (Memory.shared Unit Cell.Val) () udpReg (.start,⟨fun _ => ws,out,m⟩) x)
    (hy : Until (Memory.shared Unit Cell.Val) () udpReg .start x y) (r : ReadRegister)
    (hr : y.1 = .readRegister r) :
    ∃ k, AfterTurns (udpOf (ws.drop 34)).len ws.length k r (y.2.inp .inputStrm) := by
  obtain rfl := hx.deterministic (udpReg_headers h42)
  induction hy generalizing r with
  | refl =>
    rw [requestLabel_read hport] at hr
    obtain rfl := UdpRegLabel.readRegister.inj hr
    exact ⟨0, rfl, rfl, rfl, by rw [List.length_drop]; omega⟩
  | tail _ hs ih =>
    obtain ⟨r, a, d, last, hl, hi, rfl, hwords, hinp⟩ := readRegister_pred hs.1 hs.2 hr
    obtain ⟨k, hk⟩ := ih r hl
    rw [hinp]
    exact ⟨k+1, hk.push hlen hi hwords a d last⟩

/-- With 193 addresses the buffer is full before the last turn. -/
lemma exists_full (hport : (udpOf (ws.drop 34)).dstPort = 40000)
    (hlen : 776 < (udpOf (ws.drop 34)).len.toNat) (hwords : 814 ≤ ws.length) :
    ∃ r, TakesTurn ⟨fun _ => ws,out,m⟩ r ∧ r.bufCnt.toNat = 1536 := by
  have hstart : Block (Memory.shared Unit Cell.Val) () udpReg (.start,⟨fun _ => ws,out,m⟩) _ :=
    udpReg_headers (by omega)
  rw [requestLabel_read hport] at hstart
  set r := ReadRegister.entry (ethernetOf ws) (ipv4Of (ws.drop 14)) (udpOf (ws.drop 34))
  have hi : r.i.toNat = 8 := rfl
  have hudp : r.udpHeader = udpOf (ws.drop 34) := rfl
  have hlt : r.i < r.udpHeader.len := by
    rw [BitVec.lt_def, hi, hudp]
    omega
  -- the first turn, the 191 after it and the one that finds the buffer full
  have hfirst := exec_readRegister (Memory.shared Unit Cell.Val) () r hlt
    ⟨fun _ => ws.drop 42,out,m⟩ (f := ws.drop 42) rfl (by rw [List.length_drop]; omega)
  rw [lastBefore_drop ws 42 4 (by omega), List.drop_drop] at hfirst
  set r₁ := r.push (regWord (ws.drop 42)) (regSpace m (wordIndex (regWord (ws.drop 42))))
    (lastBefore ws (42 + 4))
  have hi₁ : r₁.i.toNat = 12 := rfl
  have hrun := (ownsRegisters_shared ()).readRegister_until ws 191 46 r₁ rfl
    (by intro n hn; rw [hi₁]; change _ < (udpOf (ws.drop 34)).len.toNat; omega) (by omega) out m
  set r₂ := r₁.advance 191 (readBytes (regSpace m) (readAddrs ws 46 191))
    (lastBefore ws (46 + 4*191))
  have hbuf : r₂.dataBuf.length = 1536 := by
    have hbytes := length_readBytes (regSpace m) (readAddrs ws 46 191)
    have hr₁ : r₁.dataBuf.length = 8 := rfl
    have hr₂ : r₂.dataBuf = r₁.dataBuf ++ readBytes (regSpace m) (readAddrs ws 46 191) := rfl
    rw [length_readAddrs] at hbytes
    rw [hr₂, List.length_append, hbytes, hr₁]
  have hcnt : r₂.bufCnt.toNat = 1536 := by
    rw [r₂.bufCnt_eq, hbuf, BitVec.toNat_ofNat]
  have hi₂ : r₂.i.toNat = 776 := by
    have hadd : r₂.i = r₁.i + BitVec.ofNat 16 (4*191) := rfl
    rw [hadd, BitVec.toNat_add, BitVec.toNat_ofNat, hi₁]
  have hlt₂ : r₂.i < r₂.udpHeader.len := by
    rw [BitVec.lt_def, hi₂]
    exact hlen
  have hfinal := exec_readRegister (Memory.shared Unit Cell.Val) () r₂ hlt₂
    ⟨fun _ => ws.drop (46 + 4*191),out,m⟩ (f := ws.drop (46 + 4*191)) rfl
    (by rw [List.length_drop]; omega)
  exact ⟨r₂, ⟨_, _, _, _, hstart, .head (by simp) hfirst hrun, hfinal⟩, hcnt⟩

/-- The buffer takes 192 addresses. -/
lemma bufferBounded_read (h42 : 42 ≤ ws.length) (hport : (udpOf (ws.drop 34)).dstPort = 40000)
    (hlen : (udpOf (ws.drop 34)).len.toNat ≤ 1480)
    (hsmall : (udpOf (ws.drop 34)).len.toNat ≤ 776 ∨ ws.length < 814) :
    BufferBounded ⟨fun _ => ws,out,m⟩ := by
  rintro r ⟨x, s, r', s', hx, hs, hturn⟩ n hn
  obtain ⟨k, hlen, hi, hcnt, hwords⟩ := afterTurns h42 hport hlen hx hs r rfl
  obtain ⟨r₀, a, d, last, hr₀, hlt, -, h4, -⟩ := readRegister_pred (by simp) hturn rfl
  obtain rfl := UdpRegLabel.readRegister.inj hr₀
  rw [hlen, BitVec.lt_def, hi] at hlt
  have hk : 8*k ≤ 1528 := by
    rcases hsmall with hsmall | hsmall <;> omega
  rw [BitVec.toNat_add, BitVec.toNat_ofNat, hcnt]
  omega

lemma BufferBounded.small (h : BufferBounded ⟨fun _ => ws,out,m⟩)
    (hport : (udpOf (ws.drop 34)).dstPort = 40000) :
    (udpOf (ws.drop 34)).len.toNat ≤ 776 ∨ ws.length < 814 := by
  by_contra hover
  rw [not_or, not_le, not_lt] at hover
  obtain ⟨r, ht, hcnt⟩ := exists_full hport hover.1 hover.2
  have h0 := h r ht 0 (by omega)
  rw [BitVec.add_zero, hcnt] at h0
  omega

/-- The write loop does not use the buffer. -/
lemma bufferBounded_write (h42 : 42 ≤ ws.length)
    (hport : (udpOf (ws.drop 34)).dstPort = 50000) : BufferBounded ⟨fun _ => ws,out,m⟩ := by
  have hnone {x y : UdpRegLabel × Io InputStrm OutputStrm NetWord ((c : Cell) → c.Val)}
      (hxy : Until (Memory.shared Unit Cell.Val) () udpReg .start x y)
      (hx : ∀ r, x.1 ≠ .readRegister r) (r : ReadRegister) : y.1 ≠ .readRegister r := by
    induction hxy generalizing r with
    | refl => exact hx r
    | tail _ hs ih =>
      intro hr
      obtain ⟨r', -, -, -, hl, -⟩ := readRegister_pred hs.1 hs.2 hr
      exact ih r' hl
  rintro r ⟨x, s, r', s', hx, hs, -⟩
  obtain rfl := hx.deterministic (udpReg_headers h42)
  refine absurd rfl (hnone hs (fun r hr => ?_) r)
  rw [requestLabel_write hport] at hr
  cases hr

end Invocation

/-- A read request of an Ethernet frame. -/
structure EthernetRead (f : List NetWord) : Prop where
  port : (udpOf (f.drop 34)).dstPort = 40000
  ihl : (ipv4Of (f.drop 14)).IHL = 5
  len : (udpOf (f.drop 34)).len.toNat ≤ 1480
  headers : 42 ≤ f.length
  frame : f.length ≤ 1514

lemma EthernetRead.bufferBounded_iff {f : Frame} (h : EthernetRead f.words) (rest : List NetWord)
    (out : OutputStrm → List NetWord) (m : (c : Cell) → c.Val) :
    BufferBounded ⟨fun _ => f.words ++ rest,out,m⟩ ↔
      (udpOf (f.words.drop 34)).len.toNat ≤ 776 ∨ f.words.length + rest.length < 814 := by
  have hudp := (headers_append f.words rest h.headers).2.2
  have hport := h.port
  have hlen := h.len
  have h42 : 42 ≤ (f.words ++ rest).length := by
    have hheaders := h.headers
    rw [List.length_append]
    omega
  rw [← hudp] at hport hlen
  rw [← hudp, ← List.length_append]
  exact ⟨fun hb => hb.small hport, bufferBounded_read h42 hport hlen⟩

/-- The buffer takes 192 addresses: it is kept to just when the length field asks for no more or
no more arrive. -/
theorem reply_buffer (f : Frame) (h : EthernetRead f.words) (rest : List NetWord)
    (out : OutputStrm → List NetWord) (m : (c : Cell) → c.Val) :
    BufferBounded ⟨fun _ => f.words ++ rest,out,m⟩ ↔
      (udpOf (f.words.drop 34)).len.toNat ≤ 776 ∨ f.words.length + rest.length < 814 :=
  h.bufferBounded_iff rest out m

/-- A read request for 193 addresses. -/
def longRead : Frame where
  init := (List.replicate 12 (0xff : Byte) ++ [0x08,0x00,0x45] ++ List.replicate 8 0 ++ [0x11] ++
    List.replicate 12 0 ++ [0x9c,0x40,0x03,0x0c] ++ List.replicate 773 0).map byteWord
  final := ⟨0,true,false⟩
  init_last := fun _ => byteWord_last
  final_last := Eq.refl true

lemma longRead_length : longRead.words.length = 814 := by
  simp only [longRead, Frame.words, List.length_append, List.length_map, List.length_replicate,
    List.length_cons, List.length_nil]

lemma longRead_request : EthernetRead longRead.words :=
  ⟨rfl, rfl, by decide, by rw [longRead_length]; decide, by rw [longRead_length]; decide⟩

/-- The 193rd address and its data are stored behind the end of the buffer. -/
theorem reply_buffer_fails : ¬ ∀ f : Frame, EthernetRead f.words →
    ∀ rest out m, BufferBounded ⟨fun _ => f.words ++ rest,out,m⟩ := by
  intro h
  have hb := (longRead_request.bufferBounded_iff [] (fun _ => []) Cell.zero).mp
    (h _ longRead_request [] (fun _ => []) Cell.zero)
  rw [longRead_length] at hb
  revert hb
  decide

/-- `reply_buffer` on the request for 193 addresses and on one for two. -/
theorem reply_buffer_longRead :
    ¬ BufferBounded ⟨fun _ => longRead.words ++ [],fun _ => [],Cell.zero⟩ ∧
    BufferBounded ⟨fun _ => (requestFrame 40000 16 []).words ++ longRead.words,fun _ => [],
      Cell.zero⟩ := by
  have h16 : EthernetRead (requestFrame 40000 16 []).words :=
    ⟨by decide, by decide, by decide, by decide, by decide⟩
  rw [reply_buffer _ longRead_request, reply_buffer _ h16, longRead_length]
  decide

end EncryptionAccelerators.Net
