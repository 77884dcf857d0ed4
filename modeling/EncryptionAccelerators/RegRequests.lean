import EncryptionAccelerators.UdpReg

/-! One request: the loop `udp_reg` runs for it, the words it reads and the reply. -/
namespace EncryptionAccelerators.Net
open Dataflow

/-! What a request asks for, read off the words of its frame from position `n` on. -/

/-- `k` addresses with their data. -/
def writePairs (f : List NetWord) : ℕ → ℕ → List (BitVec 32 × BitVec 32)
  | _, 0 => []
  | n, k+1 => (regWord (f.drop n),regWord (f.drop (n + 4)))::writePairs f (n + 8) k

/-- `k` addresses. -/
def readAddrs (f : List NetWord) : ℕ → ℕ → List (BitVec 32)
  | _, 0 => []
  | n, k+1 => regWord (f.drop n)::readAddrs f (n + 4) k

def wordIndex (regAddr : BitVec 32) : BitVec 32 := regAddr >>> 2

/-- The bytes of the reply: each address and the data `reg` holds at it. -/
def readBytes (reg : BitVec 32 → BitVec 32) (addrs : List (BitVec 32)) : List Byte :=
  addrs.flatMap fun a => wordBytes a ++ wordBytes (reg (wordIndex a))

lemma lastBefore_drop (f : List NetWord) (n k : ℕ) (hk : 0 < k) :
    lastBefore (f.drop n) k = lastBefore f (n + k) := by
  have h : n + (k - 1) = n + k - 1 := by omega
  simp [lastBefore, h]

/-- Of the words of a frame only the final one has `last`. -/
lemma lastBefore_words (f : Frame) (rest : List NetWord) {n : ℕ} (h0 : 0 < n)
    (hn : n ≤ f.words.length) :
    lastBefore (f.words ++ rest) n = decide (n = f.words.length) := by
  have hn1 : n - 1 + 1 = n := by omega
  rw [lastBefore, f.getD_words_last rest (by omega), hn1]

/-- The register space among the memory cells. -/
def regSpace (m : (c : Cell) → c.Val) (index : BitVec 32) : BitVec 32 := m (.bram index)

/-- The memory after the pairs have been written. -/
def storePairs (m : (c : Cell) → c.Val) (pairs : List (BitVec 32 × BitVec 32)) :
    (c : Cell) → c.Val :=
  pairs.foldl (fun m p => Function.update m (.bram (wordIndex p.1)) p.2) m

section Loops
variable {ι : Type}

/-- Process `i` finds in the registers what it has stored there; `cells` is how it sees the memory. -/
structure OwnsRegisters (mem : Memory ι Cell.Val) (i : ι) (cells : mem.State → (c : Cell) → c.Val) :
    Prop where
  load : ∀ index m, mem.load i (.bram index) m = (cells m (.bram index),m)
  store : ∀ (index data : BitVec 32) m,
    cells (mem.store i (.bram index) data m) = Function.update (cells m) (.bram index) data

lemma ownsRegisters_shared (i : ι) : OwnsRegisters (Memory.shared ι Cell.Val) i fun m => m :=
  ⟨fun _ _ => rfl, fun _ _ _ => rfl⟩

variable (mem : Memory ι Cell.Val) (i : ι)

/-- The memory after process `i` has written the pairs. -/
def storeAll (m : mem.State) (pairs : List (BitVec 32 × BitVec 32)) : mem.State :=
  pairs.foldl (fun m p => mem.store i (.bram (wordIndex p.1)) p.2 m) m

lemma storeAll_append (m : mem.State) (ps qs : List (BitVec 32 × BitVec 32)) :
    storeAll mem i m (ps ++ qs) = storeAll mem i (storeAll mem i m ps) qs := List.foldl_append

lemma storeAll_shared (m : (c : Cell) → c.Val) (pairs : List (BitVec 32 × BitVec 32)) :
    storeAll (Memory.shared ι Cell.Val) i m pairs = storePairs m pairs := rfl

lemma OwnsRegisters.cells_storeAll {mem : Memory ι Cell.Val} {i : ι}
    {cells : mem.State → (c : Cell) → c.Val} (h : OwnsRegisters mem i cells) (m : mem.State)
    (pairs : List (BitVec 32 × BitVec 32)) :
    cells (storeAll mem i m pairs) = storePairs (cells m) pairs := by
  induction pairs generalizing m with
  | nil => rfl
  | cons p pairs ih => exact (ih _).trans (congrArg (storePairs · pairs) (h.store _ _ _))

/-- A turn of a loop of stride `d` that has `k` turns more to come. -/
lemma turn {len j : BitVec 16} {d k : ℕ} (hd : 0 < d) (hd' : d < 2^16)
    (h : ∀ x < k+1, j.toNat + d*x < len.toNat) :
    j < len ∧ ∀ x < k, (j + BitVec.ofNat 16 d).toNat + d*x < len.toNat := by
  have hlt := len.isLt
  have h0 := h 0 (by omega)
  refine ⟨by rw [BitVec.lt_def]; omega, fun x hx => ?_⟩
  have h1 := h 1 (by omega)
  have hx1 := h (x+1) (by omega)
  rw [Nat.mul_one] at h1
  rw [Nat.mul_succ] at hx1
  rw [BitVec.toNat_add, BitVec.toNat_ofNat, Nat.mod_eq_of_lt hd']
  generalize d*x = y at hx1 ⊢
  omega

lemma add_ofNat_turns (j : BitVec 16) (d k : ℕ) :
    j + BitVec.ofNat 16 d + BitVec.ofNat 16 (d*k) = j + BitVec.ofNat 16 (d*(k+1)) := by
  rw [BitVec.add_assoc, ← BitVec.ofNat_add, Nat.mul_succ, Nat.add_comm]

/-- `k` turns of the write loop. -/
lemma writeRegister_until (f : List NetWord) (k n : ℕ) (len j : BitVec 16)
    (hturn : ∀ x < k, j.toNat + 8*x < len.toNat) (hf : n + 8*k ≤ f.length)
    (out : OutputStrm → List NetWord) (m : mem.State) : Until mem i udpReg .start
      (.writeRegister len j (lastBefore f n),⟨fun _ => f.drop n,out,m⟩)
      (.writeRegister len (j + BitVec.ofNat 16 (8*k)) (lastBefore f (n + 8*k)),
        ⟨fun _ => f.drop (n + 8*k),out,storeAll mem i m (writePairs f n k)⟩) := by
  induction k generalizing n j m with
  | zero =>
    refine Until.to .refl ?_
    simp [writePairs, storeAll]
  | succ k ih =>
    obtain ⟨hj, hturn'⟩ := turn (by omega) (by omega) hturn
    have hx := exec_writeRegister mem i len j (lastBefore f n) hj ⟨fun _ => f.drop n,out,m⟩
      (f := f.drop n) rfl (by rw [List.length_drop]; omega)
    rw [lastBefore_drop f n 8 (by omega), List.drop_drop, List.drop_drop] at hx
    have hrun := ih (n + 8) (j + 8) hturn' (by omega)
      (mem.store i (.bram (wordIndex (regWord (f.drop n)))) (regWord (f.drop (n + 4))) m)
    have hn : n + 8*(k+1) = n + 8 + 8*k := by omega
    have hj8 : j + 8 + BitVec.ofNat 16 (8*k) = j + BitVec.ofNat 16 (8*(k+1)) :=
      add_ofNat_turns j 8 k
    rw [hj8] at hrun
    rw [hn]
    exact .head (by simp) hx hrun

namespace ReadRegister

/-- The head of the loop for the last time, with `bytes` more in the buffer. -/
def filled (r : ReadRegister) (bytes : List Byte) (last : Bool) : ReadRegister where
  ethernetHeader := r.ethernetHeader
  ipHeader := r.ipHeader
  udpHeader := r.udpHeader
  i := r.udpHeader.len
  dataBuf := r.dataBuf ++ bytes
  bufCnt := BitVec.ofNat 16 (r.dataBuf ++ bytes).length
  bufCnt_eq := rfl
  last := last

/-- The head of the loop after `k` turns, with `bytes` more in the buffer. -/
def advance (r : ReadRegister) (k : ℕ) (bytes : List Byte) (last : Bool) : ReadRegister where
  ethernetHeader := r.ethernetHeader
  ipHeader := r.ipHeader
  udpHeader := r.udpHeader
  i := r.i + BitVec.ofNat 16 (4*k)
  dataBuf := r.dataBuf ++ bytes
  bufCnt := BitVec.ofNat 16 (r.dataBuf ++ bytes).length
  bufCnt_eq := rfl
  last := last

lemma advance_zero (r : ReadRegister) : r.advance 0 [] r.last = r := by
  obtain ⟨eth, ip, udp, i, buf, cnt, hcnt, last⟩ := r
  subst hcnt
  simp [advance]

lemma advance_push (r : ReadRegister) (k : ℕ) (a d : BitVec 32) (last last' : Bool)
    (bytes : List Byte) : (r.push a d last).advance k bytes last' =
      r.advance (k+1) (wordBytes a ++ wordBytes d ++ bytes) last' := by
  have hi : r.i + 4 + BitVec.ofNat 16 (4*k) = r.i + BitVec.ofNat 16 (4*(k+1)) :=
    add_ofNat_turns r.i 4 k
  simp only [advance, push, hi, List.append_assoc]

/-- Only the count of the loop differs. -/
lemma replyWords_advance (r : ReadRegister) (k : ℕ) (bytes : List Byte) (last : Bool) :
    replyWords (r.advance k bytes last) = replyWords (r.filled bytes last) := rfl

end ReadRegister

/-- `k` turns of the read loop. -/
lemma OwnsRegisters.readRegister_until {mem : Memory ι Cell.Val} {i : ι}
    {cells : mem.State → (c : Cell) → c.Val} (h : OwnsRegisters mem i cells) (f : List NetWord)
    (k n : ℕ) (r : ReadRegister) (hr : r.last = lastBefore f n)
    (hturn : ∀ x < k, r.i.toNat + 4*x < r.udpHeader.len.toNat) (hf : n + 4*k ≤ f.length)
    (out : OutputStrm → List NetWord) (m : mem.State) :
    Until mem i udpReg .start (.readRegister r,⟨fun _ => f.drop n,out,m⟩)
      (.readRegister (r.advance k (readBytes (regSpace (cells m)) (readAddrs f n k))
        (lastBefore f (n + 4*k))),⟨fun _ => f.drop (n + 4*k),out,m⟩) := by
  induction k generalizing n r with
  | zero =>
    refine Until.to .refl ?_
    rw [Nat.mul_zero, Nat.add_zero, ← hr]
    exact congrArg (fun r => (UdpRegLabel.readRegister r,_)) r.advance_zero.symm
  | succ k ih =>
    obtain ⟨hj, hturn'⟩ := turn (by omega) (by omega) hturn
    have hx := exec_readRegister mem i r hj ⟨fun _ => f.drop n,out,m⟩ (f := f.drop n) rfl
      (by rw [List.length_drop]; omega)
    rw [h.load, lastBefore_drop f n 4 (by omega), List.drop_drop] at hx
    have hrun := ih (n + 4) (r.push (regWord (f.drop n))
      (regSpace (cells m) (wordIndex (regWord (f.drop n)))) (lastBefore f (n + 4))) rfl hturn'
      (by omega)
    rw [ReadRegister.advance_push] at hrun
    have hn : n + 4*(k+1) = n + 4 + 4*k := by omega
    rw [hn]
    exact .head (by simp) hx hrun

/-- The words of the frame not yet read are discarded. -/
lemma endOfFrame_until (f : Frame) (rest : List NetWord) {n : ℕ}
    (h0 : 0 < n) (hn : n ≤ f.words.length) (out : OutputStrm → List NetWord) (m : mem.State) :
    Until mem i udpReg .start
      (endOfFrame (lastBefore (f.words ++ rest) n),⟨fun _ => (f.words ++ rest).drop n,out,m⟩)
      (.start,⟨fun _ => rest,out,m⟩) := by
  rw [lastBefore_words f rest h0 hn]
  by_cases he : n = f.words.length
  · refine Until.to .refl ?_
    simp [he, endOfFrame]
  · have hdrop := f.drop_words_append rest (by omega : n < f.words.length)
    have hd := discardStream_until mem i udpReg .inputStrm .start .discardStream .start (by simp) rfl
      (f.init.drop n) rest f.final (fun x hx => f.init_last x (List.mem_of_mem_drop hx))
      f.final_last ⟨fun _ => (f.words ++ rest).drop n,out,m⟩ hdrop
    rw [inputStrm_update] at hd
    rw [decide_eq_false he]
    exact hd

end Loops

/-! Requests and what `udp_reg` makes of them. -/

/-- A write request with `k` address and data pairs. -/
structure WriteFrame (f : List NetWord) (k : ℕ) : Prop where
  port : (udpOf (f.drop 34)).dstPort = 50000
  ihl : (ipv4Of (f.drop 14)).IHL = 5
  len : (udpOf (f.drop 34)).len.toNat = 8 + 8*k
  one_le : 1 ≤ k
  words : 42 + 8*k ≤ f.length
  frame : f.length ≤ 1514

/-- A read request with `k` addresses. -/
structure ReadFrame (f : List NetWord) (k : ℕ) : Prop where
  port : (udpOf (f.drop 34)).dstPort = 40000
  ihl : (ipv4Of (f.drop 14)).IHL = 5
  len : (udpOf (f.drop 34)).len.toNat = 8 + 4*k
  one_le : 1 ≤ k
  le : k ≤ 192
  words : 42 + 4*k ≤ f.length

/-- The writes a frame asks for. -/
def writesOf (f : List NetWord) : List (BitVec 32 × BitVec 32) :=
  if (udpOf (f.drop 34)).dstPort = 50000 then
    writePairs f 42 (((udpOf (f.drop 34)).len.toNat - 8)/8)
  else []

/-- The read loop at its end for the request `f` answered from `reg`. -/
def answered (f : List NetWord) (reg : BitVec 32 → BitVec 32) (k : ℕ) : ReadRegister :=
  (ReadRegister.entry (ethernetOf f) (ipv4Of (f.drop 14)) (udpOf (f.drop 34))).filled
    (readBytes reg (readAddrs f 42 k)) (lastBefore f (42 + 4*k))

/-- The words a frame is answered with. -/
def replyOf (f : List NetWord) (reg : BitVec 32 → BitVec 32) : List NetWord :=
  if (udpOf (f.drop 34)).dstPort = 40000 then
    replyWords (answered f reg (((udpOf (f.drop 34)).len.toNat - 8)/4))
  else []

lemma WriteFrame.writesOf_eq {f : List NetWord} {k : ℕ} (h : WriteFrame f k) :
    writesOf f = writePairs f 42 k := by
  have hk : ((udpOf (f.drop 34)).len.toNat - 8)/8 = k := by
    have hlen := h.len
    omega
  rw [writesOf, if_pos h.port, hk]

lemma WriteFrame.replyOf_eq {f : List NetWord} {k : ℕ} (h : WriteFrame f k)
    (reg : BitVec 32 → BitVec 32) : replyOf f reg = [] := by
  rw [replyOf, if_neg (by rw [h.port]; decide)]

lemma ReadFrame.writesOf_eq {f : List NetWord} {k : ℕ} (h : ReadFrame f k) : writesOf f = [] := by
  rw [writesOf, if_neg (by rw [h.port]; decide)]

lemma ReadFrame.replyOf_eq {f : List NetWord} {k : ℕ} (h : ReadFrame f k)
    (reg : BitVec 32 → BitVec 32) : replyOf f reg = replyWords (answered f reg k) := by
  have hk : ((udpOf (f.drop 34)).len.toNat - 8)/4 = k := by
    have hlen := h.len
    omega
  rw [replyOf, if_pos h.port, hk]

lemma regWord_append (ws rest : List NetWord) (h : 4 ≤ ws.length) :
    regWord (ws ++ rest) = regWord ws := by
  rw [← regWord_take (ws ++ rest), List.take_append_of_le_length h, regWord_take]

/-- What follows the frame does not matter. -/
lemma writePairs_append (f rest : List NetWord) (n k : ℕ) (h : n + 8*k ≤ f.length) :
    writePairs (f ++ rest) n k = writePairs f n k := by
  induction k generalizing n with
  | zero => rfl
  | succ k ih =>
    have hd (m : ℕ) (hm : m + 4 ≤ f.length) :
        regWord ((f ++ rest).drop m) = regWord (f.drop m) := by
      rw [List.drop_append_of_le_length (by omega), regWord_append _ _ (by simp; omega)]
    rw [writePairs, writePairs, ih (n + 8) (by omega), hd n (by omega), hd (n + 4) (by omega)]

lemma readAddrs_append (f rest : List NetWord) (n k : ℕ) (h : n + 4*k ≤ f.length) :
    readAddrs (f ++ rest) n k = readAddrs f n k := by
  induction k generalizing n with
  | zero => rfl
  | succ k ih =>
    rw [readAddrs, readAddrs, ih (n + 4) (by omega), List.drop_append_of_le_length (by omega),
      regWord_append _ _ (by simp; omega)]

lemma requestLabel_append (f rest : List NetWord) (h : 42 ≤ f.length) :
    requestLabel (f ++ rest) = requestLabel f := by
  obtain ⟨heth, hip, hudp⟩ := headers_append f rest h
  rw [requestLabel, heth, hip, hudp, requestLabel]

section Invocations
variable {ι : Type} (mem : Memory ι Cell.Val) (i : ι) (out : OutputStrm → List NetWord) (m : mem.State)

/-- A write request whose loop makes `k` turns within the frame. -/
lemma writeRequest_invokes {f : Frame} {k : ℕ} (hport : (udpOf (f.words.drop 34)).dstPort = 50000)
    (hturn : ∀ x < k, 8 + 8*x < (udpOf (f.words.drop 34)).len.toNat)
    (hlen : (udpOf (f.words.drop 34)).len.toNat ≤ 8 + 8*k) (hk : 8 + 8*k < 2^16)
    (hw : 42 + 8*k ≤ f.words.length) (hmore : 42 < f.words.length) (rest : List NetWord) :
    Invokes mem i udpReg .start ⟨fun _ => f.words ++ rest,out,m⟩
      ⟨fun _ => rest,out,storeAll mem i m (writePairs f.words 42 k)⟩ := by
  have hstart := exec_udpReg_start mem i ⟨fun _ => f.words ++ rest,out,m⟩ (f := f.words ++ rest) rfl
    (by simp; omega)
  have hlabel : requestLabel (f.words ++ rest) = .writeRegister (udpOf (f.words.drop 34)).len 8
      (lastBefore (f.words ++ rest) 42) := by
    rw [requestLabel_append _ _ (by omega), lastBefore_words f rest (by omega) (by omega),
      requestLabel, if_pos hport, decide_eq_false (by omega)]
  have hloop := writeRegister_until mem i (f.words ++ rest) k 42 (udpOf (f.words.drop 34)).len 8
    hturn (by simp; omega) out m
  have hexit : ¬ 8 + BitVec.ofNat 16 (8*k) < (udpOf (f.words.drop 34)).len := by
    have h8 : (8 : BitVec 16).toNat = 8 := rfl
    rw [BitVec.lt_def, BitVec.toNat_add, BitVec.toNat_ofNat, h8, Nat.mod_eq_of_lt (by omega)]
    omega
  have hend := exec_writeRegister_end mem i (udpOf (f.words.drop 34)).len
    (8 + BitVec.ofNat 16 (8*k)) (lastBefore (f.words ++ rest) (42 + 8*k)) hexit
    ⟨fun _ => (f.words ++ rest).drop (42 + 8*k),out,
      storeAll mem i m (writePairs (f.words ++ rest) 42 k)⟩
  have hlast := endOfFrame_until mem i f rest (n := 42 + 8*k) (by omega) hw out
    (storeAll mem i m (writePairs (f.words ++ rest) 42 k))
  rw [writePairs_append _ _ _ _ hw] at hloop hend hlast
  rw [hlabel] at hstart
  exact ⟨_, hstart, hloop.trans (.head (by simp) hend hlast)⟩

lemma WriteFrame.invokes {f : Frame} {k : ℕ} (h : WriteFrame f.words k) (rest : List NetWord) :
    Invokes mem i udpReg .start ⟨fun _ => f.words ++ rest,out,m⟩
      ⟨fun _ => rest,out,storeAll mem i m (writesOf f.words)⟩ := by
  have hlen := h.len
  have hw := h.words
  have hk := h.one_le
  have hf := h.frame
  rw [h.writesOf_eq]
  exact writeRequest_invokes mem i out m h.port (by intro x hx; omega) (by omega) (by omega) hw
    (by omega) rest

variable {mem i} {cells : mem.State → (c : Cell) → c.Val}

/-- A read request whose loop makes `k` turns within the frame. -/
lemma OwnsRegisters.readRequest_invokes (h : OwnsRegisters mem i cells) {f : Frame} {k : ℕ}
    (hport : (udpOf (f.words.drop 34)).dstPort = 40000)
    (hturn : ∀ x < k, 8 + 4*x < (udpOf (f.words.drop 34)).len.toNat)
    (hlen : (udpOf (f.words.drop 34)).len.toNat ≤ 8 + 4*k) (hk : 8 + 4*k < 2^16)
    (hw : 42 + 4*k ≤ f.words.length) (hmore : 42 < f.words.length) (rest : List NetWord) :
    Invokes mem i udpReg .start ⟨fun _ => f.words ++ rest,out,m⟩ ⟨fun _ => rest,
      fun _ => out .outputStrm ++ replyWords (answered f.words (regSpace (cells m)) k),m⟩ := by
  have hstart := exec_udpReg_start mem i ⟨fun _ => f.words ++ rest,out,m⟩ (f := f.words ++ rest) rfl
    (by simp; omega)
  set r := ReadRegister.entry (ethernetOf f.words) (ipv4Of (f.words.drop 14))
    (udpOf (f.words.drop 34))
  have hlabel : requestLabel (f.words ++ rest) = .readRegister r := by
    rw [requestLabel_append _ _ (by omega), requestLabel, if_neg (by rw [hport]; decide),
      if_pos hport]
  have hfalse : lastBefore (f.words ++ rest) 42 = false := by
    rw [lastBefore_words f rest (by omega) (by omega), decide_eq_false (by omega)]
  have hloop := h.readRegister_until (f.words ++ rest) k 42 r hfalse.symm hturn
    (by simp; omega) out m
  have hfilled : lastBefore (f.words ++ rest) (42 + 4*k) = lastBefore f.words (42 + 4*k) := by
    have hnil := lastBefore_words f [] (n := 42 + 4*k) (by omega) hw
    rw [List.append_nil] at hnil
    rw [lastBefore_words f rest (by omega) hw, hnil]
  rw [readAddrs_append _ _ _ _ hw, hfilled] at hloop
  have hexit : ¬ 8 + BitVec.ofNat 16 (4*k) < (udpOf (f.words.drop 34)).len := by
    have h8 : (8 : BitVec 16).toNat = 8 := rfl
    rw [BitVec.lt_def, BitVec.toNat_add, BitVec.toNat_ofNat, h8, Nat.mod_eq_of_lt (by omega)]
    omega
  have hend := exec_readRegister_end mem i (r.advance k (readBytes (regSpace (cells m))
    (readAddrs f.words 42 k)) (lastBefore f.words (42 + 4*k))) hexit
    ⟨fun _ => (f.words ++ rest).drop (42 + 4*k),out,m⟩
  rw [ReadRegister.replyWords_advance] at hend
  have hlast := endOfFrame_until mem i f rest (n := 42 + 4*k) (by omega) hw
    (fun _ => out .outputStrm ++ replyWords (answered f.words (regSpace (cells m)) k)) m
  rw [hfilled] at hlast
  rw [hlabel] at hstart
  exact ⟨_, hstart, hloop.trans (.head (by simp) hend hlast)⟩

lemma ReadFrame.invokes (hregs : OwnsRegisters mem i cells) {f : Frame} {k : ℕ}
    (h : ReadFrame f.words k) (rest : List NetWord) :
    Invokes mem i udpReg .start ⟨fun _ => f.words ++ rest,out,m⟩ ⟨fun _ => rest,
      fun _ => out .outputStrm ++ replyOf f.words (regSpace (cells m)),m⟩ := by
  have hlen := h.len
  have hw := h.words
  have hk := h.one_le
  have hle := h.le
  rw [h.replyOf_eq]
  exact hregs.readRequest_invokes out m h.port (by intro x hx; omega) (by omega) (by omega) hw
    (by omega) rest

end Invocations

/-! The reply as the requester sees it. -/

lemma length_readAddrs (f : List NetWord) (n k : ℕ) : (readAddrs f n k).length = k := by
  induction k generalizing n with
  | zero => rfl
  | succ k ih => rw [readAddrs, List.length_cons, ih]

lemma length_readBytes (reg : BitVec 32 → BitVec 32) (addrs : List (BitVec 32)) :
    (readBytes reg addrs).length = 8*addrs.length := by
  induction addrs with
  | nil => rfl
  | cons a addrs ih =>
    rw [readBytes, List.flatMap_cons, List.length_append]
    rw [readBytes] at ih
    rw [ih, List.length_cons]
    simp only [wordBytes, List.length_append, List.length_cons, List.length_nil]
    omega

lemma wordBytes_regWord (ws : List NetWord) (h : 4 ≤ ws.length) :
    wordBytes (regWord ws) = (ws.take 4).map NetWord.data := by
  match ws, h with
  | a::b::d::e::ws, _ => exact wordBytes_append a.data b.data d.data e.data

/-- The reply lists the addresses as they were sent. -/
lemma readBytes_readAddrs (reg : BitVec 32 → BitVec 32) (f : List NetWord) (n k : ℕ)
    (h : n + 4*k ≤ f.length) : readBytes reg (readAddrs f n k) = (List.range k).flatMap fun j =>
      ((f.drop (n + 4*j)).take 4).map NetWord.data ++
        wordBytes (reg (wordIndex (regWord (f.drop (n + 4*j))))) := by
  induction k generalizing n with
  | zero => rfl
  | succ k ih =>
    have hn (j : ℕ) : n + 4*(j+1) = n + 4 + 4*j := by omega
    rw [readAddrs, readBytes, List.flatMap_cons, List.range_succ_eq_map, List.flatMap_cons,
      wordBytes_regWord _ (by simp; omega), List.flatMap_map]
    congr 1
    refine (ih (n + 4) (by omega)).trans ?_
    simp only [Nat.succ_eq_add_one, hn]

lemma replyWords_headers (r : ReadRegister) :
    ethernetOf (replyWords r) = replyEthernet r.ethernetHeader ∧
      ipv4Of ((replyWords r).drop 14) = replyIp r.ipHeader r.bufCnt ∧
      udpOf ((replyWords r).drop 34) = replyUdp r.udpHeader r.bufCnt ∧
      (replyWords r).drop 42 = replyPayload r.dataBuf r.bufCnt := by
  rw [replyWords, replyHeader, List.map_append, List.map_append, List.append_assoc,
    List.append_assoc]
  exact ⟨ethernetOf_bytes _ _, ipv4Of_bytes _ _, udpOf_bytes _ _, rfl⟩

lemma replyPayload_data (dataBuf : List Byte) (bufCnt : BitVec 16)
    (h : bufCnt.toNat = dataBuf.length) :
    (replyPayload dataBuf bufCnt).map NetWord.data = dataBuf := by
  refine List.ext_getElem (by simp [replyPayload, h]) fun j hj hj' => ?_
  simp [replyPayload, hj']

/-- A reply with data in it is a frame. -/
lemma replyWords_frame (r : ReadRegister) (h : 0 < r.bufCnt.toNat) :
    ∃ reply : Frame, reply.words = replyWords r := by
  obtain ⟨n, hn⟩ := Nat.exists_eq_add_of_lt h
  rw [Nat.zero_add] at hn
  have hpay : replyPayload r.dataBuf r.bufCnt =
      (List.range n).map (fun i => ⟨r.dataBuf.getD i 0,r.bufCnt.toNat - 1 = i,false⟩) ++
        [⟨r.dataBuf.getD n 0,r.bufCnt.toNat - 1 = n,false⟩] := by
    rw [replyPayload, hn, List.range_succ, List.map_append]
    rfl
  refine ⟨⟨(replyHeader r).map byteWord ++
    (List.range n).map fun i => ⟨r.dataBuf.getD i 0,r.bufCnt.toNat - 1 = i,false⟩,
    ⟨r.dataBuf.getD n 0,r.bufCnt.toNat - 1 = n,false⟩, ?_, by simp [hn]⟩, ?_⟩
  · intro w hw
    rcases List.mem_append.mp hw with hw | hw
    · exact byteWord_last hw
    · obtain ⟨j, hj, rfl⟩ := List.mem_map.mp hw
      have hlt := List.mem_range.mp hj
      exact decide_eq_false (by omega)
  · rw [replyWords, hpay, ← List.append_assoc]
    rfl

lemma length_answered (f : List NetWord) (reg : BitVec 32 → BitVec 32) (k : ℕ) :
    (answered f reg k).dataBuf.length = 8*k := by
  have hb := length_readBytes reg (readAddrs f 42 k)
  rwa [length_readAddrs] at hb

lemma answered_bufCnt (f : List NetWord) (reg : BitVec 32 → BitVec 32) (k : ℕ) :
    (answered f reg k).bufCnt = BitVec.ofNat 16 (8*k) := by
  rw [(answered f reg k).bufCnt_eq, length_answered]

lemma bufCnt_half {k : ℕ} (h : 8*k < 2^16) :
    BitVec.ofNat 16 (8*k) / 2 = BitVec.ofNat 16 (4*k) := by
  refine BitVec.eq_of_toNat_eq ?_
  have h2 : (2 : BitVec 16).toNat = 2 := rfl
  rw [BitVec.toNat_udiv, BitVec.toNat_ofNat, Nat.mod_eq_of_lt h, h2, BitVec.toNat_ofNat,
    Nat.mod_eq_of_lt (by omega)]
  omega

/-- The headers of the reply to a read request with `k` addresses. -/
structure ReplyTo (f reply : List NetWord) (k : ℕ) : Prop where
  dstMacAddr : (ethernetOf reply).dstMacAddr = (ethernetOf f).srcMacAddr
  srcMacAddr : (ethernetOf reply).srcMacAddr = (ethernetOf f).dstMacAddr
  dstIp : (ipv4Of (reply.drop 14)).dstIp = (ipv4Of (f.drop 14)).srcIp
  srcIp : (ipv4Of (reply.drop 14)).srcIp = (ipv4Of (f.drop 14)).dstIp
  len : (udpOf (reply.drop 34)).len.toNat = 8 + 8*k
  totalLength : (ipv4Of (reply.drop 14)).totalLength =
    (ipv4Of (f.drop 14)).totalLength + BitVec.ofNat 16 (4*k)

lemma ReadFrame.reply {f : List NetWord} {k : ℕ} (h : ReadFrame f k)
    (reg : BitVec 32 → BitVec 32) : ∃ reply : Frame, reply.words = replyOf f reg ∧
      ReplyTo f reply.words k ∧
      (reply.words.drop 42).map NetWord.data = readBytes reg (readAddrs f 42 k) := by
  have hle := h.le
  have hcnt := answered_bufCnt f reg k
  have hnat : (answered f reg k).bufCnt.toNat = 8*k := by
    rw [hcnt, BitVec.toNat_ofNat]
    omega
  obtain ⟨heth, hip, hudp, hpay⟩ := replyWords_headers (answered f reg k)
  have hk := h.one_le
  obtain ⟨reply, hreply⟩ := replyWords_frame (answered f reg k) (by omega)
  refine ⟨reply, hreply.trans (h.replyOf_eq reg).symm, ?_, ?_⟩
  · rw [hreply]
    constructor
    · rw [heth]; rfl
    · rw [heth]; rfl
    · rw [hip]; rfl
    · rw [hip]; rfl
    · have h8 : (8 : BitVec 16).toNat = 8 := rfl
      rw [hudp, replyUdp, BitVec.toNat_add, hnat, h8]
      omega
    · rw [hip, replyIp, hcnt, bufCnt_half (by omega)]
      rfl
  · rw [hreply, hpay, replyPayload_data _ _ (hnat.trans (length_answered f reg k).symm)]
    rfl

end EncryptionAccelerators.Net
