import EncryptionAccelerators.DesReference
import EncryptionAccelerators.DesRoundTrip

/-! `des.cpp` computes the algorithm of FIPS 46-3. -/
namespace EncryptionAccelerators.Net
open BitString Fips46

/-! The S-boxes: a row and a column are masked out of one byte or of two neighbouring ones. -/

lemma mask_row_high (x : Byte) : (((x &&& 0x80#8) >>> 6) ||| ((x &&& 0x04#8) >>> 2)).toNat =
    2*(x.getMsbD 0).toNat + (x.getMsbD 5).toNat := by revert x; decide

lemma mask_column_high (x : Byte) : ((x &&& 0x78#8) >>> 3).toNat = 8*(x.getMsbD 1).toNat +
    4*(x.getMsbD 2).toNat + 2*(x.getMsbD 3).toNat + (x.getMsbD 4).toNat := by revert x; decide

lemma mask_row_low (x : Byte) : (((x &&& 0x20#8) >>> 4) ||| (x &&& 0x01#8)).toNat =
    2*(x.getMsbD 2).toNat + (x.getMsbD 7).toNat := by revert x; decide

lemma mask_column_low (x : Byte) : ((x &&& 0x1E#8) >>> 1).toNat = 8*(x.getMsbD 3).toNat +
    4*(x.getMsbD 4).toNat + 2*(x.getMsbD 5).toNat + (x.getMsbD 6).toNat := by revert x; decide

lemma mask_row_left (x y : Byte) : ((x &&& 0x02#8) ||| ((y &&& 0x10#8) >>> 4)).toNat =
    2*(x.getMsbD 6).toNat + (y.getMsbD 3).toNat := by
  have hx : x &&& 0x02#8 = .ofNat 8 (2*(x.getMsbD 6).toNat) := by revert x; decide
  have hy : (y &&& 0x10#8) >>> 4 = .ofNat 8 (y.getMsbD 3).toNat := by revert y; decide
  rw [hx, hy]
  cases x.getMsbD 6 <;> cases y.getMsbD 3 <;> rfl

lemma mask_column_left (x y : Byte) : (((x &&& 0x01#8) <<< 3) ||| ((y &&& 0xE0#8) >>> 5)).toNat =
    8*(x.getMsbD 7).toNat + 4*(y.getMsbD 0).toNat + 2*(y.getMsbD 1).toNat +
      (y.getMsbD 2).toNat := by
  have hx : (x &&& 0x01#8) <<< 3 = .ofNat 8 (8*(x.getMsbD 7).toNat) := by revert x; decide
  have hy : (y &&& 0xE0#8) >>> 5 = .ofNat 8 (4*(y.getMsbD 0).toNat + 2*(y.getMsbD 1).toNat +
      (y.getMsbD 2).toNat) := by revert y; decide
  rw [hx, hy]
  cases x.getMsbD 7 <;> cases y.getMsbD 0 <;> cases y.getMsbD 1 <;> cases y.getMsbD 2 <;> rfl

lemma mask_row_right (x y : Byte) : (((x &&& 0x08#8) >>> 2) ||| ((y &&& 0x40#8) >>> 6)).toNat =
    2*(x.getMsbD 4).toNat + (y.getMsbD 1).toNat := by
  have hx : (x &&& 0x08#8) >>> 2 = .ofNat 8 (2*(x.getMsbD 4).toNat) := by revert x; decide
  have hy : (y &&& 0x40#8) >>> 6 = .ofNat 8 (y.getMsbD 1).toNat := by revert y; decide
  rw [hx, hy]
  cases x.getMsbD 4 <;> cases y.getMsbD 1 <;> rfl

lemma mask_column_right (x y : Byte) : (((x &&& 0x07#8) <<< 1) ||| ((y &&& 0x80#8) >>> 7)).toNat =
    8*(x.getMsbD 5).toNat + 4*(x.getMsbD 6).toNat + 2*(x.getMsbD 7).toNat +
      (y.getMsbD 0).toNat := by
  have hx : (x &&& 0x07#8) <<< 1 = .ofNat 8 (8*(x.getMsbD 5).toNat + 4*(x.getMsbD 6).toNat +
      2*(x.getMsbD 7).toNat) := by revert x; decide
  have hy : (y &&& 0x80#8) >>> 7 = .ofNat 8 (y.getMsbD 0).toNat := by revert y; decide
  rw [hx, hy]
  cases x.getMsbD 5 <;> cases x.getMsbD 6 <;> cases x.getMsbD 7 <;> cases y.getMsbD 0 <;> rfl

/-- A looked up nibble: row and column are the numbers the standard reads off the block. -/
lemma sBoxEntry_eq (S : List ℕ) (hS : ∀ n, S.getD n 0 < 16) (b : BitVec 6) (row column : Byte)
    (hr : row.toNat = 2*(b.getMsbD 0).toNat + (b.getMsbD 5).toNat)
    (hc : column.toNat = 8*(b.getMsbD 1).toNat + 4*(b.getMsbD 2).toNat +
      2*(b.getMsbD 3).toNat + (b.getMsbD 4).toNat) :
    sBoxEntry S row column = (select S b).setWidth 8 := by
  have hlt := hS (16*row.toNat + column.toNat)
  simp only [sBoxEntry, select, ← hr, ← hc]
  rw [Nat.mul_comm row.toNat 16]
  apply BitVec.eq_of_toNat_eq
  simp only [BitVec.toNat_ofNat, BitVec.toNat_setWidth]
  omega

lemma nibbles_append (x y : BitVec 4) : (x.setWidth 8 <<< 4) ||| y.setWidth 8 = x ++ y := by
  revert x y
  decide

/-- Bit `i` of the block that starts at bit `k`. -/
lemma getMsbD_block (x : BitVec 48) {k i : ℕ} (hk : k ≤ 42) (hi : i < 6) :
    (x.extractLsb' (42 - k) 6).getMsbD i = x.getMsbD (k + i) := by
  rw [BitVec.getMsbD_extractLsb']
  simp only [hi, decide_true, Bool.true_and, show 42 - k + 6 - i ≤ 48 by omega]
  congr 1
  omega

lemma ofBytes_four (a b c d : Byte) : ofBytes #v[a,b,c,d] = a ++ b ++ c ++ d := by
  apply BitVec.eq_of_getMsbD_eq
  intro i hi
  rw [getMsbD_ofBytes]
  change _ = (a ++ b ++ c ++ d : BitVec (8 + 8 + 8 + 8)).getMsbD i
  simp only [BitVec.getMsbD_append]
  have hi : i < 32 := hi
  interval_cases i <;> rfl

/-- Bit `i` of the bytes that enter the S-boxes. -/
def erBit (er : Vector Byte 6) (i : ℕ) : ℕ := ((er.getD (i/8) 0).getMsbD (i%8)).toNat

lemma sBoxEntry_block (S : List ℕ) (hS : ∀ n, S.getD n 0 < 16) (er : Vector Byte 6) (k : ℕ)
    (hk : k ≤ 42) (row column : Byte) (hr : row.toNat = 2*erBit er k + erBit er (k + 5))
    (hc : column.toNat = 8*erBit er (k + 1) + 4*erBit er (k + 2) + 2*erBit er (k + 3) +
      erBit er (k + 4)) :
    sBoxEntry S row column = (select S ((ofBytes er).extractLsb' (42 - k) 6)).setWidth 8 := by
  have hb : ∀ i < 6, (((ofBytes er).extractLsb' (42 - k) 6).getMsbD i).toNat = erBit er (k + i) := by
    intro i hi
    rw [getMsbD_block _ hk hi, getMsbD_ofBytes, erBit]
  refine sBoxEntry_eq S hS _ row column ?_ ?_
  · rw [hb 0 (by omega), hb 5 (by omega), hr, Nat.add_zero k]
  · rw [hb 1 (by omega), hb 2 (by omega), hb 3 (by omega), hb 4 (by omega), hc]

lemma getD_lt {S : List ℕ} {n : ℕ} (h : ∀ x ∈ S, x < n) (hn : 0 < n) (i : ℕ) : S.getD i 0 < n := by
  rw [List.getD_eq_getElem?_getD]
  cases hi : S[i]? with
  | none => exact hn
  | some x => exact h x (List.mem_of_getElem? hi)

lemma nibbles_assoc (a b c d e f g h : BitVec 4) :
    ((a ++ b) ++ (c ++ d) ++ (e ++ f) ++ (g ++ h) : BitVec 32) =
      a ++ b ++ c ++ d ++ e ++ f ++ g ++ h := by
  apply BitVec.eq_of_toNat_eq
  simp only [BitVec.toNat_append, Nat.shiftLeft_or_distrib, ← Nat.shiftLeft_add, Nat.or_assoc]

lemma sBoxEntry_pair {x y : Byte} {a b : BitVec 4} (hx : x = a.setWidth 8) (hy : y = b.setWidth 8) :
    (x <<< 4) ||| y = a ++ b := by
  rw [hx, hy, nibbles_append]

/-- The masks of `process_message` cut out the blocks of the standard. -/
lemma ofBytes_substitute (er : Vector Byte 6) :
    ofBytes (substitute er) = selection (ofBytes er) := by
  obtain ⟨e0, e1, e2, e3, e4, e5, he⟩ : ∃ e0 e1 e2 e3 e4 e5, er = #v[e0,e1,e2,e3,e4,e5] :=
    ⟨er[0], er[1], er[2], er[3], er[4], er[5], Vector.ext fun i hi => by interval_cases i <;> rfl⟩
  have h1 := sBoxEntry_block Net.S1 (getD_lt (by decide) (by decide)) #v[e0,e1,e2,e3,e4,e5] 0
    (by omega) _ _ (mask_row_high e0) (mask_column_high e0)
  have h2 := sBoxEntry_block Net.S2 (getD_lt (by decide) (by decide)) #v[e0,e1,e2,e3,e4,e5] 6
    (by omega) _ _ (mask_row_left e0 e1) (mask_column_left e0 e1)
  have h3 := sBoxEntry_block Net.S3 (getD_lt (by decide) (by decide)) #v[e0,e1,e2,e3,e4,e5] 12
    (by omega) _ _ (mask_row_right e1 e2) (mask_column_right e1 e2)
  have h4 := sBoxEntry_block Net.S4 (getD_lt (by decide) (by decide)) #v[e0,e1,e2,e3,e4,e5] 18
    (by omega) _ _ (mask_row_low e2) (mask_column_low e2)
  have h5 := sBoxEntry_block Net.S5 (getD_lt (by decide) (by decide)) #v[e0,e1,e2,e3,e4,e5] 24
    (by omega) _ _ (mask_row_high e3) (mask_column_high e3)
  have h6 := sBoxEntry_block Net.S6 (getD_lt (by decide) (by decide)) #v[e0,e1,e2,e3,e4,e5] 30
    (by omega) _ _ (mask_row_left e3 e4) (mask_column_left e3 e4)
  have h7 := sBoxEntry_block Net.S7 (getD_lt (by decide) (by decide)) #v[e0,e1,e2,e3,e4,e5] 36
    (by omega) _ _ (mask_row_right e4 e5) (mask_column_right e4 e5)
  have h8 := sBoxEntry_block Net.S8 (getD_lt (by decide) (by decide)) #v[e0,e1,e2,e3,e4,e5] 42
    (by omega) _ _ (mask_row_low e5) (mask_column_low e5)
  rw [← he] at h1 h2 h3 h4 h5 h6 h7 h8
  have hs : substitute er = #v[
      select S1 ((ofBytes er).extractLsb' 42 6) ++ select S2 ((ofBytes er).extractLsb' 36 6),
      select S3 ((ofBytes er).extractLsb' 30 6) ++ select S4 ((ofBytes er).extractLsb' 24 6),
      select S5 ((ofBytes er).extractLsb' 18 6) ++ select S6 ((ofBytes er).extractLsb' 12 6),
      select S7 ((ofBytes er).extractLsb' 6 6) ++ select S8 ((ofBytes er).extractLsb' 0 6)] := by
    refine Vector.ext fun i hi => ?_
    conv_lhs => rw [he]
    interval_cases i
    · exact sBoxEntry_pair h1 h2
    · exact sBoxEntry_pair h3 h4
    · exact sBoxEntry_pair h5 h6
    · exact sBoxEntry_pair h7 h8
  rw [hs, ofBytes_four]
  exact nibbles_assoc _ _ _ _ _ _ _ _

/-! The rounds. -/

/-- The 48 bits a row of the key table gives a round. -/
def keyBits (row : Vector Byte 8) : BitVec 48 := ofBytes (.ofFn fun i : Fin 6 => row.getD i 0)

lemma ofBytes_roundFunction (row : Vector Byte 8) (r : Vector Byte 4) :
    ofBytes (roundFunction row r) = cipherFunction (ofBytes r) (keyBits row) := by
  have hx : (Vector.ofFn fun i : Fin 6 => (permute messageExpansion 6 r)[i] ^^^ row.getD i 0) =
      xorBytes (permute messageExpansion 6 r) (.ofFn fun i => row.getD i 0) := by
    refine Vector.ext fun i hi => ?_
    simp [xorBytes]
  rw [roundFunction, hx, ofBytes_permute, ofBytes_substitute, ofBytes_xorBytes, ofBytes_permute]
  rfl

lemma ofBytes_split (v : Vector Byte 8) : Prod.map ofBytes ofBytes (split v) =
    ((ofBytes v).extractLsb' 32 32,(ofBytes v).extractLsb' 0 32) := by
  refine Prod.ext (BitVec.eq_of_getMsbD_eq fun i hi => ?_) (BitVec.eq_of_getMsbD_eq fun i hi => ?_)
  · have hi : i < 32 := hi
    simp only [Prod.map, split, BitVec.getMsbD_extractLsb', getMsbD_ofBytes, hi, decide_true,
      Bool.true_and, getD_ofFn _ _ (show i/8 < 4 by omega), show 32 + 32 - i ≤ 8*8 by omega,
      show 8*8 - (32 + 32 - i) = i by omega]
  · have hi : i < 32 := hi
    simp only [Prod.map, split, BitVec.getMsbD_extractLsb', getMsbD_ofBytes, hi, decide_true,
      Bool.true_and, getD_ofFn _ _ (show i/8 < 4 by omega), show 0 + 32 - i ≤ 8*8 by omega,
      show 8*8 - (0 + 32 - i) = 32 + i by omega, show (32 + i)/8 = i/8 + 4 by omega,
      show (32 + i)%8 = i%8 by omega]

lemma ofBytes_join (p : Vector Byte 4 × Vector Byte 4) :
    ofBytes (join p) = (ofBytes p.1 ++ ofBytes p.2 : BitVec (8*4 + 8*4)) := by
  apply BitVec.eq_of_getMsbD_eq
  intro i hi
  have hi : i < 64 := hi
  change _ = (ofBytes p.1 ++ ofBytes p.2 : BitVec (8*4 + 8*4)).getMsbD i
  rw [BitVec.getMsbD_append, getMsbD_ofBytes, getMsbD_ofBytes, getMsbD_ofBytes,
    getD_eq_getElem _ _ (show i/8 < 8 by omega)]
  split_ifs with h
  · rw [getD_eq_getElem _ _ (show (i - 8*4)/8 < 4 by omega), show (i - 8*4)%8 = i%8 by omega]
    congr 1
    refine (Vector.getElem_append_right (show i/8 < 4 + 4 by omega) (by omega)).trans ?_
    congr 1
    omega
  · rw [getD_eq_getElem _ _ (show i/8 < 4 by omega)]
    congr 1
    exact Vector.getElem_append_left (by omega)

lemma rounds_eq_LR (keys : ℕ → BitVec 48) (input : BitVec 64) (n : ℕ) :
    Feistel.rounds (· ^^^ ·) (fun k r => cipherFunction r k) ((List.range' 1 n).map keys)
      (input.extractLsb' 32 32,input.extractLsb' 0 32) = LR keys input n := by
  induction n with
  | zero => rfl
  | succ n ih =>
    rw [List.range'_concat, List.map_append, Feistel.rounds, List.foldl_append]
    rw [Feistel.rounds] at ih
    rw [ih, Nat.one_mul, Nat.add_comm 1 n]
    rfl

/-- With the right bits in the rows, `process_message` is the computation of the standard. -/
lemma ofBytes_processMessage (keySetsK : KeyTable) (mode : BitVec 1) (keys : ℕ → BitVec 48)
    (hk : ∀ k ∈ List.range' 1 16,
      keyBits (keySetsK.getD (keyIndex mode k) (.replicate 8 0)) = keys k)
    (m : Vector Byte 8) : ofBytes (processMessage keySetsK mode m) = crypt keys (ofBytes m) := by
  have hkeys : (roundKeys keySetsK mode).map keyBits = (List.range' 1 16).map keys := by
    rw [roundKeys, List.map_map]
    exact List.map_congr_left hk
  have hr := Feistel.map_rounds (fun l f => xorBytes f l) roundFunction (· ^^^ ·)
    (fun k r => cipherFunction r k) ofBytes keyBits
    (fun a b => by rw [ofBytes_xorBytes, BitVec.xor_comm]) (fun k a => ofBytes_roundFunction k a)
    (roundKeys keySetsK mode) (split (permute initialMessagePermutation 8 m))
  rw [hkeys, ofBytes_split, rounds_eq_LR, ofBytes_permute] at hr
  rw [processMessage_eq, ofBytes_permute, Feistel.network, ofBytes_join, crypt]
  have h1 := congrArg Prod.fst hr
  have h2 := congrArg Prod.snd hr
  simp only [Prod.map] at h1 h2
  simp only [Prod.fst_swap, Prod.snd_swap, h1, h2]
  rfl

end EncryptionAccelerators.Net
