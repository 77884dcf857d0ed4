import EncryptionAccelerators.AesConformance

/-! `KeyExpansion` computes the key schedule of FIPS 197, for every number of key words. -/
namespace EncryptionAccelerators.Net
open BitString

lemma length_setWord (w : List Byte) (i : ℕ) (x : Word) : (setWord w i x).length = w.length := by
  simp [setWord, List.finRange_succ]

lemma getD_setWord (w : List Byte) (i : ℕ) (x : Word) (h : 4*i + 3 < w.length) (m : ℕ) :
    (setWord w i x).getD m 0 = if 4*i ≤ m ∧ m < 4*i + 4 then x.getD (m - 4*i) 0 else w.getD m 0 := by
  have hs : setWord w i x =
      (((w.set (4*i + 0) x[0]).set (4*i + 1) x[1]).set (4*i + 2) x[2]).set (4*i + 3) x[3] := rfl
  rw [hs]
  simp only [List.getD_eq_getElem?_getD, List.getElem?_set, List.length_set]
  by_cases hm : 4*i ≤ m ∧ m < 4*i + 4
  · obtain ⟨j, rfl⟩ := Nat.exists_eq_add_of_le hm.1
    have hj : j < 4 := by omega
    rw [if_pos hm, Nat.add_sub_cancel_left, getD_eq_getElem _ _ hj]
    interval_cases j
    · simp [show 4*i < w.length by omega]
    · simp [show 4*i + 1 < w.length by omega]
    · simp [show 4*i + 2 < w.length by omega]
    · simp [h]
  · rw [if_neg hm, if_neg (by omega), if_neg (by omega), if_neg (by omega), if_neg (by omega)]

/-- Writing one word leaves the others. -/
lemma getWord_setWord (w : List Byte) (i : ℕ) (x : Word) (h : 4*i + 3 < w.length) (k : ℕ) :
    getWord (setWord w i x) k = if k = i then x else getWord w k := by
  refine Vector.ext fun j hj => ?_
  have hw (y : List Byte) : (getWord y k)[j] = y.getD (4*k + j) 0 := by simp [getWord]
  rw [hw, getD_setWord w i x h]
  by_cases hk : k = i
  · rw [if_pos hk, if_pos (by omega), hk, Nat.add_sub_cancel_left, getD_eq_getElem _ _ hj]
  · rw [if_neg hk, if_neg (by omega), hw]

lemma Rcon_eq (a : ℕ) (h : 1 ≤ a) : Rcon a = Fips197.rcon a := by
  obtain ⟨a, rfl⟩ := Nat.exists_eq_add_of_le' h
  have hr : (List.range (a+1)).foldl (fun (rcon : Byte) _ =>
      ((rcon.setWidth 32 <<< 1) ^^^ (0x11b#32 &&& -(rcon >>> 7).setWidth 32)).setWidth 8) 0x8d#8 =
      (Fips197.mul 0x02)^[a] 1 := by
    induction a with
    | zero => decide
    | succ a ih =>
      rw [List.range_succ, List.foldl_append, ih (by omega), Function.iterate_succ_apply']
      exact rcon_double _
  rw [Rcon, hr]
  rfl

lemma SubWord_eq (a : Word) : SubWord a = Fips197.subWord a := by
  refine Vector.ext fun j hj => ?_
  simp only [SubWord, Fips197.subWord, Vector.getElem_map]
  exact sbox_eq _

/-- Word `k` of the array is word `k` of the list, for `k < n`. -/
def WordsAre (w : List Byte) (ws : List Fips197.Word) (n : ℕ) : Prop :=
  ∀ k < n, getWord w k = ws.getD k (.replicate 4 0)

lemma length_schedule (N : ℕ) (key : ℕ → Fips197.Word) (n : ℕ) :
    (Fips197.schedule N key n).length = n := by
  induction n with
  | zero => rfl
  | succ n ih => simp [Fips197.schedule, ih]

lemma getD_schedule_succ (N : ℕ) (key : ℕ → Fips197.Word) (n k : ℕ) :
    (Fips197.schedule N key (n+1)).getD k (.replicate 4 0) =
      if k = n then Fips197.nextWord N key (Fips197.schedule N key n)
      else (Fips197.schedule N key n).getD k (.replicate 4 0) := by
  have hl := length_schedule N key n
  rw [Fips197.schedule]
  rcases Nat.lt_trichotomy k n with hk | hk | hk
  · rw [if_neg (by omega), List.getD_append _ _ _ _ (by omega)]
  · rw [if_pos hk, List.getD_append_right _ _ _ _ (by omega), hl, hk, Nat.sub_self]
    rfl
  · rw [if_neg (by omega), List.getD_eq_default _ _ (by simp; omega),
      List.getD_eq_default _ _ (by omega)]

lemma wordsAre_setWord {N : ℕ} {key : ℕ → Fips197.Word} {w : List Byte} {n : ℕ} {x : Word}
    (hw : WordsAre w (Fips197.schedule N key n) n) (hn : 4*n + 3 < w.length)
    (hx : x = Fips197.nextWord N key (Fips197.schedule N key n)) :
    WordsAre (setWord w n x) (Fips197.schedule N key (n+1)) (n+1) := by
  intro k hk
  rw [getWord_setWord w n x hn, getD_schedule_succ]
  by_cases hkn : k = n
  · rw [if_pos hkn, if_pos hkn, hx]
  · rw [if_neg hkn, if_neg hkn, hw k (by omega)]

/-- One turn of the loop computes the next word of the schedule. -/
lemma wordsAre_expandWord {keySize : ℕ} {key : ℕ → Fips197.Word} {w : List Byte} {n : ℕ}
    (h0 : 0 < Nk keySize) (hn : Nk keySize ≤ n) (hl : 4*n + 3 < w.length)
    (hw : WordsAre w (Fips197.schedule (Nk keySize) key n) n) :
    WordsAre (expandWord keySize w n) (Fips197.schedule (Nk keySize) key (n+1)) (n+1) := by
  refine wordsAre_setWord hw hl ?_
  have hd : 1 ≤ n / Nk keySize := (Nat.one_le_div_iff h0).2 hn
  have hx (a b : Word) : xorBytes a b = Fips197.xorWord b a := by
    refine Vector.ext fun j hj => ?_
    simp [xorBytes, Fips197.xorWord, BitVec.xor_comm]
  have hx' (a b : Word) : xorBytes a b = Fips197.xorWord a b := by
    refine Vector.ext fun j hj => ?_
    simp [xorBytes, Fips197.xorWord]
  rw [Fips197.nextWord]
  simp only [length_schedule]
  rw [hx, hx', hw (n - Nk keySize) (by omega), hw (n - 1) (by omega),
    if_neg (show ¬ n < Nk keySize by omega), SubWord_eq, SubWord_eq, Rcon_eq _ hd]
  rfl

lemma length_expandWord (keySize : ℕ) (w : List Byte) (i : ℕ) :
    (expandWord keySize w i).length = w.length := length_setWord _ _ _

/-- The first loop copies the key. -/
lemma wordsAre_copy (N : ℕ) (key w : List Byte) (hl : 4*N ≤ w.length) (n : ℕ) (hn : n ≤ N) :
    let copied := (List.range n).foldl (fun w i => setWord w i (getWord key i)) w
    WordsAre copied (Fips197.schedule N (getWord key) n) n ∧ copied.length = w.length := by
  induction n with
  | zero => exact ⟨fun k hk => by omega, rfl⟩
  | succ n ih =>
    obtain ⟨ha, hlen⟩ := ih (by omega)
    simp only [List.range_succ, List.foldl_append, List.foldl_cons, List.foldl_nil]
    refine ⟨wordsAre_setWord ha (by omega) ?_, by rw [length_setWord, hlen]⟩
    rw [Fips197.nextWord]
    simp only [length_schedule]
    rw [if_pos (by omega)]

/-- The second loop, after `m` turns. -/
lemma wordsAre_expand (keySize : ℕ) (key : ℕ → Fips197.Word) (w : List Byte)
    (h0 : 0 < Nk keySize)
    (hw : WordsAre w (Fips197.schedule (Nk keySize) key (Nk keySize)) (Nk keySize)) (m : ℕ)
    (hl : 4*(Nk keySize + m) ≤ w.length) :
    let expanded := (List.range' (Nk keySize) m).foldl (expandWord keySize) w
    WordsAre expanded (Fips197.schedule (Nk keySize) key (Nk keySize + m)) (Nk keySize + m) ∧
      expanded.length = w.length := by
  induction m with
  | zero => exact ⟨hw, rfl⟩
  | succ m ih =>
    obtain ⟨ha, hlen⟩ := ih (by omega)
    simp only [List.range'_concat, List.foldl_append, List.foldl_cons, List.foldl_nil, one_mul]
    exact ⟨wordsAre_expandWord h0 (by omega) (by omega) ha, by rw [length_expandWord, hlen]⟩

/-- The array holds the words of the schedule, whatever it held before. -/
lemma getWord_KeyExpansion (keySize : ℕ) (key w : List Byte) (h0 : 0 < Nk keySize)
    (hl : 16*(Nr keySize + 1) ≤ w.length) (i : ℕ) (hi : i < 4*(Nr keySize + 1)) :
    getWord (KeyExpansion key w keySize) i =
      (Fips197.keyExpansion (Nk keySize) (getWord key)).getD i (.replicate 4 0) := by
  have hNr : Nr keySize = Nk keySize + 6 := rfl
  obtain ⟨hc, hlen⟩ := wordsAre_copy (Nk keySize) key w (by omega) (Nk keySize) le_rfl
  have he := wordsAre_expand keySize (getWord key) _ h0 hc (4*(Nr keySize + 1) - Nk keySize)
    (by omega)
  have hn : Nk keySize + (4*(Nr keySize + 1) - Nk keySize) = 4*(Nr keySize + 1) := by omega
  rw [hn] at he
  exact he.1 i hi

/-- The columns written to the core are the rows of its table: byte `c` of the key material of
round `r` is byte `16*r + c` of the array. -/
lemma rowsAre_columnsTable (key w : List Byte) (hl : 176 ≤ w.length) :
    RowsAre (columnsTable fun i => aesExpanedKeySelectCol i (KeyExpansion key w 128))
      (Fips197.keyExpansion 4 (getWord key)) := by
  intro round hround r c
  have hword := getWord_KeyExpansion 128 key w (by decide) hl (4*round + c) (by
    have hc := c.isLt
    change _ < 44
    omega)
  have hNk : Nk 128 = 4 := rfl
  rw [hNk] at hword
  generalize KeyExpansion key w 128 = expanded at hword ⊢
  have hrc : r.val + c.val*4 < 16 := by omega
  have hi : round*16 + (r.val + c.val*4) = 4*(4*round + c.val) + r.val := by omega
  rw [← hword, getD_eq_getElem _ _ hround, getD_eq_getElem _ _ hrc]
  simp only [columnsTable, aesExpanedKeySelectCol, getWord, get_eq_getElem, Vector.getElem_ofFn,
    Fin.getElem_fin, hi]

/-- The software and the core compute AES-128, and the key schedule is right for the three sizes
of a key. -/
theorem aes_conforms (key block : Vector Byte 16) (w : Vector Byte 176) :
    (aesCipher (columnsTable fun i =>
        aesExpanedKeySelectCol i (KeyExpansion key.toList w.toList 128)) block =
      Fips197.cipher 10 (Fips197.keyExpansion 4 (getWord key.toList)) block) ∧
    (∀ (key : Vector Byte 16) (w : Vector Byte 176) (i : Fin 44),
      getWord (KeyExpansion key.toList w.toList 128) i =
        (Fips197.keyExpansion 4 (getWord key.toList)).getD i (.replicate 4 0)) ∧
    (∀ (key : Vector Byte 24) (w : Vector Byte 208) (i : Fin 52),
      getWord (KeyExpansion key.toList w.toList 192) i =
        (Fips197.keyExpansion 6 (getWord key.toList)).getD i (.replicate 4 0)) ∧
    ∀ (key : Vector Byte 32) (w : Vector Byte 240) (i : Fin 60),
      getWord (KeyExpansion key.toList w.toList 256) i =
        (Fips197.keyExpansion 8 (getWord key.toList)).getD i (.replicate 4 0) := by
  refine ⟨aesCipher_eq (rowsAre_columnsTable _ _ (by simp)) block, ?_, ?_, ?_⟩
  · intro key w i
    exact getWord_KeyExpansion 128 _ _ (by decide) (by simp [Nr, Nk]) i i.isLt
  · intro key w i
    exact getWord_KeyExpansion 192 _ _ (by decide) (by simp [Nr, Nk]) i i.isLt
  · intro key w i
    exact getWord_KeyExpansion 256 _ _ (by decide) (by simp [Nr, Nk]) i i.isLt

end EncryptionAccelerators.Net
