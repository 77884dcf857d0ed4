import EncryptionAccelerators.DesKeySchedule

/-! DES commutes with complementing key and block: the round function sees the complements of both of
its arguments, which cancel. -/
namespace EncryptionAccelerators.Fips46
open BitString

lemma pick_not {w m : ℕ} {table : List ℕ} (h : ∀ i < m, table.getD i 0 - 1 < w) (x : BitVec w) :
    pick table m (~~~x) = ~~~pick table m x := by
  apply BitVec.eq_of_getMsbD_eq
  intro i hi
  have hlt := h i hi
  rw [getMsbD_pick _ _ hi, BitVec.getMsbD_not, BitVec.getMsbD_not, getMsbD_pick _ _ hi]
  simp only [hi, hlt]

lemma extractLsb'_not {w start len : ℕ} (h : start + len ≤ w) (x : BitVec w) :
    (~~~x).extractLsb' start len = ~~~x.extractLsb' start len := by
  apply BitVec.eq_of_getLsbD_eq
  intro i hi
  have hw : start + i < w := by omega
  simp [hi, hw]

lemma rotateLeft_not {w : ℕ} (x : BitVec w) (r : ℕ) : (~~~x).rotateLeft r = ~~~x.rotateLeft r := by
  apply BitVec.eq_of_getMsbD_eq
  intro i hi
  have hmod : (r + i) % w < w := Nat.mod_lt _ (by omega)
  simp [BitVec.getMsbD_rotateLeft, hi, hmod]

lemma CD_not (key : BitVec 64) (n : ℕ) : CD (~~~key) n = (~~~(CD key n).1,~~~(CD key n).2) := by
  induction n with
  | zero =>
    have hpick : pick PC1 56 (~~~key) = ~~~pick PC1 56 key := pick_not (by decide) key
    simp only [CD, hpick]
    rw [extractLsb'_not (by omega), extractLsb'_not (by omega)]
  | succ n ih => simp only [CD, ih, rotateLeft_not]

lemma K_not (key : BitVec 64) (n : ℕ) : K (~~~key) n = ~~~K key n := by
  rw [K, CD_not, ← BitVec.not_append]
  exact pick_not (by decide) _

lemma cipherFunction_not (R : BitVec 32) (K : BitVec 48) :
    cipherFunction (~~~R) (~~~K) = cipherFunction R K := by
  have hpick : pick E 48 (~~~R) = ~~~pick E 48 R := pick_not (by decide) R
  rw [cipherFunction, hpick, ← BitVec.not_xor_left, ← BitVec.not_xor_right, BitVec.not_not]
  rfl

lemma LR_not (keys : ℕ → BitVec 48) (input : BitVec 64) (n : ℕ) :
    LR (fun n => ~~~keys n) (~~~input) n = (~~~(LR keys input n).1,~~~(LR keys input n).2) := by
  induction n with
  | zero =>
    simp only [LR]
    rw [extractLsb'_not (by omega), extractLsb'_not (by omega)]
  | succ n ih =>
    simp only [LR, ih, cipherFunction_not]
    rw [BitVec.not_xor_left]

lemma crypt_not (keys : ℕ → BitVec 48) (block : BitVec 64) :
    crypt (fun n => ~~~keys n) (~~~block) = ~~~crypt keys block := by
  have hpick : pick IP 64 (~~~block) = ~~~pick IP 64 block := pick_not (by decide) block
  simp only [crypt]
  rw [hpick, LR_not, ← BitVec.not_append]
  exact pick_not (by decide) _

end EncryptionAccelerators.Fips46

namespace EncryptionAccelerators.Net
open BitString Fips46

def complement {n : ℕ} (v : Vector Byte n) : Vector Byte n := v.map (~~~·)

lemma ofBytes_complement {n : ℕ} (v : Vector Byte n) : ofBytes (complement v) = ~~~ofBytes v := by
  apply BitVec.eq_of_getMsbD_eq
  intro i hi
  have hb : i/8 < n := by omega
  have hj : i%8 < 8 := by omega
  rw [BitVec.getMsbD_not, getMsbD_ofBytes, getMsbD_ofBytes, getD_eq_getElem _ _ hb,
    getD_eq_getElem _ _ hb, complement, Vector.getElem_map, BitVec.getMsbD_not]
  simp [hi, hj]

/-- `des_conforms` for a mode that is not fixed. -/
lemma ofBytes_des (key block : Vector Byte 8) (mode : BitVec 1) :
    ofBytes (processMessage (keyTable (generateSubKeys key (.replicate 17 .zero))) mode block) =
      crypt (fun k => Fips46.K (ofBytes key) (keyIndex mode k)) (ofBytes block) := by
  refine ofBytes_processMessage _ _ _ (fun k hk => ?_) _
  obtain ⟨h1, h16⟩ := List.mem_range'_1.mp hk
  have hindex : 1 ≤ keyIndex mode k ∧ keyIndex mode k ≤ 16 := by
    rw [keyIndex]
    split_ifs <;> omega
  exact keyBits_keyTable key hindex.1 hindex.2

/-- Under the complement of the key, in both modes, the complement of a block becomes the complement
of what the block becomes under the key. -/
theorem des_complement (key block : Vector Byte 8) (mode : BitVec 1) :
    processMessage (keyTable (generateSubKeys (complement key) (.replicate 17 .zero))) mode
        (complement block) =
      complement (processMessage (keyTable (generateSubKeys key (.replicate 17 .zero))) mode block) := by
  apply ofBytes_injective
  have hkeys : (fun k => Fips46.K (ofBytes (complement key)) (keyIndex mode k)) =
      fun k => ~~~Fips46.K (ofBytes key) (keyIndex mode k) := by
    funext k
    rw [ofBytes_complement, K_not]
  rw [ofBytes_des, hkeys, ofBytes_complement block, crypt_not, ← ofBytes_des]
  exact (ofBytes_complement _).symm

end EncryptionAccelerators.Net
