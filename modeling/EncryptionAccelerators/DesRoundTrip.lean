import EncryptionAccelerators.DesBits
import EncryptionAccelerators.Feistel

/-! `process_message` is a Feistel network between two inverse permutations, so decryption undoes
encryption under any key table. -/
namespace EncryptionAccelerators.Net
open BitString

def split (v : Vector Byte 8) : Vector Byte 4 × Vector Byte 4 :=
  (.ofFn fun i => v.getD i 0,.ofFn fun i => v.getD (i + 4) 0)

def join (p : Vector Byte 4 × Vector Byte 4) : Vector Byte 8 := p.1 ++ p.2

lemma split_join (p : Vector Byte 4 × Vector Byte 4) : split (join p) = p := by
  refine Prod.ext (Vector.ext fun i hi => ?_) (Vector.ext fun i hi => ?_)
  · simp only [split, Vector.getElem_ofFn]
    rw [getD_eq_getElem _ _ (show i < 4 + 4 by omega)]
    exact Vector.getElem_append_left hi
  · simp only [split, Vector.getElem_ofFn]
    rw [getD_eq_getElem _ _ (show i + 4 < 4 + 4 by omega)]
    refine (Vector.getElem_append_right (show i + 4 < 4 + 4 by omega) (by omega)).trans ?_
    congr 1

lemma join_split (v : Vector Byte 8) : join (split v) = v := by
  refine Vector.ext fun i hi => ?_
  simp only [split, join]
  rw [Vector.getElem_append]
  split_ifs with h
  · rw [Vector.getElem_ofFn, getD_eq_getElem _ _ hi]
  · rw [Vector.getElem_ofFn, getD_eq_getElem _ _ (by omega)]
    congr 1
    exact Nat.sub_add_cancel (not_lt.mp h)

/-- The rows of the key table in the order of the rounds. -/
def roundKeys (keySetsK : KeyTable) (mode : BitVec 1) : List (Vector Byte 8) :=
  (List.range' 1 16).map fun k => keySetsK.getD (keyIndex mode k) (.replicate 8 0)

lemma roundKeys_decryption (keySetsK : KeyTable) :
    roundKeys keySetsK DECRYPTION_MODE = (roundKeys keySetsK ENCRYPTION_MODE).reverse := rfl

lemma processMessage_eq (keySetsK : KeyTable) (mode : BitVec 1) (m : Vector Byte 8) :
    processMessage keySetsK mode m = permute finalMessagePermutation 8 (join
      (Feistel.network (fun l f => xorBytes f l) roundFunction (roundKeys keySetsK mode)
        (split (permute initialMessagePermutation 8 m)))) := by
  simp only [Feistel.network, Feistel.rounds, roundKeys, List.foldl_map]
  rfl

lemma xorBytes_cancel {n : ℕ} (a b : Vector Byte n) : xorBytes b (xorBytes b a) = a := by
  refine Vector.ext fun i hi => ?_
  simp only [xorBytes, get_eq_getElem, Vector.getElem_ofFn, ← BitVec.xor_assoc, BitVec.xor_self,
    BitVec.zero_xor]

lemma permute_inverse {s t : List ℕ} (h : Inverse 64 s t) (v : Vector Byte 8) :
    permute s 8 (permute t 8 v) = v := by
  apply ofBytes_injective
  rw [ofBytes_permute, ofBytes_permute]
  exact pick_pick h _

lemma initial_final : Inverse 64 initialMessagePermutation finalMessagePermutation := by decide
lemma final_initial : Inverse 64 finalMessagePermutation initialMessagePermutation := by decide

/-- Two passes whose key orders are opposite cancel. -/
lemma processMessage_cancel (keySetsK : KeyTable) {mode mode' : BitVec 1}
    (h : roundKeys keySetsK mode' = (roundKeys keySetsK mode).reverse) (m : Vector Byte 8) :
    processMessage keySetsK mode' (processMessage keySetsK mode m) = m := by
  rw [processMessage_eq, processMessage_eq, permute_inverse initial_final, split_join, h,
    Feistel.network_reverse _ (fun a b => xorBytes_cancel a b), join_split,
    permute_inverse final_initial]

lemma decrypt_encrypt (keySetsK : KeyTable) (m : Vector Byte 8) :
    processMessage keySetsK DECRYPTION_MODE (processMessage keySetsK ENCRYPTION_MODE m) = m :=
  processMessage_cancel keySetsK (roundKeys_decryption keySetsK) m

lemma encrypt_decrypt (keySetsK : KeyTable) (m : Vector Byte 8) :
    processMessage keySetsK ENCRYPTION_MODE (processMessage keySetsK DECRYPTION_MODE m) = m := by
  refine processMessage_cancel keySetsK ?_ m
  rw [roundKeys_decryption, List.reverse_reverse]

/-- A stream of whole blocks through `des` and then through `des` in the other mode. -/
theorem des_roundTrip (keySetsK : KeyTable) (bs : List Byte) (h : 8 ∣ bs.length) :
    (∃ mid, (∀ us, Drains (des keySetsK ENCRYPTION_MODE) ⟨[], by decide⟩ (bs.map byteWord) us ↔
        us = mid) ∧
      ∀ us, Drains (des keySetsK DECRYPTION_MODE) ⟨[], by decide⟩ mid us ↔ us = bs.map byteWord) ∧
    ∃ mid, (∀ us, Drains (des keySetsK DECRYPTION_MODE) ⟨[], by decide⟩ (bs.map byteWord) us ↔
        us = mid) ∧
      ∀ us, Drains (des keySetsK ENCRYPTION_MODE) ⟨[], by decide⟩ mid us ↔ us = bs.map byteWord := by
  refine ⟨⟨_, fun us => drains_blockCore _ _ _ us, fun us => ?_⟩,
    ⟨_, fun us => drains_blockCore _ _ _ us, fun us => ?_⟩⟩
  · rw [des, drains_blockCore, map_byteWord_data, map_byteWord_data,
      cipherBlocks_inverse _ (decrypt_encrypt keySetsK) (by omega) bs h]
  · rw [des, drains_blockCore, map_byteWord_data, map_byteWord_data,
      cipherBlocks_inverse _ (encrypt_decrypt keySetsK) (by omega) bs h]

/-- Two blocks under a table that no key expands to. -/
theorem des_roundTrip_twoBlocks :
    (∃ mid, (∀ us, Drains (des (.replicate 17 (.replicate 8 0x5a)) ENCRYPTION_MODE) ⟨[], by decide⟩
        ((List.replicate 16 0x37).map byteWord) us ↔ us = mid) ∧
      ∀ us, Drains (des (.replicate 17 (.replicate 8 0x5a)) DECRYPTION_MODE) ⟨[], by decide⟩ mid us ↔
        us = (List.replicate 16 0x37).map byteWord) ∧
    ∃ mid, (∀ us, Drains (des (.replicate 17 (.replicate 8 0x5a)) DECRYPTION_MODE) ⟨[], by decide⟩
        ((List.replicate 16 0x37).map byteWord) us ↔ us = mid) ∧
      ∀ us, Drains (des (.replicate 17 (.replicate 8 0x5a)) ENCRYPTION_MODE) ⟨[], by decide⟩ mid us ↔
        us = (List.replicate 16 0x37).map byteWord :=
  des_roundTrip (.replicate 17 (.replicate 8 0x5a)) (List.replicate 16 0x37) (by decide)

end EncryptionAccelerators.Net
