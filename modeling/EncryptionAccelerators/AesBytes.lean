import EncryptionAccelerators.AesKeyExpansion
import EncryptionAccelerators.AesReference

/-! The byte tables and products of the two AES halves in GF(2^8), checked on all bytes. -/
namespace EncryptionAccelerators.Net

/-- Every nonzero byte times its inverse is one, and the table holds the affine image of the
inverse. -/
lemma sBox_table : ∀ a : Byte, (a ≠ 0 → Fips197.mul a (Fips197.inv a) = 1) ∧
    SBox.getD a.toNat 0 = Fips197.affine (Fips197.inv a) := by decide +kernel

lemma sBox_eq (a : Byte) : SBox.getD a.toNat 0 = Fips197.subByte a := (sBox_table a).2

/-- The two tables are the same. -/
lemma sbox_eq (a : Byte) : sbox.getD a.toNat 0 = Fips197.subByte a := sBox_eq a

set_option maxRecDepth 4096

lemma multiplication_two (B : Byte) : Multiplication 0x02 B = Fips197.mul 0x02 B := by
  revert B
  decide

lemma multiplication_one (B : Byte) : Multiplication 0x01 B = Fips197.mul 0x01 B := by
  revert B
  decide

lemma multiplication_three (B : Byte) : Multiplication 0x03 B = Fips197.mul 0x03 B := by
  revert B
  decide

/-- Doubling as the key expansion does it. -/
lemma rcon_double (r : Byte) : ((r.setWidth 32 <<< 1) ^^^
    (0x11b#32 &&& -(r >>> 7).setWidth 32)).setWidth 8 = Fips197.mul 0x02 r := by
  revert r
  decide

end EncryptionAccelerators.Net
