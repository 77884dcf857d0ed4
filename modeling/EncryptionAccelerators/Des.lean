import EncryptionAccelerators.BlockCore

/-! `des.cpp`: the key schedule, which `main.cc` repeats word for word, the block function and
the core `des`. A flat loop over `i` that addresses byte `i/8` and bit `i%8` is a loop over
bytes and a loop over their bits here. -/
namespace EncryptionAccelerators.Net
open Dataflow

def initialKeyPermutaion : List ℕ := [
    57,49,41,33,25,17,9,1,58,50,42,34,26,18,
    10,2,59,51,43,35,27,19,11,3,60,52,44,36,
    63,55,47,39,31,23,15,7,62,54,46,38,30,22,
    14,6,61,53,45,37,29,21,13,5,28,20,12,4]

def initialMessagePermutation : List ℕ := [
    58,50,42,34,26,18,10,2,60,52,44,36,28,20,12,4,
    62,54,46,38,30,22,14,6,64,56,48,40,32,24,16,8,
    57,49,41,33,25,17,9,1,59,51,43,35,27,19,11,3,
    61,53,45,37,29,21,13,5,63,55,47,39,31,23,15,7]

def keyShiftSizes : List ℤ := [-1,1,1,2,2,2,2,2,2,1,2,2,2,2,2,2,1]

def subKeyPermutation : List ℕ := [
    14,17,11,24,1,5,3,28,15,6,21,10,
    23,19,12,4,26,8,16,7,27,20,13,2,
    41,52,31,37,47,55,30,40,51,45,33,48,
    44,49,39,56,34,53,46,42,50,36,29,32]

def messageExpansion : List ℕ := [
    32,1,2,3,4,5,4,5,6,7,8,9,
    8,9,10,11,12,13,12,13,14,15,16,17,
    16,17,18,19,20,21,20,21,22,23,24,25,
    24,25,26,27,28,29,28,29,30,31,32,1]

def S1 : List ℕ := [
    14,4,13,1,2,15,11,8,3,10,6,12,5,9,0,7,
    0,15,7,4,14,2,13,1,10,6,12,11,9,5,3,8,
    4,1,14,8,13,6,2,11,15,12,9,7,3,10,5,0,
    15,12,8,2,4,9,1,7,5,11,3,14,10,0,6,13]

def S2 : List ℕ := [
    15,1,8,14,6,11,3,4,9,7,2,13,12,0,5,10,
    3,13,4,7,15,2,8,14,12,0,1,10,6,9,11,5,
    0,14,7,11,10,4,13,1,5,8,12,6,9,3,2,15,
    13,8,10,1,3,15,4,2,11,6,7,12,0,5,14,9]

def S3 : List ℕ := [
    10,0,9,14,6,3,15,5,1,13,12,7,11,4,2,8,
    13,7,0,9,3,4,6,10,2,8,5,14,12,11,15,1,
    13,6,4,9,8,15,3,0,11,1,2,12,5,10,14,7,
    1,10,13,0,6,9,8,7,4,15,14,3,11,5,2,12]

def S4 : List ℕ := [
    7,13,14,3,0,6,9,10,1,2,8,5,11,12,4,15,
    13,8,11,5,6,15,0,3,4,7,2,12,1,10,14,9,
    10,6,9,0,12,11,7,13,15,1,3,14,5,2,8,4,
    3,15,0,6,10,1,13,8,9,4,5,11,12,7,2,14]

def S5 : List ℕ := [
    2,12,4,1,7,10,11,6,8,5,3,15,13,0,14,9,
    14,11,2,12,4,7,13,1,5,0,15,10,3,9,8,6,
    4,2,1,11,10,13,7,8,15,9,12,5,6,3,0,14,
    11,8,12,7,1,14,2,13,6,15,0,9,10,4,5,3]

def S6 : List ℕ := [
    12,1,10,15,9,2,6,8,0,13,3,4,14,7,5,11,
    10,15,4,2,7,12,9,5,6,1,13,14,0,11,3,8,
    9,14,15,5,2,8,12,3,7,0,4,10,1,13,11,6,
    4,3,2,12,9,5,15,10,11,14,1,7,6,0,8,13]

def S7 : List ℕ := [
    4,11,2,14,15,0,8,13,3,12,9,7,5,10,6,1,
    13,0,11,7,4,9,1,10,14,3,5,12,2,15,8,6,
    1,4,11,13,12,3,7,14,10,15,6,8,0,5,9,2,
    6,11,13,8,1,4,10,7,9,5,0,15,14,2,3,12]

def S8 : List ℕ := [
    13,2,8,4,6,15,11,1,10,9,3,14,5,0,12,7,
    1,15,13,8,10,3,7,4,12,5,6,11,0,14,9,2,
    7,11,4,1,9,12,14,2,0,6,10,13,15,3,5,8,
    2,1,14,7,4,10,8,13,15,12,9,0,3,5,6,11]

def rightSubMessagePermutation : List ℕ := [
    16,7,20,21,29,12,28,17,1,15,23,26,5,18,31,10,
    2,8,24,14,32,27,3,9,19,13,30,6,22,11,4,25]

def finalMessagePermutation : List ℕ := [
    40,8,48,16,56,24,64,32,39,7,47,15,55,23,63,31,
    38,6,46,14,54,22,62,30,37,5,45,13,53,21,61,29,
    36,4,44,12,52,20,60,28,35,3,43,11,51,19,59,27,
    34,2,42,10,50,18,58,26,33,1,41,9,49,17,57,25]

def ENCRYPTION_MODE : BitVec 1 := 1
def DECRYPTION_MODE : BitVec 1 := 0

/-- The bit `s` of a byte, masked out, moved to bit 0 and then to bit `j`. -/
def selectBit (byte : Byte) (s j : ℕ) : Byte := (((0x80#8 >>> s) &&& byte) <<< s) >>> j

/-- Eight selected bits or-ed one after another into the byte `acc`. -/
def orBits (bitAt : ℕ → Byte × ℕ) (acc : Byte) : Byte :=
  (List.range 8).foldl (fun acc j => acc ||| selectBit (bitAt j).1 (bitAt j).2 j) acc

/-- The byte and the position in it that `shift_size` denotes. -/
def bitAt {n : ℕ} (v : Vector Byte n) (shiftSize : ℕ) : Byte × ℕ :=
  (v.getD ((shiftSize - 1)/8) 0,(shiftSize - 1)%8)

/-- Up to 28 the bits of `c`, then those of `d`. -/
def subKeyBitAt (c d : Vector Byte 4) (shiftSize : ℕ) : Byte × ℕ :=
  if shiftSize ≤ 28 then (c.getD ((shiftSize - 1)/8) 0,(shiftSize - 1)%8)
  else (d.getD ((shiftSize - 29)/8) 0,(shiftSize - 29)%8)

def permute {n : ℕ} (table : List ℕ) (m : ℕ) (v : Vector Byte n) : Vector Byte m :=
  .ofFn fun i => orBits (fun j => bitAt v (table.getD (8*i + j) 0)) 0

structure KeySet where
  k : Vector Byte 8
  c : Vector Byte 4
  d : Vector Byte 4
  deriving DecidableEq

/-- A half rotated inside three and a half bytes. -/
def rotateHalf (shiftSize : ℕ) (half : Vector Byte 4) : Vector Byte 4 :=
  let shiftByte := if shiftSize = 1 then 0x80#8 else 0xC0#8
  let firstShiftBits := shiftByte &&& half.get 0
  let secondShiftBits := shiftByte &&& half.get 1
  let thirdShiftBits := shiftByte &&& half.get 2
  let fourthShiftBits := shiftByte &&& half.get 3
  #v[(half.get 0 <<< shiftSize) ||| (secondShiftBits >>> (8 - shiftSize)),
    (half.get 1 <<< shiftSize) ||| (thirdShiftBits >>> (8 - shiftSize)),
    (half.get 2 <<< shiftSize) ||| (fourthShiftBits >>> (8 - shiftSize)),
    (half.get 3 <<< shiftSize) ||| (firstShiftBits >>> (4 - shiftSize))]

/-- Row 0: the 56 permuted key bits and their two halves. -/
def firstKeySet (mainKey : Vector Byte 8) : KeySet :=
  let k := Vector.ofFn fun i : Fin 8 =>
    if i.val < 7 then orBits (fun j => bitAt mainKey (initialKeyPermutaion.getD (8*i + j) 0)) 0 else 0
  { k
    c := #v[k[0],k[1],k[2],k[3] &&& 0xF0#8]
    d := #v[((k[3] &&& 0x0F#8) <<< 4) ||| ((k[4] &&& 0xF0#8) >>> 4),
      ((k[4] &&& 0x0F#8) <<< 4) ||| ((k[5] &&& 0xF0#8) >>> 4),
      ((k[5] &&& 0x0F#8) <<< 4) ||| ((k[6] &&& 0xF0#8) >>> 4),(k[6] &&& 0x0F#8) <<< 4] }

/-- Row `i` from row `i - 1`; its `k` is or-ed into what the array holds there. -/
def nextKeySet (shiftSize : ℕ) (prev old : KeySet) : KeySet :=
  let c := rotateHalf shiftSize prev.c
  let d := rotateHalf shiftSize prev.d
  { k := .ofFn fun i : Fin 8 =>
      if i.val < 6 then
        orBits (fun j => subKeyBitAt c d (subKeyPermutation.getD (8*i + j) 0)) (old.k.getD i 0)
      else old.k.getD i 0
    c, d }

def subKeyRow (mainKey : Vector Byte 8) (keySets : ℕ → KeySet) : ℕ → KeySet
  | 0 => firstKeySet mainKey
  | i+1 => nextKeySet (keyShiftSizes.getD (i+1) 0).toNat (subKeyRow mainKey keySets i) (keySets (i+1))

def KeySet.zero : KeySet := ⟨.replicate 8 0,.replicate 4 0,.replicate 4 0⟩

/-- `generate_sub_keys` on an array `key_sets` with any contents. -/
def generateSubKeys (mainKey : Vector Byte 8) (keySets : Vector KeySet 17) : Vector KeySet 17 :=
  .ofFn fun i => subKeyRow mainKey (fun i => keySets.getD i .zero) i

/-- `(unsigned char)S[row*16+column]`. -/
def sBoxEntry (S : List ℕ) (row column : Byte) : Byte :=
  .ofNat 8 (S.getD (row.toNat*16 + column.toNat) 0)

/-- The eight S-boxes, two to a byte. -/
def substitute (er : Vector Byte 6) : Vector Byte 4 := Id.run do
  -- byte 1
  let row := ((er[0] &&& 0x80#8) >>> 6) ||| ((er[0] &&& 0x04#8) >>> 2)
  let column := (er[0] &&& 0x78#8) >>> 3
  let ser0 := sBoxEntry S1 row column <<< 4
  let row := (er[0] &&& 0x02#8) ||| ((er[1] &&& 0x10#8) >>> 4)
  let column := ((er[0] &&& 0x01#8) <<< 3) ||| ((er[1] &&& 0xE0#8) >>> 5)
  let ser0 := ser0 ||| sBoxEntry S2 row column
  -- byte 2
  let row := ((er[1] &&& 0x08#8) >>> 2) ||| ((er[2] &&& 0x40#8) >>> 6)
  let column := ((er[1] &&& 0x07#8) <<< 1) ||| ((er[2] &&& 0x80#8) >>> 7)
  let ser1 := sBoxEntry S3 row column <<< 4
  let row := ((er[2] &&& 0x20#8) >>> 4) ||| (er[2] &&& 0x01#8)
  let column := (er[2] &&& 0x1E#8) >>> 1
  let ser1 := ser1 ||| sBoxEntry S4 row column
  -- byte 3
  let row := ((er[3] &&& 0x80#8) >>> 6) ||| ((er[3] &&& 0x04#8) >>> 2)
  let column := (er[3] &&& 0x78#8) >>> 3
  let ser2 := sBoxEntry S5 row column <<< 4
  let row := (er[3] &&& 0x02#8) ||| ((er[4] &&& 0x10#8) >>> 4)
  let column := ((er[3] &&& 0x01#8) <<< 3) ||| ((er[4] &&& 0xE0#8) >>> 5)
  let ser2 := ser2 ||| sBoxEntry S6 row column
  -- byte 4
  let row := ((er[4] &&& 0x08#8) >>> 2) ||| ((er[5] &&& 0x40#8) >>> 6)
  let column := ((er[4] &&& 0x07#8) <<< 1) ||| ((er[5] &&& 0x80#8) >>> 7)
  let ser3 := sBoxEntry S7 row column <<< 4
  let row := ((er[5] &&& 0x20#8) >>> 4) ||| (er[5] &&& 0x01#8)
  let column := (er[5] &&& 0x1E#8) >>> 1
  let ser3 := ser3 ||| sBoxEntry S8 row column
  return #v[ser0,ser1,ser2,ser3]

/-- The new right half but for the left half: expand, add the row of the key table, substitute
and permute. -/
def roundFunction (keyRow : Vector Byte 8) (r : Vector Byte 4) : Vector Byte 4 :=
  let er := permute messageExpansion 6 r
  let er := Vector.ofFn fun i : Fin 6 => er[i] ^^^ keyRow.getD i 0
  permute rightSubMessagePermutation 4 (substitute er)

abbrev KeyTable := Vector (Vector Byte 8) 17

def keyIndex (mode : BitVec 1) (k : ℕ) : ℕ := if mode = DECRYPTION_MODE then 17 - k else k

def processMessage (keySetsK : KeyTable) (mode : BitVec 1) (messagePiece : Vector Byte 8) :
    Vector Byte 8 :=
  let initialPermutation := permute initialMessagePermutation 8 messagePiece
  let l := Vector.ofFn fun i : Fin 4 => initialPermutation.getD i 0
  let r := Vector.ofFn fun i : Fin 4 => initialPermutation.getD (i + 4) 0
  let (l,r) := (List.range' 1 16).foldl (fun (l,r) k =>
    let ln := r
    let rn := roundFunction (keySetsK.getD (keyIndex mode k) (.replicate 8 0)) r
    (ln,xorBytes rn l)) (l,r)
  let preEndPermutation := r ++ l
  permute finalMessagePermutation 8 preEndPermutation

/-- The core `des` with its table and mode ports held fixed. -/
def des {A : Type} {V : A → Type} (keySetsK : KeyTable) (mode : BitVec 1) :
    Piece 8 → Cmd InputStrm OutputStrm NetWord V (Piece 8) :=
  blockCore (by decide) (processMessage keySetsK mode)

end EncryptionAccelerators.Net
