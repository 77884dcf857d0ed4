import EncryptionAccelerators.BlockCore

/-! `AES.cpp`: the block function of the core `aes_cipher`. The global `cipher_state` is set in
full from the input of each call, so it is a value passed along here. -/
namespace EncryptionAccelerators.Net
open Dataflow

/-- `cipher_state[row][column]`. -/
abbrev CipherState := Vector (Vector Byte 4) 4

def SBox : List Byte := [
    0x63,0x7c,0x77,0x7b,0xf2,0x6b,0x6f,0xc5,0x30,0x01,0x67,0x2b,0xfe,0xd7,0xab,0x76,
    0xca,0x82,0xc9,0x7d,0xfa,0x59,0x47,0xf0,0xad,0xd4,0xa2,0xaf,0x9c,0xa4,0x72,0xc0,
    0xb7,0xfd,0x93,0x26,0x36,0x3f,0xf7,0xcc,0x34,0xa5,0xe5,0xf1,0x71,0xd8,0x31,0x15,
    0x04,0xc7,0x23,0xc3,0x18,0x96,0x05,0x9a,0x07,0x12,0x80,0xe2,0xeb,0x27,0xb2,0x75,
    0x09,0x83,0x2c,0x1a,0x1b,0x6e,0x5a,0xa0,0x52,0x3b,0xd6,0xb3,0x29,0xe3,0x2f,0x84,
    0x53,0xd1,0x00,0xed,0x20,0xfc,0xb1,0x5b,0x6a,0xcb,0xbe,0x39,0x4a,0x4c,0x58,0xcf,
    0xd0,0xef,0xaa,0xfb,0x43,0x4d,0x33,0x85,0x45,0xf9,0x02,0x7f,0x50,0x3c,0x9f,0xa8,
    0x51,0xa3,0x40,0x8f,0x92,0x9d,0x38,0xf5,0xbc,0xb6,0xda,0x21,0x10,0xff,0xf3,0xd2,
    0xcd,0x0c,0x13,0xec,0x5f,0x97,0x44,0x17,0xc4,0xa7,0x7e,0x3d,0x64,0x5d,0x19,0x73,
    0x60,0x81,0x4f,0xdc,0x22,0x2a,0x90,0x88,0x46,0xee,0xb8,0x14,0xde,0x5e,0x0b,0xdb,
    0xe0,0x32,0x3a,0x0a,0x49,0x06,0x24,0x5c,0xc2,0xd3,0xac,0x62,0x91,0x95,0xe4,0x79,
    0xe7,0xc8,0x37,0x6d,0x8d,0xd5,0x4e,0xa9,0x6c,0x56,0xf4,0xea,0x65,0x7a,0xae,0x08,
    0xba,0x78,0x25,0x2e,0x1c,0xa6,0xb4,0xc6,0xe8,0xdd,0x74,0x1f,0x4b,0xbd,0x8b,0x8a,
    0x70,0x3e,0xb5,0x66,0x48,0x03,0xf6,0x0e,0x61,0x35,0x57,0xb9,0x86,0xc1,0x1d,0x9e,
    0xe1,0xf8,0x98,0x11,0x69,0xd9,0x8e,0x94,0x9b,0x1e,0x87,0xe9,0xce,0x55,0x28,0xdf,
    0x8c,0xa1,0x89,0x0d,0xbf,0xe6,0x42,0x68,0x41,0x99,0x2d,0x0f,0xb0,0x54,0xbb,0x16]

def xtime (A : Byte) : Byte :=
  let result := A <<< 1
  if A &&& 0x80#8 ≠ 0 then result ^^^ 0x1b#8 else result

def Multiplication (A B : Byte) : Byte :=
  ((List.range 8).foldl (fun (sum,temp) i =>
    (if A &&& (0x01#8 <<< i) ≠ 0 then sum ^^^ temp else sum,xtime temp)) (0,B)).1

def fourTermMultiplication (A B : Vector Byte 4) : Vector Byte 4 :=
  let product := fun i j => Multiplication (A.get i) (B.get j)
  #v[product 0 0 ^^^ product 3 1 ^^^ product 2 2 ^^^ product 1 3,
    product 1 0 ^^^ product 0 1 ^^^ product 3 2 ^^^ product 2 3,
    product 2 0 ^^^ product 1 1 ^^^ product 0 2 ^^^ product 3 3,
    product 3 0 ^^^ product 2 1 ^^^ product 1 2 ^^^ product 0 3]

def subBytes (cipherState : CipherState) : CipherState :=
  cipherState.map fun row => row.map fun b => SBox.getD b.toNat 0

def shiftRows (cipherState : CipherState) : CipherState :=
  let byte := fun i j => (cipherState.get i).get j
  #v[cipherState.get 0,
    #v[byte 1 1,byte 1 2,byte 1 3,byte 1 0],
    #v[byte 2 2,byte 2 3,byte 2 0,byte 2 1],
    #v[byte 3 3,byte 3 0,byte 3 1,byte 3 2]]

def mixColumns (cipherState : CipherState) : CipherState :=
  let A : Vector Byte 4 := #v[0x02,0x01,0x01,0x03]
  let temp := Vector.ofFn fun i : Fin 4 =>
    let column := fun j => (cipherState.get j).get i
    fourTermMultiplication A #v[column 0,column 1,column 2,column 3]
  .ofFn fun j => .ofFn fun i => (temp.get i).get j

def addRoundKey (wBias : Vector Byte 16) (cipherState : CipherState) : CipherState :=
  .ofFn fun i => .ofFn fun j => (cipherState.get i).get j ^^^ wBias.getD (i + j*4) 0

/-- The round keys, one row a round. -/
abbrev RoundKeyTable := Vector (Vector Byte 16) 11

def aesCipher (w : RoundKeyTable) (input : Vector Byte 16) : Vector Byte 16 :=
  let cipherState : CipherState := .ofFn fun j => .ofFn fun i => input.getD (j + 4*i) 0
  let cipherState := addRoundKey w[0] cipherState
  let cipherState := (List.range' 1 9).foldl (fun cipherState round =>
    addRoundKey (w.getD round (.replicate 16 0)) (mixColumns (shiftRows (subBytes cipherState))))
    cipherState
  let cipherState := addRoundKey w[10] (shiftRows (subBytes cipherState))
  .ofFn fun k => (cipherState.getD (k%4) (.replicate 4 0)).getD (k/4) 0

lemma aesBlock_pos : 0 < 16 := by omega

/-- The core `aes_cipher` with its table port held fixed. -/
def aesCipherCore {A : Type} {V : A → Type} (w : RoundKeyTable) :
    Piece 16 → Cmd InputStrm OutputStrm NetWord V (Piece 16) :=
  blockCore aesBlock_pos (aesCipher w)

end EncryptionAccelerators.Net
