import EncryptionAccelerators.BitString

/-! The data encryption algorithm of FIPS 46-3 on bit strings, tables and all, as the standard
states it. Bits are numbered from the left, starting at 1. -/
namespace EncryptionAccelerators.Fips46
open BitString

def IP : List ℕ := [
  58,50,42,34,26,18,10,2,
  60,52,44,36,28,20,12,4,
  62,54,46,38,30,22,14,6,
  64,56,48,40,32,24,16,8,
  57,49,41,33,25,17,9,1,
  59,51,43,35,27,19,11,3,
  61,53,45,37,29,21,13,5,
  63,55,47,39,31,23,15,7]

def IPinv : List ℕ := [
  40,8,48,16,56,24,64,32,
  39,7,47,15,55,23,63,31,
  38,6,46,14,54,22,62,30,
  37,5,45,13,53,21,61,29,
  36,4,44,12,52,20,60,28,
  35,3,43,11,51,19,59,27,
  34,2,42,10,50,18,58,26,
  33,1,41,9,49,17,57,25]

def E : List ℕ := [
  32,1,2,3,4,5,
  4,5,6,7,8,9,
  8,9,10,11,12,13,
  12,13,14,15,16,17,
  16,17,18,19,20,21,
  20,21,22,23,24,25,
  24,25,26,27,28,29,
  28,29,30,31,32,1]

def P : List ℕ := [
  16,7,20,21,
  29,12,28,17,
  1,15,23,26,
  5,18,31,10,
  2,8,24,14,
  32,27,3,9,
  19,13,30,6,
  22,11,4,25]

def PC1 : List ℕ := [
  57,49,41,33,25,17,9,
  1,58,50,42,34,26,18,
  10,2,59,51,43,35,27,
  19,11,3,60,52,44,36,
  63,55,47,39,31,23,15,
  7,62,54,46,38,30,22,
  14,6,61,53,45,37,29,
  21,13,5,28,20,12,4]

def PC2 : List ℕ := [
  14,17,11,24,1,5,
  3,28,15,6,21,10,
  23,19,12,4,26,8,
  16,7,27,20,13,2,
  41,52,31,37,47,55,
  30,40,51,45,33,48,
  44,49,39,56,34,53,
  46,42,50,36,29,32]

/-- Left shifts of iterations 1 to 16. -/
def leftShifts : List ℕ := [1,1,2,2,2,2,2,2,1,2,2,2,2,2,2,1]

def S1 : List ℕ := [
  14,4,13,1,2,15,11,8,3,10,6,12,5,9,0,7,
  0,15,7,4,14,2,13,1,10,6,12,11,9,5,3,8,
  4,1,14,8,13,6,2,11,15,12,9,7,3,10,5,0,
  15,12,8,2,4,9,1,7,5,11,3,14,10,0,6,13]

def S2 : List ℕ := [
  15,1,8,14,6,11,3,4,9,7,2,13,12,0,5,10,
  3,13,4,7,15,2,8,14,12,0,1,10,6,9,11,5,
  0,14,7,11,10,4,13,1,5,8,12,6,9,3,2,15,
  13,8,10,1,3,15,4,2,11,6,7,12,0,5,14,9]

def S3 : List ℕ := [
  10,0,9,14,6,3,15,5,1,13,12,7,11,4,2,8,
  13,7,0,9,3,4,6,10,2,8,5,14,12,11,15,1,
  13,6,4,9,8,15,3,0,11,1,2,12,5,10,14,7,
  1,10,13,0,6,9,8,7,4,15,14,3,11,5,2,12]

def S4 : List ℕ := [
  7,13,14,3,0,6,9,10,1,2,8,5,11,12,4,15,
  13,8,11,5,6,15,0,3,4,7,2,12,1,10,14,9,
  10,6,9,0,12,11,7,13,15,1,3,14,5,2,8,4,
  3,15,0,6,10,1,13,8,9,4,5,11,12,7,2,14]

def S5 : List ℕ := [
  2,12,4,1,7,10,11,6,8,5,3,15,13,0,14,9,
  14,11,2,12,4,7,13,1,5,0,15,10,3,9,8,6,
  4,2,1,11,10,13,7,8,15,9,12,5,6,3,0,14,
  11,8,12,7,1,14,2,13,6,15,0,9,10,4,5,3]

def S6 : List ℕ := [
  12,1,10,15,9,2,6,8,0,13,3,4,14,7,5,11,
  10,15,4,2,7,12,9,5,6,1,13,14,0,11,3,8,
  9,14,15,5,2,8,12,3,7,0,4,10,1,13,11,6,
  4,3,2,12,9,5,15,10,11,14,1,7,6,0,8,13]

def S7 : List ℕ := [
  4,11,2,14,15,0,8,13,3,12,9,7,5,10,6,1,
  13,0,11,7,4,9,1,10,14,3,5,12,2,15,8,6,
  1,4,11,13,12,3,7,14,10,15,6,8,0,5,9,2,
  6,11,13,8,1,4,10,7,9,5,0,15,14,2,3,12]

def S8 : List ℕ := [
  13,2,8,4,6,15,11,1,10,9,3,14,5,0,12,7,
  1,15,13,8,10,3,7,4,12,5,6,11,0,14,9,2,
  7,11,4,1,9,12,14,2,0,6,10,13,15,3,5,8,
  2,1,14,7,4,10,8,13,15,12,9,0,3,5,6,11]

/-- A selection function: the first and last bits give the row, the middle four the column. -/
def select (S : List ℕ) (b : BitVec 6) : BitVec 4 :=
  let i := 2*(b.getMsbD 0).toNat + (b.getMsbD 5).toNat
  let j := 8*(b.getMsbD 1).toNat + 4*(b.getMsbD 2).toNat + 2*(b.getMsbD 3).toNat +
    (b.getMsbD 4).toNat
  .ofNat 4 (S.getD (16*i + j) 0)

/-- The eight blocks of six bits through the eight selection functions. -/
def selection (x : BitVec 48) : BitVec 32 :=
  select S1 (x.extractLsb' 42 6) ++ select S2 (x.extractLsb' 36 6) ++
    select S3 (x.extractLsb' 30 6) ++ select S4 (x.extractLsb' 24 6) ++
    select S5 (x.extractLsb' 18 6) ++ select S6 (x.extractLsb' 12 6) ++
    select S7 (x.extractLsb' 6 6) ++ select S8 (x.extractLsb' 0 6)

/-- The cipher function `f(R, K)`. -/
def cipherFunction (R : BitVec 32) (K : BitVec 48) : BitVec 32 :=
  pick P 32 (selection (pick E 48 R ^^^ K))

/-- `C_n` and `D_n`. -/
def CD (key : BitVec 64) : ℕ → BitVec 28 × BitVec 28
  | 0 => ((pick PC1 56 key).extractLsb' 28 28,(pick PC1 56 key).extractLsb' 0 28)
  | n+1 => ((CD key n).1.rotateLeft (leftShifts.getD n 0),
      (CD key n).2.rotateLeft (leftShifts.getD n 0))

/-- The round key `K_n`. -/
def K (key : BitVec 64) (n : ℕ) : BitVec 48 := pick PC2 48 ((CD key n).1 ++ (CD key n).2)

/-- `L_n` and `R_n` of the computation on the permuted input `LR`. -/
def LR (keys : ℕ → BitVec 48) (input : BitVec 64) : ℕ → BitVec 32 × BitVec 32
  | 0 => (input.extractLsb' 32 32,input.extractLsb' 0 32)
  | n+1 => ((LR keys input n).2,
      (LR keys input n).1 ^^^ cipherFunction (LR keys input n).2 (keys (n+1)))

def crypt (keys : ℕ → BitVec 48) (block : BitVec 64) : BitVec 64 :=
  let out := LR keys (pick IP 64 block) 16
  pick IPinv 64 (out.2 ++ out.1)

def encrypt (key block : BitVec 64) : BitVec 64 := crypt (K key) block

/-- Deciphering uses the round keys in reverse order. -/
def decrypt (key block : BitVec 64) : BitVec 64 := crypt (fun n => K key (17 - n)) block

end EncryptionAccelerators.Fips46
