import Mathlib

/-! The AES of FIPS 197: bytes are polynomials over GF(2) modulo `x^8 + x^4 + x^3 + x + 1`,
columns are polynomials over that field modulo `x^4 + 1`. -/
namespace EncryptionAccelerators.Fips197

abbrev Byte := BitVec 8

/-- The product of two polynomials over GF(2). -/
def clmul (a b : Byte) : BitVec 16 :=
  (List.range 8).foldl (fun s i => if b.getLsbD i then s ^^^ (a.setWidth 16 <<< i) else s) 0

/-- The remainder modulo `x^8 + x^4 + x^3 + x + 1`, from the highest power down. -/
def reduce (p : BitVec 16) : Byte :=
  ((List.range 8).foldl (fun p i =>
    if p.getLsbD (15 - i) then p ^^^ (0x11b#16 <<< (7 - i)) else p) p).setWidth 8

/-- Multiplication in GF(2^8). -/
def mul (a b : Byte) : Byte := reduce (clmul a b)

/-- The multiplicative inverse `a^254`; zero is mapped to itself. -/
def inv (a : Byte) : Byte :=
  let a2 := mul a a
  let a3 := mul a2 a
  let a6 := mul a3 a3
  let a12 := mul a6 a6
  let a15 := mul a12 a3
  let a30 := mul a15 a15
  let a60 := mul a30 a30
  let a63 := mul a60 a3
  let a126 := mul a63 a63
  let a127 := mul a126 a
  mul a127 a127

/-- The affine transformation over GF(2). -/
def affine (b : Byte) : Byte :=
  b ^^^ b.rotateLeft 1 ^^^ b.rotateLeft 2 ^^^ b.rotateLeft 3 ^^^ b.rotateLeft 4 ^^^ 0x63#8

def subByte (a : Byte) : Byte := affine (inv a)

/-- `s[r][c]`. -/
abbrev State := Vector (Vector Byte 4) 4

abbrev Word := Vector Byte 4

def subBytes (s : State) : State := .ofFn fun r => .ofFn fun c => subByte ((s.get r).get c)

def shiftRows (s : State) : State := .ofFn fun r => .ofFn fun c => (s.get r).get (c + r)

/-- The product of two polynomials with coefficients `a[j]` and `b[k]` modulo `x^4 + 1`. -/
def colMul (a b : Word) : Word := .ofFn fun i =>
  (List.finRange 4).foldl (fun s j => s ^^^ mul (a.get j) (b.get (i - j))) 0

/-- `{03}x^3 + {01}x^2 + {01}x + {02}`, the constant coefficient first. -/
def mixPolynomial : Word := #v[0x02,0x01,0x01,0x03]

def mixColumns (s : State) : State :=
  let columns := Vector.ofFn fun c : Fin 4 => colMul mixPolynomial (.ofFn fun r => (s.get r).get c)
  .ofFn fun r => .ofFn fun c => (columns.get c).get r

/-- The words `w[4*round]` to `w[4*round + 3]` are the columns of the round key. -/
def addRoundKey (w : List Word) (round : ℕ) (s : State) : State :=
  .ofFn fun r => .ofFn fun c => (s.get r).get c ^^^ (w.getD (4*round + c) (.replicate 4 0)).get r

def rounds (w : List Word) (s : State) : ℕ → State
  | 0 => addRoundKey w 0 s
  | n+1 => addRoundKey w (n+1) (mixColumns (shiftRows (subBytes (rounds w s n))))

/-- `Cipher` with `Nr` rounds. -/
def cipher (Nr : ℕ) (w : List Word) (input : Vector Byte 16) : Vector Byte 16 :=
  let s := rounds w (.ofFn fun r => .ofFn fun c => input[r.val + 4*c.val]) (Nr - 1)
  let s := addRoundKey w Nr (shiftRows (subBytes s))
  .ofFn fun k => s[k.val%4][k.val/4]

def rotWord (a : Word) : Word := #v[a.get 1,a.get 2,a.get 3,a.get 0]

def subWord (a : Word) : Word := a.map subByte

def xorWord (a b : Word) : Word := .ofFn fun j => a.get j ^^^ b.get j

/-- `[x^(j-1), {00}, {00}, {00}]`. -/
def rcon (j : ℕ) : Word := #v[(mul 0x02)^[j - 1] 1,0,0,0]

/-- The word after the words `w` in the schedule of a key of `Nk` words. -/
def nextWord (Nk : ℕ) (key : ℕ → Word) (w : List Word) : Word :=
  let i := w.length
  if i < Nk then key i
  else
    let temp := w.getD (i - 1) (.replicate 4 0)
    let temp :=
      if i % Nk = 0 then xorWord (subWord (rotWord temp)) (rcon (i / Nk))
      else if Nk > 6 ∧ i % Nk = 4 then subWord temp
      else temp
    xorWord (w.getD (i - Nk) (.replicate 4 0)) temp

/-- The first `n` words of the schedule. -/
def schedule (Nk : ℕ) (key : ℕ → Word) : ℕ → List Word
  | 0 => []
  | n+1 => schedule Nk key n ++ [nextWord Nk key (schedule Nk key n)]

/-- `KeyExpansion`: the words of `Nr + 1 = Nk + 7` round keys. -/
def keyExpansion (Nk : ℕ) (key : ℕ → Word) : List Word := schedule Nk key (4*(Nk + 7))

end EncryptionAccelerators.Fips197
