/-
What the block cipher should be: AES-128 as FIPS 197 has it, its S-box by
the field's inverses and not by a table.
-/
import Ncmips.Wpa.Aes

namespace Ncmips.Wpa.Fips197

-- ================================================================= field

/-- The product of two polynomials over GF(2), the second of degree less
than `n`. -/
def polyMul (a b : Nat) : (n : Nat) → Nat
  | 0 => 0
  | n + 1 => polyMul a b n ^^^ (b / 2 ^ n % 2 * (a * 2 ^ n))

/-- What is left of one of degree less than `8 + n` modulo
x^8 + x^4 + x^3 + x + 1. -/
def polyMod (p : Nat) : (n : Nat) → Nat
  | 0 => p
  | n + 1 => polyMod (p ^^^ (p / 2 ^ (8 + n) % 2 * (0x11b * 2 ^ n))) n

/-- Multiplication in GF(2^8). -/
def mul (a b : UInt8) : UInt8 := .ofNat (polyMod (polyMul a.toNat b.toNat 8) 7)

def pow (a : UInt8) : Nat → UInt8
  | 0 => 1
  | n + 1 => mul a (pow a n)

/-- `a^254`: the inverse, and 0 for 0. -/
def inv (a : UInt8) : UInt8 :=
  let a3 := mul (mul a a) a
  let a6 := mul a3 a3
  let a12 := mul a6 a6
  let a15 := mul a12 a3
  let a30 := mul a15 a15
  let a60 := mul a30 a30
  let a120 := mul a60 a60
  let a127 := mul (mul a120 a6) a
  mul a127 a127

-- ============================================================== functions

def affineBit (b : Nat) (i : Nat) : Bool :=
  b.testBit i ^^ b.testBit ((i + 4) % 8) ^^ b.testBit ((i + 5) % 8) ^^ b.testBit ((i + 6) % 8)
    ^^ b.testBit ((i + 7) % 8) ^^ (0x63).testBit i

def sbox (a : UInt8) : UInt8 :=
  .ofNat ((List.range 8).foldl (fun v i => if affineBit (inv a).toNat i then v + 2 ^ i else v) 0)

/-- By row and column. -/
abbrev State := Fin 4 → Fin 4 → UInt8

def subBytes (s : State) : State := fun r c => sbox (s r c)

def shiftRows (s : State) : State := fun r c => s r (c + r)

def mixColumns (s : State) : State := fun r c =>
  mul 2 (s r c) ^^^ mul 3 (s (r + 1) c) ^^^ s (r + 2) c ^^^ s (r + 3) c

-- =========================================================== key expansion

abbrev Word := Fin 4 → UInt8

def rotWord (w : Word) : Word := fun k => w (k + 1)

def subWord (w : Word) : Word := fun k => sbox (w k)

def rcon (j : Nat) : Word := fun k => if k = 0 then pow 2 (j - 1) else 0

/-- Word `i` of the expanded key. -/
def word (key : Block) (i : Nat) : Word :=
  if i < 4 then fun k => key.get (.ofNat 16 (4 * i + k))
  else
    let temp := word key (i - 1)
    let temp := if i % 4 = 0 then fun k => subWord (rotWord temp) k ^^^ rcon (i / 4) k else temp
    fun k => word key (i - 4) k ^^^ temp k
termination_by i

def addRoundKey (w : Nat → Word) (round : Nat) (s : State) : State := fun r c =>
  s r c ^^^ w (4 * round + c) r

-- ================================================================= cipher

def ofBlock (b : Block) : State := fun r c => b.get (.ofNat 16 (r + 4 * c))

def toBlock (s : State) : Block := .ofFn fun i => s (.ofNat 4 i) (.ofNat 4 (i / 4))

def cipher (key b : Block) : Block :=
  let w := word key
  let s := addRoundKey w 0 (ofBlock b)
  let s := (List.range' 1 9).foldl
    (fun s round => addRoundKey w round (mixColumns (shiftRows (subBytes s)))) s
  toBlock (addRoundKey w 10 (shiftRows (subBytes s)))

end Ncmips.Wpa.Fips197
