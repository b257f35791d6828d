/-
AES-128 and AES key unwrap of `wpa.h`.

A block is 16 bytes, the round keys are 11 blocks one after the other.
The inverse S-box is a static table that the first decryption fills; it
is handed through.
-/
import Mathlib.Logic.Function.Basic
import Mathlib.Data.Fin.VecNotation
import Ncmips.Lib.Indices
import Ncmips.Lib.Words

namespace Ncmips.Wpa

open Words

-- ================================================================= bytes

def aesSboxTable : List UInt8 :=
  [0x63, 0x7c, 0x77, 0x7b, 0xf2, 0x6b, 0x6f, 0xc5, 0x30, 0x01, 0x67, 0x2b, 0xfe, 0xd7, 0xab, 0x76,
   0xca, 0x82, 0xc9, 0x7d, 0xfa, 0x59, 0x47, 0xf0, 0xad, 0xd4, 0xa2, 0xaf, 0x9c, 0xa4, 0x72, 0xc0,
   0xb7, 0xfd, 0x93, 0x26, 0x36, 0x3f, 0xf7, 0xcc, 0x34, 0xa5, 0xe5, 0xf1, 0x71, 0xd8, 0x31, 0x15,
   0x04, 0xc7, 0x23, 0xc3, 0x18, 0x96, 0x05, 0x9a, 0x07, 0x12, 0x80, 0xe2, 0xeb, 0x27, 0xb2, 0x75,
   0x09, 0x83, 0x2c, 0x1a, 0x1b, 0x6e, 0x5a, 0xa0, 0x52, 0x3b, 0xd6, 0xb3, 0x29, 0xe3, 0x2f, 0x84,
   0x53, 0xd1, 0x00, 0xed, 0x20, 0xfc, 0xb1, 0x5b, 0x6a, 0xcb, 0xbe, 0x39, 0x4a, 0x4c, 0x58, 0xcf,
   0xd0, 0xef, 0xaa, 0xfb, 0x43, 0x4d, 0x33, 0x85, 0x45, 0xf9, 0x02, 0x7f, 0x50, 0x3c, 0x9f, 0xa8,
   0x51, 0xa3, 0x40, 0x8f, 0x92, 0x9d, 0x38, 0xf5, 0xbc, 0xb6, 0xda, 0x21, 0x10, 0xff, 0xf3, 0xd2,
   0xcd, 0x0c, 0x13, 0xec, 0x5f, 0x97, 0x44, 0x17, 0xc4, 0xa7, 0x7e, 0x3d, 0x64, 0x5d, 0x19, 0x73,
   0x60, 0x81, 0x4f, 0xdc, 0x22, 0x2a, 0x90, 0x88, 0x46, 0xee, 0xb8, 0x14, 0xde, 0x5e, 0x0b, 0xdb,
   0xe0, 0x32, 0x3a, 0x0a, 0x49, 0x06, 0x24, 0x5c, 0xc2, 0xd3, 0xac, 0x62, 0x91, 0x95, 0xe4, 0x79,
   0xe7, 0xc8, 0x37, 0x6d, 0x8d, 0xd5, 0x4e, 0xa9, 0x6c, 0x56, 0xf4, 0xea, 0x65, 0x7a, 0xae, 0x08,
   0xba, 0x78, 0x25, 0x2e, 0x1c, 0xa6, 0xb4, 0xc6, 0xe8, 0xdd, 0x74, 0x1f, 0x4b, 0xbd, 0x8b, 0x8a,
   0x70, 0x3e, 0xb5, 0x66, 0x48, 0x03, 0xf6, 0x0e, 0x61, 0x35, 0x57, 0xb9, 0x86, 0xc1, 0x1d, 0x9e,
   0xe1, 0xf8, 0x98, 0x11, 0x69, 0xd9, 0x8e, 0x94, 0x9b, 0x1e, 0x87, 0xe9, 0xce, 0x55, 0x28, 0xdf,
   0x8c, 0xa1, 0x89, 0x0d, 0xbf, 0xe6, 0x42, 0x68, 0x41, 0x99, 0x2d, 0x0f, 0xb0, 0x54, 0xbb, 0x16]

def aesSbox (x : UInt8) : UInt8 := aesSboxTable.getD x.toNat 0

def aesXt (x : UInt8) : UInt8 := (x <<< 1) ^^^ (if x &&& 0x80 ≠ 0 then 0x1b else 0)

/-- `while (b)`; a byte has eight bits. -/
def aesMulLoop : (fuel : Nat) → (a b r : UInt8) → UInt8
  | 0, _, _, r => r
  | fuel + 1, a, b, r =>
      if b = 0 then r
      else aesMulLoop fuel (aesXt a) (b >>> 1) (if b &&& 1 ≠ 0 then r ^^^ a else r)

def aesMul (a b : UInt8) : UInt8 := aesMulLoop 8 a b 0

/-- `aes_inv_sbox`, filled if it is not. -/
def aesInvFill (inv : UInt8 → UInt8) : UInt8 → UInt8 :=
  if inv 0 = 0 then
    (List.range 256).foldl (fun inv i => Function.update inv (aesSbox (.ofNat i)) (.ofNat i)) inv
  else inv

-- ================================================================== keys

abbrev Block := Vector UInt8 16

/-- The next four bytes of the round keys, and the round constant after
them. -/
def aesKeyWord (s : List UInt8 × UInt8) (i : Nat) : List UInt8 × UInt8 :=
  let (rk, rcon) := s
  let t0 := rk.getD (i - 4) 0
  let t1 := rk.getD (i - 3) 0
  let t2 := rk.getD (i - 2) 0
  let t3 := rk.getD (i - 1) 0
  let (t, rcon) :=
    if i % 16 = 0 then
      ([aesSbox t1 ^^^ rcon, aesSbox t2, aesSbox t3, aesSbox t0], aesXt rcon)
    else ([t0, t1, t2, t3], rcon)
  (rk ++ (List.range 4).map fun j => rk.getD (i - 16 + j) 0 ^^^ t.getD j 0, rcon)

/-- 11 round keys. -/
def aes128Key (key : Block) : List UInt8 :=
  (((List.range 40).map fun w => 16 + 4 * w).foldl aesKeyWord (key.toList, 1)).1

-- ================================================================ rounds

/-- `(i + 4 * (i & 3)) & 15` -/
def shiftRow (i : Fin 16) : Fin 16 := .ofNat 16 (i + 4 * (i % 4))

/-- Every column of four through `f`. -/
def columns (f : (Fin 4 → UInt8) → Fin 4 → UInt8) (t : Block) : Block := .ofFn fun i =>
  f (fun k => t.get (.ofNat 16 (i / 4 * 4 + k))) (.ofNat 4 i)

def mixColumn (a : Fin 4 → UInt8) : Fin 4 → UInt8 :=
  let x := a 0 ^^^ a 1 ^^^ a 2 ^^^ a 3
  ![a 0 ^^^ (x ^^^ aesXt (a 0 ^^^ a 1)),
    a 1 ^^^ (x ^^^ aesXt (a 1 ^^^ a 2)),
    a 2 ^^^ (x ^^^ aesXt (a 2 ^^^ a 3)),
    a 3 ^^^ (x ^^^ aesXt (a 3 ^^^ a 0))]

def invMixColumn (a : Fin 4 → UInt8) : Fin 4 → UInt8 :=
  ![aesMul (a 0) 14 ^^^ aesMul (a 1) 11 ^^^ aesMul (a 2) 13 ^^^ aesMul (a 3) 9,
    aesMul (a 0) 9 ^^^ aesMul (a 1) 14 ^^^ aesMul (a 2) 11 ^^^ aesMul (a 3) 13,
    aesMul (a 0) 13 ^^^ aesMul (a 1) 9 ^^^ aesMul (a 2) 14 ^^^ aesMul (a 3) 11,
    aesMul (a 0) 11 ^^^ aesMul (a 1) 13 ^^^ aesMul (a 2) 9 ^^^ aesMul (a 3) 14]

def addKey (rk : List UInt8) (r : Nat) (b : Block) : Block :=
  .ofFn fun i => b.get i ^^^ rk.getD (16 * r + i) 0

/-- Round `r`, 1 to 10; the last one does not mix. -/
def encryptRound (rk : List UInt8) (b : Block) (r : Nat) : Block :=
  let t : Block := .ofFn fun i => aesSbox (b.get (shiftRow i))
  let t := if r = 10 then t else columns mixColumn t
  addKey rk r t

def aes128Encrypt (rk : List UInt8) (b : Block) : Block :=
  (List.range' 1 10).foldl (encryptRound rk) (addKey rk 0 b)

def decryptRound (rk : List UInt8) (inv : UInt8 → UInt8) (b : Block) (r : Nat) : Block :=
  let t := addKey rk r b
  let t := if r ≠ 10 then columns invMixColumn t else t
  (List.finRange 16).foldl (fun b i => b.set (shiftRow i) (inv (t.get i))) b

/-- The block, and the table as it is then. -/
def aes128Decrypt (rk : List UInt8) (inv : UInt8 → UInt8) (b : Block) :
    Block × (UInt8 → UInt8) :=
  let inv := aesInvFill inv
  (addKey rk 0 ((List.range' 1 10).reverse.foldl (decryptRound rk inv) b), inv)

-- ================================================================ unwrap

/-- Half a block. -/
abbrev Reg := Fin 8 → UInt8

def join (a r : Reg) : Block := .ofFn fun k =>
  if h : k.val < 8 then a ⟨k, h⟩ else r ⟨k - 8, by omega⟩

def upper (b : Block) : Reg := fun k => b.get ⟨k, by omega⟩

def lower (b : Block) : Reg := fun k => b.get ⟨8 + k, by omega⟩

structure Unwrap where
  a : Reg
  out : Nat → UInt8
  inv : UInt8 → UInt8

/-- The register at `i`, from 1 on, of pass `j`. -/
def unwrapTurn (rk : List UInt8) (n : Nat) (s : Unwrap) (ji : Nat × Nat) : Unwrap :=
  let (j, i) := ji
  let t := u32 (n * j + i)
  let a : Reg := fun k => s.a k ^^^ (if 4 ≤ k.val then .ofNat (t / 2 ^ (8 * (7 - k.val))) else 0)
  let (b, inv) := aes128Decrypt rk s.inv (join a fun k => s.out (8 * (i - 1) + k))
  { a := upper b
    out := (List.finRange 8).foldl
      (fun out (k : Fin 8) => Function.update out (8 * (i - 1) + k) (lower b k)) s.out
    inv }

/-- `for (j = 5; j >= 0; j--) for (i = n; i >= 1; i--)` -/
def unwrapTurns (n : Nat) : List (Nat × Nat) :=
  (List.range 6).reverse.flatMap fun j => (List.range' 1 n).reverse.map fun i => (j, i)

/-- `in` has `(n + 1) * 8` bytes; what is returned, what is in `out`
then, and the table. -/
def aesUnwrap (inv : UInt8 → UInt8) (kek : Block) (inp : List UInt8) (n : Nat) :
    Int × List UInt8 × (UInt8 → UInt8) :=
  let rk := aes128Key kek
  let s : Unwrap := (unwrapTurns n).foldl (unwrapTurn rk n)
    { a := fun k => inp.getD k 0
      out := fun i => if i < u32 (8 * n) then inp.getD (8 + i) 0 else 0
      inv }
  (if ∀ k, s.a k = 0xa6 then 0 else -1, (List.range (8 * n)).map s.out, s.inv)

end Ncmips.Wpa
