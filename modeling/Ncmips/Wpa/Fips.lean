/-
What the hashes should be: SHA-1 as FIPS 180 has it, over bytes, HMAC as
RFC 2104 has it over any hash with blocks of 64 bytes, and the key stream
of the 802.11 PRF.
-/
import Ncmips.Wpa.Sha1

namespace Ncmips.Wpa.Fips

-- ================================================================ SHA-1

def rotl (n : Nat) (x : UInt32) : UInt32 := ⟨x.toBitVec.rotateLeft n⟩

def ch (x y z : UInt32) : UInt32 := (x &&& y) ^^^ (~~~x &&& z)

def parity (x y z : UInt32) : UInt32 := x ^^^ y ^^^ z

def maj (x y z : UInt32) : UInt32 := (x &&& y) ^^^ (x &&& z) ^^^ (y &&& z)

/-- The function and the constant of round `t`. -/
def roundFn (t : Nat) : (UInt32 → UInt32 → UInt32 → UInt32) × UInt32 :=
  if t < 20 then (ch, 0x5a827999)
  else if t < 40 then (parity, 0x6ed9eba1)
  else if t < 60 then (maj, 0x8f1bbcdc)
  else (parity, 0xca62c1d6)

/-- A message of less than 2^64 bits, padded to whole blocks: a one bit,
the fewest zeros, the length in 64 bits. -/
def pad (m : List UInt8) : List UInt8 :=
  m ++ [0x80] ++ List.replicate ((119 - m.length % 64) % 64) 0
    ++ (List.range 8).map fun i => .ofNat (8 * m.length / 2 ^ (8 * (7 - i)))

/-- Word `t` of block `i`. -/
def word (padded : List UInt8) (i t : Nat) : UInt32 :=
  let byte (j : Nat) : Nat := (padded.getD (64 * i + (4 * t + j)) 0).toNat
  .ofNat (byte 0 * 2 ^ 24 + byte 1 * 2 ^ 16 + byte 2 * 2 ^ 8 + byte 3)

/-- The message schedule of a block. -/
def schedule (m : Nat → UInt32) (t : Nat) : UInt32 :=
  if t < 16 then m t
  else
    rotl 1 (schedule m (t - 3) ^^^ schedule m (t - 8) ^^^ schedule m (t - 14)
      ^^^ schedule m (t - 16))
termination_by t

def round (w : Nat → UInt32) (s : Words5) (t : Nat) : Words5 :=
  let (f, k) := roundFn t
  { a := rotl 5 s.a + f s.b s.c s.d + s.e + k + w t
    b := s.a
    c := rotl 30 s.b
    d := s.c
    e := s.d }

/-- The hash value after a block. -/
def compress (h : Words5) (m : Nat → UInt32) : Words5 :=
  let s := (List.range 80).foldl (round (schedule m)) h
  { a := s.a + h.a, b := s.b + h.b, c := s.c + h.c, d := s.d + h.d, e := s.e + h.e }

def initial : Words5 :=
  { a := 0x67452301, b := 0xefcdab89, c := 0x98badcfe, d := 0x10325476, e := 0xc3d2e1f0 }

/-- A word's bytes, the high one first. -/
def bytesOf (w : UInt32) : List UInt8 :=
  [.ofNat (w.toNat / 2 ^ 24), .ofNat (w.toNat / 2 ^ 16), .ofNat (w.toNat / 2 ^ 8), .ofNat w.toNat]

def sha1 (m : List UInt8) : List UInt8 :=
  let padded := pad m
  let h := (List.range (padded.length / 64)).foldl (fun h i => compress h (word padded i)) initial
  h.toList.flatMap bytesOf

-- ================================================================= HMAC

/-- A key as one block. -/
def keyBlock (hash : List UInt8 → List UInt8) (key : List UInt8) : List UInt8 :=
  let key := if 64 < key.length then hash key else key
  key ++ List.replicate (64 - key.length) 0

/-- `H (K ⊕ opad, H (K ⊕ ipad, text))` -/
def hmac (hash : List UInt8 → List UInt8) (key text : List UInt8) : List UInt8 :=
  let k := keyBlock hash key
  hash (k.map (· ^^^ 0x5c) ++ hash (k.map (· ^^^ 0x36) ++ text))

-- ================================================================== PRF

/-- `HMAC (K, label || 0 || data || 0) || HMAC (K, label || 0 || data || 1) || …` -/
def prfStream (hash : List UInt8 → List UInt8) (key label data : List UInt8) (blocks : Nat) :
    List UInt8 :=
  (List.range blocks).flatMap fun i => hmac hash key (label ++ [0] ++ data ++ [.ofNat i])

end Ncmips.Wpa.Fips
