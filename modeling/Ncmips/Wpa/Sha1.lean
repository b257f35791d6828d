/-
SHA-1, HMAC-SHA1 and the 802.11 PRF of `wpa.h`.

A pointer and a length are a list of bytes. `sha1_update` takes one byte
after the other into a block of 64.
-/
import Mathlib.Tactic.Common
import Mathlib.Algebra.Group.Nat.Defs

namespace Ncmips.Wpa

-- ================================================================ SHA-1

/-- `h[5]` -/
structure Words5 where
  a : UInt32
  b : UInt32
  c : UInt32
  d : UInt32
  e : UInt32
  deriving DecidableEq, Repr

def Words5.toList (h : Words5) : List UInt32 := [h.a, h.b, h.c, h.d, h.e]

structure Sha1 where
  h : Words5
  /-- Bytes so far. -/
  len : UInt32
  buf : Vector UInt8 64

def sha1Rol (x : UInt32) (n : UInt32) : UInt32 := (x <<< n) ||| (x >>> (32 - n))

/-- The first 16 words of `w`. -/
def sha1Load (p : Vector UInt8 64) : List UInt32 :=
  (List.range 16).map fun i =>
    let byte (j : Nat) : UInt32 := (p.toList.getD (4 * i + j) 0).toUInt32
    byte 0 <<< 24 ||| byte 1 <<< 16 ||| byte 2 <<< 8 ||| byte 3

/-- `w[i]` of the words before it. -/
def sha1Extend (w : List UInt32) (i : Nat) : List UInt32 :=
  w ++ [sha1Rol
    (w.getD (i - 3) 0 ^^^ w.getD (i - 8) 0 ^^^ w.getD (i - 14) 0 ^^^ w.getD (i - 16) 0) 1]

def sha1Round (w : List UInt32) (s : Words5) (i : Nat) : Words5 :=
  let { a, b, c, d, e } := s
  let t :=
    if i < 20 then ((b &&& c) ||| (~~~b &&& d)) + 0x5a827999
    else if i < 40 then (b ^^^ c ^^^ d) + 0x6ed9eba1
    else if i < 60 then ((b &&& c) ||| (b &&& d) ||| (c &&& d)) + 0x8f1bbcdc
    else (b ^^^ c ^^^ d) + 0xca62c1d6
  let t := t + (sha1Rol a 5 + e + w.getD i 0)
  { a := t, b := a, c := sha1Rol b 30, d := c, e := d }

def sha1Block (h : Words5) (p : Vector UInt8 64) : Words5 :=
  let w := (List.range' 16 64).foldl sha1Extend (sha1Load p)
  let s := (List.range 80).foldl (sha1Round w) h
  { a := h.a + s.a, b := h.b + s.b, c := h.c + s.c, d := h.d + s.d, e := h.e + s.e }

/-- `buf` is what was there. -/
def sha1Init (buf : Vector UInt8 64) : Sha1 where
  h := { a := 0x67452301, b := 0xefcdab89, c := 0x98badcfe, d := 0x10325476, e := 0xc3d2e1f0 }
  len := 0
  buf

def sha1Put (s : Sha1) (x : UInt8) : Sha1 :=
  let buf := s.buf.set (s.len.toNat % 64) x (Nat.mod_lt _ (by decide))
  let len := s.len + 1
  { h := if len.toNat % 64 = 0 then sha1Block s.h buf else s.h, len, buf }

def sha1Update (s : Sha1) (p : List UInt8) : Sha1 := p.foldl sha1Put s

/-- `while ((s->len & 63) != 56)`; at most 63 turns. -/
def sha1Pad : (fuel : Nat) → Sha1 → Sha1
  | 0, s => s
  | fuel + 1, s => if s.len.toNat % 64 ≠ 56 then sha1Pad fuel (sha1Update s [0]) else s

/-- The digest, and the state it leaves. -/
def sha1Final (s : Sha1) : List UInt8 × Sha1 :=
  let bits := s.len * 8
  let s := sha1Update s [0x80]
  let s := sha1Pad 64 s
  let lenb := (List.range 8).map fun i =>
    if i < 4 then 0 else (bits >>> (8 * (7 - UInt32.ofNat i))).toUInt8
  let s := sha1Update s lenb
  ((List.range 20).map fun i =>
    (s.h.toList.getD (i / 4) 0 >>> (8 * (3 - UInt32.ofNat (i % 4)))).toUInt8, s)

-- ================================================================= HMAC

/-- States after the key block. -/
structure HmacSha1 where
  inner : Sha1
  outer : Sha1

/-- `buf` is what the states on the stack hold before. -/
def hmacSha1Init (buf : Vector UInt8 64) (key : List UInt8) : HmacSha1 :=
  let key := if 64 < key.length then (sha1Final (sha1Update (sha1Init buf) key)).1 else key
  let k := (List.range 64).map fun i => (if i < key.length then key.getD i 0 else 0) ^^^ 0x36
  let inner := sha1Update (sha1Init buf) k
  let k := k.map (· ^^^ (0x36 ^^^ 0x5c))
  { inner, outer := sha1Update (sha1Init buf) k }

/-- A piece that need not be there. -/
def sha1UpdateIf (s : Sha1) : Option (List UInt8) → Sha1
  | none => s
  | some d => sha1Update s d

/-- One MAC; the prepared states are copied and stay as they are. -/
def hmacSha1Run (m : HmacSha1) (d0 : List UInt8) (d1 d2 d3 : Option (List UInt8)) :
    List UInt8 × HmacSha1 :=
  let s := sha1Update m.inner d0
  let s := sha1UpdateIf s d1
  let s := sha1UpdateIf s d2
  let s := sha1UpdateIf s d3
  let ih := (sha1Final s).1
  let s := sha1Update m.outer ih
  ((sha1Final s).1, m)

-- ================================================================== PRF

/-- `while (pos < olen)`, `out` as far as it is written; a turn writes a
byte at least. -/
def wpaPrfLoop (m : HmacSha1) (label data : List UInt8) (olen : Nat) :
    (fuel : Nat) → (i : UInt8) → (out : List UInt8) → List UInt8
  | 0, _, out => out
  | fuel + 1, i, out =>
      if out.length < olen then
        let (mac, m) := hmacSha1Run m label (some [0]) (some data) (some [i])
        wpaPrfLoop m label data olen fuel (i + 1) (out ++ mac.take (olen - out.length))
      else out

/-- `label` without its NUL. -/
def wpaPrf (buf : Vector UInt8 64) (key label data : List UInt8) (olen : Nat) : List UInt8 :=
  wpaPrfLoop (hmacSha1Init buf key) label data olen olen 0 []

end Ncmips.Wpa
