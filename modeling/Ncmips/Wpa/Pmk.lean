/-
The pairwise master key of `wpa.h`, and what it should be: PBKDF2 as RFC
2898 has it, over any function with a key.
-/
import Ncmips.Wpa.Fips

namespace Ncmips.Wpa

/-- `for (j = 0; j < 20; j++) t[j] ^= u[j]` -/
def xorBytes (t u : List UInt8) : List UInt8 := List.zipWith (· ^^^ ·) t u

/-- `u` and `t` after another turn of 4096. -/
def wpaPmkTurn (s : HmacSha1 × List UInt8 × List UInt8) (_ : Nat) :
    HmacSha1 × List UInt8 × List UInt8 :=
  let (m, u, t) := s
  let (u, m) := hmacSha1Run m u none none none
  (m, u, xorBytes t u)

/-- `for (i = 1; i < 4096; i++)` -/
def pmkTurns : Nat := 4095

/-- Block `blk`. -/
def wpaPmkBlock (m : HmacSha1) (ssid : List UInt8) (blk : Nat) : List UInt8 × HmacSha1 :=
  let (u, m) := hmacSha1Run m ssid (some [0, 0, 0, .ofNat blk]) none none
  let s := (List.range' 1 pmkTurns).foldl wpaPmkTurn (m, u, u)
  (s.2.2, s.1)

/-- `pass` up to its NUL; `buf` is what the states on the stack hold before. -/
def wpaPmk (buf : Vector UInt8 64) (pass ssid : List UInt8) : List UInt8 :=
  let m := hmacSha1Init buf (pass.takeWhile (· ≠ 0))
  let one := wpaPmkBlock m ssid 1
  let two := wpaPmkBlock one.2 ssid 2
  one.1.take 20 ++ two.1.take 12

namespace Fips

/-- `U_1 = PRF (P, S || INT (i))`, `U_j = PRF (P, U_(j-1))`; `U_(j+1)`. -/
def pbkdf2U (prf : List UInt8 → List UInt8) (salt : List UInt8) (i : Nat) : Nat → List UInt8
  | 0 => prf (salt ++ bytesOf (.ofNat i))
  | j + 1 => prf (pbkdf2U prf salt i j)

/-- `U_1 ^ U_2 ^ … ^ U_c` -/
def pbkdf2F (prf : List UInt8 → List UInt8) (salt : List UInt8) (c i : Nat) : List UInt8 :=
  (List.range' 1 (c - 1)).foldl (fun t j => xorBytes t (pbkdf2U prf salt i j)) (pbkdf2U prf salt i 0)

/-- The first `n` bytes of `T_1 || T_2 || …`, where a block is `hLen` bytes. -/
def pbkdf2 (prf : List UInt8 → List UInt8) (hLen : Nat) (salt : List UInt8) (c n : Nat) :
    List UInt8 :=
  ((List.range' 1 ((n + hLen - 1) / hLen)).flatMap (pbkdf2F prf salt c)).take n

end Fips

end Ncmips.Wpa
