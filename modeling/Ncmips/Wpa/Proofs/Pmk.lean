/-
The pairwise master key is PBKDF2's.

Each block is a chain of MACs and the sum of its links. The prepared
states come back from every run as they were, so the chain of the code is
that of the specification link by link (`chain_eq`).
-/
import Ncmips.Wpa.Pmk
import Ncmips.Wpa.Proofs.Hmac

namespace Ncmips.Wpa

variable (buf : Vector UInt8 64) (key ssid : List UInt8)

@[simp] theorem xorBytes_length (t u : List UInt8) :
    (xorBytes t u).length = min t.length u.length := List.length_zipWith

/-- The MACs of a key, as the code computes them. -/
abbrev macOf : List UInt8 → List UInt8 := Fips.hmac sha1Sum key

theorem wpaPmkTurn_eq (u t : List UInt8) (i : Nat) :
    wpaPmkTurn (hmacSha1Init buf key, u, t) i
      = (hmacSha1Init buf key, macOf key u, xorBytes t (macOf key u)) := by
  unfold wpaPmkTurn
  dsimp only
  rw [hmacSha1Run_eq]
  have hpieces : pieces u none none none = u := by
    simp only [pieces, Option.getD_none, List.append_nil]
  rw [hpieces]

/-- After `n` turns: link `n` of the chain, and the sum so far. -/
theorem chain_eq (i n : Nat) :
    (List.range' 1 n).foldl wpaPmkTurn (hmacSha1Init buf key,
        Fips.pbkdf2U (macOf key) ssid i 0, Fips.pbkdf2U (macOf key) ssid i 0)
      = (hmacSha1Init buf key, Fips.pbkdf2U (macOf key) ssid i n,
        Fips.pbkdf2F (macOf key) ssid (n + 1) i) := by
  induction n with
  | zero => rfl
  | succ n ih =>
      rw [List.range'_1_concat, List.foldl_append, ih, List.foldl_cons, List.foldl_nil, wpaPmkTurn_eq]
      have hsum : Fips.pbkdf2F (macOf key) ssid (n + 1 + 1) i
          = xorBytes (Fips.pbkdf2F (macOf key) ssid (n + 1) i)
            (Fips.pbkdf2U (macOf key) ssid i (n + 1)) := by
        simp only [Fips.pbkdf2F, Nat.add_sub_cancel]
        rw [List.range'_1_concat, List.foldl_append, List.foldl_cons, List.foldl_nil, Nat.add_comm 1 n]
      rw [hsum]
      rfl

theorem counter_bytes {i : Nat} (h : i < 256) : Fips.bytesOf (.ofNat i) = [0, 0, 0, .ofNat i] := by
  have hnat : (UInt32.ofNat i).toNat = i := by
    rw [UInt32.toNat_ofNat']
    omega
  unfold Fips.bytesOf
  rw [hnat, Nat.div_eq_of_lt (by omega), Nat.div_eq_of_lt (by omega), Nat.div_eq_of_lt (by omega)]
  rfl

theorem wpaPmkBlock_eq {i : Nat} (h : i < 256) :
    wpaPmkBlock (hmacSha1Init buf key) ssid i
      = (Fips.pbkdf2F (macOf key) ssid (pmkTurns + 1) i, hmacSha1Init buf key) := by
  unfold wpaPmkBlock
  rw [hmacSha1Run_eq]
  have hpieces : pieces ssid (some [0, 0, 0, .ofNat i]) none none = ssid ++ Fips.bytesOf (.ofNat i) := by
    simp only [pieces, Option.getD_none, Option.getD_some, List.append_nil, counter_bytes h]
  rw [hpieces]
  dsimp only
  have hchain := chain_eq buf key ssid i pmkTurns
  have hfirst : Fips.pbkdf2U (macOf key) ssid i 0
      = Fips.hmac sha1Sum key (ssid ++ Fips.bytesOf (.ofNat i)) := rfl
  rw [hfirst] at hchain
  rw [hchain]

theorem pbkdf2U_length (i j : Nat) : (Fips.pbkdf2U (macOf key) ssid i j).length = 20 := by
  cases j with
  | zero => exact hmac_sha1Sum_length _
  | succ j => exact hmac_sha1Sum_length _

theorem pbkdf2F_length (c i : Nat) : (Fips.pbkdf2F (macOf key) ssid c i).length = 20 := by
  unfold Fips.pbkdf2F
  generalize List.range' 1 (c - 1) = js
  have hstart := pbkdf2U_length key ssid i 0
  generalize Fips.pbkdf2U (macOf key) ssid i 0 = t at hstart ⊢
  induction js generalizing t with
  | nil => exact hstart
  | cons j js ih =>
      rw [List.foldl_cons]
      refine ih _ ?_
      rw [xorBytes_length, hstart, pbkdf2U_length, Nat.min_self]

/-- 32 bytes are a block and a part of the next. -/
theorem pbkdf2_two (c : Nat) : Fips.pbkdf2 (macOf key) 20 ssid c 32
    = (Fips.pbkdf2F (macOf key) ssid c 1).take 20 ++ (Fips.pbkdf2F (macOf key) ssid c 2).take 12 := by
  have hfirst := pbkdf2F_length key ssid c 1
  have hblocks : List.range' 1 ((32 + 20 - 1) / 20) = [1, 2] := rfl
  unfold Fips.pbkdf2
  rw [hblocks, List.flatMap_cons, List.flatMap_cons, List.flatMap_nil, List.append_nil,
    List.take_append, hfirst]
  generalize Fips.pbkdf2F (macOf key) ssid c 1 = first at hfirst ⊢
  have htake : first.take 32 = first := List.take_of_length_le (by omega)
  rw [List.take_of_length_le (Nat.le_of_eq hfirst), htake]

/-- PBKDF2 sees the function at the salt and at its own values only. -/
theorem pbkdf2_congr {f g : List UInt8 → List UInt8} {salt : List UInt8}
    (hsalt : ∀ i, f (salt ++ Fips.bytesOf (.ofNat i)) = g (salt ++ Fips.bytesOf (.ofNat i)))
    (hnext : ∀ u, f (f u) = g (f u)) (hLen c n : Nat) :
    Fips.pbkdf2 f hLen salt c n = Fips.pbkdf2 g hLen salt c n := by
  have hU : ∀ i j, Fips.pbkdf2U f salt i j = Fips.pbkdf2U g salt i j := by
    intro i j
    induction j with
    | zero => exact hsalt i
    | succ j ih =>
        unfold Fips.pbkdf2U
        rw [← ih]
        cases j with
        | zero => exact hnext _
        | succ j => exact hnext _
  unfold Fips.pbkdf2 Fips.pbkdf2F
  simp only [hU]

/-- The pairwise master key of a passphrase and a network's name is PBKDF2
with HMAC-SHA1, 4096 iterations and 32 bytes. -/
theorem wpaPmk_eq {pass ssid : List UInt8} (hpass : pass.length < 2 ^ 29)
    (hssid : ssid.length + 68 < 2 ^ 29) :
    wpaPmk buf pass ssid
      = Fips.pbkdf2 (Fips.hmac Fips.sha1 (pass.takeWhile (· ≠ 0))) 20 ssid 4096 32 := by
  generalize hkey : pass.takeWhile (· ≠ 0) = key
  have hkeyLen : key.length < 2 ^ 29 := by
    rw [← hkey]
    exact Nat.lt_of_le_of_lt (List.takeWhile_prefix _).length_le hpass
  have hcode : wpaPmk buf pass ssid = Fips.pbkdf2 (macOf key) 20 ssid 4096 32 := by
    unfold wpaPmk
    rw [hkey]
    dsimp only
    rw [wpaPmkBlock_eq buf key ssid (by decide), wpaPmkBlock_eq buf key ssid (by decide)]
    dsimp only
    rw [← pbkdf2_two]
    have hturns : pmkTurns + 1 = 4096 := rfl
    rw [hturns]
  rw [hcode]
  refine pbkdf2_congr (fun i => ?_) (fun u => ?_) _ _ _
  · refine hmac_sha1Sum hkeyLen ?_
    rw [List.length_append]
    have hfour : (Fips.bytesOf (.ofNat i)).length = 4 := rfl
    omega
  · refine hmac_sha1Sum hkeyLen ?_
    rw [hmac_sha1Sum_length]
    decide

/-- For a passphrase and a name that fit. -/
theorem wpaPmk_eq_short :
    wpaPmk (.replicate 64 0) [112, 97, 115, 115] [110, 101, 116]
      = Fips.pbkdf2 (Fips.hmac Fips.sha1 ([112, 97, 115, 115].takeWhile (· ≠ 0))) 20
          [110, 101, 116] 4096 32 :=
  wpaPmk_eq _ (by decide) (by decide)

end Ncmips.Wpa
