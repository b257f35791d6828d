/-
HMAC and the PRF over the streaming hash.

The prepared states hold one block each, the key's (`hmacSha1Init_inner`,
`hmacSha1Init_outer`); a run goes on from copies of them, so the MAC is
RFC 2104's of the pieces joined, whatever they are, and the next run
finds the same states.
-/
import Ncmips.Wpa.Proofs.Sha1

namespace Ncmips.Wpa

-- ================================================================ the key

/-- A key of a block at most, filled up. -/
theorem keyPad_eq {key : List UInt8} (hk : key.length ≤ 64) (mask : UInt8) :
    (List.range 64).map (fun i => (if i < key.length then key.getD i 0 else 0) ^^^ mask)
      = (key ++ List.replicate (64 - key.length) 0).map (· ^^^ mask) := by
  apply List.ext_getElem
  · simp only [List.length_map, List.length_range, List.length_append, List.length_replicate]
    omega
  · intro i hi hi'
    rw [List.length_map, List.length_range] at hi
    simp only [List.getElem_map, List.getElem_range]
    split
    · next hlt =>
      rw [List.getElem_append_left hlt, List.getD_eq_getElem _ _ hlt]
    · next hge =>
      rw [List.getElem_append_right (by omega), List.getElem_replicate]

theorem xor_masks (x : UInt8) : x ^^^ 0x36 ^^^ (0x36 ^^^ 0x5c) = x ^^^ 0x5c := by
  rw [UInt8.xor_assoc, ← UInt8.xor_assoc 0x36, UInt8.xor_self, UInt8.zero_xor]

variable (buf : Vector UInt8 64) (key : List UInt8)

/-- The key that is filled up: its hash, if it is longer than a block. -/
theorem hashedKey_eq : (if 64 < key.length then
      (sha1Final (sha1Update (sha1Init buf) key)).1 else key)
    = if 64 < key.length then sha1Sum key else key := by
  have hsum := sha1Final_updates buf [key]
  rw [List.flatten_singleton] at hsum
  split
  · exact hsum
  · rfl

theorem hashedKey_length : (if 64 < key.length then sha1Sum key else key).length ≤ 64 := by
  split
  · rw [sha1Sum_length]
    decide
  · omega

theorem hmacSha1Init_inner :
    (hmacSha1Init buf key).inner.Holds ((Fips.keyBlock sha1Sum key).map (· ^^^ 0x36)) := by
  simp only [hmacSha1Init, hashedKey_eq, keyPad_eq (hashedKey_length key)]
  exact (holds_init buf).update _

theorem hmacSha1Init_outer :
    (hmacSha1Init buf key).outer.Holds ((Fips.keyBlock sha1Sum key).map (· ^^^ 0x5c)) := by
  simp only [hmacSha1Init, hashedKey_eq, keyPad_eq (hashedKey_length key), List.map_map,
    Function.comp_def, xor_masks]
  exact (holds_init buf).update _

-- =================================================================== runs

/-- The pieces of a message. -/
def pieces (d0 : List UInt8) (d1 d2 d3 : Option (List UInt8)) : List UInt8 :=
  d0 ++ d1.getD [] ++ d2.getD [] ++ d3.getD []

theorem Sha1.Holds.updateIf {s : Sha1} {l : List UInt8} (h : s.Holds l) (d : Option (List UInt8)) :
    (sha1UpdateIf s d).Holds (l ++ d.getD []) := by
  cases d with
  | none =>
      rw [Option.getD_none, List.append_nil]
      exact h
  | some d => exact h.update d

/-- A run gives the MAC of its pieces and leaves the states. -/
theorem hmacSha1Run_eq (d0 : List UInt8) (d1 d2 d3 : Option (List UInt8)) :
    hmacSha1Run (hmacSha1Init buf key) d0 d1 d2 d3
      = (Fips.hmac sha1Sum key (pieces d0 d1 d2 d3), hmacSha1Init buf key) := by
  have hin := ((((hmacSha1Init_inner buf key).update d0).updateIf d1).updateIf d2).updateIf d3
  have hout := (hmacSha1Init_outer buf key).update
    (sha1Sum ((Fips.keyBlock sha1Sum key).map (· ^^^ 0x36) ++ pieces d0 d1 d2 d3))
  simp only [List.append_assoc] at hin
  simp only [hmacSha1Run, hin.sum, Fips.hmac]
  simp only [pieces, List.append_assoc] at hout ⊢
  rw [hout.sum]

/-- With the messages short enough the hash is FIPS 180's. -/
theorem hmac_sha1Sum {key text : List UInt8} (hkey : key.length < 2 ^ 29)
    (htext : 64 + text.length < 2 ^ 29) :
    Fips.hmac sha1Sum key text = Fips.hmac Fips.sha1 key text := by
  have hblock : Fips.keyBlock Fips.sha1 key = Fips.keyBlock sha1Sum key := by
    simp only [Fips.keyBlock, sha1Sum_eq hkey]
  have hlen : (Fips.keyBlock sha1Sum key).length = 64 := by
    have hk := hashedKey_length key
    simp only [Fips.keyBlock, List.length_append, List.length_replicate]
    omega
  have hin : sha1Sum ((Fips.keyBlock sha1Sum key).map (· ^^^ 0x36) ++ text)
      = Fips.sha1 ((Fips.keyBlock sha1Sum key).map (· ^^^ 0x36) ++ text) := by
    apply sha1Sum_eq
    rw [List.length_append, List.length_map, hlen]
    exact htext
  simp only [Fips.hmac, hblock, ← hin]
  apply sha1Sum_eq
  rw [List.length_append, List.length_map, hlen, sha1Sum_length]
  decide

-- ==================================================================== PRF

variable {key} {label data : List UInt8} {hash : List UInt8 → List UInt8}

@[simp] theorem hmac_sha1Sum_length (text : List UInt8) :
    (Fips.hmac sha1Sum key text).length = 20 := sha1Sum_length _

theorem prfStream_succ (n : Nat) :
    Fips.prfStream hash key label data (n + 1)
      = Fips.prfStream hash key label data n
        ++ Fips.hmac hash key (label ++ [0] ++ data ++ [.ofNat n]) := by
  simp only [Fips.prfStream, List.range_succ, List.flatMap_append, List.flatMap_singleton]

@[simp] theorem prfStream_length (n : Nat) :
    (Fips.prfStream sha1Sum key label data n).length = 20 * n := by
  induction n with
  | zero => rfl
  | succ n ih =>
      rw [prfStream_succ, List.length_append, ih, hmac_sha1Sum_length]
      omega

/-- More blocks do not change the first ones. -/
theorem prfStream_take {olen n m : Nat} (hn : olen ≤ 20 * n) (hm : n ≤ m) :
    (Fips.prfStream sha1Sum key label data m).take olen
      = (Fips.prfStream sha1Sum key label data n).take olen := by
  induction m, hm using Nat.le_induction with
  | base => rfl
  | succ m hm ih =>
      rw [prfStream_succ, List.take_append_of_le_length (by rw [prfStream_length]; omega), ih]

/-- The loop, `n` blocks written. -/
theorem wpaPrfLoop_eq (olen fuel n : Nat) (hfuel : olen - 20 * n ≤ fuel) :
    ∃ m, olen ≤ 20 * m ∧ m ≤ max n ((olen + 19) / 20)
      ∧ wpaPrfLoop (hmacSha1Init buf key) label data olen fuel (.ofNat n)
          ((Fips.prfStream sha1Sum key label data n).take olen)
        = (Fips.prfStream sha1Sum key label data m).take olen := by
  induction fuel generalizing n with
  | zero => exact ⟨n, by omega, le_max_left _ _, rfl⟩
  | succ fuel ih =>
      unfold wpaPrfLoop
      have hlen : ((Fips.prfStream sha1Sum key label data n).take olen).length
          = min olen (20 * n) := by
        rw [List.length_take, prfStream_length]
      by_cases hmore : 20 * n < olen
      · have hnext : (Fips.prfStream sha1Sum key label data n).take olen
              ++ (Fips.hmac sha1Sum key (label ++ [0] ++ data ++ [.ofNat n])).take (olen - 20 * n)
            = (Fips.prfStream sha1Sum key label data (n + 1)).take olen := by
          rw [prfStream_succ, List.take_append, prfStream_length]
        obtain ⟨m, hm, hle, hrest⟩ := ih (n + 1) (by omega)
        refine ⟨m, hm, by omega, ?_⟩
        have hpieces : pieces label (some [0]) (some data) (some [UInt8.ofNat n])
            = label ++ [0] ++ data ++ [.ofNat n] := rfl
        rw [hlen, if_pos (by omega), hmacSha1Run_eq, hpieces, show min olen (20 * n) = 20 * n by
          omega]
        dsimp only
        rw [hnext, ← hrest]
        congr 1
        exact (UInt8.ofNat_add n 1).symm
      · refine ⟨n, by omega, le_max_left _ _, ?_⟩
        rw [hlen, if_neg (by omega)]

theorem wpaPrf_eq {olen : Nat} (h : olen ≤ 5100) :
    wpaPrf buf key label data olen = (Fips.prfStream sha1Sum key label data 255).take olen := by
  obtain ⟨m, hm, hle, hloop⟩ := @wpaPrfLoop_eq buf key label data olen olen 0 (by omega)
  have hstart : (Fips.prfStream sha1Sum key label data 0).take olen = [] := List.take_nil
  rw [hstart] at hloop
  rw [prfStream_take hm (show m ≤ 255 by omega)]
  exact hloop

theorem prfStream_sha1Sum (hkey : key.length < 2 ^ 29)
    (htext : 64 + (label.length + 1 + data.length + 1) < 2 ^ 29) (n : Nat) :
    Fips.prfStream sha1Sum key label data n = Fips.prfStream Fips.sha1 key label data n := by
  unfold Fips.prfStream
  congr 1
  funext i
  apply hmac_sha1Sum hkey
  simp only [List.length_append, List.length_singleton]
  exact htext

-- ================================================================ in sum

/-- Hashing is streaming-correct. `sha1_final` gives the hash of the
pieces joined, however they were cut, and it is FIPS 180's below 2^29
bytes; a run after `hmac_sha1_init`, for keys of any length, gives RFC
2104's HMAC over that hash and leaves the prepared states; so it is
HMAC-SHA1 where the messages hashed are below the bound, and `wpa_prf`
gives the key stream's first bytes. -/
theorem hashing_streams (buf : Vector UInt8 64) :
    (∀ chunks : List (List UInt8), chunks.flatten.length < 2 ^ 29 →
      (sha1Final (chunks.foldl sha1Update (sha1Init buf))).1 = Fips.sha1 chunks.flatten)
    ∧ (∀ (key d0 : List UInt8) (d1 d2 d3 : Option (List UInt8)),
      hmacSha1Run (hmacSha1Init buf key) d0 d1 d2 d3
        = (Fips.hmac sha1Sum key (pieces d0 d1 d2 d3), hmacSha1Init buf key))
    ∧ (∀ (key d0 : List UInt8) (d1 d2 d3 : Option (List UInt8)), key.length < 2 ^ 29 →
      64 + (pieces d0 d1 d2 d3).length < 2 ^ 29 →
        hmacSha1Run (hmacSha1Init buf key) d0 d1 d2 d3
          = (Fips.hmac Fips.sha1 key (pieces d0 d1 d2 d3), hmacSha1Init buf key))
    ∧ ∀ (key label data : List UInt8) (olen : Nat), key.length < 2 ^ 29 →
      64 + (label.length + 1 + data.length + 1) < 2 ^ 29 → olen ≤ 5100 →
        wpaPrf buf key label data olen
          = (Fips.prfStream Fips.sha1 key label data 255).take olen := by
  refine ⟨fun chunks hlen => ?_, fun key d0 d1 d2 d3 => hmacSha1Run_eq buf key d0 d1 d2 d3,
    fun key d0 d1 d2 d3 hkey htext => ?_, fun key label data olen hkey htext holen => ?_⟩
  · rw [sha1Final_updates, sha1Sum_eq hlen]
  · rw [hmacSha1Run_eq, hmac_sha1Sum hkey htext]
  · rw [wpaPrf_eq buf holen, prfStream_sha1Sum hkey htext]

/-- "abc" in two pieces with an empty one between, a MAC of two pieces,
and a key of 16 bytes from the PRF. -/
theorem hashing_streams_abc :
    let buf : Vector UInt8 64 := .replicate 64 0
    (sha1Final ([[97], [], [98, 99]].foldl sha1Update (sha1Init buf))).1 = Fips.sha1 [97, 98, 99]
      ∧ (hmacSha1Run (hmacSha1Init buf [1]) [97] (some [98]) none none).1
        = Fips.hmac Fips.sha1 [1] [97, 98]
      ∧ wpaPrf buf [1] [97] [98] 16 = (Fips.prfStream Fips.sha1 [1] [97] [98] 255).take 16 := by
  intro buf
  obtain ⟨hsha, -, hmac, hprf⟩ := hashing_streams buf
  have hpieces : pieces [97] (some [98]) none none = [97, 98] := rfl
  have hrun := hmac [1] [97] (some [98]) none none (by decide) (by rw [hpieces]; decide)
  rw [hpieces] at hrun
  refine ⟨hsha _ (by decide), ?_, hprf [1] [97] [98] 16 (by decide) (by decide) (by decide)⟩
  rw [hrun]

end Ncmips.Wpa
