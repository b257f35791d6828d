/-
The block cipher is AES-128.

Byte by byte the code's doubling and its table are the field's
multiplication and the S-box of the standard; the rounds and the key
schedule are then the same functions of other data layouts.
-/
import Mathlib.Data.List.GetD
import Mathlib.Tactic.IntervalCases
import Ncmips.Wpa.Fips197
import Ncmips.Wpa.Proofs.Aes

namespace Ncmips.Wpa

open Fips197 (State ofBlock toBlock)

-- ================================================================== bytes

theorem mul_two (x : UInt8) : Fips197.mul 2 x = aesXt x := by
  revert x
  exact forall_byte (by decide +kernel)

theorem mul_three (x : UInt8) : Fips197.mul 3 x = aesXt x ^^^ x := by
  revert x
  exact forall_byte (by decide +kernel)

/-- Part by part, so that no check is a long one. -/
theorem forall_byte_parts {P : UInt8 → Prop} (h : ∀ k < 8, ∀ n < 32, P (.ofNat (32 * k + n)))
    (x : UInt8) : P x :=
  forall_byte (fun n hn => by
    have hpart := h (n / 32) (by omega) (n % 32) (by omega)
    rwa [Nat.div_add_mod] at hpart) x

theorem inv_sbox (x : UInt8) :
    (x ≠ 0 → Fips197.mul x (Fips197.inv x) = 1) ∧ aesSbox x = Fips197.sbox x := by
  revert x
  refine forall_byte_parts fun k hk => ?_
  interval_cases k <;> decide +kernel

/-- The specification's inverse is one. -/
theorem mul_inv (x : UInt8) (hx : x ≠ 0) : Fips197.mul x (Fips197.inv x) = 1 := (inv_sbox x).1 hx

theorem aesSbox_eq (x : UInt8) : aesSbox x = Fips197.sbox x := (inv_sbox x).2

-- ================================================================= rounds

/-- A round key's words, as they stand in memory. -/
def wordsOf (rk : List UInt8) (i : Nat) : Fips197.Word := fun k => rk.getD (4 * i + k) 0

theorem ofBlock_addKey (rk : List UInt8) (r : Nat) (b : Block) :
    ofBlock (addKey rk r b) = Fips197.addRoundKey (wordsOf rk) r (ofBlock b) := by
  funext row c
  have hcell : (Fin.ofNat 16 (row + 4 * c)).val = row + 4 * c := Nat.mod_eq_of_lt (by omega)
  show (addKey rk r b).get _ = _
  rw [addKey, get_ofFn, hcell]
  show b.get _ ^^^ rk.getD (16 * r + (row + 4 * c)) 0 = b.get _ ^^^ rk.getD (4 * (4 * r + c) + row) 0
  rw [show 16 * r + (row.val + 4 * c.val) = 4 * (4 * r + c) + row by omega]

theorem ofBlock_sub (b : Block) :
    ofBlock (.ofFn fun i => aesSbox (b.get (shiftRow i)))
      = Fips197.shiftRows (Fips197.subBytes (ofBlock b)) := by
  have hshift : ∀ r c : Fin 4, shiftRow (.ofNat 16 (r + 4 * c)) = .ofNat 16 (r + 4 * (c + r).val) := by
    decide
  funext r c
  show (Vector.ofFn _ : Block).get _ = _
  rw [get_ofFn, hshift, aesSbox_eq]
  rfl

theorem mixColumn_eq (a : Fin 4 → UInt8) (k : Fin 4) :
    mixColumn a k = aesXt (a k) ^^^ (aesXt (a (k + 1)) ^^^ (a (k + 1) ^^^ (a (k + 2) ^^^ a (k + 3)))) := by
  have h0 := mixColumn_zero a
  have h1 := mixColumn_zero (turned a)
  have h2 := mixColumn_zero (turned (turned a))
  have h3 := mixColumn_zero (turned (turned (turned a)))
  simp only [mixColumn_turned, turned, Fin.reduceAdd] at h1 h2 h3
  fin_cases k
  · exact h0
  · exact h1
  · exact h2
  · exact h3

theorem ofBlock_mix (b : Block) :
    ofBlock (columns mixColumn b) = Fips197.mixColumns (ofBlock b) := by
  have hcol : ∀ r c k : Fin 4, (Fin.ofNat 16 ((Fin.ofNat 16 (r + 4 * c)).val / 4 * 4 + k) : Fin 16)
      = .ofNat 16 (k + 4 * c) := by decide
  have hrow : ∀ r c : Fin 4, Fin.ofNat 4 (Fin.ofNat 16 (r + 4 * c)).val = r := by decide
  funext r c
  show (columns mixColumn b).get _ = _
  rw [columns, get_ofFn, hrow, mixColumn_eq]
  simp only [hcol]
  show _ = Fips197.mul 2 _ ^^^ Fips197.mul 3 _ ^^^ _ ^^^ _
  rw [mul_two, mul_three]
  simp only [UInt8.xor_assoc]
  rfl

/-- A round that mixes. -/
theorem ofBlock_encryptRound (rk : List UInt8) (b : Block) {r : Nat} (hr : r ≠ 10) :
    ofBlock (encryptRound rk b r) = Fips197.addRoundKey (wordsOf rk) r
      (Fips197.mixColumns (Fips197.shiftRows (Fips197.subBytes (ofBlock b)))) := by
  unfold encryptRound
  dsimp only
  rw [if_neg hr, ofBlock_addKey, ofBlock_mix, ofBlock_sub]

theorem ofBlock_lastRound (rk : List UInt8) (b : Block) :
    ofBlock (encryptRound rk b 10) = Fips197.addRoundKey (wordsOf rk) 10
      (Fips197.shiftRows (Fips197.subBytes (ofBlock b))) := by
  unfold encryptRound
  dsimp only
  rw [if_pos rfl, ofBlock_addKey, ofBlock_sub]

theorem ofBlock_rounds (rk : List UInt8) (rs : List Nat) (hrs : ∀ r ∈ rs, r ≠ 10) (b : Block) :
    ofBlock (rs.foldl (encryptRound rk) b)
      = rs.foldl (fun s round => Fips197.addRoundKey (wordsOf rk) round
          (Fips197.mixColumns (Fips197.shiftRows (Fips197.subBytes s)))) (ofBlock b) := by
  induction rs generalizing b with
  | nil => rfl
  | cons r rs ih =>
      rw [List.foldl_cons, List.foldl_cons, ih fun r' hr' => hrs r' (List.mem_cons_of_mem _ hr'),
        ofBlock_encryptRound rk b (hrs r List.mem_cons_self)]

theorem toBlock_ofBlock (b : Block) : toBlock (ofBlock b) = b := by
  have hcell : ∀ i : Fin 16,
      Fin.ofNat 16 ((Fin.ofNat 4 i.val).val + 4 * (Fin.ofNat 4 (i.val / 4)).val) = i := by decide
  apply Block.ext
  intro i
  show (Vector.ofFn _ : Block).get i = _
  rw [get_ofFn]
  exact congrArg b.get (hcell i)

/-- Only the first 44 words of the key are looked at. -/
theorem addRoundKey_congr {w w' : Nat → Fips197.Word} {r : Nat} (hr : r ≤ 10)
    (h : ∀ i < 44, w i = w' i) (s : State) :
    Fips197.addRoundKey w r s = Fips197.addRoundKey w' r s := by
  funext row c
  show s row c ^^^ w (4 * r + c) row = s row c ^^^ w' (4 * r + c) row
  rw [h (4 * r + c) (by omega)]

theorem aes128Encrypt_words {rk : List UInt8} {key : Block}
    (h : ∀ i < 44, wordsOf rk i = Fips197.word key i) (b : Block) :
    aes128Encrypt rk b = Fips197.cipher key b := by
  rw [← toBlock_ofBlock (aes128Encrypt rk b)]
  unfold aes128Encrypt Fips197.cipher
  dsimp only
  have hrounds : List.range' 1 10 = List.range' 1 9 ++ [10] := by decide
  have hturn : ∀ (rs : List Nat) (s : State), (∀ r ∈ rs, r ≤ 10) →
      rs.foldl (fun s round => Fips197.addRoundKey (wordsOf rk) round
        (Fips197.mixColumns (Fips197.shiftRows (Fips197.subBytes s)))) s
      = rs.foldl (fun s round => Fips197.addRoundKey (Fips197.word key) round
        (Fips197.mixColumns (Fips197.shiftRows (Fips197.subBytes s)))) s := by
    intro rs
    induction rs with
    | nil => exact fun s _ => rfl
    | cons r rs ih =>
        intro s hrs
        rw [List.foldl_cons, List.foldl_cons, addRoundKey_congr (hrs r List.mem_cons_self) h,
          ih _ fun r' hr' => hrs r' (List.mem_cons_of_mem _ hr')]
  rw [hrounds, List.foldl_append, List.foldl_cons, List.foldl_nil, ofBlock_lastRound,
    ofBlock_rounds rk _ (by decide), ofBlock_addKey, hturn _ _ (by decide),
    addRoundKey_congr (Nat.zero_le 10) h, addRoundKey_congr (Nat.le_refl 10) h]

-- ================================================================== keys

/-- The key schedule after `n` words. -/
structure Expanded (key : Block) (n : Nat) (s : List UInt8 × UInt8) : Prop where
  length : s.1.length = 16 + 4 * n
  words : ∀ i < 4 + n, wordsOf s.1 i = Fips197.word key i
  rcon : s.2 = Fips197.pow 2 ((n + 3) / 4)

theorem word_key (key : Block) {i : Nat} (hi : i < 4) :
    Fips197.word key i = fun k : Fin 4 => key.get (.ofNat 16 (4 * i + k)) := by
  rw [Fips197.word, if_pos hi]

/-- The word that goes into the next one. -/
def tempWord (key : Block) (i : Nat) : Fips197.Word :=
  if i % 4 = 0 then fun k => Fips197.subWord (Fips197.rotWord (Fips197.word key (i - 1))) k
    ^^^ Fips197.rcon (i / 4) k
  else Fips197.word key (i - 1)

theorem word_next (key : Block) {i : Nat} (hi : 4 ≤ i) :
    Fips197.word key i = fun k => Fips197.word key (i - 4) k ^^^ tempWord key i k := by
  rw [Fips197.word, if_neg (by omega)]
  rfl

/-- The next four bytes. -/
theorem Expanded.temp {key : Block} {n : Nat} {s : List UInt8 × UInt8} (h : Expanded key n s)
    (k : Fin 4) :
    (if (16 + 4 * n) % 16 = 0 then
        [aesSbox (s.1.getD (16 + 4 * n - 3) 0) ^^^ s.2, aesSbox (s.1.getD (16 + 4 * n - 2) 0),
          aesSbox (s.1.getD (16 + 4 * n - 1) 0), aesSbox (s.1.getD (16 + 4 * n - 4) 0)]
      else [s.1.getD (16 + 4 * n - 4) 0, s.1.getD (16 + 4 * n - 3) 0,
        s.1.getD (16 + 4 * n - 2) 0, s.1.getD (16 + 4 * n - 1) 0]).getD k 0
      = tempWord key (4 + n) k := by
  have hlast : ∀ j : Fin 4, s.1.getD (16 + 4 * n - (4 - j)) 0 = Fips197.word key (4 + n - 1) j := by
    intro j
    rw [← h.words (4 + n - 1) (by omega), wordsOf]
    congr 1
    omega
  have h0 : s.1.getD (16 + 4 * n - 4) 0 = _ := hlast 0
  have h1 : s.1.getD (16 + 4 * n - 3) 0 = _ := hlast 1
  have h2 : s.1.getD (16 + 4 * n - 2) 0 = _ := hlast 2
  have h3 : s.1.getD (16 + 4 * n - 1) 0 = _ := hlast 3
  rw [h0, h1, h2, h3]
  unfold tempWord
  by_cases hn : n % 4 = 0
  · have hrcon : s.2 = Fips197.rcon ((4 + n) / 4) 0 := by
      rw [h.rcon, show (n + 3) / 4 = (4 + n) / 4 - 1 by omega]
      rfl
    rw [if_pos (by omega), if_pos (by omega), hrcon]
    fin_cases k
    · exact congrArg (· ^^^ _) (aesSbox_eq _)
    all_goals
      refine (aesSbox_eq _).trans ?_
      exact (UInt8.xor_zero).symm
  · rw [if_neg (by omega), if_neg (by omega)]
    fin_cases k <;> rfl

theorem Expanded.step {key : Block} {n : Nat} {s : List UInt8 × UInt8} (h : Expanded key n s) :
    Expanded key (n + 1) (aesKeyWord s (16 + 4 * n)) := by
  have hrk : (aesKeyWord s (16 + 4 * n)).1 = s.1 ++ (List.range 4).map fun j =>
      s.1.getD (16 + 4 * n - 16 + j) 0
        ^^^ (if (16 + 4 * n) % 16 = 0 then
            [aesSbox (s.1.getD (16 + 4 * n - 3) 0) ^^^ s.2, aesSbox (s.1.getD (16 + 4 * n - 2) 0),
              aesSbox (s.1.getD (16 + 4 * n - 1) 0), aesSbox (s.1.getD (16 + 4 * n - 4) 0)]
          else [s.1.getD (16 + 4 * n - 4) 0, s.1.getD (16 + 4 * n - 3) 0,
            s.1.getD (16 + 4 * n - 2) 0, s.1.getD (16 + 4 * n - 1) 0]).getD j 0 := by
    unfold aesKeyWord
    split_ifs <;> rfl
  have hrcon : (aesKeyWord s (16 + 4 * n)).2
      = if (16 + 4 * n) % 16 = 0 then aesXt s.2 else s.2 := by
    unfold aesKeyWord
    split_ifs <;> rfl
  refine ⟨?_, fun i hi => ?_, ?_⟩
  · rw [hrk, List.length_append, h.length, List.length_map, List.length_range]
    omega
  · by_cases hold : i < 4 + n
    · rw [← h.words i hold]
      funext k
      show (aesKeyWord s (16 + 4 * n)).1.getD (4 * i + k) 0 = s.1.getD (4 * i + k) 0
      rw [hrk, List.getD_append _ _ _ _ (by rw [h.length]; omega)]
    · have hlast : i = 4 + n := by omega
      subst hlast
      rw [word_next key (by omega)]
      funext k
      show (aesKeyWord s (16 + 4 * n)).1.getD (4 * (4 + n) + k) 0 = _
      have hk : k.val < 4 := k.isLt
      rw [hrk, List.getD_append_right _ _ _ _ (by rw [h.length]; omega), h.length,
        show 4 * (4 + n) + k.val - (16 + 4 * n) = k by omega, List.getD_eq_getElem?_getD,
        List.getElem?_map, List.getElem?_range hk, Option.map_some, Option.getD_some, h.temp k,
        ← h.words (4 + n - 4) (by omega)]
      congr 2
      omega
  · rw [hrcon, h.rcon]
    split_ifs with hn
    · rw [show (n + 1 + 3) / 4 = (n + 3) / 4 + 1 by omega, ← mul_two]
      rfl
    · rw [show (n + 1 + 3) / 4 = (n + 3) / 4 by omega]

theorem key_expanded (key : Block) (n : Nat) :
    Expanded key n (((List.range n).map fun w => 16 + 4 * w).foldl aesKeyWord (key.toList, 1)) := by
  induction n with
  | zero =>
      refine ⟨key.length_toList, fun i hi => ?_, rfl⟩
      rw [word_key key hi]
      funext k
      have hin : 4 * i + k.val < 16 := by omega
      show key.toList.getD (4 * i + k) 0 = key.get _
      rw [get_eq, List.getD_eq_getElem?_getD, List.getElem?_eq_getElem (by
        rw [Vector.length_toList]
        exact hin), Option.getD_some, Vector.getElem_toList]
      congr 1
      exact (Nat.mod_eq_of_lt hin).symm
  | succ n ih =>
      rw [List.range_succ, List.map_append, List.foldl_append]
      exact ih.step

theorem key_words (key : Block) {i : Nat} (hi : i < 44) :
    wordsOf (aes128Key key) i = Fips197.word key i := by
  have hkey := (key_expanded key 40).words i hi
  unfold aes128Key
  exact hkey

-- ================================================================== calls

/-- A call of the cipher. -/
inductive Call where
  | key (k : Block)
  | encrypt (rk : List UInt8) (b : Block)
  | decrypt (rk : List UInt8) (b : Block)

/-- What it leaves in `aes_inv_sbox`. -/
def Call.table (inv : UInt8 → UInt8) : Call → UInt8 → UInt8
  | .key _ => inv
  | .encrypt _ _ => inv
  | .decrypt rk b => (aes128Decrypt rk inv b).2

theorem table_after (calls : List Call) {inv : UInt8 → UInt8} (h : InvTable inv) :
    InvTable (calls.foldl Call.table inv) := by
  induction calls generalizing inv with
  | nil => exact h
  | cons c calls ih =>
      refine ih ?_
      cases c with
      | key k => exact h
      | encrypt rk b => exact h
      | decrypt rk b =>
          have hfilled : InvTable aesInvSbox := Or.inr rfl
          have htable : Call.table inv (.decrypt rk b) = aesInvSbox := by
            rw [Call.table, aes128Decrypt_eq h]
          rw [htable]
          exact hfilled

/-- Whatever was called before: decryption and encryption under a key's
round keys undo each other, and encryption is AES-128. -/
theorem cipher_inverts (calls : List Call) (key b : Block) :
    let inv := calls.foldl Call.table fun _ => 0
    let rk := aes128Key key
    (aes128Decrypt rk inv (aes128Encrypt rk b)).1 = b
      ∧ aes128Encrypt rk (aes128Decrypt rk inv b).1 = b
      ∧ aes128Encrypt rk b = Fips197.cipher key b := by
  intro inv rk
  have hinv : InvTable inv := table_after calls (.inl rfl)
  refine ⟨?_, ?_, aes128Encrypt_words (fun _ hi => key_words key hi) b⟩
  · rw [aes128Decrypt_eq hinv]
    exact decrypt_encrypt rk b
  · rw [aes128Decrypt_eq hinv]
    exact encrypt_decrypt rk b

end Ncmips.Wpa
