/-
Decryption undoes encryption, under any round keys, and so the other
way round: there are only so many blocks.

Each step of a round has its inverse: the S-box, which is a table of 256
different bytes; the row shift, a permutation; and the column mix, which
is linear in the bytes' bits (`aesXt_xor`), so that only the multiples of
each byte of a column have to cancel.
-/
import Mathlib.Data.Fintype.Basic
import Mathlib.Data.Fintype.EquivFin
import Mathlib.Data.Finite.Prod
import Mathlib.Data.Fintype.Pi
import Mathlib.Tactic.FinCases
import Ncmips.Lib.Undo
import Ncmips.Wpa.Aes

namespace Ncmips.Wpa

-- ================================================================== bytes

theorem xor_left_comm (a b c : UInt8) : a ^^^ (b ^^^ c) = b ^^^ (a ^^^ c) := by
  rw [← UInt8.xor_assoc, UInt8.xor_comm a b, UInt8.xor_assoc]

@[simp] theorem xor_xor_self (a b : UInt8) : a ^^^ (a ^^^ b) = b := by
  rw [← UInt8.xor_assoc, UInt8.xor_self, UInt8.zero_xor]

@[simp] theorem xor_self_right (a b : UInt8) : a ^^^ b ^^^ b = a := by
  rw [UInt8.xor_assoc, UInt8.xor_self, UInt8.xor_zero]

theorem forall_byte {P : UInt8 → Prop} (h : ∀ n < 256, P (.ofNat n)) (x : UInt8) : P x := by
  have hx := h x.toNat x.toNat_lt
  rwa [UInt8.ofNat_toNat] at hx

theorem high_bit (x : UInt8) : x &&& 0x80 ≠ 0 ↔ x.toBitVec.getLsbD 7 = true := by
  revert x
  exact forall_byte (by decide +kernel)

/-- Doubling is linear. -/
theorem aesXt_xor (a b : UInt8) : aesXt (a ^^^ b) = aesXt a ^^^ aesXt b := by
  simp only [aesXt, high_bit, UInt8.toBitVec_xor, BitVec.getLsbD_xor, UInt8.shiftLeft_xor]
  cases a.toBitVec.getLsbD 7 <;> cases b.toBitVec.getLsbD 7 <;>
    simp [UInt8.xor_assoc, xor_left_comm, UInt8.xor_comm]

-- the multiples that decryption uses

theorem aesMul_nine (a : UInt8) : aesMul a 9 = 0 ^^^ a ^^^ aesXt (aesXt (aesXt a)) := rfl

theorem aesMul_eleven (a : UInt8) :
    aesMul a 11 = 0 ^^^ a ^^^ aesXt a ^^^ aesXt (aesXt (aesXt a)) := rfl

theorem aesMul_thirteen (a : UInt8) :
    aesMul a 13 = 0 ^^^ a ^^^ aesXt (aesXt a) ^^^ aesXt (aesXt (aesXt a)) := rfl

theorem aesMul_fourteen (a : UInt8) :
    aesMul a 14 = 0 ^^^ aesXt a ^^^ aesXt (aesXt a) ^^^ aesXt (aesXt (aesXt a)) := rfl

theorem aesMul_xor {c : UInt8} (hc : c = 9 ∨ c = 11 ∨ c = 13 ∨ c = 14) (a b : UInt8) :
    aesMul (a ^^^ b) c = aesMul a c ^^^ aesMul b c := by
  rcases hc with rfl | rfl | rfl | rfl
  · simp only [aesMul_nine, aesXt_xor, UInt8.zero_xor]
    ac_rfl
  · simp only [aesMul_eleven, aesXt_xor, UInt8.zero_xor]
    ac_rfl
  · simp only [aesMul_thirteen, aesXt_xor, UInt8.zero_xor]
    ac_rfl
  · simp only [aesMul_fourteen, aesXt_xor, UInt8.zero_xor]
    ac_rfl

-- ================================================================ columns

/-- A column from its second byte on. -/
def turned (a : Fin 4 → UInt8) : Fin 4 → UInt8 := fun k => a (k + 1)

theorem mixColumn_turned (a : Fin 4 → UInt8) : mixColumn (turned a) = turned (mixColumn a) := by
  have hsum : a 1 ^^^ a 2 ^^^ a 3 ^^^ a 0 = a 0 ^^^ a 1 ^^^ a 2 ^^^ a 3 := by ac_rfl
  funext k
  fin_cases k <;> simp [mixColumn, turned, hsum]

theorem invMixColumn_turned (a : Fin 4 → UInt8) :
    invMixColumn (turned a) = turned (invMixColumn a) := by
  funext k
  fin_cases k <;> simp only [invMixColumn, turned, Matrix.cons_val, Fin.reduceAdd, Fin.zero_eta,
    Fin.mk_one, Fin.reduceFinMk] <;> ac_rfl

/-- A mixed byte: twice itself, three times the next one, and the other
two. -/
theorem mixColumn_zero (a : Fin 4 → UInt8) :
    mixColumn a 0 = aesXt (a 0) ^^^ (aesXt (a 1) ^^^ (a 1 ^^^ (a 2 ^^^ a 3))) := by
  simp only [mixColumn, Matrix.cons_val, aesXt_xor]
  simp [UInt8.xor_assoc, UInt8.xor_comm, xor_left_comm]

/-- What comes back of a byte at its own place, and of the three behind
it. -/
theorem invMix_own (a : UInt8) :
    aesMul (aesXt a) 14 ^^^ aesMul a 11 ^^^ aesMul a 13 ^^^ aesMul (aesXt a) 9 ^^^ aesMul a 9
      = a := by
  simp only [aesMul_nine, aesMul_eleven, aesMul_thirteen, aesMul_fourteen]
  simp [UInt8.xor_assoc, UInt8.xor_comm, xor_left_comm]

theorem invMix_second (a : UInt8) :
    aesMul (aesXt a) 14 ^^^ aesMul a 14 ^^^ aesMul (aesXt a) 11 ^^^ aesMul a 13 ^^^ aesMul a 9
      = 0 := by
  simp only [aesMul_nine, aesMul_eleven, aesMul_thirteen, aesMul_fourteen]
  simp [UInt8.xor_assoc, UInt8.xor_comm, xor_left_comm]

theorem invMix_third (a : UInt8) :
    aesMul a 14 ^^^ aesMul (aesXt a) 11 ^^^ aesMul a 11 ^^^ aesMul (aesXt a) 13 ^^^ aesMul a 9
      = 0 := by
  simp only [aesMul_nine, aesMul_eleven, aesMul_thirteen, aesMul_fourteen]
  simp [UInt8.xor_assoc, UInt8.xor_comm, xor_left_comm]

theorem invMix_fourth (a : UInt8) :
    aesMul a 14 ^^^ aesMul a 11 ^^^ aesMul (aesXt a) 13 ^^^ aesMul a 13 ^^^ aesMul (aesXt a) 9
      = 0 := by
  simp only [aesMul_nine, aesMul_eleven, aesMul_thirteen, aesMul_fourteen]
  simp [UInt8.xor_assoc, UInt8.xor_comm, xor_left_comm]

theorem invMixColumn_mixColumn_zero (a : Fin 4 → UInt8) :
    invMixColumn (mixColumn a) 0 = a 0 := by
  have h0 := mixColumn_zero a
  have h1 : mixColumn a 1 = aesXt (a 1) ^^^ (aesXt (a 2) ^^^ (a 2 ^^^ (a 3 ^^^ a 0))) := by
    have h := mixColumn_zero (turned a)
    rw [mixColumn_turned] at h
    exact h
  have h2 : mixColumn a 2 = aesXt (a 2) ^^^ (aesXt (a 3) ^^^ (a 3 ^^^ (a 0 ^^^ a 1))) := by
    have h := mixColumn_zero (turned (turned a))
    rw [mixColumn_turned, mixColumn_turned] at h
    exact h
  have h3 : mixColumn a 3 = aesXt (a 3) ^^^ (aesXt (a 0) ^^^ (a 0 ^^^ (a 1 ^^^ a 2))) := by
    have h := mixColumn_zero (turned (turned (turned a)))
    rw [mixColumn_turned, mixColumn_turned, mixColumn_turned] at h
    exact h
  have n9 := aesMul_xor (Or.inl (rfl : (9 : UInt8) = 9))
  have n11 := aesMul_xor (Or.inr (Or.inl (rfl : (11 : UInt8) = 11)))
  have n13 := aesMul_xor (Or.inr (Or.inr (Or.inl (rfl : (13 : UInt8) = 13))))
  have n14 := aesMul_xor (Or.inr (Or.inr (Or.inr (rfl : (14 : UInt8) = 14))))
  calc invMixColumn (mixColumn a) 0
      = (aesMul (aesXt (a 0)) 14 ^^^ aesMul (a 0) 11 ^^^ aesMul (a 0) 13
            ^^^ aesMul (aesXt (a 0)) 9 ^^^ aesMul (a 0) 9)
          ^^^ (aesMul (aesXt (a 1)) 14 ^^^ aesMul (a 1) 14 ^^^ aesMul (aesXt (a 1)) 11
            ^^^ aesMul (a 1) 13 ^^^ aesMul (a 1) 9)
          ^^^ (aesMul (a 2) 14 ^^^ aesMul (aesXt (a 2)) 11 ^^^ aesMul (a 2) 11
            ^^^ aesMul (aesXt (a 2)) 13 ^^^ aesMul (a 2) 9)
          ^^^ (aesMul (a 3) 14 ^^^ aesMul (a 3) 11 ^^^ aesMul (aesXt (a 3)) 13
            ^^^ aesMul (a 3) 13 ^^^ aesMul (aesXt (a 3)) 9) := by
        simp only [invMixColumn, Matrix.cons_val, h0, h1, h2, h3, n9, n11, n13, n14]
        ac_rfl
    _ = a 0 := by
        rw [invMix_own, invMix_second, invMix_third, invMix_fourth]
        simp

theorem invMixColumn_mixColumn (a : Fin 4 → UInt8) : invMixColumn (mixColumn a) = a := by
  have hturn : ∀ a, invMixColumn (mixColumn (turned a)) = turned (invMixColumn (mixColumn a)) := by
    intro a
    rw [mixColumn_turned, invMixColumn_turned]
  have h0 := invMixColumn_mixColumn_zero a
  have h1 := invMixColumn_mixColumn_zero (turned a)
  have h2 := invMixColumn_mixColumn_zero (turned (turned a))
  have h3 := invMixColumn_mixColumn_zero (turned (turned (turned a)))
  rw [hturn] at h1
  rw [hturn, hturn] at h2
  rw [hturn, hturn, hturn] at h3
  funext k
  fin_cases k
  · exact h0
  · exact h1
  · exact h2
  · exact h3

-- ================================================================= blocks

theorem get_eq {n : Nat} (b : Vector UInt8 n) (i : Fin n) : b.get i = b[i.val] := rfl

@[simp] theorem get_ofFn {n : Nat} (f : Fin n → UInt8) (i : Fin n) : (Vector.ofFn f).get i = f i := by
  rw [get_eq, Vector.getElem_ofFn]

theorem Block.ext {a b : Block} (h : ∀ i, a.get i = b.get i) : a = b := by
  apply Vector.ext
  intro i hi
  have hget := h ⟨i, hi⟩
  rwa [get_eq, get_eq] at hget

theorem get_set (b : Block) (i j : Fin 16) (v : UInt8) :
    (b.set i v).get j = if i = j then v else b.get j := by
  rw [get_eq, Vector.getElem_set, get_eq]
  simp only [Fin.ext_iff]

/-- A block written place by place. -/
theorem get_foldl_set {p : Fin 16 → Fin 16} (hp : Function.Injective p) (v : Fin 16 → UInt8)
    (b : Block) (i : Fin 16) :
    ((List.finRange 16).foldl (fun b i => b.set (p i) (v i)) b).get (p i) = v i := by
  have hget : ∀ (is : List (Fin 16)) (b : Block),
      (is.foldl (fun b i => b.set (p i) (v i)) b).get
        = is.foldl (fun t i => Function.update t (p i) (v i)) b.get := by
    intro is
    induction is with
    | nil => exact fun b => rfl
    | cons j is ih =>
        intro b
        rw [List.foldl_cons, List.foldl_cons, ih]
        congr 1
        funext k
        rw [get_set, Function.update_apply]
        exact if_congr eq_comm rfl rfl
  rw [hget]
  exact foldl_update _ (List.mem_finRange i) fun y _ hy => by rw [hp hy]

theorem shiftRow_injective : Function.Injective shiftRow := by
  intro i j h
  revert i j
  decide

@[simp] theorem addKey_addKey (rk : List UInt8) (r : Nat) (b : Block) :
    addKey rk r (addKey rk r b) = b := by
  apply Block.ext
  intro i
  simp [addKey]

/-- Columns do not meet. -/
theorem columns_columns {f g : (Fin 4 → UInt8) → Fin 4 → UInt8} (h : ∀ a, f (g a) = a)
    (t : Block) : columns f (columns g t) = t := by
  have hcol : ∀ (i : Fin 16) (k : Fin 4),
      (Fin.ofNat 16 (i / 4 * 4 + k)).val / 4 * 4 = i / 4 * 4
        ∧ Fin.ofNat 4 (Fin.ofNat 16 (i / 4 * 4 + k)).val = k := by decide
  have hown : ∀ i : Fin 16, Fin.ofNat 16 (i / 4 * 4 + (Fin.ofNat 4 i).val) = i := by decide
  apply Block.ext
  intro i
  simp only [columns, get_ofFn, hcol]
  rw [h, hown]

-- ================================================================== S-box

/-- The bytes of a list as a mask. -/
theorem testBit_mask (xs : List UInt8) (m n : Nat) :
    (xs.foldl (fun m x => m ||| 1 <<< x.toNat) m).testBit n
      = (m.testBit n || decide (∃ x ∈ xs, x.toNat = n)) := by
  induction xs generalizing m with
  | nil => simp
  | cons x xs ih =>
      rw [List.foldl_cons, ih]
      simp only [Nat.testBit_or, Nat.one_shiftLeft, Nat.testBit_two_pow, List.exists_mem_cons_iff,
        Bool.decide_or, Bool.or_assoc]

instance finite_byte : Finite UInt8 := Finite.of_injective UInt8.toFin fun _ _ h => UInt8.toFin_inj.1 h

/-- The S-box has every byte, and so each of them once. -/
theorem aesSbox_injective : Function.Injective aesSbox := by
  refine Finite.injective_iff_surjective.2 fun y => ?_
  have hmask : aesSboxTable.foldl (fun m x => m ||| 1 <<< x.toNat) 0 = 2 ^ 256 - 1 := by
    decide +kernel
  have hy : (aesSboxTable.foldl (fun m x => m ||| 1 <<< x.toNat) 0).testBit y.toNat = true := by
    rw [hmask, Nat.testBit_two_pow_sub_one]
    exact decide_eq_true y.toNat_lt
  rw [testBit_mask, Nat.zero_testBit, Bool.false_or, decide_eq_true_eq] at hy
  obtain ⟨x, hx, hxy⟩ := hy
  obtain ⟨i, hi, hget⟩ := List.getElem_of_mem hx
  have hlen : aesSboxTable.length = 256 := by decide +kernel
  refine ⟨.ofNat i, ?_⟩
  rw [aesSbox, UInt8.toNat_ofNat', Nat.mod_eq_of_lt (by omega),
    List.getD_eq_getElem?_getD, List.getElem?_eq_getElem hi, Option.getD_some, hget]
  exact UInt8.toNat_inj.1 hxy

/-- The table when it is filled. -/
def aesInvSbox : UInt8 → UInt8 := aesInvFill fun _ => 0

/-- What the static table can be: not filled yet, or filled. -/
def InvTable (inv : UInt8 → UInt8) : Prop := inv = (fun _ => 0) ∨ inv = aesInvSbox

theorem aesInvSbox_aesSbox (x : UInt8) : aesInvSbox (aesSbox x) = x := by
  have hx : x.toNat ∈ List.range 256 := List.mem_range.2 x.toNat_lt
  have hfill := foldl_update (p := fun i : Nat => aesSbox (.ofNat i)) (v := fun i => .ofNat i)
    (t := fun _ : UInt8 => (0 : UInt8)) _ hx fun y _ hy => aesSbox_injective hy
  rw [UInt8.ofNat_toNat] at hfill
  exact hfill

theorem InvTable.fill {inv : UInt8 → UInt8} (h : InvTable inv) : aesInvFill inv = aesInvSbox := by
  rcases h with rfl | rfl
  · rfl
  · have hfirst : aesInvSbox 0 = 0x52 :=
      (congrArg aesInvSbox (by decide : (0 : UInt8) = aesSbox 0x52)).trans (aesInvSbox_aesSbox _)
    unfold aesInvFill
    rw [if_neg (by rw [hfirst]; decide)]

-- ================================================================= rounds

theorem decryptRound_encryptRound (rk : List UInt8) (b : Block) (r : Nat) :
    decryptRound rk aesInvSbox (encryptRound rk b r) r = b := by
  have hmixed : (if r ≠ 10 then
        columns invMixColumn (addKey rk r (encryptRound rk b r))
      else addKey rk r (encryptRound rk b r))
      = .ofFn fun i => aesSbox (b.get (shiftRow i)) := by
    simp only [encryptRound, addKey_addKey]
    by_cases hr : r = 10
    · simp only [hr, if_true, ne_eq, not_true_eq_false, if_false]
    · simp only [hr, if_false, ne_eq, not_false_eq_true, if_true]
      exact columns_columns invMixColumn_mixColumn _
  have hsurj := Finite.injective_iff_surjective.1 shiftRow_injective
  apply Block.ext
  intro i
  obtain ⟨j, rfl⟩ := hsurj i
  simp only [decryptRound, hmixed]
  rw [get_foldl_set shiftRow_injective, get_ofFn, aesInvSbox_aesSbox]

/-- Decryption, the table filled. -/
def decrypt (rk : List UInt8) (b : Block) : Block := (aes128Decrypt rk aesInvSbox b).1

theorem aes128Decrypt_eq {inv : UInt8 → UInt8} (h : InvTable inv) (rk : List UInt8) (b : Block) :
    aes128Decrypt rk inv b = (decrypt rk b, aesInvSbox) := by
  have hfilled : InvTable aesInvSbox := Or.inr rfl
  simp only [decrypt, aes128Decrypt, h.fill, hfilled.fill]

theorem decrypt_encrypt (rk : List UInt8) (b : Block) : decrypt rk (aes128Encrypt rk b) = b := by
  have hfilled : InvTable aesInvSbox := Or.inr rfl
  simp only [decrypt, aes128Decrypt, aes128Encrypt, hfilled.fill]
  rw [foldl_undo (decryptRound_encryptRound rk), addKey_addKey]

instance finite_block : Finite Block :=
  Finite.of_injective (fun b : Block => b.get) fun _ _ h => Block.ext (congrFun h)

theorem encrypt_decrypt (rk : List UInt8) (b : Block) : aes128Encrypt rk (decrypt rk b) = b := by
  have hinj : Function.Injective (aes128Encrypt rk) :=
    Function.LeftInverse.injective (decrypt_encrypt rk)
  obtain ⟨c, rfl⟩ := Finite.injective_iff_surjective.1 hinj b
  rw [decrypt_encrypt]

end Ncmips.Wpa
