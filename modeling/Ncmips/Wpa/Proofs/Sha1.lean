/-
`sha1_update` and `sha1_final` are FIPS 180's SHA-1.

A block goes through the same rounds (`sha1Block_eq`); what the state
keeps of the bytes so far does not depend on the pieces they came in
(`Holds`); and `sha1_final` feeds the padding the same way, with a length
of 32 bits, which is all of it for less than 2^29 bytes.
-/
import Mathlib.Tactic.Ring
import Ncmips.Lib.Absorb
import Ncmips.Wpa.Fips

namespace Ncmips.Wpa

-- ============================================================== one block

theorem sha1Rol_eq {n : UInt32} (h : n = 1 ∨ n = 5 ∨ n = 30) (x : UInt32) :
    sha1Rol x n = Fips.rotl n.toNat x := by
  rcases h with rfl | rfl | rfl
  · exact UInt32.toBitVec_inj.1 rfl
  · exact UInt32.toBitVec_inj.1 rfl
  · exact UInt32.toBitVec_inj.1 rfl

theorem ch_eq (b c d : UInt32) : (b &&& c) ||| (~~~b &&& d) = Fips.ch b c d := by
  apply UInt32.toBitVec_inj.1
  ext i hi
  simp only [Fips.ch, UInt32.toBitVec_or, UInt32.toBitVec_and, UInt32.toBitVec_not,
    UInt32.toBitVec_xor, BitVec.getElem_or, BitVec.getElem_and, BitVec.getElem_not,
    BitVec.getElem_xor]
  cases b.toBitVec[i] <;> cases c.toBitVec[i] <;> cases d.toBitVec[i] <;> rfl

theorem maj_eq (b c d : UInt32) :
    (b &&& c) ||| (b &&& d) ||| (c &&& d) = Fips.maj b c d := by
  apply UInt32.toBitVec_inj.1
  ext i hi
  simp only [Fips.maj, UInt32.toBitVec_or, UInt32.toBitVec_and, UInt32.toBitVec_xor,
    BitVec.getElem_or, BitVec.getElem_and, BitVec.getElem_xor]
  cases b.toBitVec[i] <;> cases c.toBitVec[i] <;> cases d.toBitVec[i] <;> rfl

/-- A round, the words given. -/
theorem sha1Round_eq {w : List UInt32} {w' : Nat → UInt32} {i : Nat} (h : w.getD i 0 = w' i)
    (s : Words5) : sha1Round w s i = Fips.round w' s i := by
  have h5 := sha1Rol_eq (Or.inr (Or.inl (rfl : (5 : UInt32) = 5))) s.a
  have h30 := sha1Rol_eq (Or.inr (Or.inr (rfl : (30 : UInt32) = 30))) s.b
  have hsum : ∀ f k r e w : UInt32, f + k + (r + e + w) = r + f + e + k + w := by
    intro f k r e w
    ac_rfl
  simp only [sha1Round, Fips.round, Fips.roundFn, h, h5, h30, ch_eq, maj_eq]
  split_ifs <;> simp only [hsum, Fips.parity] <;> rfl

theorem sha1Rounds_eq {w : List UInt32} {w' : Nat → UInt32} (ts : List Nat)
    (h : ∀ t ∈ ts, w.getD t 0 = w' t) (s : Words5) :
    ts.foldl (sha1Round w) s = ts.foldl (Fips.round w') s := by
  induction ts generalizing s with
  | nil => rfl
  | cons t ts ih =>
      rw [List.foldl_cons, List.foldl_cons, sha1Round_eq (h t List.mem_cons_self)]
      exact ih (fun u hu => h u (List.mem_cons_of_mem _ hu)) _

/-- Digits of 8 bits do not overlap. -/
theorem or_digit {a b : Nat} (n : Nat) (hb : b < 2 ^ n) : a * 2 ^ n ||| b = a * 2 ^ n + b := by
  have hor := Nat.shiftLeft_add_eq_or_of_lt hb a
  rw [Nat.shiftLeft_eq] at hor
  exact hor.symm

theorem or_digits {n0 n1 n2 n3 : Nat} (h1 : n1 < 2 ^ 8) (h2 : n2 < 2 ^ 8) (h3 : n3 < 2 ^ 8) :
    n0 * 2 ^ 24 ||| n1 * 2 ^ 16 ||| n2 * 2 ^ 8 ||| n3
      = n0 * 2 ^ 24 + n1 * 2 ^ 16 + n2 * 2 ^ 8 + n3 := by
  have h01 : n0 * 2 ^ 24 + n1 * 2 ^ 16 = (n0 * 2 ^ 8 + n1) * 2 ^ 16 := by ring
  have h12 : (n0 * 2 ^ 8 + n1) * 2 ^ 16 + n2 * 2 ^ 8 = (n0 * 2 ^ 16 + n1 * 2 ^ 8 + n2) * 2 ^ 8 := by
    ring
  rw [or_digit 24 (by omega), h01, or_digit 16 (by omega), h12, or_digit 8 h3]

/-- Four bytes as a word. -/
theorem word_eq (b0 b1 b2 b3 : UInt8) :
    b0.toUInt32 <<< 24 ||| b1.toUInt32 <<< 16 ||| b2.toUInt32 <<< 8 ||| b3.toUInt32
      = .ofNat (b0.toNat * 2 ^ 24 + b1.toNat * 2 ^ 16 + b2.toNat * 2 ^ 8 + b3.toNat) := by
  have hlt : ∀ b : UInt8, b.toNat < 2 ^ 8 := UInt8.toNat_lt
  have hshift : ∀ (b : UInt8) (n : Nat), n ≤ 24 → b.toNat <<< n % 2 ^ 32 = b.toNat * 2 ^ n := by
    intro b n hn
    rw [Nat.shiftLeft_eq, Nat.mod_eq_of_lt]
    calc b.toNat * 2 ^ n < 2 ^ 8 * 2 ^ n := Nat.mul_lt_mul_of_pos_right (hlt b) (Nat.two_pow_pos n)
      _ ≤ 2 ^ 8 * 2 ^ 24 := Nat.mul_le_mul_left _ (Nat.pow_le_pow_right (by decide) hn)
  apply UInt32.toNat_inj.1
  rw [UInt32.toNat_ofNat', ← or_digits (hlt b1) (hlt b2) (hlt b3)]
  simp only [UInt32.toNat_or, UInt32.toNat_shiftLeft, UInt8.toNat_toUInt32]
  show b0.toNat <<< 24 % 2 ^ 32 ||| b1.toNat <<< 16 % 2 ^ 32 ||| b2.toNat <<< 8 % 2 ^ 32
    ||| b3.toNat = _
  rw [hshift b0 24 (by decide), hshift b1 16 (by decide), hshift b2 8 (by decide),
    Nat.mod_eq_of_lt]
  have h0 := hlt b0
  have h1 := hlt b1
  have h2 := hlt b2
  have h3 := hlt b3
  rw [or_digits h1 h2 h3]
  omega

theorem schedule_next {m : Nat → UInt32} {t : Nat} (ht : 16 ≤ t) :
    Fips.schedule m t = Fips.rotl 1 (Fips.schedule m (t - 3) ^^^ Fips.schedule m (t - 8)
      ^^^ Fips.schedule m (t - 14) ^^^ Fips.schedule m (t - 16)) := by
  rw [Fips.schedule, if_neg (by omega)]

/-- The words of the schedule, as far as they are made. -/
theorem sha1Extend_fold {m : Nat → UInt32} {w : List UInt32} (n : Nat) {k : Nat} (hk : 16 ≤ k)
    (hlen : w.length = k) (hw : ∀ t < k, w.getD t 0 = Fips.schedule m t) :
    ((List.range' k n).foldl sha1Extend w).length = k + n
      ∧ ∀ t < k + n, ((List.range' k n).foldl sha1Extend w).getD t 0 = Fips.schedule m t := by
  induction n generalizing w k with
  | zero => exact ⟨hlen, hw⟩
  | succ n ih =>
      have hone := sha1Rol_eq (Or.inl (rfl : (1 : UInt32) = 1))
      have hnext : ∀ t < k + 1, (sha1Extend w k).getD t 0 = Fips.schedule m t := by
        intro t ht
        unfold sha1Extend
        rcases Nat.lt_or_ge t k with hlt | hge
        · rw [List.getD_append _ _ _ _ (by omega)]
          exact hw t hlt
        · have htk : t = k := by omega
          subst htk
          rw [List.getD_append_right _ _ _ _ (by omega), hlen, Nat.sub_self, List.getD_cons_zero,
            hw _ (by omega), hw _ (by omega), hw _ (by omega), hw _ (by omega), hone,
            schedule_next hk]
          rfl
      rw [List.range'_succ, List.foldl_cons, show k + (n + 1) = k + 1 + n by omega]
      exact ih (by omega) (by simp [sha1Extend, hlen]) hnext

theorem sha1Load_getD (l : List UInt8) (i : Nat) {t : Nat} (ht : t < 16) :
    (sha1Load (blockAt 64 l i)).getD t 0 = Fips.word l i t := by
  have hbyte : ∀ j < 4, (blockAt 64 l i).toList.getD (4 * t + j) 0
      = l.getD (64 * i + (4 * t + j)) 0 := by
    intro j hj
    rw [List.getD_eq_getElem?_getD, Vector.getElem?_toList, Vector.getElem?_eq_getElem (by omega),
      Option.getD_some, blockAt, Vector.getElem_ofFn]
    rfl
  rw [sha1Load, List.getD_eq_getElem?_getD, List.getElem?_map, List.getElem?_range ht,
    Option.map_some, Option.getD_some]
  simp only [hbyte 0 (by omega), hbyte 1 (by omega), hbyte 2 (by omega), hbyte 3 (by omega),
    word_eq, Fips.word]

/-- A block of the input through all of its rounds. -/
theorem sha1Block_eq (h : Words5) (l : List UInt8) (i : Nat) :
    sha1Block h (blockAt 64 l i) = Fips.compress h (Fips.word l i) := by
  obtain ⟨hlen, hw⟩ := sha1Extend_fold (m := Fips.word l i) (w := sha1Load (blockAt 64 l i)) 64
    (le_refl 16) (by simp [sha1Load]) fun t ht => by
      rw [sha1Load_getD l i ht, Fips.schedule, if_pos ht]
  have hrounds := sha1Rounds_eq (List.range 80) (fun t ht => hw t (List.mem_range.1 ht)) h
  simp only [sha1Block, Fips.compress, hrounds]
  simp only [UInt32.add_comm h.a, UInt32.add_comm h.b, UInt32.add_comm h.c, UInt32.add_comm h.d,
    UInt32.add_comm h.e]

-- ============================================================= the stream

/-- The hash value of the whole blocks of an input. -/
def chain (l : List UInt8) : Words5 := (blocksOf 64 l).foldl sha1Block Fips.initial

/-- What the state is once `l` has gone in. -/
structure Sha1.Holds (s : Sha1) (l : List UInt8) : Prop where
  absorbed : Absorbed sha1Block Fips.initial l s.h s.buf
  len_eq : s.len.toNat = l.length % 2 ^ 32

theorem holds_init (buf : Vector UInt8 64) : (sha1Init buf).Holds [] where
  absorbed := Absorbed.nil _ _ _
  len_eq := rfl

variable {s : Sha1} {l : List UInt8}

theorem Sha1.Holds.put (h : s.Holds l) (x : UInt8) : (sha1Put s x).Holds (l ++ [x]) := by
  have hlen := h.len_eq
  have hplace : s.len.toNat % 64 = l.length % 64 := by omega
  have hnext : (s.len + 1).toNat = (l.length + 1) % 2 ^ 32 := by
    rw [UInt32.toNat_add, show (1 : UInt32).toNat = 1 from rfl]
    omega
  have hfull : (s.len + 1).toNat % 64 = (l.length + 1) % 64 := by omega
  refine ⟨?_, ?_⟩
  · have hput := h.absorbed.put x (by omega)
    simp only [sha1Put, hplace, hfull]
    exact hput
  · rw [List.length_append, List.length_singleton]
    exact hnext

/-- However the input comes, it has come. -/
theorem Sha1.Holds.update (h : s.Holds l) (p : List UInt8) : (sha1Update s p).Holds (l ++ p) := by
  induction p generalizing s l with
  | nil => rwa [List.append_nil]
  | cons x p ih =>
      rw [List.append_cons]
      exact ih (h.put x)

theorem Sha1.Holds.updates (h : s.Holds l) (chunks : List (List UInt8)) :
    (chunks.foldl sha1Update s).Holds (l ++ chunks.flatten) := by
  induction chunks generalizing s l with
  | nil => rwa [List.flatten_nil, List.append_nil]
  | cons p chunks ih =>
      rw [List.flatten_cons, ← List.append_assoc]
      exact ih (h.update p)

-- ================================================================ padding

/-- The zeros, up to eight bytes before the end of a block. -/
theorem Sha1.Holds.pad (h : s.Holds l) (fuel : Nat) (hfuel : (120 - l.length % 64) % 64 ≤ fuel) :
    (sha1Pad fuel s).Holds (l ++ List.replicate ((120 - l.length % 64) % 64) 0) := by
  have hlen := h.len_eq
  induction fuel generalizing s l with
  | zero =>
      rw [show (120 - l.length % 64) % 64 = 0 by omega, List.replicate_zero, List.append_nil]
      exact h
  | succ fuel ih =>
      unfold sha1Pad
      by_cases hend : s.len.toNat % 64 = 56
      · rw [if_neg (not_not.2 hend), show (120 - l.length % 64) % 64 = 0 by omega,
          List.replicate_zero, List.append_nil]
        exact h
      · have hput := h.update [0]
        have hmore : (120 - l.length % 64) % 64 = (120 - (l ++ [0]).length % 64) % 64 + 1 := by
          rw [List.length_append, List.length_singleton]
          omega
        rw [if_pos hend, hmore, List.replicate_succ, List.append_cons]
        exact ih hput (by omega) hput.len_eq

/-- The padding of `sha1_final`: the length in 32 bits. -/
def padLow (m : List UInt8) : List UInt8 :=
  m ++ [0x80] ++ List.replicate ((119 - m.length % 64) % 64) 0
    ++ (List.range 8).map fun i =>
      if i < 4 then 0 else .ofNat (8 * m.length % 2 ^ 32 / 2 ^ (8 * (7 - i)))

/-- Less than 2^29 bytes have a length of 32 bits. -/
theorem padLow_eq {m : List UInt8} (hm : m.length < 2 ^ 29) : padLow m = Fips.pad m := by
  unfold padLow Fips.pad
  congr 1
  refine List.map_congr_left fun i hi => ?_
  rw [Nat.mod_eq_of_lt (by omega)]
  split
  · next hlow =>
    have hbig : 2 ^ 32 ≤ 2 ^ (8 * (7 - i)) := Nat.pow_le_pow_right (by decide) (by omega)
    rw [Nat.div_eq_of_lt (by omega)]
    rfl
  · rfl

/-- The bytes of a hash value. -/
def digest (h : Words5) : List UInt8 := h.toList.flatMap Fips.bytesOf

@[simp] theorem digest_length (h : Words5) : (digest h).length = 20 := rfl

theorem shift_byte (w : UInt32) {n : Nat} (hn : n < 32) :
    (w >>> UInt32.ofNat n).toUInt8 = .ofNat (w.toNat / 2 ^ n) := by
  apply UInt8.toNat_inj.1
  rw [UInt32.toNat_toUInt8, UInt32.toNat_shiftRight, UInt32.toNat_ofNat', UInt8.toNat_ofNat',
    Nat.mod_eq_of_lt (show n < 2 ^ 32 by omega), Nat.mod_eq_of_lt hn, Nat.shiftRight_eq_div_pow]

theorem word_bytes (w : UInt32) :
    [(w >>> (8 * (3 - UInt32.ofNat 0))).toUInt8, (w >>> (8 * (3 - UInt32.ofNat 1))).toUInt8,
      (w >>> (8 * (3 - UInt32.ofNat 2))).toUInt8, (w >>> (8 * (3 - UInt32.ofNat 3))).toUInt8]
      = Fips.bytesOf w := by
  have h0 := shift_byte w (show 0 < 32 by decide)
  rw [Nat.pow_zero, Nat.div_one] at h0
  show [(w >>> UInt32.ofNat 24).toUInt8, (w >>> UInt32.ofNat 16).toUInt8,
    (w >>> UInt32.ofNat 8).toUInt8, (w >>> UInt32.ofNat 0).toUInt8] = _
  rw [shift_byte w (by decide), shift_byte w (by decide), shift_byte w (by decide), h0]
  rfl

/-- What `sha1_final` writes. -/
theorem digest_eq (h : Words5) :
    (List.range 20).map (fun i =>
      (h.toList.getD (i / 4) 0 >>> (8 * (3 - UInt32.ofNat (i % 4)))).toUInt8) = digest h := by
  have hwords : digest h = h.toList.flatMap fun w =>
      [(w >>> (8 * (3 - UInt32.ofNat 0))).toUInt8, (w >>> (8 * (3 - UInt32.ofNat 1))).toUInt8,
        (w >>> (8 * (3 - UInt32.ofNat 2))).toUInt8, (w >>> (8 * (3 - UInt32.ofNat 3))).toUInt8] := by
    simp only [digest, word_bytes]
  rw [hwords]
  rfl

/-- The end of a hash. -/
theorem Sha1.Holds.final (h : s.Holds l) : (sha1Final s).1 = digest (chain (padLow l)) := by
  have hzeros : (120 - (l ++ [0x80]).length % 64) % 64 = (119 - l.length % 64) % 64 := by
    rw [List.length_append, List.length_singleton]
    omega
  have hpad := (h.update [0x80]).pad 64 (by omega)
  rw [hzeros] at hpad
  have hbits : (s.len * 8).toNat = 8 * l.length % 2 ^ 32 := by
    have hlen := h.len_eq
    rw [UInt32.toNat_mul, show (8 : UInt32).toNat = 8 from rfl]
    omega
  have hlenb : (List.range 8).map (fun i =>
        if i < 4 then (0 : UInt8) else ((s.len * 8) >>> (8 * (7 - UInt32.ofNat i))).toUInt8)
      = (List.range 8).map fun i =>
        if i < 4 then (0 : UInt8) else .ofNat (8 * l.length % 2 ^ 32 / 2 ^ (8 * (7 - i))) := by
    refine List.map_congr_left fun i hi => ?_
    have hcount : ∀ i < 8, 8 * (7 - UInt32.ofNat i) = UInt32.ofNat (8 * (7 - i)) := by decide
    rw [hcount i (List.mem_range.1 hi)]
    split
    · rfl
    · rw [shift_byte _ (by omega), hbits]
  have hdone := hpad.update ((List.range 8).map fun i =>
    if i < 4 then (0 : UInt8) else ((s.len * 8) >>> (8 * (7 - UInt32.ofNat i))).toUInt8)
  rw [hlenb] at hdone
  unfold sha1Final
  dsimp only
  rw [digest_eq, hlenb, hdone.absorbed.acc_eq]
  rfl

-- =================================================================== SHA-1

/-- A hash in one go. -/
def sha1Sum (m : List UInt8) : List UInt8 :=
  (sha1Final (sha1Update (sha1Init (.replicate 64 0)) m)).1

theorem Sha1.Holds.sum (h : s.Holds l) : (sha1Final s).1 = sha1Sum l := by
  have hone : (sha1Update (sha1Init (.replicate 64 0)) l).Holds l := (holds_init _).update l
  rw [h.final, sha1Sum, hone.final]

@[simp] theorem sha1Sum_length (m : List UInt8) : (sha1Sum m).length = 20 := by
  have hone : (sha1Update (sha1Init (.replicate 64 0)) m).Holds m := (holds_init _).update m
  rw [sha1Sum, hone.final, digest_length]

/-- Below 2^29 bytes it is FIPS 180's. -/
theorem sha1Sum_eq {m : List UInt8} (hm : m.length < 2 ^ 29) : sha1Sum m = Fips.sha1 m := by
  have hone : (sha1Update (sha1Init (.replicate 64 0)) m).Holds m := (holds_init _).update m
  rw [sha1Sum, hone.final, padLow_eq hm, chain, blocksOf, List.foldl_map]
  simp only [sha1Block_eq]
  rfl

example : sha1Sum [97, 98, 99]
    = [0xa9, 0x99, 0x3e, 0x36, 0x47, 0x06, 0x81, 0x6a, 0xba, 0x3e, 0x25, 0x71, 0x78, 0x50, 0xc2,
      0x6c, 0x9c, 0xd0, 0xd8, 0x9d] := by decide +kernel

/-- Whatever the pieces. -/
theorem sha1Final_updates (buf : Vector UInt8 64) (chunks : List (List UInt8)) :
    (sha1Final (chunks.foldl sha1Update (sha1Init buf))).1 = sha1Sum chunks.flatten :=
  ((holds_init buf).updates chunks).sum

end Ncmips.Wpa
