/-
`vsnprintf` writes no more than its buffer, as long as the output has fewer
than 2^32 characters.

Whatever `put` does with them, the format's characters are the same
(`format_emits`): a run on a buffer is a run on the full output, character
by character, and what is in the buffer follows from `outC` alone.
-/
import Mathlib.Data.List.Induction
import Ncmips.Libc.Printf

namespace Ncmips.Libc

open Words

variable {D : Type} {fl : SoftFloat D}

-- ======================================================= what is put out

/-- What `out_num` puts out. -/
def numText (v base : Nat) (upper : Bool) (sign : UInt8) (width prec : Int)
    (left zero alt : Bool) : List UInt8 :=
  let tmp := numTmp v base upper prec alt
  let zero := if 0 ≤ prec then false else zero
  let total : Int := tmp.length + (if sign ≠ 0 then 1 else 0)
  let pad := (s32 (width - total)).toNat
  (if !left && !zero then List.replicate pad (ch ' ') else [])
    ++ (if sign ≠ 0 then [sign] else [])
    ++ (if !left && zero then List.replicate pad (ch '0') else [])
    ++ tmp.reverse ++ (if left then List.replicate pad (ch ' ') else [])

theorem outNum_eq {σ : Type} (put : σ → UInt8 → σ) (o : σ) (v base : Nat) (upper : Bool)
    (sign : UInt8) (width prec : Int) (left zero alt : Bool) :
    outNum put o v base upper sign width prec left zero alt
      = (numText v base upper sign width prec left zero alt).foldl put o := by
  have hopt (c : Bool) (t : List UInt8) (o : σ) :
      (if c then t.foldl put o else o) = (if c then t else []).foldl put o := by
    cases c with
    | true => rfl
    | false => rfl
  have hsign (o : σ) : (if sign ≠ 0 then put o sign else o)
      = (if sign ≠ 0 then [sign] else []).foldl put o := by
    split
    · rfl
    · rfl
  unfold outNum numText outPad
  dsimp only
  rw [hopt, hsign, hopt, hopt]
  simp only [List.foldl_append]

/-- These characters are put out, wherever they go. -/
def Emits (f : (σ : Type) → (σ → UInt8 → σ) → σ → σ) (t : List UInt8) : Prop :=
  ∀ (σ : Type) (put : σ → UInt8 → σ) (o : σ), f σ put o = t.foldl put o

theorem emits_num (v base : Nat) (upper : Bool) (sign : UInt8) (width prec : Int)
    (left zero alt : Bool) :
    Emits (fun _ put o => outNum put o v base upper sign width prec left zero alt)
      (numText v base upper sign width prec left zero alt) :=
  fun _ put o => outNum_eq put o _ _ _ _ _ _ _ _ _

theorem emits_put (c : UInt8) : Emits (fun _ put o => put o c) [c] := fun _ _ _ => rfl

/-- One after the other. -/
theorem Emits.comp {f g : (σ : Type) → (σ → UInt8 → σ) → σ → σ} {t u : List UInt8}
    (hf : Emits f t) (hg : Emits g u) :
    Emits (fun σ put o => g σ put (f σ put o)) (t ++ u) := by
  intro σ put o
  show g σ put (f σ put o) = _
  rw [hg, hf, List.foldl_append]

theorem emits_ite {p : Prop} [Decidable p] {f g : (σ : Type) → (σ → UInt8 → σ) → σ → σ}
    {t u : List UInt8} (hf : Emits f t) (hg : Emits g u) :
    Emits (fun σ put o => if p then f σ put o else g σ put o) (if p then t else u) := by
  intro σ put o
  split
  · exact hf σ put o
  · exact hg σ put o

theorem emits_nil : Emits (fun _ _ o => o) [] := fun _ _ _ => rfl

/-- What `out_str` puts out. -/
def strText (s : List UInt8) (len width : Int) (left : Bool) : List UInt8 :=
  let pad := List.replicate (s32 (width - len)).toNat (ch ' ')
  (if !left then pad else []) ++ s.take len.toNat ++ (if left then pad else [])

theorem outStr_emits (s : List UInt8) (len width : Int) (left : Bool) :
    Emits (fun _ put o => outStr put o s len width left) (strText s len width left) := by
  have hpad (n : Int) : Emits (fun _ put o => outPad put o (ch ' ') n)
      (List.replicate n.toNat (ch ' ')) := fun _ _ _ => rfl
  have htext : Emits (fun _ put o => (s.take len.toNat).foldl put o) (s.take len.toNat) :=
    fun _ _ _ => rfl
  exact ((@emits_ite ((!left) = true) _ _ _ _ _ (hpad _) emits_nil).comp htext).comp
    (@emits_ite (left = true) _ (fun _ put o => outPad put o (ch ' ') (s32 (width - len))) _ _ _
      (hpad _) emits_nil)

theorem outFloat_emits (d : D) (prec : Int) :
    ∃ t, Emits (fun _ put o => outFloat fl put o d prec) t := by
  unfold outFloat
  dsimp only
  generalize (if fl.isNeg d then fl.neg d else d) = d'
  generalize (if 9 < (if prec < 0 then 6 else prec) then 9 else if prec < 0 then 6 else prec) = p
  generalize u32 (10 ^ p.toNat) = scale
  generalize (if scale ≤ u32 (fl.frac d' (u32 (fl.whole d')) scale)
    then (u32 (u32 (fl.whole d') + 1), sub32 (u32 (fl.frac d' (u32 (fl.whole d')) scale)) scale)
    else (u32 (fl.whole d'), u32 (fl.frac d' (u32 (fl.whole d')) scale))) = parts
  have hhead := ((@emits_ite (fl.isNeg d = true) _ _ _ _ _ (emits_put (ch '-')) emits_nil).comp
    (emits_num parts.1 10 false 0 0 (-1) false false false))
  have htail := hhead.comp ((emits_put (ch '.')).comp
    (emits_num parts.2 10 false 0 0 p false false false))
  exact ⟨_, @emits_ite (p ≠ 0) _ _ _ _ _ htail hhead⟩

/-- A conversion puts out some text, and takes some arguments. -/
theorem convert_emits (sp : Spec) (c : UInt8) (args : List (Arg D)) :
    ∃ (t : List UInt8) (args₁ : List (Arg D)), ∀ (σ : Type) (put : σ → UInt8 → σ) (o : σ),
      convert fl put sp c args o = (t.foldl put o, args₁) := by
  unfold convert
  have hnum (v base : Nat) (upper : Bool) (sign : UInt8) (alt : Bool) (args' : List (Arg D)) :
      ∃ (t : List UInt8) (args₁ : List (Arg D)), ∀ (σ : Type) (put : σ → UInt8 → σ) (o : σ),
        (outNum put o v base upper sign sp.width sp.prec sp.left sp.zero alt, args')
          = (t.foldl put o, args₁) :=
    ⟨_, args', fun σ put o => Prod.ext (outNum_eq put o _ _ _ _ _ _ _ _ _) rfl⟩
  have hstr (s : List UInt8) (len : Int) (args' : List (Arg D)) :
      ∃ (t : List UInt8) (args₁ : List (Arg D)), ∀ (σ : Type) (put : σ → UInt8 → σ) (o : σ),
        (outStr put o s len sp.width sp.left, args') = (t.foldl put o, args₁) :=
    ⟨_, args', fun σ put o => Prod.ext (outStr_emits s len sp.width sp.left σ put o) rfl⟩
  by_cases hd : c = ch 'd' ∨ c = ch 'i'
  · simp only [if_pos hd]
    exact hnum _ _ _ _ _ _
  · simp only [if_neg hd]
    by_cases hu : c = ch 'u' ∨ c = ch 'x' ∨ c = ch 'X' ∨ c = ch 'o'
    · simp only [if_pos hu]
      exact hnum _ _ _ _ _ _
    · simp only [if_neg hu]
      by_cases hp : c = ch 'p'
      · simp only [if_pos hp]
        exact hnum _ _ _ _ _ _
      · simp only [if_neg hp]
        by_cases hc : c = ch 'c'
        · simp only [if_pos hc]
          exact hstr _ _ _
        · simp only [if_neg hc]
          by_cases hs : c = ch 's'
          · simp only [if_pos hs]
            exact hstr _ _ _
          · simp only [if_neg hs]
            by_cases hf : c = ch 'f' ∨ c = ch 'g' ∨ c = ch 'e'
            · simp only [if_pos hf]
              split
              · next d args' heq =>
                obtain ⟨t, ht⟩ := @outFloat_emits D fl d sp.prec
                exact ⟨t, args', fun σ put o => Prod.ext (ht σ put o) rfl⟩
              · next args' heq => exact ⟨[], args', fun _ _ _ => rfl⟩
            · simp only [if_neg hf]
              by_cases hpc : c = ch '%'
              · simp only [if_pos hpc]
                exact ⟨[ch '%'], args, fun _ _ _ => rfl⟩
              · simp only [if_neg hpc]
                exact ⟨[ch '%', c], args, fun _ _ _ => rfl⟩

theorem format_nil {σ : Type} (put : σ → UInt8 → σ) (args : List (Arg D)) (o : σ) :
    format fl put [] args o = o := by
  rw [format]

theorem format_plain {σ : Type} (put : σ → UInt8 → σ) {c : UInt8} (hc : c ≠ ch '%')
    (fmt : List UInt8) (args : List (Arg D)) (o : σ) :
    format fl put (c :: fmt) args o = format fl put fmt args (put o c) := by
  rw [format, if_pos hc]

/-- One conversion. -/
theorem format_conv {σ : Type} (put : σ → UInt8 → σ) {fmt rest : List UInt8} {c : UInt8} {sp : Spec}
    {args args' : List (Arg D)} (hsp : parseSpec fmt args = (sp, c :: rest, args')) (o : σ) :
    format fl put (ch '%' :: fmt) args o
      = format fl put rest (convert fl put sp c args' o).2 (convert fl put sp c args' o).1 := by
  rw [format, if_neg (fun h => h rfl)]
  split
  · next heq =>
    rw [hsp] at heq
    cases heq
  · next heq =>
    rw [hsp] at heq
    cases heq
    rfl

/-- The format ends within a conversion. -/
theorem format_cut {σ : Type} (put : σ → UInt8 → σ) {fmt : List UInt8} {sp : Spec}
    {args args' : List (Arg D)} (hsp : parseSpec fmt args = (sp, [], args')) (o : σ) :
    format fl put (ch '%' :: fmt) args o = o := by
  rw [format, if_neg (fun h => h rfl)]
  split
  · rfl
  · next heq =>
    rw [hsp] at heq
    cases heq

theorem foldl_snoc (t u : List UInt8) : t.foldl (fun t c => t ++ [c]) u = u ++ t := by
  induction t generalizing u with
  | nil => exact (List.append_nil u).symm
  | cons c t ih => rw [List.foldl_cons, ih, List.append_assoc, List.singleton_append]

/-- Every run puts out the full output. -/
theorem format_emits (fmt : List UInt8) (args : List (Arg D)) :
    Emits (fun _ put o => format fl put fmt args o) (fullText fl fmt args) := by
  have hsome : ∃ t, Emits (fun _ put o => format fl put fmt args o) t := by
    induction hn : fmt.length using Nat.strong_induction_on generalizing fmt args with
    | _ n ih =>
      cases fmt with
      | nil => exact ⟨[], fun _ put o => format_nil put args o⟩
      | cons c fmt =>
          rw [List.length_cons] at hn
          by_cases hc : c = ch '%'
          · subst hc
            cases hsp : parseSpec fmt args with
            | mk sp r =>
                obtain ⟨rest, args'⟩ := r
                cases rest with
                | nil => exact ⟨[], fun _ put o => format_cut put hsp o⟩
                | cons d rest =>
                    have hle := parseSpec_length fmt args
                    rw [hsp, List.length_cons] at hle
                    obtain ⟨t, args₁, hconv⟩ := @convert_emits D fl sp d args'
                    obtain ⟨u, hu⟩ := ih rest.length (by omega) rest args₁ rfl
                    refine ⟨t ++ u, fun σ put o => (format_conv put hsp o).trans ?_⟩
                    rw [hconv, List.foldl_append]
                    exact hu σ put _
          · obtain ⟨t, ht⟩ := ih fmt.length (by omega) fmt args rfl
            exact ⟨c :: t, fun σ put o => (format_plain put hc fmt args o).trans (ht σ put _)⟩
  obtain ⟨t, ht⟩ := hsome
  have hfull : fullText fl fmt args = t := (ht _ _ _).trans (foldl_snoc t [])
  rw [hfull]
  exact ht

/-- A conversion's text, and then the rest's. -/
theorem fullText_conv {fmt rest t : List UInt8} {c : UInt8} {sp : Spec} {args args' args₁ : List (Arg D)}
    (hsp : parseSpec fmt args = (sp, c :: rest, args'))
    (hconv : ∀ (σ : Type) (put : σ → UInt8 → σ) (o : σ),
      convert fl put sp c args' o = (t.foldl put o, args₁)) :
    fullText fl (ch '%' :: fmt) args = t ++ fullText fl rest args₁ := by
  unfold fullText
  rw [format_conv _ hsp, hconv]
  have hrest : format fl (fun t c => t ++ [c]) rest args₁ (t.foldl (fun t c => t ++ [c]) []) = _ :=
    format_emits rest args₁ _ _ _
  rw [foldl_snoc, foldl_snoc, List.nil_append] at hrest
  rw [foldl_snoc, List.nil_append]
  exact hrest

-- ============================================================= the digits

theorem pushDigits_length {base v k : Nat} (upper : Bool) (hk : 0 < k) (hv : v < base ^ k) :
    (pushDigits base upper v).length ≤ k := by
  induction k generalizing v with
  | zero => exact absurd hk (Nat.lt_irrefl 0)
  | succ k ih =>
      rw [pushDigits]
      split
      · next hmore =>
        have hdiv : v / base < base ^ k := Nat.div_lt_of_lt_mul (by rw [← Nat.pow_succ']; exact hv)
        have hpos : 0 < k := by
          by_contra h0
          obtain rfl : k = 0 := by omega
          exact hmore.2 (Nat.lt_one_iff.mp hdiv)
        exact Nat.succ_le_succ (ih hpos hdiv)
      · exact Nat.succ_le_succ (Nat.zero_le _)

/-- The zeros up to the precision, of which `tmp` has room for 30. -/
theorem pushZeros_eq (prec : Int) (tmp : List UInt8) :
    pushZeros prec tmp
      = tmp ++ List.replicate (min prec.toNat (tmpSize - 2) - tmp.length) (ch '0') := by
  fun_induction pushZeros prec tmp with
  | case1 tmp h ih =>
      have hcount : min prec.toNat (tmpSize - 2) - tmp.length
          = min prec.toNat (tmpSize - 2) - (tmp ++ [ch '0']).length + 1 := by
        rw [List.length_append, List.length_singleton]
        omega
      rw [ih, hcount, List.append_assoc, List.replicate_succ]
      rfl
  | case2 tmp h =>
      have hcount : min prec.toNat (tmpSize - 2) - tmp.length = 0 := by omega
      rw [hcount, List.replicate_zero, List.append_nil]

theorem numTmp_length {v base : Nat} (hv : v < 2 ^ 64) (hbase : 8 ≤ base) (upper : Bool) (prec : Int)
    (alt : Bool) : (numTmp v base upper prec alt).length ≤ tmpSize := by
  have hdigits : (pushDigits base upper v).length ≤ 22 := by
    refine pushDigits_length upper (by decide) (Nat.lt_of_lt_of_le hv ?_)
    exact Nat.le_trans (by decide : 2 ^ 64 ≤ 8 ^ 22) (Nat.pow_le_pow_left hbase 22)
  have hzeros : (pushZeros prec (pushDigits base upper v)).length ≤ tmpSize - 2 := by
    rw [pushZeros_eq, List.length_append, List.length_replicate]
    unfold tmpSize
    omega
  unfold numTmp
  dsimp only
  unfold tmpSize at *
  split
  · rw [List.length_append, List.length_cons, List.length_singleton]
    omega
  · omega

-- ============================================================== the buffer

theorem outC_buf (o : Out) (c : UInt8) :
    (outC o c).buf
      = if u32 (o.len + 1) < o.size then Function.update o.buf o.len (some c) else o.buf := rfl

theorem outC_len (o : Out) (c : UInt8) : (outC o c).len = u32 (o.len + 1) := rfl

/-- The count is the same whatever the size. -/
theorem foldl_outC_len (t : List UInt8) (o : Out) (hlen : o.len < 2 ^ 32) :
    (t.foldl outC o).len = u32 (o.len + t.length) := by
  induction t generalizing o with
  | nil => exact (u32_of_lt hlen).symm
  | cons c t ih =>
      rw [List.foldl_cons, ih (outC o c) (u32_lt _), outC_len, List.length_cons]
      unfold u32
      omega

theorem foldl_outC_size (t : List UInt8) (o : Out) : (t.foldl outC o).size = o.size := by
  induction t generalizing o with
  | nil => rfl
  | cons c t ih => exact ih (outC o c)

/-- Characters put into the buffer, while they can be counted. -/
theorem foldl_outC {size : Nat} (t : List UInt8) (ht : t.length < 2 ^ 32) (k : Nat) :
    (t.foldl outC { size }).buf k = if k < t.length ∧ k + 1 < size then t[k]? else none := by
  induction t using List.reverseRecOn generalizing k with
  | nil => exact (if_neg fun h => absurd h.1 (Nat.not_lt_zero k)).symm
  | append_singleton t c ih =>
      rw [List.length_append, List.length_singleton] at ht
      have hlen : (t.foldl outC { size }).len = t.length := by
        rw [foldl_outC_len t { size } (by show 0 < 2 ^ 32; omega), Nat.zero_add,
          u32_of_lt (by omega)]
      rw [List.foldl_append, List.foldl_cons, List.foldl_nil, outC_buf, hlen, foldl_outC_size,
        u32_of_lt ht, List.length_append, List.length_singleton]
      by_cases hk : k = t.length
      · subst hk
        by_cases hroom : t.length + 1 < size
        · rw [if_pos hroom, Function.update_self, if_pos ⟨Nat.lt_succ_self _, hroom⟩,
            List.getElem?_concat_length]
        · rw [if_neg hroom, ih (by omega), if_neg fun h => hroom h.2, if_neg fun h => hroom h.2]
      · have hkeep : (if t.length + 1 < size then
            Function.update (t.foldl outC { size }).buf t.length (some c)
            else (t.foldl outC { size }).buf) k = (t.foldl outC { size }).buf k := by
          split
          · exact Function.update_of_ne hk _ _
          · rfl
        rw [hkeep, ih (by omega)]
        by_cases hin : k < t.length ∧ k + 1 < size
        · rw [if_pos hin, if_pos ⟨by omega, hin.2⟩, List.getElem?_append_left hin.1]
        · rw [if_neg hin, if_neg fun h => hin ⟨by omega, h.2⟩]

/-- Nothing goes into an empty buffer. -/
theorem foldl_outC_none (t : List UInt8) (o : Out) (hsize : o.size = 0) :
    (t.foldl outC o).buf = o.buf := by
  induction t generalizing o with
  | nil => rfl
  | cons c t ih =>
      rw [List.foldl_cons, ih (outC o c) hsize, outC_buf, hsize, if_neg (Nat.not_lt_zero _)]

/-- What was written stays written. -/
theorem outC_written {o : Out} {k : Nat} (h : o.buf k ≠ none) (t : List UInt8) :
    (t.foldl outC o).buf k ≠ none := by
  induction t generalizing o with
  | nil => exact h
  | cons c t ih =>
      refine ih (o := outC o c) ?_
      rw [outC_buf]
      split
      · by_cases hk : k = o.len
        · subst hk
          rw [Function.update_self]
          exact Option.some_ne_none c
        · rw [Function.update_of_ne hk]
          exact h
      · exact h

/-- The count wraps before it is compared: the character with the last
count goes to the last address. -/
theorem foldl_outC_wraps {size : Nat} (hsize : size ≠ 0) (t : List UInt8)
    (ht : 2 ^ 32 ≤ t.length) : (t.foldl outC { size }).buf (2 ^ 32 - 1) ≠ none := by
  have hsplit : t = t.take (2 ^ 32 - 1) ++ t.drop (2 ^ 32 - 1) := (List.take_append_drop _ t).symm
  have hlength : (t.take (2 ^ 32 - 1)).length = 2 ^ 32 - 1 := by
    rw [List.length_take]
    omega
  have hdrop : (t.drop (2 ^ 32 - 1)).length ≠ 0 := by
    rw [List.length_drop]
    omega
  generalize t.take (2 ^ 32 - 1) = a at *
  generalize t.drop (2 ^ 32 - 1) = b at *
  subst hsplit
  cases b with
  | nil => exact absurd rfl hdrop
  | cons c b =>
      have hlen : (a.foldl outC { size }).len = 2 ^ 32 - 1 := by
        rw [foldl_outC_len a { size } (by show 0 < 2 ^ 32; omega), hlength, Nat.zero_add,
          u32_of_lt (by omega)]
      rw [List.foldl_append, List.foldl_cons]
      refine outC_written ?_ b
      have hwrap : u32 (2 ^ 32 - 1 + 1) < size := by
        have h0 : u32 (2 ^ 32 - 1 + 1) = 0 := by decide
        omega
      rw [outC_buf, hlen, foldl_outC_size, if_pos hwrap, Function.update_self]
      exact Option.some_ne_none c

-- ============================================================ vsnprintf

/-- No byte outside the buffer, and in it the text's first characters, as
many as the result and the size allow, and a NUL. -/
structure Bounded (t : List UInt8) (size : Nat) (r : Int × (Nat → Option UInt8)) : Prop where
  inside : ∀ k, size ≤ k → r.2 k = none
  text : 1 ≤ size → ∃ k : Nat, (k : Int) = min r.1 (size - 1) ∧ k ≤ t.length
    ∧ (∀ i, i < k → r.2 i = t[i]?) ∧ r.2 k = some 0

variable (fl : SoftFloat D) (fmt : List UInt8) (args : List (Arg D))

theorem vsnprintf_out (size : Nat) :
    format fl outC fmt args { size } = (fullText fl fmt args).foldl outC { size } :=
  format_emits fmt args Out outC { size }

theorem vsnprintf_len (size : Nat) :
    (format fl outC fmt args { size }).len = u32 (fullText fl fmt args).length := by
  rw [vsnprintf_out, foldl_outC_len _ _ (by show 0 < 2 ^ 32; omega), Nat.zero_add]

/-- Where the NUL goes. -/
def nulAt (t : List UInt8) (size : Nat) : Nat :=
  if u32 t.length < size then u32 t.length else size - 1

theorem vsnprintf_buf {size : Nat} (hsize : size ≠ 0) :
    (vsnprintf fl size fmt args).2
      = Function.update ((fullText fl fmt args).foldl outC { size }).buf
          (nulAt (fullText fl fmt args) size) (some 0) := by
  unfold vsnprintf nulAt
  dsimp only
  rw [if_pos hsize, vsnprintf_len, vsnprintf_out]

/-- The result is the count, whatever the size. -/
theorem vsnprintf_result (size : Nat) :
    (vsnprintf fl size fmt args).1 = s32 (u32 (fullText fl fmt args).length) := by
  unfold vsnprintf
  dsimp only
  rw [vsnprintf_len]

theorem bounded_zero : Bounded (fullText fl fmt args) 0 (vsnprintf fl 0 fmt args) := by
  refine ⟨fun k _ => ?_, fun h => absurd h (by decide)⟩
  show (format fl outC fmt args { size := 0 }).buf k = none
  rw [vsnprintf_out, foldl_outC_none _ _ rfl]

theorem bounded_of_short {size : Nat} (ht : (fullText fl fmt args).length < 2 ^ 31) :
    Bounded (fullText fl fmt args) size (vsnprintf fl size fmt args) := by
  by_cases hsize : size = 0
  · subst hsize
    exact bounded_zero fl fmt args
  · have hres := vsnprintf_result fl fmt args size
    have hbuf := vsnprintf_buf fl fmt args hsize
    generalize fullText fl fmt args = t at *
    have hlen : u32 t.length = t.length := u32_of_lt (by omega)
    rw [hlen, s32_of_range (by omega) (by omega)] at hres
    have hnul : nulAt t size = min t.length (size - 1) := by
      unfold nulAt
      rw [hlen]
      split
      · omega
      · omega
    constructor
    · intro k hk
      rw [hbuf, Function.update_of_ne (by omega), foldl_outC t (by omega), if_neg (by omega)]
    · intro hpos
      refine ⟨nulAt t size, ?_, by omega, fun i hi => ?_, ?_⟩
      · rw [hres]
        omega
      · rw [hbuf, Function.update_of_ne (by omega), foldl_outC t (by omega), if_pos (by omega)]
      · rw [hbuf, Function.update_self]

theorem not_bounded_of_long {size : Nat} (hsize : size ≠ 0) (hlt : size < 2 ^ 32)
    (ht : 2 ^ 31 ≤ (fullText fl fmt args).length) :
    ¬ Bounded (fullText fl fmt args) size (vsnprintf fl size fmt args) := by
  intro h
  have hres := vsnprintf_result fl fmt args size
  have hbuf := vsnprintf_buf fl fmt args hsize
  generalize fullText fl fmt args = t at *
  by_cases hfit : t.length < 2 ^ 32
  · -- the result is negative, and no count is
    obtain ⟨k, hk, -⟩ := h.text (by omega)
    rw [hres, u32_of_lt hfit, s32_of_high (by omega) (by omega)] at hk
    omega
  · have hnul : nulAt t size < size := by
      unfold nulAt
      split
      · assumption
      · omega
    have hlast := h.inside (2 ^ 32 - 1) (by omega)
    rw [hbuf, Function.update_of_ne (by omega)] at hlast
    exact foldl_outC_wraps hsize t (by omega) hlast

/-- `out_num`'s digits fit, the result does not depend on the size, and what
is in the buffer is right where the count is: up to 2^31 characters, which
`int` does not reach. -/
theorem vsnprintf_bounded :
    (∀ (v base : Nat) (upper : Bool) (prec : Int) (alt : Bool), v < 2 ^ 64 →
      base = 8 ∨ base = 10 ∨ base = 16 → (numTmp v base upper prec alt).length ≤ tmpSize)
    ∧ (∀ size₁ size₂ : Nat,
      (vsnprintf fl size₁ fmt args).1 = (vsnprintf fl size₂ fmt args).1)
    ∧ ∀ size : Nat, size < 2 ^ 32 →
      (Bounded (fullText fl fmt args) size (vsnprintf fl size fmt args)
        ↔ (fullText fl fmt args).length < 2 ^ 31 ∨ size = 0) := by
  refine ⟨fun v base upper prec alt hv hbase => ?_, fun size₁ size₂ => ?_, fun size hsize => ?_⟩
  · exact numTmp_length hv (by omega) upper prec alt
  · rw [vsnprintf_result, vsnprintf_result]
  · constructor
    · intro h
      by_contra hlong
      rw [not_or, Nat.not_lt] at hlong
      exact not_bounded_of_long fl fmt args hlong.2 hsize hlong.1 h
    · intro h
      rcases h with hshort | rfl
      · exact bounded_of_short fl fmt args hshort
      · exact bounded_zero fl fmt args

theorem convert_c (sp : Spec) (w : Nat) (args : List (Arg D)) (σ : Type) (put : σ → UInt8 → σ) (o : σ) :
    convert fl put sp (ch 'c') (.word w :: args) o
      = ((strText [.ofNat (u32 w)] 1 sp.width sp.left).foldl put o, args) :=
  Prod.ext (outStr_emits _ _ _ _ σ put o) rfl

theorem strText_c_length (c : UInt8) (width : Int) :
    (strText [c] 1 width false).length = (s32 (width - 1)).toNat + 1 := by
  unfold strText
  rw [List.length_append, List.length_append]
  show (List.replicate _ _).length + 1 + 0 = _
  rw [List.length_replicate]

theorem fullText_char_length :
    (fullText noFloat [ch '%', ch 'c'] [.word 98]).length = 1 := by
  have hconv : fullText noFloat [ch '%', ch 'c'] [.word 98]
      = strText [.ofNat (u32 98)] 1 0 false ++ fullText noFloat [] [] :=
    fullText_conv rfl (convert_c noFloat {} 98 [])
  rw [hconv, List.length_append, strText_c_length]
  show (s32 (0 - 1)).toNat + 1 + (format noFloat _ [] [] []).length = 1
  rw [format_nil]
  decide

theorem vsnprintf_bounded_char :
    (fullText noFloat [ch '%', ch 'c'] [.word 98]).length < 2 ^ 31
      ∧ Bounded (fullText noFloat [ch '%', ch 'c'] [.word 98]) 4
          (vsnprintf noFloat 4 [ch '%', ch 'c'] [.word 98]) :=
  have hshort : (fullText noFloat [ch '%', ch 'c'] [.word 98]).length < 2 ^ 31 := by
    rw [fullText_char_length]
    decide
  ⟨hshort, ((vsnprintf_bounded noFloat [ch '%', ch 'c'] [.word 98]).2.2 4 (by decide)).2
    (.inl hshort)⟩

/-- `%2147483647c%c`. -/
def wideFmt : List UInt8 := "%2147483647c%c".toList.map ch

theorem vsnprintf_overflows :
    (fullText noFloat wideFmt [.word 97, .word 98]).length = 2 ^ 31
      ∧ ¬ Bounded (fullText noFloat wideFmt [.word 97, .word 98]) 16
          (vsnprintf noFloat 16 wideFmt [.word 97, .word 98]) := by
  have hfirst : fullText noFloat wideFmt [.word 97, .word 98]
      = strText [.ofNat (u32 97)] 1 2147483647 false
        ++ fullText noFloat [ch '%', ch 'c'] [.word 98] :=
    fullText_conv rfl (convert_c noFloat { width := 2147483647 } 97 _)
  have hlength : (fullText noFloat wideFmt [.word 97, .word 98]).length = 2 ^ 31 := by
    rw [hfirst, List.length_append, strText_c_length, fullText_char_length,
      s32_of_range (by decide) (by decide)]
    rfl
  exact ⟨hlength, not_bounded_of_long noFloat wideFmt _ (by decide) (by decide) (by omega)⟩

end Ncmips.Libc
