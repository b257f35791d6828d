/-
`vsnprintf`: the format's loop, its conversions, and the bounded buffer that
they write to.

What writes a character is a parameter (`put`), so that the same code can
be run on a buffer of any size and on one without an end. The soft-float
operations that `%f` takes are one too.
-/
import Mathlib.Logic.Function.Basic
import Ncmips.Lib.Words

namespace Ncmips.Libc

open Words

def ch (c : Char) : UInt8 := c.toUInt8

def text (s : String) : List UInt8 := s.toList.map ch

def lf : UInt8 := 10
def cr : UInt8 := 13

def isDigit (c : UInt8) : Bool := ch '0' ≤ c && c ≤ ch '9'

-- ============================================================== arguments

/-- What `vsnprintf` computes with doubles: the sign, and both parts as
unsigned words. -/
structure SoftFloat (D : Type) where
  isNeg : D → Bool
  neg : D → D
  whole : D → Nat
  frac : D → Nat → Nat → Nat

/-- An argument: a word, two words, a pointer with the string behind it,
or a double. -/
inductive Arg (D : Type) where
  | word (w : Nat)
  | dword (w : Nat)
  | ptr (p : Nat) (s : List UInt8)
  | double (d : D)

variable {D σ : Type}

/-- `va_arg` for an `int` or a `long`, unsigned. -/
def vaWord : List (Arg D) → Nat × List (Arg D)
  | .word w :: args => (u32 w, args)
  | .ptr p _ :: args => (u32 p, args)
  | _ :: args => (0, args)
  | [] => (0, [])

/-- For a `long long`. -/
def vaDword : List (Arg D) → Nat × List (Arg D)
  | .dword w :: args => (u64 w, args)
  | _ :: args => (0, args)
  | [] => (0, [])

/-- For a `char *`: NULL or its string. -/
def vaPtr : List (Arg D) → Option (List UInt8) × List (Arg D)
  | .ptr p s :: args => (if p = 0 then none else some s, args)
  | _ :: args => (none, args)
  | [] => (none, [])

def vaDouble : List (Arg D) → Option D × List (Arg D)
  | .double d :: args => (some d, args)
  | _ :: args => (none, args)
  | [] => (none, [])

def s64 (n : Int) : Int := Int.bmod n (2 ^ 64)

-- ================================================================= output

/-- `struct out`: the characters written, by their offset, and the count. -/
structure Out where
  buf : Nat → Option UInt8 := fun _ => none
  size : Nat
  len : Nat := 0

def outC (o : Out) (c : UInt8) : Out :=
  { o with
    buf := if u32 (o.len + 1) < o.size then Function.update o.buf o.len (some c) else o.buf
    len := u32 (o.len + 1) }

section

variable (put : σ → UInt8 → σ)

/-- `while (n-- > 0)`. -/
def outPad (o : σ) (c : UInt8) (n : Int) : σ := (List.replicate n.toNat c).foldl put o

/-- A character of `"0123456789abcdef"`, or in upper case. -/
def digitChar (upper : Bool) (d : Nat) : UInt8 :=
  if d < 10 then ch '0' + .ofNat d else (if upper then ch 'A' else ch 'a') + .ofNat (d - 10)

/-- The digits, lowest first. -/
def pushDigits (base : Nat) (upper : Bool) (v : Nat) : List UInt8 :=
  digitChar upper (v % base)
    :: if 1 < base ∧ v / base ≠ 0 then pushDigits base upper (v / base) else []
termination_by v
decreasing_by
  rename_i h
  exact Nat.div_lt_self (Nat.pos_of_ne_zero fun h0 => h.2 (by rw [h0, Nat.zero_div])) h.1

/-- `sizeof(tmp)`. -/
def tmpSize : Nat := 32

/-- Zeros up to the precision. -/
def pushZeros (prec : Int) (tmp : List UInt8) : List UInt8 :=
  if tmp.length < prec ∧ tmp.length < tmpSize - 2 then pushZeros prec (tmp ++ [ch '0']) else tmp
termination_by tmpSize - 2 - tmp.length
decreasing_by
  rw [List.length_append, List.length_singleton]
  omega

/-- What `out_num` has in `tmp`, from the front. -/
def numTmp (v base : Nat) (upper : Bool) (prec : Int) (alt : Bool) : List UInt8 :=
  let tmp := pushZeros prec (pushDigits base upper v)
  if alt ∧ base = 16 then tmp ++ [if upper then ch 'X' else ch 'x', ch '0'] else tmp

def outNum (o : σ) (v base : Nat) (upper : Bool) (sign : UInt8) (width prec : Int)
    (left zero alt : Bool) : σ :=
  let tmp := numTmp v base upper prec alt
  let zero := if 0 ≤ prec then false else zero
  let total : Int := tmp.length + (if sign ≠ 0 then 1 else 0)
  let o := if !left && !zero then outPad put o (ch ' ') (s32 (width - total)) else o
  let o := if sign ≠ 0 then put o sign else o
  let o := if !left && zero then outPad put o (ch '0') (s32 (width - total)) else o
  let o := tmp.reverse.foldl put o
  if left then outPad put o (ch ' ') (s32 (width - total)) else o

/-- The first `len` characters of `s`. -/
def outStr (o : σ) (s : List UInt8) (len width : Int) (left : Bool) : σ :=
  let o := if !left then outPad put o (ch ' ') (s32 (width - len)) else o
  let o := (s.take len.toNat).foldl put o
  if left then outPad put o (ch ' ') (s32 (width - len)) else o

end

-- ======================================================== a conversion's text

structure Spec where
  left : Bool := false
  zero : Bool := false
  plus : Bool := false
  space : Bool := false
  alt : Bool := false
  width : Int := 0
  prec : Int := -1
  lng : Nat := 0

def flag (c : UInt8) (sp : Spec) : Option Spec :=
  if c = ch '-' then some { sp with left := true }
  else if c = ch '0' then some { sp with zero := true }
  else if c = ch '+' then some { sp with plus := true }
  else if c = ch ' ' then some { sp with space := true }
  else if c = ch '#' then some { sp with alt := true }
  else none

def parseFlags : List UInt8 → Spec → Spec × List UInt8
  | [], sp => (sp, [])
  | c :: fmt, sp =>
      match flag c sp with
      | some sp' => parseFlags fmt sp'
      | none => (sp, c :: fmt)

/-- `n = n * 10 + (*fmt++ - '0')`. -/
def parseDigits : List UInt8 → Int → Int × List UInt8
  | [], n => (n, [])
  | c :: fmt, n =>
      if isDigit c then parseDigits fmt (s32 (n * 10 + (c.toNat - (ch '0').toNat)))
      else (n, c :: fmt)

def parseWidth (fmt : List UInt8) (args : List (Arg D)) (sp : Spec) :
    Spec × List UInt8 × List (Arg D) :=
  match fmt with
  | [] => (sp, [], args)
  | c :: rest =>
      if c = ch '*' then
        let (w, args) := vaWord args
        if s32 w < 0 then ({ sp with left := true, width := s32 (-s32 w) }, rest, args)
        else ({ sp with width := s32 w }, rest, args)
      else
        let (n, rest) := parseDigits (c :: rest) 0
        ({ sp with width := n }, rest, args)

def parsePrec (fmt : List UInt8) (args : List (Arg D)) (sp : Spec) :
    Spec × List UInt8 × List (Arg D) :=
  match fmt with
  | [] => (sp, [], args)
  | c :: rest =>
      if c = ch '.' then
        match rest with
        | [] => ({ sp with prec := 0 }, [], args)
        | d :: rest' =>
            if d = ch '*' then
              let (w, args) := vaWord args
              ({ sp with prec := s32 w }, rest', args)
            else
              let (n, rest) := parseDigits (d :: rest') 0
              ({ sp with prec := n }, rest, args)
      else (sp, c :: rest, args)

def parseLength : List UInt8 → Spec → Spec × List UInt8
  | [], sp => (sp, [])
  | c :: fmt, sp =>
      if c = ch 'l' then parseLength fmt { sp with lng := sp.lng + 1 }
      else if c = ch 'h' ∨ c = ch 'z' ∨ c = ch 't' ∨ c = ch 'j' then parseLength fmt sp
      else (sp, c :: fmt)

/-- Everything between the `%` and the conversion's character. -/
def parseSpec (fmt : List UInt8) (args : List (Arg D)) : Spec × List UInt8 × List (Arg D) :=
  let (sp, fmt) := parseFlags fmt {}
  let (sp, fmt, args) := parseWidth fmt args sp
  let (sp, fmt, args) := parsePrec fmt args sp
  let (sp, fmt) := parseLength fmt sp
  (sp, fmt, args)

/-- `%d` and `%i`. -/
def vaSigned (lng : Nat) (args : List (Arg D)) : Int × List (Arg D) :=
  if 2 ≤ lng then
    let (w, args) := vaDword args
    (s64 w, args)
  else
    let (w, args) := vaWord args
    (s32 w, args)

def vaUnsigned (lng : Nat) (args : List (Arg D)) : Nat × List (Arg D) :=
  if 2 ≤ lng then vaDword args else vaWord args

/-- The sign that is printed, 0 for none. -/
def signChar (sv : Int) (sp : Spec) : UInt8 :=
  if sv < 0 then ch '-' else if sp.plus then ch '+' else if sp.space then ch ' ' else 0

/-- `(unsigned long long)` of the magnitude. -/
def magnitude (sv : Int) : Nat := if sv < 0 then sub64 0 (sv % 2 ^ 64).toNat else sv.toNat

section

variable (fl : SoftFloat D) (put : σ → UInt8 → σ)

/-- `%f`, `%g` and `%e`. -/
def outFloat (o : σ) (d : D) (prec : Int) : σ :=
  let prec := if prec < 0 then 6 else prec
  let prec := if 9 < prec then 9 else prec
  let o := if fl.isNeg d then put o (ch '-') else o
  let d := if fl.isNeg d then fl.neg d else d
  let scale := u32 (10 ^ prec.toNat)
  let ip := u32 (fl.whole d)
  let fp := u32 (fl.frac d ip scale)
  let (ip, fp) := if scale ≤ fp then (u32 (ip + 1), sub32 fp scale) else (ip, fp)
  let o := outNum put o ip 10 false 0 0 (-1) false false false
  if prec ≠ 0 then outNum put (put o (ch '.')) fp 10 false 0 0 prec false false false else o

/-- The `switch` over the conversion's character. -/
def convert (sp : Spec) (c : UInt8) (args : List (Arg D)) (o : σ) : σ × List (Arg D) :=
  if c = ch 'd' ∨ c = ch 'i' then
    let (sv, args) := vaSigned sp.lng args
    (outNum put o (magnitude sv) 10 false (signChar sv sp) sp.width sp.prec sp.left sp.zero false, args)
  else if c = ch 'u' ∨ c = ch 'x' ∨ c = ch 'X' ∨ c = ch 'o' then
    let (v, args) := vaUnsigned sp.lng args
    let base := if c = ch 'o' then 8 else if c = ch 'u' then 10 else 16
    (outNum put o v base (c = ch 'X') 0 sp.width sp.prec sp.left sp.zero sp.alt, args)
  else if c = ch 'p' then
    let (v, args) := vaWord args
    (outNum put o v 16 false 0 sp.width sp.prec sp.left sp.zero true, args)
  else if c = ch 'c' then
    let (v, args) := vaWord args
    (outStr put o [.ofNat v] 1 sp.width sp.left, args)
  else if c = ch 's' then
    let (s, args) := vaPtr args
    let s := s.getD ("(null)".toList.map ch)
    let len := s32 s.length
    let len := if 0 ≤ sp.prec ∧ sp.prec < len then sp.prec else len
    (outStr put o s len sp.width sp.left, args)
  else if c = ch 'f' ∨ c = ch 'g' ∨ c = ch 'e' then
    match vaDouble args with
    | (some d, args) => (outFloat fl put o d sp.prec, args)
    | (none, args) => (o, args)
  else if c = ch '%' then (put o (ch '%'), args)
  else (put (put o (ch '%')) c, args)

end

-- =============================================================== the loop

theorem parseFlags_length (fmt : List UInt8) (sp : Spec) :
    (parseFlags fmt sp).2.length ≤ fmt.length := by
  induction fmt generalizing sp with
  | nil => exact Nat.le_refl _
  | cons c fmt ih =>
      unfold parseFlags
      split
      · exact Nat.le_succ_of_le (ih _)
      · exact Nat.le_refl _

theorem parseDigits_length (fmt : List UInt8) (n : Int) :
    (parseDigits fmt n).2.length ≤ fmt.length := by
  induction fmt generalizing n with
  | nil => exact Nat.le_refl _
  | cons c fmt ih =>
      unfold parseDigits
      split
      · exact Nat.le_succ_of_le (ih _)
      · exact Nat.le_refl _

theorem parseWidth_length (fmt : List UInt8) (args : List (Arg D)) (sp : Spec) :
    (parseWidth fmt args sp).2.1.length ≤ fmt.length := by
  unfold parseWidth
  split
  · exact Nat.le_refl _
  · next c rest =>
    split
    · dsimp only
      split
      · exact Nat.le_succ _
      · exact Nat.le_succ _
    · exact parseDigits_length (c :: rest) 0

theorem parsePrec_length (fmt : List UInt8) (args : List (Arg D)) (sp : Spec) :
    (parsePrec fmt args sp).2.1.length ≤ fmt.length := by
  unfold parsePrec
  split
  · exact Nat.le_refl _
  · next c rest =>
    split
    · split
      · exact Nat.zero_le _
      · next d rest' =>
        split
        · exact Nat.le_succ_of_le (Nat.le_succ _)
        · exact Nat.le_succ_of_le (parseDigits_length (d :: rest') 0)
    · exact Nat.le_refl _

theorem parseLength_length (fmt : List UInt8) (sp : Spec) :
    (parseLength fmt sp).2.length ≤ fmt.length := by
  induction fmt generalizing sp with
  | nil => exact Nat.le_refl _
  | cons c fmt ih =>
      unfold parseLength
      split
      · exact Nat.le_succ_of_le (ih _)
      · split
        · exact Nat.le_succ_of_le (ih _)
        · exact Nat.le_refl _

theorem parseSpec_length (fmt : List UInt8) (args : List (Arg D)) :
    (parseSpec fmt args).2.1.length ≤ fmt.length :=
  Nat.le_trans (parseLength_length _ _) (Nat.le_trans (parsePrec_length _ _ _)
    (Nat.le_trans (parseWidth_length _ _ _) (parseFlags_length _ _)))

/-- The loop over the format, which ends where the format does. -/
def format (fl : SoftFloat D) (put : σ → UInt8 → σ) (fmt : List UInt8) (args : List (Arg D)) (o : σ) :
    σ :=
  match fmt with
  | [] => o
  | c :: fmt =>
      if c ≠ ch '%' then format fl put fmt args (put o c)
      else
        match _hsp : parseSpec fmt args with
        | (_, [], _) => o
        | (sp, c :: rest, args') =>
            let r := convert fl put sp c args' o
            format fl put rest r.2 r.1
termination_by fmt.length
decreasing_by
  · exact Nat.lt_succ_self _
  · have hle := parseSpec_length fmt args
    rw [_hsp, List.length_cons] at hle
    exact Nat.lt_succ_of_lt hle

/-- The result, and the characters written. -/
def vsnprintf (fl : SoftFloat D) (size : Nat) (fmt : List UInt8) (args : List (Arg D)) :
    Int × (Nat → Option UInt8) :=
  let o := format fl outC fmt args { size }
  let buf := if size ≠ 0 then
      Function.update o.buf (if o.len < size then o.len else size - 1) (some 0)
    else o.buf
  (s32 o.len, buf)

/-- The full output: with a buffer that takes every character. -/
def fullText (fl : SoftFloat D) (fmt : List UInt8) (args : List (Arg D)) : List UInt8 :=
  format fl (fun t c => t ++ [c]) fmt args []

/-- Arithmetic that no conversion of an integer or a string takes. -/
def noFloat : SoftFloat Unit := ⟨fun _ => false, id, fun _ => 0, fun _ _ _ => 0⟩

/-- `snprintf` without doubles: the result, and the string in the buffer. -/
def snprintf (size : Nat) (fmt : List UInt8) (args : List (Arg Unit)) : Int × List UInt8 :=
  let t := fullText noFloat fmt args
  ((vsnprintf noFloat size fmt args).1, t.take (min t.length (size - 1)))

end Ncmips.Libc
