/-
Texts that are put together with `snprintf`: what a format of plain text,
`%s` and `%d` comes to.
-/
import Ncmips.Libc.Proofs.Printf

namespace Ncmips.Libc

open Words

variable {D : Type} {fl : SoftFloat D}

theorem fullText_nil (args : List (Arg D)) : fullText fl [] args = [] := format_nil _ args []

theorem fullText_plain {c : UInt8} (hc : c ≠ ch '%') (fmt : List UInt8) (args : List (Arg D)) :
    fullText fl (c :: fmt) args = c :: fullText fl fmt args := by
  have hrest := @format_emits D fl fmt args _ (fun t c => t ++ [c]) [c]
  rw [foldl_snoc] at hrest
  exact (format_plain _ hc fmt args []).trans hrest

theorem fullText_lit {lit : List UInt8} (h : ch '%' ∉ lit) (fmt : List UInt8) (args : List (Arg D)) :
    fullText fl (lit ++ fmt) args = lit ++ fullText fl fmt args := by
  induction lit with
  | nil => rfl
  | cons c lit ih =>
      rw [List.cons_append, List.cons_append,
        fullText_plain (fun hc => h (by rw [hc]; exact List.mem_cons_self)),
        ih fun hmem => h (List.mem_cons_of_mem c hmem)]

theorem parseSpec_s (fmt : List UInt8) (args : List (Arg D)) :
    parseSpec (ch 's' :: fmt) args = ({}, ch 's' :: fmt, args) := rfl

theorem parseSpec_d (fmt : List UInt8) (args : List (Arg D)) :
    parseSpec (ch 'd' :: fmt) args = ({}, ch 'd' :: fmt, args) := rfl

theorem fullText_s {p : Nat} (hp : p ≠ 0) {s : List UInt8} (hs : s.length < 2 ^ 31) (fmt : List UInt8)
    (args : List (Arg D)) :
    fullText fl (ch '%' :: ch 's' :: fmt) (.ptr p s :: args) = s ++ fullText fl fmt args := by
  have hlen : s32 (s.length : Int) = s.length := s32_of_range (by omega) (by omega)
  have htext : strText s s.length 0 false = s := by
    have hpad : (s32 (0 - (s.length : Int))).toNat = 0 := by
      rw [s32_of_range (by omega) (by omega)]
      omega
    unfold strText
    rw [hpad, Int.toNat_natCast, List.take_length]
    exact List.append_nil s
  nth_rewrite 2 [← htext]
  refine fullText_conv (parseSpec_s fmt _) fun σ put o => ?_
  rw [← outStr_emits s s.length 0 false σ put o]
  show (outStr put o ((if p = 0 then none else some s).getD _) _ 0 false, args) = _
  rw [if_neg hp]
  show (outStr put o s (if 0 ≤ (-1 : Int) ∧ (-1 : Int) < s32 s.length then -1 else s32 s.length) 0 false,
    args) = _
  rw [hlen, if_neg fun h => absurd h.1 (by decide)]

theorem fullText_d (w : Nat) (fmt : List UInt8) (args : List (Arg D)) :
    fullText fl (ch '%' :: ch 'd' :: fmt) (.word w :: args)
      = numText (magnitude (s32 (u32 w))) 10 false (signChar (s32 (u32 w)) {}) 0 (-1) false false false
        ++ fullText fl fmt args := by
  refine fullText_conv (parseSpec_d fmt _) fun σ put o => ?_
  have hsigned : vaSigned 0 (.word w :: args) = (s32 (u32 w), args) := rfl
  unfold convert
  rw [if_pos (.inl rfl), hsigned]
  dsimp only
  rw [outNum_eq]

end Ncmips.Libc
