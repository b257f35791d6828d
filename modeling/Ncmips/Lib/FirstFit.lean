/-
A heap as a list of blocks that fill spans of addresses: what it is to fill
them, to serve a request from a free block, and to merge free neighbours.

A block is a header of `hdr` addresses and its size; sizes are multiples
of `unit`. Blocks of different spans never touch, so merging stays within
a span.
-/
import Mathlib.Data.Finset.Card
import Mathlib.Order.Interval.Finset.Nat
import Mathlib.Tactic.Common

namespace Ncmips.FirstFit

structure Span where
  start : Nat
  stop : Nat
  deriving Repr, DecidableEq

structure Block where
  addr : Nat
  size : Nat
  used : Bool
  deriving Repr, DecidableEq

/-- Where the next block may begin. -/
def Block.stop (hdr : Nat) (b : Block) : Nat := b.addr + hdr + b.size

/-- What becomes of a free block that serves `n`: the rest is split off if
it is worth a header and `slack` more. -/
def Block.serve (hdr slack n : Nat) (b : Block) : List Block :=
  if n + hdr + slack ≤ b.size then
    [{ b with size := n, used := true }, ⟨b.addr + hdr + n, b.size - n - hdr, false⟩]
  else [{ b with used := true }]

/-- One pass of merging: a free block takes in the free blocks behind it. -/
def coalesceFrom (hdr : Nat) (b : Block) : List Block → List Block
  | [] => [b]
  | c :: bs =>
      if b.used = false ∧ c.used = false ∧ b.stop hdr = c.addr then
        coalesceFrom hdr { b with size := b.size + (hdr + c.size) } bs
      else b :: coalesceFrom hdr c bs

def coalesce (hdr : Nat) : List Block → List Block
  | [] => []
  | b :: bs => coalesceFrom hdr b bs

def usedSum : List Block → Nat
  | [] => 0
  | b :: bs => (if b.used then b.size else 0) + usedSum bs

/-- The blocks fill what is left of a span from `pos` on, then the other
spans, in their order. -/
inductive Fills (hdr unit : Nat) : Nat → Nat → List Span → List Block → Prop
  | done (stop : Nat) : Fills hdr unit stop stop [] []
  | span {r rs bs} (stop : Nat) : stop ≠ r.start → r.start < r.stop →
      Fills hdr unit r.start r.stop rs bs → Fills hdr unit stop stop (r :: rs) bs
  | block {b stop rs bs} : b.stop hdr ≤ stop → unit ∣ b.size →
      Fills hdr unit (b.stop hdr) stop rs bs → Fills hdr unit b.addr stop rs (b :: bs)

/-- The blocks fill one range, in order. -/
def Tiles (hdr : Nat) : Nat → Nat → List Block → Prop
  | a, z, [] => a = z
  | a, z, b :: bs => b.addr = a ∧ Tiles hdr (b.stop hdr) z bs

/-- No two blocks that touch are both free. -/
def Merged (hdr : Nat) (bs : List Block) : Prop :=
  bs.IsChain fun b c => b.stop hdr = c.addr → b.used = true ∨ c.used = true

/-- The blocks of spans in which nothing was allocated. -/
def fresh (hdr : Nat) (rs : List Span) : List Block :=
  rs.map fun r => ⟨r.start, r.stop - r.start - hdr, false⟩

-- ================================================================ filling

variable {hdr unit slack : Nat} {pos stop n : Nat} {rs : List Span} {b c : Block}
  {bs pre post : List Block}

/-- The blocks from some point on are replaced. -/
theorem Fills.replace {x x' : List Block} (h : Fills hdr unit pos stop rs (pre ++ x))
    (hx : ∀ pos stop rs, Fills hdr unit pos stop rs x → Fills hdr unit pos stop rs x') :
    Fills hdr unit pos stop rs (pre ++ x') := by
  generalize hall : pre ++ x = bs at h
  induction h generalizing pre with
  | done stop =>
      obtain ⟨rfl, rfl⟩ := List.append_eq_nil_iff.mp hall
      exact hx _ _ _ (.done stop)
  | span stop hne hlt h ih => exact .span stop hne hlt (ih hall)
  | @block b stop rs bs hle hunit h ih =>
      cases pre with
      | nil =>
          obtain rfl : x = b :: bs := hall
          exact hx _ _ _ (.block hle hunit h)
      | cons d pre =>
          obtain ⟨rfl, rfl⟩ := List.cons.inj hall
          exact .block hle hunit (ih rfl)

/-- A block is at the place that is filled next, or begins another span. -/
theorem Fills.next (h : Fills hdr unit pos stop rs (b :: bs)) :
    pos = b.addr ∨ pos = stop ∧ pos ≠ b.addr := by
  generalize hall : b :: bs = all at h
  induction h with
  | done stop => cases hall
  | @span r rs all stop hne hlt h ih =>
      rcases ih hall with heq | ⟨heq, -⟩
      · exact .inr ⟨rfl, heq ▸ hne⟩
      · exact absurd heq (Nat.ne_of_lt hlt)
  | block hle hunit h ih =>
      obtain ⟨rfl, -⟩ := List.cons.inj hall
      exact .inl rfl

/-- At the place that is filled next, the span goes on. -/
theorem Fills.here (h : Fills hdr unit pos stop rs (b :: bs)) (hpos : pos = b.addr) :
    b.stop hdr ≤ stop ∧ unit ∣ b.size ∧ Fills hdr unit (b.stop hdr) stop rs bs := by
  cases h with
  | span _ hne hlt h' =>
      rcases h'.next with heq | ⟨heq, -⟩
      · exact absurd (hpos.trans heq.symm) hne
      · exact absurd heq (Nat.ne_of_lt hlt)
  | block hle hunit hrest => exact ⟨hle, hunit, hrest⟩

/-- A block may be exchanged for blocks that fill the same place. -/
theorem Fills.exchange {x : List Block} (h : Fills hdr unit pos stop rs (b :: bs))
    (hx : ∀ stop rs, b.stop hdr ≤ stop → unit ∣ b.size →
      Fills hdr unit (b.stop hdr) stop rs bs → Fills hdr unit b.addr stop rs x) :
    Fills hdr unit pos stop rs x := by
  generalize hall : b :: bs = all at h
  induction h with
  | done stop => cases hall
  | span stop hne hlt h ih => exact .span stop hne hlt (ih hall)
  | block hle hunit h ih =>
      obtain ⟨rfl, rfl⟩ := List.cons.inj hall
      exact hx _ _ hle hunit h

theorem Fills.serve (h : Fills hdr unit pos stop rs (b :: bs)) (hn : unit ∣ n) (hhdr : unit ∣ hdr) :
    Fills hdr unit pos stop rs (b.serve hdr slack n ++ bs) := by
  apply h.exchange
  intro stop rs hle hunit hrest
  unfold Block.serve
  split
  · next hsplit =>
    have hend : (⟨b.addr + hdr + n, b.size - n - hdr, false⟩ : Block).stop hdr = b.stop hdr := by
      unfold Block.stop
      dsimp only
      omega
    have hmid : ({ b with size := n, used := true } : Block).stop hdr ≤ stop := by
      unfold Block.stop at hle ⊢
      dsimp only
      omega
    have hdvd : unit ∣ b.size - n - hdr := Nat.dvd_sub (Nat.dvd_sub hunit hn) hhdr
    exact .block hmid hn (@Fills.block hdr unit ⟨b.addr + hdr + n, b.size - n - hdr, false⟩ stop rs bs
      (hend ▸ hle) hdvd (hend ▸ hrest))
  · exact @Fills.block hdr unit { b with used := true } stop rs bs hle hunit hrest

theorem Fills.mark (h : Fills hdr unit pos stop rs (b :: bs)) (used : Bool) :
    Fills hdr unit pos stop rs ({ b with used := used } :: bs) :=
  h.exchange fun stop rs hle hunit hrest =>
    @Fills.block hdr unit { b with used := used } stop rs bs hle hunit hrest

/-- Two blocks that touch are of one span. -/
theorem Fills.join (h : Fills hdr unit pos stop rs (b :: c :: bs)) (htouch : b.stop hdr = c.addr)
    (hhdr : unit ∣ hdr) :
    Fills hdr unit pos stop rs ({ b with size := b.size + (hdr + c.size) } :: bs) := by
  apply h.exchange
  intro stop rs hle hunit hrest
  obtain ⟨hle', hunit', hrest'⟩ := hrest.here htouch
  have hend : ({ b with size := b.size + (hdr + c.size) } : Block).stop hdr = c.stop hdr := by
    unfold Block.stop at htouch ⊢
    dsimp only
    omega
  exact @Fills.block hdr unit { b with size := b.size + (hdr + c.size) } stop rs bs
    (hend ▸ hle') (Nat.dvd_add hunit (Nat.dvd_add hhdr hunit')) (hend ▸ hrest')

theorem Fills.coalesceFrom (h : Fills hdr unit pos stop rs (b :: bs)) (hhdr : unit ∣ hdr) :
    Fills hdr unit pos stop rs (coalesceFrom hdr b bs) := by
  induction bs generalizing b pos stop rs with
  | nil => exact h
  | cons c bs ih =>
      unfold FirstFit.coalesceFrom
      split
      · next hmerge => exact ih (h.join hmerge.2.2 hhdr)
      · exact @Fills.replace hdr unit pos stop rs [b] _ _ h fun _ _ _ h' => ih h'

theorem Fills.coalesce (h : Fills hdr unit pos stop rs bs) (hhdr : unit ∣ hdr) :
    Fills hdr unit pos stop rs (coalesce hdr bs) := by
  cases bs with
  | nil => exact h
  | cons b bs => exact h.coalesceFrom hhdr

/-- The blocks fall into those of each span. -/
theorem Fills.runs (h : Fills hdr unit pos stop rs bs) :
    ∃ run runs, bs = run ++ runs.flatten ∧ Tiles hdr pos stop run
      ∧ List.Forall₂ (fun r run => Tiles hdr r.start r.stop run) rs runs := by
  induction h with
  | done stop => exact ⟨[], [], rfl, rfl, .nil⟩
  | span stop hne hlt h ih =>
      obtain ⟨run, runs, rfl, hrun, hruns⟩ := ih
      exact ⟨[], run :: runs, rfl, rfl, .cons hrun hruns⟩
  | block hle hunit h ih =>
      obtain ⟨run, runs, rfl, hrun, hruns⟩ := ih
      exact ⟨_ :: run, runs, rfl, ⟨rfl, hrun⟩, hruns⟩

theorem Fills.of_nil (h : Fills hdr unit pos stop rs []) : pos = stop ∧ rs = [] := by
  generalize hall : ([] : List Block) = all at h
  induction h with
  | done stop => exact ⟨rfl, rfl⟩
  | span stop hne hlt h ih => exact absurd (ih hall).1 (Nat.ne_of_lt hlt)
  | block hle hunit h ih => cases hall

/-- Every block is in what is left of the span, or in one of the others. -/
theorem Fills.inside (h : Fills hdr unit pos stop rs bs) :
    ∀ b ∈ bs, pos ≤ b.addr ∧ b.stop hdr ≤ stop
      ∨ ∃ r ∈ rs, r.start ≤ b.addr ∧ b.stop hdr ≤ r.stop := by
  induction h with
  | done stop => exact fun b hb => nomatch hb
  | @span r rs bs stop hne hlt h ih =>
      intro b hb
      rcases ih b hb with hin | ⟨r', hr', hin⟩
      · exact .inr ⟨r, List.mem_cons_self, hin⟩
      · exact .inr ⟨r', List.mem_cons_of_mem _ hr', hin⟩
  | @block b stop rs bs hle hunit h ih =>
      intro d hd
      rcases List.mem_cons.mp hd with rfl | hd
      · exact .inl ⟨Nat.le_refl _, hle⟩
      · rcases ih d hd with ⟨hlo, hhi⟩ | hin
        · unfold Block.stop at hlo
          exact .inl ⟨by omega, hhi⟩
        · exact .inr hin

/-- A block ends its span, or another begins where it ends. -/
theorem Fills.follows (h : Fills hdr unit pos stop rs bs) (hb : b ∈ bs) :
    (b.stop hdr = stop ∨ ∃ r ∈ rs, b.stop hdr = r.stop)
      ∨ ∃ pre d post, bs = pre ++ b :: d :: post ∧ d.addr = b.stop hdr := by
  induction h with
  | done stop => cases hb
  | @span r rs bs stop hne hlt h ih =>
      rcases ih hb with (heq | ⟨r', hr', heq⟩) | hnext
      · exact .inl (.inr ⟨r, List.mem_cons_self, heq⟩)
      · exact .inl (.inr ⟨r', List.mem_cons_of_mem _ hr', heq⟩)
      · exact .inr hnext
  | @block x stop rs bs hle hunit h ih =>
      rcases List.mem_cons.mp hb with rfl | hb
      · cases bs with
        | nil => exact .inl (.inl h.of_nil.1)
        | cons d bs =>
            rcases h.next with heq | ⟨heq, -⟩
            · exact .inr ⟨[], d, bs, rfl, heq.symm⟩
            · exact .inl (.inl heq)
      · rcases ih hb with hend | ⟨pre, d, post, rfl, heq⟩
        · exact .inl hend
        · exact .inr ⟨x :: pre, d, post, rfl, heq⟩

theorem Fills.unit_dvd (h : Fills hdr unit pos stop rs bs) : ∀ b ∈ bs, unit ∣ b.size := by
  induction h with
  | done stop => exact fun b hb => nomatch hb
  | span stop hne hlt h ih => exact ih
  | block hle hunit h ih =>
      intro d hd
      rcases List.mem_cons.mp hd with rfl | hd
      · exact hunit
      · exact ih d hd

/-- Addresses are aligned as the spans are. -/
theorem Fills.aligned (h : Fills hdr unit pos stop rs bs) (hhdr : unit ∣ hdr) (hpos : unit ∣ pos)
    (hrs : ∀ r ∈ rs, unit ∣ r.start) : ∀ b ∈ bs, unit ∣ b.addr := by
  induction h with
  | done stop => exact fun b hb => nomatch hb
  | @span r rs bs stop hne hlt h ih =>
      exact ih (hrs r List.mem_cons_self) fun x hx => hrs x (List.mem_cons_of_mem _ hx)
  | block hle hunit h ih =>
      intro d hd
      rcases List.mem_cons.mp hd with rfl | hd
      · exact hpos
      · exact ih (Nat.dvd_add (Nat.dvd_add hpos hhdr) hunit) hrs d hd

/-- Spans that do not overlap. -/
def Apart (x y : Span) : Prop := x.stop ≤ y.start ∨ y.stop ≤ x.start

/-- Blocks do not overlap where the spans do not. -/
theorem Fills.disjoint (h : Fills hdr unit pos stop rs bs) (hrs : rs.Pairwise Apart)
    (hhere : ∀ r ∈ rs, Apart ⟨pos, stop⟩ r) :
    bs.Pairwise fun b c => b.stop hdr ≤ c.addr ∨ c.stop hdr ≤ b.addr := by
  induction h with
  | done stop => exact .nil
  | @span r rs bs stop hne hlt h ih =>
      obtain ⟨hr, hrs⟩ := List.pairwise_cons.mp hrs
      exact ih hrs hr
  | @block b stop rs bs hle hunit h ih =>
      have hstep : b.addr ≤ b.stop hdr := by
        unfold Block.stop
        omega
      refine List.pairwise_cons.mpr ⟨fun d hd => ?_, ih hrs fun r hr => ?_⟩
      · rcases h.inside d hd with ⟨hlo, -⟩ | ⟨r, hr, hlo, hhi⟩
        · exact .inl hlo
        · rcases hhere r hr with hbefore | hafter
          · exact .inl (by dsimp only at hbefore; omega)
          · exact .inr (by dsimp only at hafter; omega)
      · rcases hhere r hr with hbefore | hafter
        · exact .inl hbefore
        · exact .inr (Nat.le_trans hafter hstep)

-- ================================================================ merging

theorem coalesceFrom_head (hdr : Nat) (b : Block) (bs : List Block) :
    ∃ d rest, coalesceFrom hdr b bs = d :: rest ∧ d.addr = b.addr ∧ d.used = b.used := by
  induction bs generalizing b with
  | nil => exact ⟨b, [], rfl, rfl, rfl⟩
  | cons c bs ih =>
      unfold coalesceFrom
      split
      · next hmerge =>
        obtain ⟨d, rest, heq, haddr, hused⟩ := ih { b with size := b.size + (hdr + c.size) }
        exact ⟨d, rest, heq, haddr, hused⟩
      · exact ⟨b, _, rfl, rfl, rfl⟩

/-- One pass leaves nothing to merge. -/
theorem merged_coalesceFrom (hdr : Nat) (b : Block) (bs : List Block) :
    Merged hdr (coalesceFrom hdr b bs) := by
  unfold Merged
  induction bs generalizing b with
  | nil => exact .singleton b
  | cons c bs ih =>
      unfold coalesceFrom
      split
      · next hmerge => exact ih _
      · next hkeep =>
        obtain ⟨d, rest, heq, haddr, hused⟩ := coalesceFrom_head hdr c bs
        have hrest := ih c
        rw [heq] at hrest ⊢
        refine .cons_cons (fun htouch => ?_) hrest
        rw [haddr] at htouch
        cases hb : b.used with
        | true => exact .inl rfl
        | false =>
            cases hc : c.used with
            | true => exact .inr (hused.trans hc)
            | false => exact absurd ⟨hb, hc, htouch⟩ hkeep

theorem merged_coalesce (hdr : Nat) (bs : List Block) : Merged hdr (coalesce hdr bs) := by
  cases bs with
  | nil => exact .nil
  | cons b bs => exact merged_coalesceFrom hdr b bs

theorem Merged.serve (h : Merged hdr (pre ++ b :: post)) (hfree : b.used = false) :
    Merged hdr (pre ++ (b.serve hdr slack n ++ post)) := by
  obtain ⟨hpre, hmid, hlink⟩ := List.isChain_append.mp h
  have hpost := hmid.tail
  have hnext : ∀ c ∈ post.head?, b.stop hdr = c.addr → c.used = true := by
    intro c hc htouch
    cases post with
    | nil => cases hc
    | cons d post =>
        cases hc
        rcases (List.isChain_cons_cons.mp hmid).1 htouch with h | h
        · rw [hfree] at h
          cases h
        · exact h
  refine List.isChain_append.mpr ⟨hpre, ?_, fun x hx y hy _ => .inr ?_⟩
  · unfold Block.serve
    split
    · refine .cons_cons (fun _ => .inl rfl) (List.isChain_cons.mpr ⟨fun c hc htouch => ?_, hpost⟩)
      refine .inr (hnext c hc (Eq.trans ?_ htouch))
      unfold Block.stop
      dsimp only
      omega
    · exact List.isChain_cons.mpr ⟨fun c hc _ => .inl rfl, hpost⟩
  · unfold Block.serve at hy
    split at hy
    · cases hy
      rfl
    · cases hy
      rfl

/-- Used blocks are not touched. -/
theorem mem_coalesceFrom (hdr : Nat) (b : Block) (bs : List Block) (d : Block)
    (hd : d.used = true) : d ∈ coalesceFrom hdr b bs ↔ d = b ∨ d ∈ bs := by
  induction bs generalizing b with
  | nil => simp [coalesceFrom]
  | cons c bs ih =>
      unfold coalesceFrom
      split
      · next hmerge =>
        rw [ih, List.mem_cons]
        constructor
        · rintro (rfl | h)
          · rw [hmerge.1] at hd
            cases hd
          · exact .inr (.inr h)
        · rintro (rfl | rfl | h)
          · rw [hmerge.1] at hd
            cases hd
          · rw [hmerge.2.1] at hd
            cases hd
          · exact .inr h
      · rw [List.mem_cons, ih, List.mem_cons]

theorem mem_coalesce (hdr : Nat) (bs : List Block) (d : Block) (hd : d.used = true) :
    d ∈ coalesce hdr bs ↔ d ∈ bs := by
  cases bs with
  | nil => rfl
  | cons b bs => exact (mem_coalesceFrom hdr b bs d hd).trans List.mem_cons.symm

theorem usedSum_coalesceFrom (hdr : Nat) (b : Block) (bs : List Block) :
    usedSum (coalesceFrom hdr b bs) = usedSum (b :: bs) := by
  induction bs generalizing b with
  | nil => rfl
  | cons c bs ih =>
      unfold coalesceFrom
      split
      · next hmerge =>
        rw [ih]
        unfold usedSum
        rw [usedSum, hmerge.1, hmerge.2.1]
        simp
      · rw [usedSum, ih]
        rfl

theorem usedSum_coalesce (hdr : Nat) (bs : List Block) : usedSum (coalesce hdr bs) = usedSum bs := by
  cases bs with
  | nil => rfl
  | cons b bs => exact usedSum_coalesceFrom hdr b bs

theorem usedSum_fresh (hdr : Nat) (rs : List Span) : usedSum (fresh hdr rs) = 0 := by
  induction rs with
  | nil => rfl
  | cons r rs ih =>
      show (if false = true then r.stop - r.start - hdr else 0) + usedSum (fresh hdr rs) = 0
      rw [ih]
      rfl

theorem usedSum_append (pre post : List Block) :
    usedSum (pre ++ post) = usedSum pre + usedSum post := by
  induction pre with
  | nil => simp [usedSum]
  | cons b pre ih =>
      show (if b.used then b.size else 0) + usedSum (pre ++ post) = _ + usedSum pre + _
      rw [ih, Nat.add_assoc]

/-- Merged blocks of which none is used: one for each span. -/
theorem Fills.fresh (h : Fills hdr unit pos stop rs bs) (hmerged : Merged hdr bs)
    (hfree : ∀ b ∈ bs, b.used = false) :
    pos = stop ∧ bs = FirstFit.fresh hdr rs
      ∨ ∃ b, b.addr = pos ∧ b.stop hdr = stop ∧ b.used = false
        ∧ bs = b :: FirstFit.fresh hdr rs := by
  induction h with
  | done stop => exact .inl ⟨rfl, rfl⟩
  | @span r rs bs stop hne hlt h ih =>
      rcases ih hmerged hfree with ⟨heq, -⟩ | ⟨b, haddr, hstop, hused, rfl⟩
      · exact absurd heq (Nat.ne_of_lt hlt)
      · refine .inl ⟨rfl, ?_⟩
        obtain ⟨addr, size, used⟩ := b
        obtain rfl : addr = r.start := haddr
        obtain rfl : used = false := hused
        have hsize : size = r.stop - r.start - hdr := by
          unfold Block.stop at hstop
          dsimp only at hstop
          omega
        rw [hsize]
        rfl
  | @block b stop rs bs hle hunit h ih =>
      have htail := List.IsChain.tail hmerged
      have hb := hfree b List.mem_cons_self
      rcases ih htail fun d hd => hfree d (List.mem_cons_of_mem _ hd) with
        ⟨heq, hrest⟩ | ⟨d, haddr, -, hd, rfl⟩
      · exact .inr ⟨b, rfl, heq, hb, by rw [hrest]⟩
      · have htouch := (List.isChain_cons_cons.mp hmerged).1 haddr.symm
        rw [hb, hd] at htouch
        rcases htouch with h | h
        · cases h
        · cases h

theorem fills_fresh {pos : Nat} (hrs : ∀ r ∈ rs, r.start + hdr < r.stop ∧ unit ∣ r.stop - r.start - hdr)
    (happart : (⟨pos, pos⟩ :: rs).IsChain fun x y => x.stop ≠ y.start) :
    Fills hdr unit pos pos rs (FirstFit.fresh hdr rs) := by
  induction rs generalizing pos with
  | nil => exact .done pos
  | cons r rs ih =>
      obtain ⟨hsize, hunit⟩ := hrs r List.mem_cons_self
      obtain ⟨hne, hchain⟩ := List.isChain_cons_cons.mp happart
      have hend : (⟨r.start, r.stop - r.start - hdr, false⟩ : Block).stop hdr = r.stop := by
        unfold Block.stop
        dsimp only
        omega
      have hchain' : (⟨r.stop, r.stop⟩ :: rs).IsChain fun (x y : Span) => x.stop ≠ y.start := by
        cases rs with
        | nil => exact .singleton _
        | cons r' rs =>
            obtain ⟨hne', hchain⟩ := List.isChain_cons_cons.mp hchain
            exact .cons_cons hne' hchain
      have hrest := ih (fun x hx => hrs x (List.mem_cons_of_mem _ hx)) hchain'
      exact .span pos hne (by omega) (@Fills.block hdr unit ⟨r.start, r.stop - r.start - hdr, false⟩
        r.stop rs _ (Nat.le_of_eq hend) hunit (hend.symm ▸ hrest))

-- ================================================================== sums

/-- Blocks that do not overlap and lie below `top` are no larger together. -/
theorem usedSum_le {top : Nat}
    (hdisjoint : bs.Pairwise fun b c => b.stop hdr ≤ c.addr ∨ c.stop hdr ≤ b.addr)
    (htop : ∀ b ∈ bs, b.stop hdr ≤ top) : usedSum bs ≤ top := by
  have hset : ∃ s : Finset Nat, usedSum bs ≤ s.card
      ∧ ∀ x ∈ s, ∃ b ∈ bs, b.addr ≤ x ∧ x < b.stop hdr := by
    clear htop
    induction bs with
    | nil => exact ⟨∅, Nat.le_refl _, fun x hx => absurd hx (Finset.notMem_empty x)⟩
    | cons b bs ih =>
        obtain ⟨hb, hbs⟩ := List.pairwise_cons.mp hdisjoint
        obtain ⟨s, hcard, hs⟩ := ih hbs
        have hapart : Disjoint (Finset.Ico b.addr (b.stop hdr)) s := by
          rw [Finset.disjoint_left]
          intro x hx hxs
          obtain ⟨hlo, hhi⟩ := Finset.mem_Ico.mp hx
          obtain ⟨d, hd, hlo', hhi'⟩ := hs x hxs
          rcases hb d hd with h | h
          · omega
          · omega
        refine ⟨Finset.Ico b.addr (b.stop hdr) ∪ s, ?_, fun x hx => ?_⟩
        · rw [Finset.card_union_of_disjoint hapart, Nat.card_Ico]
          unfold usedSum Block.stop
          split
          · omega
          · omega
        · rcases Finset.mem_union.mp hx with h | h
          · obtain ⟨hlo, hhi⟩ := Finset.mem_Ico.mp h
            exact ⟨b, List.mem_cons_self, hlo, hhi⟩
          · obtain ⟨d, hd, hin⟩ := hs x h
            exact ⟨d, List.mem_cons_of_mem _ hd, hin⟩
  obtain ⟨s, hcard, hs⟩ := hset
  have hsub : s ⊆ Finset.range top := by
    intro x hx
    obtain ⟨b, hb, -, hhi⟩ := hs x hx
    exact Finset.mem_range.mpr (Nat.lt_of_lt_of_le hhi (htop b hb))
  have hle := Finset.card_le_card hsub
  rw [Finset.card_range] at hle
  exact Nat.le_trans hcard hle

end Ncmips.FirstFit
