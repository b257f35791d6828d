/-
`qsort`: Shell sort over elements of up to 64 bytes, shifted byte by byte
through a temporary.

The temporary is on the stack, at `tmp`; a comparison reads two elements
and nothing else.
-/
import Ncmips.Libc.Heap

namespace Ncmips.Libc

open Words Memory

/-- The bytes of the element at `p`. -/
def element (m : Mem) (p size : Nat) : List UInt8 := (List.range size).map fun k => m (p + k)

/-- `a + i * size`. -/
def elementAt (base size i : Nat) : Nat := u32 (base + u32 (i * size))

section

variable (cmp : List UInt8 → List UInt8 → Int) (tmp base size : Nat)

/-- The loop over `j`: how far the hole moves down, and the elements above
it up. -/
def shiftFrom (gap j : Nat) (m : Mem) : Nat × Mem :=
  if 0 < gap ∧ gap ≤ j
      ∧ 0 < cmp (element m (elementAt base size (j - gap)) size) (element m tmp size) then
    shiftFrom gap (j - gap)
      (copyBytes m (elementAt base size j) (elementAt base size (j - gap)) size)
  else (j, m)
termination_by j

def insertAt (gap : Nat) (m : Mem) (i : Nat) : Mem :=
  let m := memcpy m tmp (elementAt base size i) size
  let (j, m) := shiftFrom cmp tmp base size gap i m
  memcpy m (elementAt base size j) tmp size

/-- The loop over `gap`, with the one over `i` in it. -/
def sortGaps (n gap : Nat) (m : Mem) : Mem :=
  if gap = 0 then m
  else sortGaps n (gap / 2) ((List.range' gap (n - gap)).foldl (insertAt cmp tmp base size gap) m)
termination_by gap

def qsort (n : Nat) (m : Mem) : Mem :=
  if 64 < size then m else sortGaps cmp tmp base size n (n / 2) m

end

end Ncmips.Libc
