/-
The C library's heap: `malloc`, `free`, `calloc` and `realloc` over the
block list that they keep in memory.

A block is a header of 16 bytes and its payload. Sizes and addresses are
words; a loop over the list has a number of turns.
-/
import Ncmips.Lib.FirstFit
import Ncmips.Lib.Memory

namespace Ncmips.Libc

open Words Memory FirstFit

def maxRegions : Nat := 4
def heapStart : Nat := 0x81600000
def heapEnd : Nat := 0x843f0000

/-- `sizeof(block_t)`. -/
def header : Nat := 16

structure Heap where
  mem : Mem
  regions : List Span := []
  head : Nat := 0
  inUse : Nat := 0

-- The fields of the block at `b`.

def blockSize (m : Mem) (b : Nat) : Nat := load32 m b
def blockUsed (m : Mem) (b : Nat) : Nat := load32 m (b + 4)
def blockNext (m : Mem) (b : Nat) : Nat := load32 m (b + 8)
def setSize (m : Mem) (b v : Nat) : Mem := store32 m b v
def setUsed (m : Mem) (b v : Nat) : Mem := store32 m (b + 4) v
def setNext (m : Mem) (b v : Nat) : Mem := store32 m (b + 8) v

-- ================================================================== set-up

def sdkHeapRegion (start stop : Nat) (h : Heap) : Heap :=
  let start := u32 (start + 15) / 16 * 16
  let stop := stop / 16 * 16
  if h.regions.length < maxRegions ∧ u32 (start + 64 * 1024) < stop then
    { h with regions := h.regions ++ [⟨start, stop⟩] }
  else h

/-- One block for each region, linked behind `prev`. -/
def initFrom : List Span → Nat → Heap → Heap
  | [], _, h => h
  | r :: rs, prev, h =>
      let b := r.start
      let mem := setSize h.mem b (sub32 (sub32 r.stop r.start) header)
      let mem := setUsed mem b 0
      let mem := setNext mem b 0
      if prev ≠ 0 then initFrom rs b { h with mem := setNext mem prev b }
      else initFrom rs b { h with mem := mem, head := b }

def heapInit (h : Heap) : Heap :=
  let h := if h.regions.length = 0 then sdkHeapRegion heapStart heapEnd h else h
  initFrom h.regions 0 { h with head := 0 }

/-- The list is made at the first allocation. -/
def Heap.ready (h : Heap) : Heap := if h.head = 0 then heapInit h else h

-- ================================================================== malloc

/-- A request in whole units of 16 bytes, and not none. -/
def roundUp (n : Nat) : Nat := u32 ((if n = 0 then 1 else n) + 15) / 16 * 16

/-- The free block at `b` serves a request of `n` bytes. -/
def takeBlock (b n : Nat) (h : Heap) : Nat × Heap :=
  let mem :=
    if u32 (n + header + 64) ≤ blockSize h.mem b then
      let rest := u32 (b + header + n)
      let mem := setSize h.mem rest (sub32 (sub32 (blockSize h.mem b) n) header)
      let mem := setUsed mem rest 0
      let mem := setNext mem rest (blockNext mem b)
      let mem := setNext mem b rest
      setSize mem b n
    else h.mem
  let mem := setUsed mem b 1
  (u32 (b + header), { h with mem := mem, inUse := u32 (h.inUse + blockSize mem b) })

/-- The first fit from `b` on, or NULL. -/
def mallocFrom (n : Nat) : Nat → Nat → Heap → Option (Nat × Heap)
  | 0, _, _ => none
  | turns + 1, b, h =>
      if b = 0 then some (0, h)
      else if blockUsed h.mem b ≠ 0 ∨ blockSize h.mem b < n then
        mallocFrom n turns (blockNext h.mem b) h
      else some (takeBlock b n h)

def malloc (turns n : Nat) (h : Heap) : Option (Nat × Heap) :=
  let h := h.ready
  mallocFrom (roundUp n) turns h.head h

-- ==================================================================== free

/-- Both loops of `free`: the block at `b` takes in the free blocks right
behind it, then it is the next one's turn. -/
def mergeFrom : Nat → Nat → Mem → Option Mem
  | 0, _, _ => none
  | turns + 1, b, m =>
      if b = 0 then some m
      else
        let c := blockNext m b
        if blockUsed m b = 0 ∧ c ≠ 0 ∧ blockUsed m c = 0 ∧ u32 (b + header + blockSize m b) = c then
          let m := setSize m b (u32 (blockSize m b + (header + blockSize m c)))
          mergeFrom turns b (setNext m b (blockNext m (blockNext m b)))
        else mergeFrom turns c m

def free (turns p : Nat) (h : Heap) : Option Heap :=
  if p = 0 then some h
  else
    let b := sub32 p header
    let mem := setUsed h.mem b 0
    let h := { h with mem := mem, inUse := sub32 h.inUse (blockSize mem b) }
    (mergeFrom turns h.head h.mem).map fun mem => { h with mem := mem }

-- ======================================================= calloc and realloc

def memcpy (m : Mem) (d s n : Nat) : Mem :=
  if (d ||| s) &&& 3 = 0 then
    copyBytes (copyWords m d s (n / 4)) (d + 4 * (n / 4)) (s + 4 * (n / 4)) (n % 4)
  else copyBytes m d s n

def memset (m : Mem) (d c n : Nat) : Mem :=
  if d &&& 3 = 0 then
    fillBytes (fillWords m d (c % 2 ^ 8 * 0x01010101) (n / 4)) (d + 4 * (n / 4)) c (n % 4)
  else fillBytes m d c n

def calloc (turns n size : Nat) (h : Heap) : Option (Nat × Heap) :=
  (malloc turns (u32 (n * size)) h).map fun (p, h) =>
    if p ≠ 0 then (p, { h with mem := memset h.mem p 0 (u32 (n * size)) }) else (p, h)

def realloc (turns p n : Nat) (h : Heap) : Option (Nat × Heap) :=
  if p = 0 then malloc turns n h
  else
    let b := sub32 p header
    if n ≤ blockSize h.mem b then some (p, h)
    else
      (malloc turns n h).bind fun (q, h) =>
        if q ≠ 0 then
          (free turns p { h with mem := memcpy h.mem q p (blockSize h.mem b) }).map fun h => (q, h)
        else some (q, h)

end Ncmips.Libc
