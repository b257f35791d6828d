/-
`tlb_clean` of the launcher (`launcher/launcher.c`) and the TLB it works
on.

The CPU is its 64 entries and the CP0 registers the routine uses. The
routine is a machine that takes one turn of one of its loops at a time,
so that every moment of its run is a state.
-/
import Mathlib.Data.BitVec
import Mathlib.Logic.Function.Basic

namespace Ncmips.Launcher

-- =================================================================== TLB

/-- A TLB entry; G is bit 0 of both `EntryLo` words. -/
structure Entry where
  vpn2 : BitVec 19
  mask : BitVec 16
  asid : BitVec 8
  lo0 : BitVec 32
  lo1 : BitVec 32

/-- The virtual address that an entry starts at, with `~0x1fff` for its
page mask, as `EntryHi` has it. -/
def Entry.tag (e : Entry) : BitVec 32 := e.vpn2 ++ 0#13

/-- `PageMask` of an entry. -/
def Entry.pageMask (e : Entry) : BitVec 32 := 0#3 ++ (e.mask ++ 0#13)

/-- The address bits that an entry compares. -/
def Entry.span (e : Entry) : BitVec 32 := ~~~(e.pageMask ||| 0x1fff#32)

def Entry.global (e : Entry) : Bool := e.lo0.getLsbD 0 && e.lo1.getLsbD 0

/-- The entry's range holds the address. -/
def Entry.Covers (e : Entry) (va : BitVec 32) : Prop := (va ^^^ e.tag) &&& e.span = 0

instance (e : Entry) (va : BitVec 32) : Decidable (e.Covers va) :=
  inferInstanceAs (Decidable (_ = _))

/-- An access to `va` by address space `asid` hits the entry, valid or not. -/
def Entry.Matches (e : Entry) (va : BitVec 32) (asid : BitVec 8) : Prop :=
  e.Covers va ∧ (e.global = true ∨ e.asid = asid)

/-- Some access hits both. -/
def Overlap (e e' : Entry) : Prop := ∃ va asid, e.Matches va asid ∧ e'.Matches va asid

-- =================================================================== CPU

structure Cpu where
  tlb : Nat → Entry
  index : Nat := 0
  entryLo0 : BitVec 32 := 0
  entryLo1 : BitVec 32 := 0
  pageMask : BitVec 32 := 0
  wired : BitVec 32 := 0
  entryHi : BitVec 32 := 0

/-- `tlbr`: the entry at Index into the registers. -/
def Cpu.tlbr (c : Cpu) : Cpu :=
  let e := c.tlb c.index
  { c with
    entryHi := e.vpn2 ++ (0#5 ++ e.asid)
    pageMask := e.pageMask
    entryLo0 := e.lo0
    entryLo1 := e.lo1 }

/-- `tlbwi`: the registers into the entry at Index. -/
def Cpu.tlbwi (c : Cpu) : Cpu :=
  { c with
    tlb := Function.update c.tlb c.index
      { vpn2 := c.entryHi.extractLsb' 13 19
        mask := c.pageMask.extractLsb' 13 16
        asid := c.entryHi.extractLsb' 0 8
        lo0 := c.entryLo0
        lo1 := c.entryLo1 } }

-- ============================================================== tlb_clean

/-- Where the routine is. -/
inductive Pc
  /-- The first loop, before entry `i`. -/
  | read (i : Nat)
  /-- The second loop, before entry `i`. -/
  | write (i : Nat)
  /-- The search for a tag for entry `i`: tag `t`, before entry `j`. -/
  | search (i j : Nat) (t : BitVec 32)
  | done

structure State where
  cpu : Cpu
  tag : Nat → BitVec 32 := fun _ => 0
  span : Nat → BitVec 32 := fun _ => 0
  pc : Pc := .read 0

/-- One turn of a loop. -/
def step (s : State) : State :=
  match s.pc with
  | .read i =>
      if i < 64 then
        let cpu := { s.cpu with index := i }.tlbr
        { cpu
          tag := Function.update s.tag i (cpu.entryHi &&& ~~~0x1fff#32)
          span := Function.update s.span i (~~~(cpu.pageMask ||| 0x1fff#32))
          pc := .read (i + 1) }
      else { s with pc := .write 0 }
  | .write i =>
      if i < 64 then { s with pc := .search i 0 (0x80000000#32 + BitVec.ofNat 32 i * 0x2000#32) }
      else { s with cpu := { s.cpu with wired := 0, entryHi := 0 }, pc := .done }
  | .search i j t =>
      if j < 64 then
        if j ≠ i ∧ (t ^^^ s.tag j) &&& s.span j = 0 then
          { s with pc := .search i 0 (t + 0x80000#32) }
        else { s with pc := .search i (j + 1) t }
      else
        { cpu := { s.cpu with
            index := i, entryHi := t, entryLo0 := 0, entryLo1 := 0, pageMask := 0 }.tlbwi
          tag := Function.update s.tag i t
          span := Function.update s.span i (~~~0x1fff#32)
          pc := .write (i + 1) }
  | .done => s

/-- The routine after `n` turns, from any contents of the TLB. -/
def tlbClean (cpu : Cpu) (n : Nat) : State := step^[n] { cpu }

/-- How many entries were rewritten. -/
def State.cleaned (s : State) : Nat :=
  match s.pc with
  | .read _ => 0
  | .write i | .search i _ _ => i
  | .done => 64

end Ncmips.Launcher
