/-
The tick of the FreeRTOS port, rtos/port/port.c: Count and Compare of the
coprocessor, and the code that sets the next tick.

Count runs on by itself: `adv k` is by how much before access number `k`.
-/
import Ncmips.Lib.Words

namespace Ncmips.Rtos

open Words

structure Cp0 where
  count : Nat
  compare : Nat
  /-- Number of the next access. -/
  access : Nat := 0
  ulPortTickResyncs : Nat := 0

variable (adv : Nat → Nat)

def Cp0.pass (s : Cp0) : Cp0 :=
  { s with count := u32 (s.count + adv s.access), access := s.access + 1 }

/-- `RC0(C0_COUNT)` -/
def rc0Count (s : Cp0) : Nat × Cp0 := ((s.pass adv).count, s.pass adv)

/-- `RC0(C0_COMPARE)` -/
def rc0Compare (s : Cp0) : Nat × Cp0 := ((s.pass adv).compare, s.pass adv)

/-- `WC0(C0_COMPARE, v)` -/
def wc0Compare (v : Nat) (s : Cp0) : Cp0 := { s.pass adv with compare := v }

/-- The last value read from Count, and the registers, unless the turns are
used up. -/
def prvSetCompare (ulTickPeriod : Nat) : (turns next : Nat) → Cp0 → Option (Nat × Cp0)
  | 0, _, _ => none
  | turns + 1, next, s =>
      let (count, s) := rc0Count adv (wc0Compare adv next s)
      if s32 (sub32 next count) > 0 then some (count, s)
      else
        let s := { s with ulPortTickResyncs := u32 (s.ulPortTickResyncs + 1) }
        let (count, s) := rc0Count adv s
        prvSetCompare ulTickPeriod turns (u32 (count + ulTickPeriod)) s

/-- The timer interrupt in `vPortExceptionHandler`. -/
def timerInterrupt (ulTickPeriod turns : Nat) (s : Cp0) : Option (Nat × Cp0) :=
  let (compare, s) := rc0Compare adv s
  prvSetCompare adv ulTickPeriod turns (u32 (compare + ulTickPeriod)) s

end Ncmips.Rtos
