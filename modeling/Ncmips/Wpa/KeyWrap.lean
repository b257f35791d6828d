/-
Key wrap as RFC 3394 defines it, in registers of 64 bits: what
`aes_unwrap` is there to take back.
-/
import Ncmips.Wpa.Aes

namespace Ncmips.Wpa

/-- The 64-bit registers of a key. -/
abbrev Regs (n : Nat) := Fin n → Reg

/-- 64 bits, the high byte first. -/
def counter (t : Nat) : Reg := fun k => .ofNat (t / 2 ^ (8 * (7 - k.val)))

def xorReg (a b : Reg) : Reg := fun k => a k ^^^ b k

/-- Number of the step at register `i`, from 0 on, of pass `j`. -/
def stepNumber {n : Nat} (ji : Nat × Fin n) : Nat := n * ji.1 + (ji.2 + 1)

/-- `B = AES (A | R[i])`, `A = MSB (B) ^ t`, `R[i] = LSB (B)`. -/
def wrapStep (enc : Block → Block) {n : Nat} (s : Reg × Regs n) (ji : Nat × Fin n) :
    Reg × Regs n :=
  let b := enc (join s.1 (s.2 ji.2))
  (xorReg (upper b) (counter (stepNumber ji)), Function.update s.2 ji.2 (lower b))

/-- Six passes over the registers. -/
def wrapSteps (n : Nat) : List (Nat × Fin n) :=
  (List.range 6).flatMap fun j => (List.finRange n).map fun i => (j, i)

/-- The integrity register at the start. -/
def wrapIv : Reg := fun _ => 0xa6

def wrapRegs (enc : Block → Block) {n : Nat} (p : Regs n) : Reg × Regs n :=
  (wrapSteps n).foldl (wrapStep enc) (wrapIv, p)

-- ================================================================= bytes

def regs (n : Nat) (l : List UInt8) : Regs n := fun i k => l.getD (8 * i + k) 0

def regBytes {n : Nat} (r : Regs n) : List UInt8 :=
  List.ofFn fun x : Fin (8 * n) => r ⟨x / 8, by omega⟩ ⟨x % 8, by omega⟩

/-- The wrapping of a key of whole registers. -/
def keyWrap (enc : Block → Block) (p : List UInt8) : List UInt8 :=
  let s := wrapRegs enc (regs (p.length / 8) p)
  List.ofFn s.1 ++ regBytes s.2

end Ncmips.Wpa
