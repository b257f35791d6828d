/-
The plain OPL renderer, `bench/ref_opl.c`: every operator is read and
written in the chip, sample by sample. The rest of that file is the same
text as `sdk/opl.c`.
-/
import Ncmips.Opl.Chip

namespace Ncmips.Opl.Ref

/-- One of a channel's operators, in the chip. -/
inductive Which
  | m
  | k

def op (chip : Chip) (c : Nat) : Which → Op
  | .m => (chip.ch c).m
  | .k => (chip.ch c).k

def setOp (chip : Chip) (c : Nat) (w : Which) (o : Op) : Chip :=
  match w with
  | .m => chip.setChan c { chip.ch c with m := o }
  | .k => chip.setChan c { chip.ch c with k := o }

def opCalc (t : Tables) (chip : Chip) (c : Nat) (w : Which) (mod : Int32) : Int32 × Chip :=
  let o := op chip c w
  let att := (o.env >>> 16) + o.tl
  let idx := ((o.phase >>> 22) + mod.toUInt32) &&& 1023
  let att := if att > 1023 then 1023 else att
  let out := (t.waveTab (if chip.waveSelect then o.wave else 0) idx * t.gainTab att) >>> 12
  (out, setOp chip c w (envStep t { o with phase := o.phase + o.step }))

/-- Sample `i` of channel `c`. -/
def sample (t : Tables) (c : Nat) (gl gr : Int32) (left right : Nat) (s : Chip × Mem) (i : Nat) :
    Chip × Mem :=
  let (chip, mem) := s
  let m := op chip c .m
  let fb := if (chip.ch c).fb ≠ 0 then (m.out + m.prev) >>> Int32.ofNat (9 - (chip.ch c).fb) else 0
  let (mo, chip) := opCalc t chip c .m fb
  let chip := setOp chip c .m { op chip c .m with prev := (op chip c .m).out }
  let chip := setOp chip c .m { op chip c .m with out := mo }
  let (ko, chip) :=
    if (chip.ch c).conn ≠ 0 then opCalc t chip c .k 0 else opCalc t chip c .k mo
  let out := if (chip.ch c).conn ≠ 0 then mo + ko else ko
  let mem := addAt mem (left + i) ((out * gl) >>> 8)
  (chip, addAt mem (right + i) ((out * gr) >>> 8))

def renderChan (t : Tables) (left right : Nat) (n : Int) (panL panR : Nat) (s : Chip × Mem)
    (c : Nat) : Chip × Mem :=
  let (chip, mem) := s
  let gl := mem (panL + c)
  let gr := mem (panR + c)
  if (op chip c .k).state = .off ∧ ((chip.ch c).conn = 0 ∨ (op chip c .m).state = .off) then
    (chip, mem)
  else (List.range n.toNat).foldl (sample t c gl gr left right) (chip, mem)

def oplRender (t : Tables) (chip : Chip) (left right : Nat) (n : Int) (panL panR : Nat)
    (mem : Mem) : Chip × Mem :=
  (List.range oplChannels).foldl (renderChan t left right n panL panR) (chip, mem)

end Ncmips.Opl.Ref
