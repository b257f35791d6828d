/-
The renderer that works on copies is the plain one.

After any number of samples the plain renderer's chip is the chip before
with the two copies stored into it: a sample reads of the channel only
its operators, which the copies are, and `fb`, `conn` and the wave
numbers, which no sample changes. The feedback shift that the copy
version computes once is 0 only for `fb` = 0, since no register write
makes `fb` more than 7.
-/
import Mathlib.Tactic.Common
import Ncmips.Opl.RefOpl

namespace Ncmips.Opl

variable (t : Tables)

-- =================================================================== store

@[simp] theorem setChan_ch_self (chip : Chip) (c : Nat) (cc : Chan) :
    (chip.setChan c cc).ch c = cc :=
  Function.update_self ..

@[simp] theorem setChan_waveSelect (chip : Chip) (c : Nat) (cc : Chan) :
    (chip.setChan c cc).waveSelect = chip.waveSelect := rfl

@[simp] theorem setChan_setChan (chip : Chip) (c : Nat) (cc cc' : Chan) :
    (chip.setChan c cc).setChan c cc' = chip.setChan c cc' := by
  unfold Chip.setChan
  simp only [Function.update_idem]

theorem setChan_self (chip : Chip) (c : Nat) : chip.setChan c (chip.ch c) = chip := by
  unfold Chip.setChan
  rw [Function.update_eq_self]

/-- The copies of channel `c`'s operators written back. -/
def store (chip : Chip) (c : Nat) (s : Locals) : Chip × Mem :=
  (chip.setChan c { chip.ch c with m := s.m, k := s.k }, s.mem)

-- ================================================================= samples

theorem envStep_wave (op : Op) : (envStep t op).wave = op.wave := by
  unfold envStep
  cases op.state with
  | off => dsimp only; split_ifs <;> rfl
  | attack => dsimp only; split_ifs <;> rfl
  | decay => dsimp only; split_ifs <;> rfl
  | sustain => dsimp only; split_ifs <;> rfl
  | release => dsimp only; split_ifs <;> rfl

theorem opCalc_wave (wave : UInt32 → Int32) (op : Op) (mod : Int32) :
    (opCalc t wave op mod).2.wave = op.wave :=
  envStep_wave t _

/-- The plain `op_calc` on the chip, and the other on the operator. -/
theorem refOpCalc_m (chip : Chip) (c : Nat) (mod : Int32) :
    Ref.opCalc t chip c .m mod =
      ((opCalc t (t.waveTab (if chip.waveSelect then (chip.ch c).m.wave else 0)) (chip.ch c).m mod).1,
        chip.setChan c { chip.ch c with
          m := (opCalc t (t.waveTab (if chip.waveSelect then (chip.ch c).m.wave else 0))
            (chip.ch c).m mod).2 }) := rfl

theorem refOpCalc_k (chip : Chip) (c : Nat) (mod : Int32) :
    Ref.opCalc t chip c .k mod =
      ((opCalc t (t.waveTab (if chip.waveSelect then (chip.ch c).k.wave else 0)) (chip.ch c).k mod).1,
        chip.setChan c { chip.ch c with
          k := (opCalc t (t.waveTab (if chip.waveSelect then (chip.ch c).k.wave else 0))
            (chip.ch c).k mod).2 }) := rfl

/-- What the copies must have in common with the channel. -/
structure Copied (chip : Chip) (c : Nat) (wm wk : UInt32 → Int32) (s : Locals) : Prop where
  wm_eq : wm = t.waveTab (if chip.waveSelect then s.m.wave else 0)
  wk_eq : wk = t.waveTab (if chip.waveSelect then s.k.wave else 0)

/-- The shift that the copy version computes before its loop. -/
def shift (cc : Chan) : Nat := if cc.fb ≠ 0 then 9 - cc.fb else 0

theorem shift_feedback {cc : Chan} (hfb : cc.fb ≤ 7) (v : Int32) :
    (if shift cc ≠ 0 then v >>> Int32.ofNat (shift cc) else 0)
      = if cc.fb ≠ 0 then v >>> Int32.ofNat (9 - cc.fb) else 0 := by
  unfold shift
  by_cases h0 : cc.fb = 0
  · simp [h0]
  · have h9 : 9 - cc.fb ≠ 0 := by omega
    simp [h0, h9]

variable {t} {chip : Chip} {c : Nat} {wm wk : UInt32 → Int32} {s : Locals}

/-- One sample in the chip is one sample on the copies. -/
theorem Copied.sample (h : Copied t chip c wm wk s) (hfb : (chip.ch c).fb ≤ 7) (gl gr : Int32)
    (left right i : Nat) :
    Ref.sample t c gl gr left right (store chip c s) i
        = store chip c (sample t wm wk (shift (chip.ch c)) (chip.ch c).conn gl gr left right s i)
      ∧ Copied t chip c wm wk
          (Opl.sample t wm wk (shift (chip.ch c)) (chip.ch c).conn gl gr left right s i) := by
  obtain ⟨rfl, rfl⟩ := h
  have hfeed := shift_feedback hfb (s.m.out + s.m.prev)
  constructor
  · unfold Ref.sample Opl.sample store
    simp only [refOpCalc_m, refOpCalc_k, Ref.op, Ref.setOp, setChan_ch_self, setChan_waveSelect,
      setChan_setChan, hfeed]
    generalize (if (chip.ch c).fb ≠ 0 then _ else _ : Int32) = fb
    generalize opCalc t _ s.m fb = modulated
    by_cases hconn : (chip.ch c).conn = 0
    · simp only [hconn, ne_eq, not_true_eq_false, if_false, setChan_ch_self]
    · simp only [hconn, ne_eq, not_false_eq_true, if_true, setChan_ch_self]
  · unfold Opl.sample
    by_cases hconn : (chip.ch c).conn = 0
    · simp only [hconn, ne_eq, not_true_eq_false, if_false]
      exact ⟨by rw [opCalc_wave], by rw [opCalc_wave]⟩
    · simp only [hconn, ne_eq, not_false_eq_true, if_true]
      exact ⟨by rw [opCalc_wave], by rw [opCalc_wave]⟩

theorem Copied.samples (h : Copied t chip c wm wk s) (hfb : (chip.ch c).fb ≤ 7) (gl gr : Int32)
    (left right : Nat) (is : List Nat) :
    is.foldl (Ref.sample t c gl gr left right) (store chip c s)
      = store chip c (is.foldl
          (Opl.sample t wm wk (shift (chip.ch c)) (chip.ch c).conn gl gr left right) s) := by
  induction is generalizing s with
  | nil => rfl
  | cons i is ih =>
      obtain ⟨hsample, hcopied⟩ := h.sample hfb gl gr left right i
      rw [List.foldl_cons, hsample]
      exact ih hcopied

-- ================================================================ channels

theorem renderChan_eq (chip : Chip) (mem : Mem) (hfb : (chip.ch c).fb ≤ 7) (left right : Nat)
    (n : Int) (panL panR : Nat) :
    renderChan t left right n panL panR (chip, mem) c
      = Ref.renderChan t left right n panL panR (chip, mem) c := by
  unfold renderChan Ref.renderChan Ref.op
  dsimp only
  split
  · rfl
  · have hcopied : Copied t chip c
        (t.waveTab (if chip.waveSelect then (chip.ch c).m.wave else 0))
        (t.waveTab (if chip.waveSelect then (chip.ch c).k.wave else 0))
        { m := (chip.ch c).m, k := (chip.ch c).k, mem } := ⟨rfl, rfl⟩
    have hrun := hcopied.samples hfb (mem (panL + c)) (mem (panR + c)) left right
      (List.range n.toNat)
    have hload : store chip c { m := (chip.ch c).m, k := (chip.ch c).k, mem } = (chip, mem) :=
      Prod.ext (setChan_self chip c) rfl
    rw [hload] at hrun
    rw [hrun]
    rfl

/-- No channel's feedback field is more than its three bits. -/
def FbOk (chip : Chip) : Prop := ∀ c, (chip.ch c).fb ≤ 7

theorem FbOk.setChan {chip : Chip} (h : FbOk chip) (c : Nat) {cc : Chan} (hcc : cc.fb ≤ 7) :
    FbOk (chip.setChan c cc) := by
  intro c'
  by_cases hc : c' = c
  · subst hc
    rw [setChan_ch_self]
    exact hcc
  · show (Function.update chip.ch c cc c').fb ≤ 7
    rw [Function.update_of_ne hc]
    exact h c'

theorem FbOk.renderChan {s : Chip × Mem} (h : FbOk s.1) (left right : Nat) (n : Int)
    (panL panR c : Nat) : FbOk (renderChan t left right n panL panR s c).1 := by
  unfold Opl.renderChan
  dsimp only
  split
  · exact h
  · exact h.setChan c (h c)

theorem renderChans_eq (left right : Nat) (n : Int) (panL panR : Nat) (cs : List Nat)
    {s : Chip × Mem} (h : FbOk s.1) :
    cs.foldl (renderChan t left right n panL panR) s
        = cs.foldl (Ref.renderChan t left right n panL panR) s
      ∧ FbOk (cs.foldl (renderChan t left right n panL panR) s).1 := by
  induction cs generalizing s with
  | nil => exact ⟨rfl, h⟩
  | cons c cs ih =>
      rw [List.foldl_cons, List.foldl_cons, ← renderChan_eq s.1 s.2 (h c)]
      exact ih (h.renderChan left right n panL panR c)

theorem oplRender_eq {chip : Chip} (h : FbOk chip) (left right : Nat) (n : Int) (panL panR : Nat)
    (mem : Mem) :
    oplRender t chip left right n panL panR mem = Ref.oplRender t chip left right n panL panR mem
      ∧ FbOk (oplRender t chip left right n panL panR mem).1 :=
  renderChans_eq left right n panL panR (List.range oplChannels) h

-- ==================================================================== runs

theorem FbOk.onOp {chip : Chip} (h : FbOk chip) (bank : Nat) (off : Int) (f : Op → Op) :
    FbOk (chip.onOp bank off f) := by
  unfold Chip.onOp
  split
  · exact h
  · exact h.setChan _ (h _)
  · exact h.setChan _ (h _)

theorem writeKey_fb (cc : Chan) (val : Nat) : (writeKey t cc val).fb = cc.fb := by
  unfold writeKey
  dsimp only
  split_ifs <;> rfl

theorem FbOk.oplWrite {chip : Chip} (h : FbOk chip) (reg val : BitVec 32) :
    FbOk (oplWrite t chip reg val) := by
  unfold Opl.oplWrite
  dsimp only
  split
  · exact h
  · split
    · exact h.onOp _ _ _
    · exact h.onOp _ _ _
    · exact h.onOp _ _ _
    · exact h.onOp _ _ _
    · exact h.onOp _ _ _
    · split
      · exact h.setChan _ (h _)
      · split
        · exact h.setChan _ (by rw [writeKey_fb]; exact h _)
        · exact h
    · split
      · exact h.setChan _ (show _ &&& 7 ≤ 7 from Nat.and_le_right)
      · exact h
    · exact h

/-- What a program does with the chip: a register write, or a render into
the memory as it then is. -/
inductive Call
  | write (reg val : BitVec 32)
  | render (left right : Nat) (n : Int) (panL panR : Nat) (mem : Mem)

/-- Calls from the reset chip on, by either renderer: the chip, and the
memory after each render. -/
def run (t : Tables) (render : Chip → Nat → Nat → Int → Nat → Nat → Mem → Chip × Mem) :
    List Call → Chip → Chip × List Mem
  | [], chip => (chip, [])
  | .write reg val :: calls, chip => run t render calls (oplWrite t chip reg val)
  | .render left right n panL panR mem :: calls, chip =>
      let (chip, mem) := render chip left right n panL panR mem
      let (chip, mems) := run t render calls chip
      (chip, mem :: mems)

theorem run_eq (calls : List Call) {chip : Chip} (h : FbOk chip) :
    run t (oplRender t) calls chip = run t (Ref.oplRender t) calls chip := by
  induction calls generalizing chip with
  | nil => rw [run, run]
  | cons call calls ih =>
      cases call with
      | write reg val =>
          rw [run, run]
          exact ih (h.oplWrite reg val)
      | render left right n panL panR mem =>
          obtain ⟨heq, hok⟩ := oplRender_eq (t := t) h left right n panL panR mem
          rw [heq] at hok
          simp only [run, heq, ih hok]

/-- Over any run of register writes and renders from reset, with any
tables, both renderers leave the same chip and the same samples. -/
theorem oplRender_is_plain (t : Tables) (calls : List Call) :
    run t (oplRender t) calls oplReset = run t (Ref.oplRender t) calls oplReset :=
  run_eq calls fun _ => Nat.zero_le 7

end Ncmips.Opl
