/-
No event is lost between the bridge and the box.

The two flag registers change only by `raise_event`, which sets bits,
and by a write to the first of them, which clears the bits written. The
driver writes there in one place, at the end of `brimod_events`, and
writes back what it has read and is about to return: whatever the write
clears, also a flag raised a second time since the read, is in the
result of the call.
-/
import Ncmips.Brimod.Driver
import Mathlib.Data.Nat.Bitwise

namespace Ncmips.Brimod

open Bridge

/-- Event flag `f` is set in the bridge's registers `0x06` and `0x07`. -/
def Bridge.Pending (b : Bridge) (f : Nat) : Prop := (b.get16 0x06).toNat.testBit f

-- ===================================================== bits of the flags

theorem le16_toNat (x y : UInt8) : (le16 x y).toNat = x.toNat ||| y.toNat <<< 8 := by
  have hy : y.toNat < 2 ^ 8 := y.toNat_lt
  have hsmall : y.toNat <<< 8 < 2 ^ 16 := by rw [Nat.shiftLeft_eq]; omega
  simp only [le16, UInt16.toNat_or, UInt16.toNat_shiftLeft, UInt8.toNat_toUInt16]
  rw [show (8 : UInt16).toNat % 16 = 8 from rfl, Nat.mod_eq_of_lt hsmall]

theorem le16_testBit (x y : UInt8) (f : Nat) :
    (le16 x y).toNat.testBit f
      = if f < 8 then x.toNat.testBit f else y.toNat.testBit (f - 8) := by
  have hx : x.toNat < 2 ^ 8 := x.toNat_lt
  rw [le16_toNat, Nat.testBit_or, Nat.testBit_shiftLeft]
  by_cases hf : f < 8
  · have hge : ¬ 8 ≤ f := by omega
    simp [hf, hge]
  · have hge : 8 ≤ f := by omega
    have hlow : x.toNat.testBit f = false :=
      Nat.testBit_lt_two_pow (lt_of_lt_of_le hx (Nat.pow_le_pow_right (by omega) hge))
    simp [hf, hge, hlow]

theorem lo_testBit (v : UInt16) (f : Nat) (hf : f < 8) :
    (lo v).toNat.testBit f = v.toNat.testBit f := by
  unfold lo
  rw [UInt16.toNat_toUInt8, Nat.testBit_mod_two_pow]
  simp [hf]

theorem hi_testBit (v : UInt16) (f : Nat) (hf : 8 ≤ f) :
    (hi v).toNat.testBit (f - 8) = v.toNat.testBit f := by
  have hv : v.toNat < 2 ^ 16 := v.toNat_lt
  have hsmall : v.toNat >>> 8 < 2 ^ 8 := by rw [Nat.shiftRight_eq_div_pow]; omega
  unfold hi
  rw [UInt16.toNat_toUInt8, UInt16.toNat_shiftRight, show (8 : UInt16).toNat % 16 = 8 from rfl,
    Nat.mod_eq_of_lt hsmall, Nat.testBit_shiftRight]
  congr 1
  omega

/-- A bit cleared by writing `m` was a bit of `m`. -/
theorem testBit_andNot (x m : UInt8) (i : Nat) (h : x.toNat.testBit i) :
    (x &&& ~~~m).toNat.testBit i ∨ m.toNat.testBit i := by
  have hi : i < 8 := by
    by_contra hge
    rw [Nat.testBit_lt_two_pow (lt_of_lt_of_le x.toNat_lt
      (Nat.pow_le_pow_right (by omega) (by omega)))] at h
    exact absurd h (by decide)
  cases hm : m.toNat.testBit i with
  | true => exact .inr rfl
  | false =>
      left
      have hnot : (~~~m).toNat.testBit i = true := by
        rw [← UInt8.toNat_toBitVec, UInt8.toBitVec_not, BitVec.testBit_toNat, BitVec.getLsbD_not]
        rw [← UInt8.toNat_toBitVec, BitVec.testBit_toNat] at hm
        rw [hm]
        simp [hi]
      rw [UInt8.toNat_and, Nat.testBit_and, h, hnot]
      rfl

-- ===================================================== the flag registers

@[simp] theorem put8_regs (b : Bridge) (r v : UInt8) :
    (b.put8 r v).regs = Function.update b.regs r v := rfl

theorem pending_iff (b : Bridge) (f : Nat) :
    b.Pending f ↔ if f < 8 then (b.regs 0x06).toNat.testBit f
      else (b.regs 0x07).toNat.testBit (f - 8) := by
  unfold Bridge.Pending Bridge.get16
  rw [le16_testBit]
  exact Iff.of_eq (by split <;> rfl)

theorem pending_congr {b b' : Bridge} (h6 : b'.regs 0x06 = b.regs 0x06)
    (h7 : b'.regs 0x07 = b.regs 0x07) {f : Nat} (h : b.Pending f) : b'.Pending f := by
  rw [pending_iff] at h ⊢
  rwa [h6, h7]

theorem raiseEvent_regs (b : Bridge) (ev : UInt16) :
    (b.raiseEvent ev).regs 0x06 = b.regs 0x06 ||| lo ev
      ∧ (b.raiseEvent ev).regs 0x07 = b.regs 0x07 ||| hi ev := by
  constructor <;> simp [Bridge.raiseEvent, Function.update]

/-- Raising sets the flags raised and clears none. -/
theorem raiseEvent_pending (b : Bridge) (ev : UInt16) (f : Nat) :
    (b.raiseEvent ev).Pending f ↔ b.Pending f ∨ ev.toNat.testBit f := by
  rw [pending_iff, pending_iff, (raiseEvent_regs b ev).1, (raiseEvent_regs b ev).2]
  by_cases hf : f < 8
  · simp [hf, UInt8.toNat_or, Nat.testBit_or, lo_testBit]
  · simp [hf, UInt8.toNat_or, Nat.testBit_or, hi_testBit ev f (by omega)]

-- ================================================== writes of the driver

theorem writeReg_flags (b : Bridge) (r v q : UInt8) (hq : writable q = false) :
    (b.writeReg r v).regs q = b.regs q := by
  unfold Bridge.writeReg
  split
  · next hw =>
    have hne : q ≠ r := by
      rintro rfl
      rw [hq] at hw
      exact absurd hw (by decide)
    dsimp only
    split_ifs <;> simp [Function.update, hne]
  · rfl

theorem writeRegs_flags (d : List UInt8) (b : Bridge) (r : Nat) (q : UInt8)
    (hq : writable q = false) : (b.writeRegs r d).regs q = b.regs q := by
  induction d generalizing b r with
  | nil => rfl
  | cons v d ih =>
      unfold Bridge.writeRegs
      split
      · rfl
      · rw [ih, writeReg_flags _ _ _ _ hq]

theorem writeSiprop_flags (b : Bridge) (d : List UInt8) (q : UInt8) (hq : q < 0x90) :
    (b.writeSiprop d).regs q = b.regs q := by
  have h0 : q ≠ 0x90 := by rintro rfl; exact absurd hq (by decide)
  have h1 : q ≠ 0x91 := by rintro rfl; exact absurd hq (by decide)
  have h2 : q ≠ 0x92 := by rintro rfl; exact absurd hq (by decide)
  have h3 : q ≠ 0x93 := by rintro rfl; exact absurd hq (by decide)
  unfold Bridge.writeSiprop
  dsimp only
  simp only [put8_regs, Function.update, h0, h1, h2, h3, dite_false]
  split
  · split <;> rfl
  · rfl

/-- A write to any register but `0x06` leaves both flag registers alone. -/
theorem handleWrite_flags (b : Bridge) {reg : UInt8} (hreg : reg ≠ 0x06) (d : List UInt8)
    {q : UInt8} (hq : q = 0x06 ∨ q = 0x07) : (b.handleWrite reg d).regs q = b.regs q := by
  have hro : writable q = false := by rcases hq with rfl | rfl <;> decide
  have hlow : q < 0x90 := by rcases hq with rfl | rfl <;> decide
  have hmail : q ≠ 0xC0 := by rcases hq with rfl | rfl <;> decide
  unfold Bridge.handleWrite
  split_ifs
  · exact writeSiprop_flags b d q hlow
  · rfl
  · simp [Function.update, hmail]
  · rfl
  · rfl
  · rfl
  · rfl
  · rfl
  · rfl
  · exact writeRegs_flags d b _ q hro

/-- The write-back: a flag it clears is one it carries. -/
theorem handleWrite_clear (b : Bridge) (b0 b1 : UInt8) (f : Nat) (h : b.Pending f) :
    (b.handleWrite 0x06 [b0, b1]).Pending f ∨ (le16 b0 b1).toNat.testBit f := by
  have h6 : (b.handleWrite 0x06 [b0, b1]).regs 0x06 = b.regs 0x06 &&& ~~~b0 := by
    simp [Bridge.handleWrite, Function.update]
  have h7 : (b.handleWrite 0x06 [b0, b1]).regs 0x07 = b.regs 0x07 &&& ~~~b1 := by
    simp [Bridge.handleWrite, Function.update]
  rw [pending_iff] at h ⊢
  rw [le16_testBit, h6, h7]
  by_cases hf : f < 8
  · simp only [hf, if_true] at h ⊢
    exact testBit_andNot _ _ _ h
  · simp only [hf, if_false] at h ⊢
    exact testBit_andNot _ _ _ h

/-- A transfer that does not write to `0x06` leaves the flags alone. -/
theorem answer_pending {b : Bridge} {e : Xfer} (he : ∀ d, e ≠ .write (regEvents :: d)) {f : Nat}
    (h : b.Pending f) : (answer b e).2.Pending f := by
  cases e with
  | read n => exact h
  | write msg =>
      cases msg with
      | nil => exact h
      | cons r d =>
          have hr : r ≠ 0x06 := fun hr => he d (by rw [hr]; rfl)
          unfold answer Bridge.onBoxReceive
          dsimp only [List.take_succ_cons, cmdMax]
          split
          · split
            · -- the answer to a read request goes to the FIFO
              unfold Bridge.prepareRead
              split <;> split <;> exact h
            · exact h
          · exact pending_congr (handleWrite_flags b hr _ (.inl rfl))
              (handleWrite_flags b hr _ (.inr rfl)) h

-- ================================================== the driver's programs

/-- A write to `0x06` is the last transfer of `brimod_events`, and what
it carries is what the call returns. -/
def WritesBack (c : Call) (e : Xfer) (k : Reply → Driver Int) : Prop :=
  ∀ d, e = .write (regEvents :: d) →
    c = .events ∧ ∃ b0 b1, d = [b0, b1] ∧ k {} = .ret (le16 b0 b1).toNat

/-- Not a write to `0x06`. -/
def Harmless (e : Xfer) : Prop := ∀ d, e ≠ .write (regEvents :: d)

theorem Harmless.read (n : Nat) : Harmless (.read n) :=
  fun _ h => Xfer.noConfusion h

theorem Harmless.write {r : UInt8} (hr : r ≠ regEvents) (d : List UInt8) :
    Harmless (.write (r :: d)) := by
  intro d' h
  simp only [Xfer.write.injEq, List.cons.injEq] at h
  exact hr h.1

theorem rawRead_harmless (reg : UInt8) (n : Nat) :
    (rawRead reg n).Every fun e _ => Harmless e := by
  unfold rawRead
  split
  · trivial
  · apply Prog.every_bind (Q := Harmless) (fun _ _ h => h)
      (Prog.every_ask (.write (by decide) _))
    intro q
    split
    · trivial
    · apply Prog.every_bind (Q := Harmless) (fun _ _ h => h) (Prog.every_ask (.read n))
      intro q
      split
      · exact Prog.every_bind (Q := Harmless) (fun _ _ h => h) (Prog.every_ask (.read 1))
          fun _ => trivial
      · trivial

theorem brimodRead_harmless (sdkBrimod : Bool) (reg : UInt8) (n : Nat) :
    (brimodRead sdkBrimod reg n).Every fun e _ => Harmless e := by
  unfold brimodRead
  split
  · trivial
  · exact rawRead_harmless reg n

theorem WritesBack.of_harmless {c : Call} {e : Xfer} {k : Reply → Driver Int}
    (he : Harmless e) : WritesBack c e k :=
  fun d hd => absurd hd (he d)

theorem brimodEvents_writesBack (sdkBrimod : Bool) :
    (brimodEvents sdkBrimod).Every (WritesBack .events) := by
  unfold brimodEvents
  refine Prog.every_bind (fun _ _ h => .of_harmless h) (brimodRead_harmless _ _ _) fun q => ?_
  dsimp only
  split_ifs
  · trivial
  · unfold brimodWrite
    split_ifs
    · trivial
    · trivial
    · refine ⟨fun d hd => ⟨rfl, q.buf.getD 0 0, q.buf.getD 1 0, ?_, rfl⟩, fun r => ?_⟩
      · simpa using hd.symm
      · show Prog.Every _ (if r.r < 0 then Prog.ret r.r else Prog.ret _)
        split <;> trivial
  · trivial

/-- Every call writes to `0x06` only to write back what it returns. -/
theorem prog_writesBack (sdkBrimod : Bool) (c : Call) :
    (c.prog sdkBrimod).Every (WritesBack c) := by
  cases c with
  | events => exact brimodEvents_writesBack sdkBrimod
  | read reg n =>
      exact Prog.every_bind (fun _ _ h => .of_harmless h) (brimodRead_harmless _ _ _)
        fun _ => trivial
  | write reg d hreg =>
      unfold Call.prog brimodWrite
      dsimp only
      split_ifs
      · trivial
      · trivial
      · exact ⟨.of_harmless (.write hreg d), fun _ => trivial⟩

-- ================================================================ no loss

theorem own_pending {b b' : Bridge} (h : Own b b') {f : Nat} (hf : b.Pending f) :
    b'.Pending f := by
  cases h with
  | raise ev => exact (raiseEvent_pending b ev f).mpr (.inl hf)
  | other h6 h7 => exact pending_congr h6 h7 hf

/-- A transfer keeps a flag, or it is the write-back of a call that
returns it. -/
theorem transfer_pending {b : Bridge} {c : Call} {e : Xfer} {k : Reply → Driver Int}
    (hk : WritesBack c e k) {f : Nat} (hf : b.Pending f) :
    (answer b e).2.Pending f
      ∨ ∃ v, k (answer b e).1 = .ret v ∧ c = .events ∧ v.toNat.testBit f := by
  by_cases he : Harmless e
  · exact .inl (answer_pending he hf)
  · unfold Harmless at he
    push Not at he
    obtain ⟨d, rfl⟩ := he
    obtain ⟨rfl, b0, b1, rfl, hret⟩ := hk d rfl
    rcases handleWrite_clear b b0 b1 f hf with h | h
    · exact .inl h
    · exact .inr ⟨_, hret, rfl, by simpa using h⟩

/-- No event is lost. From any moment at which the bridge raises events,
each of them is, at every later moment of every run, still set in the
registers or in the result of a `brimod_events` call that returned since. -/
theorem no_event_lost (sdkBrimod : Bool) {s₀ s s' : Machine.Sys Xfer Reply Call Int Bridge}
    {before after : List (Call × Int)} (hidle : s₀.busy = none)
    (hbefore : (link sdkBrimod).Run s₀ before s) (ev : UInt16)
    (hafter : (link sdkBrimod).Run { s with dev := s.dev.raiseEvent ev } after s')
    (f : Nat) (hf : ev.toNat.testBit f) :
    s'.dev.Pending f ∨ ∃ v, (Call.events, v) ∈ after ∧ v.toNat.testBit f := by
  have hprog := prog_writesBack sdkBrimod
  have hs : s.Every WritesBack :=
    hbefore.keeps (fun _ _ _ h => h.every hprog) (fun c p hp => by simp [hidle] at hp)
  have hraised : (s.dev.raiseEvent ev).Pending f := (raiseEvent_pending _ ev f).mpr (.inr hf)
  rcases hafter.kept_or_returned (K := fun b => b.Pending f)
    (Q := fun c v => c = .events ∧ v.toNat.testBit f) hprog (fun _ _ ho hf => own_pending ho hf)
    (fun _ _ _ _ hk hf => transfer_pending hk hf) hs hraised with h | ⟨c, v, hmem, rfl, hv⟩
  · exact .inl h
  · exact .inr ⟨v, hmem, hv⟩

/-- A bridge with all registers 0. -/
def quiet : Bridge := { regs := fun _ => 0, siVal := fun _ => 0 }

/-- A key event, raised between the read and the write-back of a call
that has seen the climate event: the call returns 2, the key stays set. -/
theorem no_event_lost_midcall :
    ∃ s s' after,
      (link true).Run { dev := quiet } [] s
      ∧ (link true).Run { s with dev := s.dev.raiseEvent 1 } after s'
      ∧ after = [(Call.events, 2)]
      ∧ (s'.dev.Pending 0 ∨ ∃ v, (Call.events, v) ∈ after ∧ v.toNat.testBit 0) := by
  have h₁ := Machine.Run.step (.nil _) (.own (M := link true) (b := none) (Own.raise quiet 2))
  have h₂ := Machine.Run.step h₁ (.start Call.events)
  have h₃ := Machine.Run.step h₂ .transfer
  have h₄ := Machine.Run.step h₃ .transfer
  refine ⟨_, _, _, h₄, Machine.Run.step (.nil _) .transfer, rfl, ?_⟩
  exact no_event_lost true rfl h₄ 1 (Machine.Run.step (.nil _) .transfer) 0 rfl

end Ncmips.Brimod
