/-
The score's clock: 140 ticks a second of rendered samples, exactly.

After `T` samples from an accumulator `a`, there were
`(a + 140 T) / 48000` ticks and the accumulator is the remainder
(`Clock`). A turn of the loop goes to the next tick or to the end of the
buffer, so it keeps that (`renderLoop_clock`); how the samples were asked
for does not enter.
-/
import Mathlib
import Ncmips.Doom.Music

namespace Ncmips.Doom

open Words

variable {mem : Nat → UInt8}

-- ============================================================ what was made

/-- The samples rendered. -/
def samples : List Call → Nat
  | [] => 0
  | .render _ n :: cs => n + samples cs
  | _ :: cs => samples cs

/-- The ticks, each by the samples rendered before it, from `t` on. -/
def tickTimes : (t : Nat) → List Call → List Nat
  | _, [] => []
  | t, .render _ n :: cs => tickTimes (t + n) cs
  | t, .tick :: cs => t :: tickTimes t cs
  | t, _ :: cs => tickTimes t cs

/-- The samples rendered are those from `a` to `b`, in order. -/
def Tiles (b : Nat) : (a : Nat) → List Call → Prop
  | a, [] => a = b
  | a, .render offset n :: cs => offset = a ∧ Tiles b (a + n) cs
  | a, _ :: cs => Tiles b a cs

/-- Neither a tick nor samples. -/
def Quiet (c : Call) : Prop := c ≠ .tick ∧ ∀ offset n, c ≠ .render offset n

theorem samples_append (cs ds : List Call) : samples (cs ++ ds) = samples cs + samples ds := by
  induction cs with
  | nil => exact (Nat.zero_add _).symm
  | cons c cs ih =>
      cases c with
      | render offset n =>
          show n + samples (cs ++ ds) = n + samples cs + samples ds
          omega
      | _ => exact ih

theorem tickTimes_append (t : Nat) (cs ds : List Call) :
    tickTimes t (cs ++ ds) = tickTimes t cs ++ tickTimes (t + samples cs) ds := by
  induction cs generalizing t with
  | nil => rfl
  | cons c cs ih =>
      cases c with
      | render offset n =>
          show tickTimes (t + n) (cs ++ ds) = tickTimes (t + n) cs ++ tickTimes (t + (n + samples cs)) ds
          rw [ih, Nat.add_assoc]
      | tick =>
          show t :: tickTimes t (cs ++ ds) = t :: (tickTimes t cs ++ tickTimes (t + samples cs) ds)
          rw [ih]
      | _ => exact ih t

theorem Tiles.append {a b c : Nat} {cs ds : List Call} (h : Tiles b a cs) (h' : Tiles c b ds) :
    Tiles c a (cs ++ ds) := by
  induction cs generalizing a with
  | nil =>
      obtain rfl : a = b := h
      exact h'
  | cons x cs ih =>
      cases x with
      | render offset n => exact ⟨h.1, ih h.2⟩
      | _ => exact ih h

theorem tiles_quiet {cs : List Call} (hq : ∀ c ∈ cs, Quiet c) (a : Nat) : Tiles a a cs := by
  induction cs with
  | nil => exact rfl
  | cons c cs ih =>
      have hrest := ih fun d hd => hq d (List.mem_cons_of_mem c hd)
      cases c with
      | render offset n => exact absurd rfl ((hq _ List.mem_cons_self).2 offset n)
      | _ => exact hrest

theorem samples_quiet {cs : List Call} (hq : ∀ c ∈ cs, Quiet c) : samples cs = 0 := by
  induction cs with
  | nil => rfl
  | cons c cs ih =>
      have hrest := ih fun d hd => hq d (List.mem_cons_of_mem c hd)
      cases c with
      | render offset n => exact absurd rfl ((hq _ List.mem_cons_self).2 offset n)
      | _ => exact hrest

theorem tickTimes_quiet {cs : List Call} (hq : ∀ c ∈ cs, Quiet c) (t : Nat) : tickTimes t cs = [] := by
  induction cs with
  | nil => rfl
  | cons c cs ih =>
      have hrest := ih fun d hd => hq d (List.mem_cons_of_mem c hd)
      cases c with
      | render offset n => exact absurd rfl ((hq _ List.mem_cons_self).2 offset n)
      | tick => exact absurd rfl (hq _ List.mem_cons_self).1
      | _ => exact hrest

-- ================================================================== a tick

/-- What a tick leaves alone of the clock. -/
structure Still (s s' : Music) : Prop where
  genmidi : s'.genmidi = s.genmidi
  tickAcc : s'.tickAcc = s.tickAcc
  calls : ∃ cs, s'.calls = s.calls ++ cs ∧ ∀ c ∈ cs, Quiet c

theorem Still.refl (s : Music) : Still s s := ⟨rfl, rfl, [], (List.append_nil _).symm, by simp⟩

theorem Still.trans {s s' s'' : Music} (h : Still s s') (h' : Still s' s'') : Still s s'' := by
  obtain ⟨cs, hcs, hq⟩ := h.calls
  obtain ⟨ds, hds, hq'⟩ := h'.calls
  refine ⟨h'.genmidi.trans h.genmidi, h'.tickAcc.trans h.tickAcc, cs ++ ds,
    by rw [hds, hcs, List.append_assoc], fun c hc => ?_⟩
  rcases List.mem_append.mp hc with hc | hc
  · exact hq c hc
  · exact hq' c hc

theorem Onward.still {s s' : Music} (h : Onward s s') : Still s s' := ⟨h.genmidi, h.tickAcc, h.calls⟩

theorem still_silence (s : Music) : Still s (s.call .silence) :=
  ⟨rfl, rfl, [.silence], rfl, by simp [Quiet]⟩

theorem runEvents_still (s : Music) : Still s (runEvents mem s).2 := (runEvents_onward s).still

theorem tickLoop_still (s : Music) (restarts : Nat) : Still s (tickLoop mem s restarts) := by
  fun_induction tickLoop mem s restarts with
  | case1 s restarts h s' hrun =>
      have hstill := @runEvents_still mem s
      rw [hrun] at hstill
      exact hstill
  | case2 s restarts h s' hrun s'' hloop ih =>
      have hstill := @runEvents_still mem s
      rw [hrun] at hstill
      have hrestart : Still s'' (restart s'') := { Still.refl s'' with }
      exact (hstill.trans (still_silence s')).trans (hrestart.trans ih)
  | case3 s restarts h s' hrun s'' hloop =>
      have hstill := @runEvents_still mem s
      rw [hrun] at hstill
      have hstop : Still s'' { s'' with playing := false } := { Still.refl s'' with }
      exact (hstill.trans (still_silence s')).trans hstop
  | case4 s restarts h => exact .refl s

theorem musicTick_still (s : Music) : Still s (musicTick mem s) := by
  unfold musicTick
  have hcount : Still s { s with delayTicks := s.delayTicks - 1 } := { Still.refl s with }
  split
  · exact .refl s
  · split
    · dsimp only
      split
      · exact hcount
      · exact hcount.trans (tickLoop_still _ 0)
    · exact tickLoop_still s 0

-- ================================================================= samples

/-- The segment's samples, and nothing else. -/
theorem oplChunks_spec (offset seg done : Nat) (s : Music) (hle : done ≤ seg) :
    ∃ cs, oplChunks offset seg done s = { s with calls := s.calls ++ cs }
      ∧ samples cs = seg - done ∧ Tiles (offset + seg) (offset + done) cs
      ∧ ∀ t, tickTimes t cs = [] := by
  fun_induction oplChunks offset seg done s with
  | case1 done s h m ih =>
      obtain ⟨cs, hcs, hsamples, htiles, hticks⟩ := ih (by omega)
      refine ⟨.render (offset + done) m :: cs, ?_, ?_, ⟨rfl, ?_⟩, fun t => hticks (t + m)⟩
      · rw [hcs]
        show ({ s with calls := s.calls ++ [_] ++ cs } : Music) = _
        rw [List.append_assoc, List.singleton_append]
      · show m + samples cs = seg - done
        omega
      · rw [Nat.add_assoc]
        exact htiles
  | case2 done s h =>
      refine ⟨[], ?_, ?_, ?_, fun t => rfl⟩
      · rw [List.append_nil]
      · show 0 = seg - done
        omega
      · show offset + done = offset + seg
        omega

/-- The time of the `i`-th tick, the first being the 0th. -/
def tickTime (a i : Nat) : Nat := (48000 * (i + 1) - a + 139) / 140

/-- The ticks before the sample `t`. -/
def ticksBy (a t : Nat) : Nat := (a + 140 * t) / 48000

/-- What the accumulator should be there. -/
def accAt (a t : Nat) : Nat := (a + 140 * t) % 48000

/-- A segment up to the next tick at most: without one, or with it at its
end. -/
theorem segment_clock {a t seg : Nat} (ha : a < 48000) (hseg : 140 * seg ≤ 48000 - accAt a t + 139) :
    (accAt a t + 140 * seg < 48000 ∧ ticksBy a (t + seg) = ticksBy a t
        ∧ accAt a (t + seg) = accAt a t + 140 * seg)
      ∨ (48000 ≤ accAt a t + 140 * seg ∧ ticksBy a (t + seg) = ticksBy a t + 1
        ∧ accAt a (t + seg) = accAt a t + 140 * seg - 48000
        ∧ t + seg = tickTime a (ticksBy a t)) := by
  unfold accAt ticksBy tickTime at *
  omega

/-- Samples were rendered from `t` on, and every tick they reach was made at
its time. -/
structure Rendered (a t n : Nat) (s s' : Music) (cs : List Call) : Prop where
  genmidi : s'.genmidi = s.genmidi
  tickAcc : s'.tickAcc = accAt a (t + n)
  calls : s'.calls = s.calls ++ cs
  samples : samples cs = n
  ticks : tickTimes t cs
    = (List.range' (ticksBy a t) (ticksBy a (t + n) - ticksBy a t)).map (tickTime a)

theorem ticksBy_mono (a : Nat) {t t' : Nat} (h : t ≤ t') : ticksBy a t ≤ ticksBy a t' :=
  Nat.div_le_div_right (by omega)

theorem Rendered.trans {a t n m : Nat} {s s' s'' : Music} {cs ds : List Call}
    (h : Rendered a t n s s' cs) (h' : Rendered a (t + n) m s' s'' ds) :
    Rendered a t (n + m) s s'' (cs ++ ds) where
  genmidi := h'.genmidi.trans h.genmidi
  tickAcc := by rw [h'.tickAcc, Nat.add_assoc]
  calls := by rw [h'.calls, h.calls, List.append_assoc]
  samples := by rw [samples_append, h.samples, h'.samples]
  ticks := by
    have hfirst := ticksBy_mono a (Nat.le_add_right t n)
    have hsecond := ticksBy_mono a (Nat.le_add_right (t + n) m)
    have hcount : ticksBy a (t + (n + m)) - ticksBy a t
        = (ticksBy a (t + n) - ticksBy a t) + (ticksBy a (t + n + m) - ticksBy a (t + n)) := by
      rw [← Nat.add_assoc]
      omega
    have hstart : ticksBy a (t + n) = ticksBy a t + (ticksBy a (t + n) - ticksBy a t) := by omega
    rw [tickTimes_append, h.samples, h.ticks, h'.ticks, hcount, ← List.range'_append_1,
      List.map_append, ← hstart]

/-- A segment without a tick. -/
theorem rendered_segment {a t k : Nat} {s s' : Music} {cs : List Call}
    (hgenmidi : s'.genmidi = s.genmidi) (hacc : s'.tickAcc = accAt a (t + k))
    (hcalls : s'.calls = s.calls ++ cs) (hsamples : samples cs = k) (hnone : tickTimes t cs = [])
    (hsame : ticksBy a (t + k) = ticksBy a t) : Rendered a t k s s' cs := by
  refine ⟨hgenmidi, hacc, hcalls, hsamples, ?_⟩
  rw [hnone, hsame, Nat.sub_self]
  rfl

/-- A segment with one at its end. -/
theorem rendered_tick {a t k : Nat} {s s' : Music} {cs ds : List Call}
    (hgenmidi : s'.genmidi = s.genmidi) (hacc : s'.tickAcc = accAt a (t + k))
    (hcalls : s'.calls = s.calls ++ (cs ++ .tick :: ds)) (hsamples : samples cs = k)
    (hnone : tickTimes t cs = []) (hq : ∀ c ∈ ds, Quiet c)
    (hnext : ticksBy a (t + k) = ticksBy a t + 1) (htime : t + k = tickTime a (ticksBy a t)) :
    Rendered a t k s s' (cs ++ .tick :: ds) := by
  refine ⟨hgenmidi, hacc, hcalls, ?_, ?_⟩
  · rw [samples_append, hsamples]
    show k + samples ds = k
    rw [samples_quiet hq, Nat.add_zero]
  · rw [tickTimes_append, hnone, hsamples, hnext, Nat.add_sub_cancel_left]
    show (t + k) :: tickTimes (t + k) ds = [tickTime a (ticksBy a t)]
    rw [tickTimes_quiet hq, htime]

theorem renderLoop_clock {a : Nat} (ha : a < 48000) (turns offset t n : Nat) (s : Music)
    (hacc : s.tickAcc = accAt a t) (hturns : n < turns) :
    ∃ s' cs, renderLoop mem turns offset n s = some s' ∧ Rendered a t n s s' cs
      ∧ Tiles (offset + n) offset cs := by
  induction turns generalizing offset t n s with
  | zero => exact absurd hturns (Nat.not_lt_zero n)
  | succ turns ih =>
      rw [renderLoop]
      by_cases hn : n = 0
      · subst hn
        rw [if_neg (by decide)]
        refine ⟨s, [], rfl, ⟨rfl, hacc, (List.append_nil _).symm, rfl, ?_⟩, rfl⟩
        rw [Nat.add_zero, Nat.sub_self]
        rfl
      · rw [if_pos (by omega)]
        have hlt : accAt a t < 48000 := Nat.mod_lt _ (by decide)
        have hseg : (s32 (rate - s.tickAcc + tickHz - 1)).tdiv tickHz
            = ((48000 - accAt a t + 139) / 140 : Nat) := by
          rw [hacc, s32_of_range (by unfold rate tickHz; omega) (by unfold rate tickHz; omega),
            Int.tdiv_eq_ediv_of_nonneg (by unfold rate tickHz; omega)]
          unfold rate tickHz
          omega
        have hmin : (if ((48000 - accAt a t + 139) / 140 : Nat) > (n : Int) then (n : Int)
            else ((48000 - accAt a t + 139) / 140 : Nat))
            = (min n ((48000 - accAt a t + 139) / 140) : Nat) := by
          split
          · omega
          · omega
        dsimp only
        rw [hseg, hmin]
        generalize hk : min n ((48000 - accAt a t + 139) / 140) = k
        have hpos : 0 < k := by omega
        have hmul : s32 ((k : Int) * tickHz) = (140 * k : Nat) := by
          unfold tickHz
          rw [s32_of_range (by omega) (by omega)]
          omega
        have hkn : k ≤ n := by omega
        obtain ⟨cs, hcs, hsamples, htiles, hnone⟩ := oplChunks_spec offset k 0 s (Nat.zero_le k)
        rw [Nat.sub_zero] at hsamples
        rw [Nat.add_zero] at htiles
        rw [if_pos (by omega : (k : Int) > 0), Int.toNat_natCast, hcs, hacc, hmul]
        dsimp only
        have hsum : s32 ((accAt a t : Int) + (140 * k : Nat)) = (accAt a t + 140 * k : Nat) := by
          rw [s32_of_range (by omega) (by omega)]
          rfl
        have hrest : (n : Int) - k = (n - k : Nat) := by omega
        have hrate : rate = (48000 : Nat) := rfl
        rw [hsum, hrest, hrate]
        rcases @segment_clock a t k ha (by omega) with
          ⟨hless, hsame, hacc'⟩ | ⟨hge, hnext, hacc', htime⟩
        · rw [if_neg (Int.not_le.mpr (Int.ofNat_lt.mpr hless))]
          obtain ⟨s', ds, hrun, hren, htiles'⟩ := ih (offset + k) (t + k) (n - k)
            { s with calls := s.calls ++ cs, tickAcc := (accAt a t + 140 * k : Nat) }
            (by rw [hacc']) (by omega)
          have hall := (@rendered_segment a t k s { s with
            calls := s.calls ++ cs, tickAcc := (accAt a t + 140 * k : Nat) } cs rfl
            (congrArg Nat.cast hacc'.symm) rfl hsamples (hnone t) hsame).trans hren
          rw [Nat.add_sub_cancel' hkn] at hall
          rw [Nat.add_assoc, Nat.add_sub_cancel' hkn] at htiles'
          exact ⟨s', cs ++ ds, hrun, hall, htiles.append htiles'⟩
        · rw [if_pos (Int.ofNat_le.mpr hge)]
          generalize hs₁ : ({ s with
            tickAcc := ((accAt a t + 140 * k : Nat) : Int) - (48000 : Nat)
            calls := s.calls ++ cs } : Music).call .tick = s₁
          have hstill := @musicTick_still mem s₁
          obtain ⟨qs, hqs, hquiet⟩ := hstill.calls
          have hacc₁ : (musicTick mem s₁).tickAcc = accAt a (t + k) := by
            rw [hstill.tickAcc, hacc', ← hs₁]
            exact (Int.ofNat_sub hge).symm
          have hcalls₁ : (musicTick mem s₁).calls = s.calls ++ (cs ++ .tick :: qs) := by
            rw [hqs, ← hs₁]
            show s.calls ++ cs ++ [.tick] ++ qs = _
            rw [List.append_assoc, List.append_assoc, List.singleton_append]
          have hgen₁ : (musicTick mem s₁).genmidi = s.genmidi := by
            rw [hstill.genmidi, ← hs₁]
            rfl
          obtain ⟨s', ds, hrun, hren, htiles'⟩ := ih (offset + k) (t + k) (n - k)
            (musicTick mem s₁) hacc₁ (by omega)
          have hall := (rendered_tick hgen₁ hacc₁ hcalls₁ hsamples (hnone t) hquiet hnext
            htime).trans hren
          rw [Nat.add_sub_cancel' hkn] at hall
          rw [Nat.add_assoc, Nat.add_sub_cancel' hkn] at htiles'
          have htick : Tiles (offset + k) (offset + k) (.tick :: qs) := tiles_quiet hquiet _
          exact ⟨s', cs ++ .tick :: qs ++ ds, hrun, hall, (htiles.append htick).append htiles'⟩

-- =================================================================== calls

theorem dgMusicRender_silent {turns : Nat} {n : Int} {s : Music} (h : s.genmidi = false) :
    dgMusicRender mem turns n s = some s := by
  unfold dgMusicRender
  rw [h]
  rfl

theorem renderAll_clock {a : Nat} (ha : a < 48000) (turns t : Nat) (ns : List Nat) (s : Music)
    (hgen : s.genmidi = true) (hacc : s.tickAcc = accAt a t) (hturns : ∀ n ∈ ns, n < turns) :
    ∃ s' parts, renderAll mem turns ns s = some s' ∧ Rendered a t ns.sum s s' parts.flatten
      ∧ List.Forall₂ (fun n cs => Tiles n 0 cs) ns parts := by
  induction ns generalizing t s with
  | nil =>
      refine ⟨s, [], rfl, ⟨rfl, hacc, (List.append_nil _).symm, rfl, ?_⟩, .nil⟩
      rw [List.sum_nil, Nat.add_zero, Nat.sub_self]
      rfl
  | cons n ns ih =>
      obtain ⟨s₁, cs, hrun, hren, htiles⟩ :=
        @renderLoop_clock mem a ha turns 0 t n s hacc (hturns n List.mem_cons_self)
      rw [Nat.zero_add] at htiles
      obtain ⟨s', parts, hrun', hren', hall⟩ := ih (t + n) s₁ (hren.genmidi.trans hgen)
        hren.tickAcc fun m hm => hturns m (List.mem_cons_of_mem n hm)
      refine ⟨s', cs :: parts, ?_, ?_, .cons htiles hall⟩
      · rw [renderAll, dgMusicRender, hgen, if_neg (by decide), hrun]
        exact hrun'
      · rw [List.sum_cons, List.flatten_cons]
        exact hren.trans hren'

theorem renderAll_silent {turns : Nat} {s : Music} (h : s.genmidi = false) (ns : List Nat) :
    renderAll mem turns ns s = some s := by
  induction ns with
  | nil => rfl
  | cons n ns ih =>
      rw [renderAll, dgMusicRender_silent h]
      exact ih

variable (mem)

/-- With the lump, however the samples are asked for: each call renders its
own, and the ticks are made at their times. Without it nothing happens. -/
theorem music_time (s : Music) (a : Nat) (ha : a < 48000) (hacc : s.tickAcc = a) (ns : List Nat)
    (turns : Nat) (hturns : ∀ n ∈ ns, n < turns) :
    (s.genmidi = true → ∃ s' parts, renderAll mem turns ns s = some s'
      ∧ s'.calls = s.calls ++ parts.flatten
      ∧ List.Forall₂ (fun n cs => Tiles n 0 cs) ns parts
      ∧ tickTimes 0 parts.flatten = (List.range ((a + 140 * ns.sum) / 48000)).map
          (fun i => (48000 * (i + 1) - a + 139) / 140)
      ∧ 0 ≤ s'.tickAcc ∧ s'.tickAcc < 48000)
    ∧ (s.genmidi = false → renderAll mem turns ns s = some s) := by
  refine ⟨fun hgen => ?_, fun hgen => renderAll_silent hgen ns⟩
  have hacc₀ : s.tickAcc = accAt a 0 := by
    unfold accAt
    rw [hacc, Nat.mul_zero, Nat.add_zero, Nat.mod_eq_of_lt ha]
  obtain ⟨s', parts, hrun, hren, hall⟩ := @renderAll_clock mem a ha turns 0 ns s hgen hacc₀ hturns
  have hlt : accAt a (0 + ns.sum) < 48000 := Nat.mod_lt _ (by decide)
  refine ⟨s', parts, hrun, hren.calls, hall, ?_, ?_, ?_⟩
  · have hzero : ticksBy a 0 = 0 := Nat.div_eq_of_lt ha
    rw [hren.ticks, hzero, Nat.zero_add, Nat.sub_zero, ← List.range_eq_range']
    rfl
  · rw [hren.tickAcc]
    exact Int.natCast_nonneg _
  · rw [hren.tickAcc]
    exact Int.ofNat_lt.mpr hlt

theorem music_time_second : (343 : Nat) < 344 ∧ ∃ (s' : Music) (parts : List (List Call)),
    renderAll (fun _ => 0) 344 [343] { genmidi := true } = some s'
      ∧ tickTimes 0 parts.flatten = [343] := by
  obtain ⟨s', parts, hrun, -, -, hticks, -⟩ := (music_time (fun _ => 0) { genmidi := true } 0
    (by decide) rfl [343] 344 (by decide)).1 rfl
  exact ⟨by decide, s', parts, hrun, hticks⟩

/-- Without the lump no sample is rendered and no tick made. -/
theorem music_time_without : ∃ s' : Music,
    renderAll (fun _ => 0) 344 [343] {} = some s' ∧ samples s'.calls ≠ 343
      ∧ (tickTimes 0 s'.calls).length ≠ (0 + 140 * 343) / 48000 :=
  ⟨{}, renderAll_silent rfl [343], by decide, by decide⟩

end Ncmips.Doom
