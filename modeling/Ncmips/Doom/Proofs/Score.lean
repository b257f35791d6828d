/-
The score player reads its score, and nothing after it: but where that is, the
lump's header says.

What a score's events take is known from its bytes alone (`ends`); a run
of the player is at such an event at each tick, whatever the delays, so
it reads as far as the events go, and as often as it restarts.
-/
import Ncmips.Doom.Music

namespace Ncmips.Doom

open Words

variable (mem : Nat → UInt8)

-- ================================================================== events

/-- One byte on, unless the score ends. -/
def past (e p : Nat) : Nat := if p < e then p + 1 else p

def byteAt (e p : Nat) : Nat := if p < e then (mem p).toNat else 0

/-- After an event's operands. -/
def operandsEnd (e type p : Nat) : Nat :=
  match type with
  | 0 => past e p
  | 1 => if byteAt mem e p ≥ 0x80 then past e (past e p) else past e p
  | 2 => past e p
  | 3 => past e p
  | 4 => past e (past e p)
  | _ => p

/-- After a delay: its last byte is below 0x80. -/
def delayEnd (e p : Nat) : Nat :=
  if p < e then if (mem p).toNat ≥ 0x80 then delayEnd e (p + 1) else p + 1 else p
termination_by e - p

theorem le_past (e p : Nat) : p ≤ past e p := by
  unfold past
  split
  · exact Nat.le_succ p
  · exact Nat.le_refl p

theorem le_operandsEnd (e type p : Nat) : p ≤ operandsEnd mem e type p := by
  have hone := le_past e p
  have htwo := le_past e (past e p)
  unfold operandsEnd
  split
  · exact hone
  · split
    · omega
    · exact hone
  · exact hone
  · exact hone
  · omega
  · exact Nat.le_refl p

theorem le_delayEnd (e p : Nat) : p ≤ delayEnd mem e p := by
  fun_induction delayEnd mem e p with
  | case1 p h hmore ih => omega
  | case2 p h hmore => exact Nat.le_succ p
  | case3 p h => exact Nat.le_refl p

/-- After the last byte of the events from `p` on: the score's end, or the
end of the range. -/
def ends (e p : Nat) : Nat :=
  if e ≤ p then p
  else
    let ev := (mem p).toNat
    let q := operandsEnd mem e (ev / 16 % 8) (p + 1)
    if ev / 16 % 8 = 6 then q
    else if ev ≥ 0x80 then ends e (delayEnd mem e q) else ends e q
termination_by e - p
decreasing_by
  · have hle : p + 1 ≤ q := le_operandsEnd mem e _ _
    have hd := le_delayEnd mem e q
    show e - delayEnd mem e q < e - p
    omega
  · have hle : p + 1 ≤ q := le_operandsEnd mem e _ _
    show e - q < e - p
    omega

theorem le_ends (e p : Nat) : p ≤ ends mem e p := by
  fun_induction ends mem e p with
  | case1 p h => exact Nat.le_refl p
  | case2 p h ev q hend =>
      have hle : p + 1 ≤ q := le_operandsEnd mem e _ _
      omega
  | case3 p h ev q hend hlast ih =>
      have hle : p + 1 ≤ q := le_operandsEnd mem e _ _
      have hd := le_delayEnd mem e q
      omega
  | case4 p h ev q hend hlast ih =>
      have hle : p + 1 ≤ q := le_operandsEnd mem e _ _
      omega

-- ================================================================ the player

variable {mem}

theorem nextByte_pos (s : Music) : (nextByte mem s).2.musPos = past s.scoreEnd s.musPos := by
  unfold nextByte past
  split
  · rfl
  · rfl

theorem nextByte_byte (s : Music) : (nextByte mem s).1 = byteAt mem s.scoreEnd s.musPos := by
  unfold nextByte byteAt
  split
  · rfl
  · rfl

theorem nextByte_fin (s : Music) : (nextByte mem s).2.scoreEnd = s.scoreEnd :=
  (nextByte_onward s).fin

theorem event_pos (ev : Nat) (s : Music) :
    (event mem ev s).2.musPos = operandsEnd mem s.scoreEnd (ev / 16 % 8) s.musPos := by
  have hone := @nextByte_pos mem s
  have hfin := @nextByte_fin mem s
  have htwo := @nextByte_pos mem (nextByte mem s).2
  rw [hfin, hone] at htwo
  unfold event operandsEnd
  dsimp only
  generalize ev / 16 % 8 = type
  rcases type with _ | _ | _ | _ | _ | _ | _ | type
  · exact hone
  · rw [← nextByte_byte]
    show (if _ then _ else _ : Music).musPos = if _ then _ else _
    split
    · exact htwo
    · exact hone
  · exact hone
  · show (if _ then _ else _ : Bool × Music).2.musPos = _
    split
    · exact hone
    · split
      · exact hone
      · exact hone
  · show (if _ then _ else _ : Bool × Music).2.musPos = _
    split
    · exact htwo
    · split
      · exact htwo
      · split
        · exact htwo
        · split
          · exact htwo
          · exact htwo
  · rfl
  · rfl
  · rfl

/-- Only the score's end stops the events. -/
theorem event_more (ev : Nat) (s : Music) : (event mem ev s).1 = !decide (ev / 16 % 8 = 6) := by
  unfold event
  dsimp only
  generalize ev / 16 % 8 = type
  rcases type with _ | _ | _ | _ | _ | _ | _ | type
  · rfl
  · rfl
  · rfl
  · show (if _ then _ else _ : Bool × Music).1 = _
    split
    · rfl
    · split
      · rfl
      · rfl
  · show (if _ then _ else _ : Bool × Music).1 = _
    split
    · rfl
    · split
      · rfl
      · split
        · rfl
        · split
          · rfl
          · rfl
  · rfl
  · rfl
  · rw [decide_eq_false (by omega)]
    rfl

theorem delayLoop_pos (d : Int) (s : Music) :
    (delayLoop mem d s).2.musPos = delayEnd mem s.scoreEnd s.musPos := by
  fun_induction delayLoop mem d s with
  | case1 d s r d' h ih =>
      have hpos : r.2.musPos = past s.scoreEnd s.musPos := nextByte_pos s
      have hbyte : r.1 = byteAt mem s.scoreEnd s.musPos := nextByte_byte s
      have hfin : r.2.scoreEnd = s.scoreEnd := nextByte_fin s
      rw [ih, hfin, hpos]
      obtain ⟨hmore, -⟩ := h
      rw [hbyte] at hmore
      have hlt : s.musPos < s.scoreEnd := by
        by_contra hge
        rw [byteAt, if_neg hge] at hmore
        omega
      rw [byteAt, if_pos hlt] at hmore
      conv_rhs => rw [delayEnd, if_pos hlt, if_pos hmore]
      rw [past, if_pos hlt]
  | case2 d s r d' h =>
      have hpos : r.2.musPos = past s.scoreEnd s.musPos := nextByte_pos s
      have hbyte : r.1 = byteAt mem s.scoreEnd s.musPos := nextByte_byte s
      have hfin : r.2.scoreEnd = s.scoreEnd := nextByte_fin s
      rw [hpos, hfin, hbyte] at h
      rw [hpos, delayEnd]
      unfold past byteAt at *
      by_cases hlt : s.musPos < s.scoreEnd
      · rw [if_pos hlt] at h ⊢
        rw [if_pos hlt]
        split
        · next hmore =>
          rw [if_pos hlt] at h
          have hend : ¬ s.musPos + 1 < s.scoreEnd := fun hin => h ⟨hmore, hin⟩
          rw [delayEnd, if_neg hend]
        · rfl
      · rw [if_neg hlt, if_neg hlt]

theorem ends_end {e p : Nat} (h : p < e) (hend : (mem p).toNat / 16 % 8 = 6) :
    ends mem e p = operandsEnd mem e 6 (p + 1) := by
  rw [ends, if_neg (by omega)]
  dsimp only
  rw [if_pos hend, hend]

theorem ends_more {e p : Nat} (h : p < e) (hmore : (mem p).toNat / 16 % 8 ≠ 6) :
    ends mem e p = ends mem e
      (if (mem p).toNat ≥ 0x80 then
        delayEnd mem e (operandsEnd mem e ((mem p).toNat / 16 % 8) (p + 1))
      else operandsEnd mem e ((mem p).toNat / 16 % 8) (p + 1)) := by
  rw [ends, if_neg (by omega)]
  dsimp only
  rw [if_neg hmore]
  split
  · rfl
  · rfl

/-- The event at a position, and the first byte after it. -/
theorem first_event {s : Music} (h : s.musPos < s.scoreEnd) :
    (nextByte mem s).1 = (mem s.musPos).toNat
      ∧ (event mem (nextByte mem s).1 (nextByte mem s).2).2.musPos
        = operandsEnd mem s.scoreEnd ((nextByte mem s).1 / 16 % 8) (s.musPos + 1) := by
  constructor
  · rw [nextByte_byte, byteAt, if_pos h]
  · rw [event_pos, nextByte_fin, nextByte_ahead h]

/-- An event that is not the last has another type. -/
theorem goesOn {s : Music} {ev : Nat} (hev : ev = (mem s.musPos).toNat) {s' : Music}
    (hmore : ¬ (!(event mem ev s').1) = true) : (mem s.musPos).toNat / 16 % 8 ≠ 6 := by
  intro hlast
  rw [event_more, hev, hlast] at hmore
  exact hmore rfl

/-- With a delay, the events from there are those after it. -/
theorem ends_delay {s : Music} (h : s.musPos < s.scoreEnd)
    (hmore : ¬ (!(event mem (nextByte mem s).1 (nextByte mem s).2).1) = true)
    (hlong : (nextByte mem s).1 ≥ 0x80) :
    ends mem s.scoreEnd s.musPos = ends mem s.scoreEnd
      (delayLoop mem 0 (event mem (nextByte mem s).1 (nextByte mem s).2).2).2.musPos := by
  obtain ⟨hev, hpos⟩ := @first_event mem s h
  rw [ends_more h (goesOn hev hmore), if_pos (by rw [← hev]; exact hlong), ← hev, delayLoop_pos,
    hpos, (event_onward _ _).fin, (nextByte_onward s).fin]

/-- The events go on as their bytes say. -/
theorem runEvents_ends (s : Music) :
    (runEvents mem s).2.musPos ≤ ends mem s.scoreEnd s.musPos
      ∧ ((runEvents mem s).1 = false →
        (runEvents mem s).2.musPos = ends mem s.scoreEnd s.musPos)
      ∧ ((runEvents mem s).1 = true →
        ends mem s.scoreEnd (runEvents mem s).2.musPos = ends mem s.scoreEnd s.musPos) := by
  fun_induction runEvents mem s with
  | case1 s h =>
      have hends : ends mem s.scoreEnd s.musPos = s.musPos := by rw [ends, if_pos h]
      exact ⟨le_ends mem _ _, fun _ => hends.symm, fun hmore => absurd hmore Bool.false_ne_true⟩
  | case2 s h r e hend =>
      obtain ⟨hev, hpos⟩ := @first_event mem s (by omega)
      have hmore : e.1 = !decide (r.1 / 16 % 8 = 6) := event_more r.1 r.2
      have hlast : r.1 / 16 % 8 = 6 := by
        by_contra h6
        rw [hmore, decide_eq_false h6] at hend
        exact absurd hend (by decide)
      have hto : e.2.musPos = operandsEnd mem s.scoreEnd 6 (s.musPos + 1) := by
        rw [← hlast]
        exact hpos
      rw [ends_end (by omega) (by rw [← hev]; exact hlast)]
      exact ⟨Nat.le_of_eq hto, fun _ => hto, fun hmore => absurd hmore Bool.false_ne_true⟩
  | case3 s h r e hend hlong w hd =>
      have hends := @ends_delay mem s (by omega) hend hlong
      refine ⟨?_, fun hmore => absurd (show true = false from hmore) (by decide), fun _ => ?_⟩
      · show w.2.musPos ≤ _
        rw [hends]
        exact le_ends mem _ _
      · exact hends.symm
  | case4 s h r e hend hlong w hd ih =>
      have hends := @ends_delay mem s (by omega) hend hlong
      have hfin : w.2.scoreEnd = s.scoreEnd := by
        rw [(delayLoop_onward 0 e.2).fin, (event_onward r.1 r.2).fin, (nextByte_onward s).fin]
      rw [hfin] at ih
      rw [hends]
      exact ih
  | case5 s h r e hend hshort ih =>
      obtain ⟨hev, hpos⟩ := @first_event mem s (by omega)
      have hfin : e.2.scoreEnd = s.scoreEnd := by
        rw [(event_onward r.1 r.2).fin, (nextByte_onward s).fin]
      have hends : ends mem s.scoreEnd s.musPos = ends mem s.scoreEnd e.2.musPos := by
        rw [ends_more (by omega) (goesOn hev hend), if_neg (by rw [← hev]; exact hshort), ← hev, ← hpos]
      rw [hfin] at ih
      rw [hends]
      exact ih

-- ==================================================================== runs

/-- A song in `[lo, hi)`: its events are there, and what was read is there or
was read before. -/
structure Song (mem : Nat → UInt8) (lo hi : Nat) (old : List Nat) (s : Music) : Prop where
  first : lo ≤ s.score
  last : ∀ a, s.score ≤ a → a < ends mem s.scoreEnd s.score → a < hi
  reads : ∀ a ∈ s.reads, a ∈ old ∨ (lo ≤ a ∧ a < hi)

/-- And the next event is one of them. -/
structure Playing (mem : Nat → UInt8) (lo hi : Nat) (old : List Nat) (s : Music) : Prop
    extends Song mem lo hi old s where
  posFirst : lo ≤ s.musPos
  posLast : ∀ a, s.musPos ≤ a → a < ends mem s.scoreEnd s.musPos → a < hi

variable {lo hi : Nat} {old : List Nat}

theorem Playing.events {s : Music} (h : Playing mem lo hi old s) :
    Song mem lo hi old (runEvents mem s).2
      ∧ ((runEvents mem s).1 = true → Playing mem lo hi old (runEvents mem s).2) := by
  have hon := @runEvents_onward mem s
  obtain ⟨hpos, -, hmore⟩ := @runEvents_ends mem s
  have hfirst := h.posFirst
  have hahead := hon.ahead
  have hsong : Song mem lo hi old (runEvents mem s).2 := by
    refine ⟨by rw [hon.score]; exact h.first, by rw [hon.score, hon.fin]; exact h.last, ?_⟩
    intro a ha
    rw [hon.reads] at ha
    rcases List.mem_append.mp ha with ha | ha
    · exact h.reads a ha
    · obtain ⟨hge, hlt⟩ := List.mem_range'_1.mp ha
      exact .inr ⟨by omega, h.posLast a hge (by omega)⟩
  refine ⟨hsong, fun htrue => { hsong with posFirst := by omega, posLast := fun a hge hlt => ?_ }⟩
  rw [hon.fin, hmore htrue] at hlt
  exact h.posLast a (by omega) hlt

theorem Song.silence {s : Music} (h : Song mem lo hi old s) :
    Song mem lo hi old (s.call .silence) := { h with }

/-- The score starts again. -/
theorem Song.again {s : Music} (h : Song mem lo hi old s) : Playing mem lo hi old (restart s) :=
  { h with posFirst := h.first, posLast := h.last }

theorem Playing.ticked {s : Music} (h : Playing mem lo hi old s) (restarts : Nat) :
    Song mem lo hi old (tickLoop mem s restarts)
      ∧ ((tickLoop mem s restarts).playing = true →
        Playing mem lo hi old (tickLoop mem s restarts)) := by
  fun_induction tickLoop mem s restarts with
  | case1 s restarts hzero s' hrun =>
      obtain ⟨hsong, hplay⟩ := h.events
      rw [hrun] at hsong hplay
      exact ⟨hsong, fun _ => hplay rfl⟩
  | case2 s restarts hzero s' hrun s'' hloop ih =>
      obtain ⟨hsong, -⟩ := h.events
      rw [hrun] at hsong
      exact ih (Song.again hsong.silence)
  | case3 s restarts hzero s' hrun s'' hloop =>
      obtain ⟨hsong, -⟩ := h.events
      rw [hrun] at hsong
      exact ⟨{ hsong with }, fun hplay => nomatch hplay⟩
  | case4 s restarts hzero => exact ⟨h.toSong, fun _ => h⟩

/-- Between ticks. -/
def Sound (mem : Nat → UInt8) (lo hi : Nat) (old : List Nat) (s : Music) : Prop :=
  Song mem lo hi old s ∧ (s.playing = true → Playing mem lo hi old s)

theorem Sound.tick {s : Music} (h : Sound mem lo hi old s) :
    Sound mem lo hi old (musicTick mem s) := by
  unfold musicTick
  split
  · exact h
  · next hon =>
    have hplaying : s.playing = true := by
      cases hp : s.playing with
      | true => rfl
      | false => exact absurd (.inl (by rw [hp]; rfl)) hon
    have hplay := h.2 hplaying
    split
    · have hcount : Playing mem lo hi old { s with delayTicks := s.delayTicks - 1 } := { hplay with }
      dsimp only
      split
      · exact ⟨hcount.toSong, fun _ => hcount⟩
      · exact hcount.ticked 0
    · exact hplay.ticked 0

theorem Sound.run {s : Music} (h : Sound mem lo hi old s) (n : Nat) :
    Sound mem lo hi old ((musicTick mem)^[n] s) := by
  induction n generalizing s with
  | zero => exact h
  | succ n ih => exact ih h.tick

-- ============================================================= every event

/-- What was read stays noted. -/
theorem tickLoop_reads (s : Music) (restarts : Nat) : s.reads ⊆ (tickLoop mem s restarts).reads := by
  have hevents (s : Music) : s.reads ⊆ (runEvents mem s).2.reads := by
    rw [(runEvents_onward s).reads]
    exact List.subset_append_left _ _
  fun_induction tickLoop mem s restarts with
  | case1 s restarts hzero s' hrun =>
      have hsub := hevents s
      rw [hrun] at hsub
      exact hsub
  | case2 s restarts hzero s' hrun s'' hloop =>
      have hsub := hevents s
      rw [hrun] at hsub
      rename_i ih
      exact fun a ha => ih (hsub ha)
  | case3 s restarts hzero s' hrun hloop =>
      have hsub := hevents s
      rw [hrun] at hsub
      exact hsub
  | case4 s restarts hzero => exact fun a ha => ha

theorem musicTick_reads (s : Music) : s.reads ⊆ (musicTick mem s).reads := by
  unfold musicTick
  split
  · exact fun a ha => ha
  · split
    · dsimp only
      split
      · exact fun a ha => ha
      · exact tickLoop_reads { s with delayTicks := s.delayTicks - 1 } 0
    · exact tickLoop_reads s 0

theorem ticks_reads (n : Nat) (s : Music) : s.reads ⊆ ((musicTick mem)^[n] s).reads := by
  induction n generalizing s with
  | zero => exact fun a ha => ha
  | succ n ih => exact fun a ha => ih _ (musicTick_reads s ha)

/-- A delay passes, and then the events run. -/
theorem countdown (k : Nat) (s : Music) (hplaying : s.playing = true) (hpaused : s.paused = false)
    (hdelay : s.delayTicks = k) :
    ∃ n, (musicTick mem)^[n] s = tickLoop mem { s with delayTicks := 0 } 0 := by
  have hon : ¬ ((!s.playing) = true ∨ s.paused = true) := by
    rw [hplaying, hpaused]
    decide
  induction k generalizing s with
  | zero =>
      refine ⟨1, ?_⟩
      show musicTick mem s = _
      have hsame : ({ s with delayTicks := 0 } : Music) = s := by
        show ({ s with delayTicks := ((0 : Nat) : Int) } : Music) = s
        rw [← hdelay]
      rw [musicTick, if_neg hon, if_neg (by omega), hsame]
  | succ k ih =>
      have hminus : s.delayTicks - 1 = k := by omega
      by_cases hk : k = 0
      · refine ⟨1, ?_⟩
        show musicTick mem s = _
        rw [musicTick, if_neg hon, if_pos (by omega), hminus, hk]
        rfl
      · obtain ⟨n, hn⟩ := ih { s with delayTicks := s.delayTicks - 1 } hplaying hpaused hminus hon
        refine ⟨n + 1, ?_⟩
        have hfirst : musicTick mem s = { s with delayTicks := s.delayTicks - 1 } := by
          rw [musicTick, if_neg hon, if_pos (by omega)]
          dsimp only
          rw [if_pos (by omega)]
        show (musicTick mem)^[n] (musicTick mem s) = _
        rw [hfirst, hn]

theorem runEvents_true (s : Music) (h : (runEvents mem s).1 = true) :
    s.musPos < s.scoreEnd ∧ s.musPos < (runEvents mem s).2.musPos
      ∧ 0 ≤ (runEvents mem s).2.delayTicks := by
  fun_induction runEvents mem s with
  | case1 s h => exact absurd h Bool.false_ne_true
  | case2 s h r e hend => exact absurd h Bool.false_ne_true
  | case3 s hin r e hend hlong w hd =>
      have hahead : r.2.musPos = s.musPos + 1 := nextByte_ahead (by omega)
      have hon : Onward r.2 w.2 := (event_onward r.1 r.2).trans (delayLoop_onward 0 e.2)
      have hle := hon.ahead
      refine ⟨by omega, ?_, Int.le_of_lt hd⟩
      show s.musPos < w.2.musPos
      omega
  | case4 s hin r e hend hlong w hd ih =>
      have hahead : r.2.musPos = s.musPos + 1 := nextByte_ahead (by omega)
      have hon : Onward r.2 w.2 := (event_onward r.1 r.2).trans (delayLoop_onward 0 e.2)
      have hle := hon.ahead
      obtain ⟨-, hlt, hdelay⟩ := ih h
      exact ⟨by omega, by omega, hdelay⟩
  | case5 s hin r e hend hshort ih =>
      have hahead : r.2.musPos = s.musPos + 1 := nextByte_ahead (by omega)
      have hon : Onward r.2 e.2 := event_onward r.1 r.2
      have hle := hon.ahead
      obtain ⟨-, hlt, hdelay⟩ := ih h
      exact ⟨by omega, by omega, hdelay⟩

theorem tickLoop_events {s : Music} (hzero : s.delayTicks = 0) (restarts : Nat) :
    (runEvents mem s).2.reads ⊆ (tickLoop mem s restarts).reads := by
  rw [tickLoop, if_pos hzero]
  split
  · next s' hrun => rw [hrun]; exact fun a ha => ha
  · next s' hrun =>
    rw [hrun]
    dsimp only
    split
    · exact fun a ha => tickLoop_reads (restart (s'.call .silence)) (restarts + 1) ha
    · exact fun a ha => ha

/-- The events that are left are read. -/
theorem reads_all (s : Music) (hplaying : s.playing = true) (hpaused : s.paused = false)
    (hdelay : 0 ≤ s.delayTicks) :
    ∃ n, ∀ a, s.musPos ≤ a → a < ends mem s.scoreEnd s.musPos →
      a ∈ ((musicTick mem)^[n] s).reads := by
  induction hm : s.scoreEnd - s.musPos using Nat.strong_induction_on generalizing s with
  | _ m ih =>
      obtain ⟨n, hn⟩ := @countdown mem s.delayTicks.toNat s hplaying hpaused (by omega)
      generalize hs₀ : ({ s with delayTicks := 0 } : Music) = s₀ at hn
      have hpos : s₀.musPos = s.musPos := by rw [← hs₀]
      have hend : s₀.scoreEnd = s.scoreEnd := by rw [← hs₀]
      have hzero : s₀.delayTicks = 0 := by rw [← hs₀]
      have hon := @runEvents_onward mem s₀
      obtain ⟨-, hfalse, htrue⟩ := @runEvents_ends mem s₀
      have hread : ∀ a, s.musPos ≤ a → a < (runEvents mem s₀).2.musPos →
          a ∈ ((musicTick mem)^[n] s).reads := by
        intro a hge hlt
        rw [hn]
        refine tickLoop_events hzero 0 ?_
        rw [hon.reads]
        exact List.mem_append_right _ (List.mem_range'_1.mpr ⟨by omega, by omega⟩)
      cases hmore : (runEvents mem s₀).1 with
      | false =>
          refine ⟨n, fun a hge hlt => hread a hge ?_⟩
          rw [hfalse hmore, hpos, hend]
          exact hlt
      | true =>
          obtain ⟨hin, hlt, hdelay'⟩ := runEvents_true s₀ hmore
          have hnext : tickLoop mem s₀ 0 = (runEvents mem s₀).2 := by
            rw [tickLoop, if_pos hzero]
            split
            · next s' hrun => rw [hrun]
            · next s' hrun =>
              rw [hrun] at hmore
              exact absurd hmore Bool.false_ne_true
          rw [hnext] at hn
          have hfin := hon.fin
          obtain ⟨n', hn'⟩ := ih ((runEvents mem s₀).2.scoreEnd - (runEvents mem s₀).2.musPos)
            (by omega) (runEvents mem s₀).2 (by rw [hon.playing, ← hs₀]; exact hplaying)
            (by rw [hon.paused, ← hs₀]; exact hpaused) hdelay' rfl
          refine ⟨n' + n, fun a hge hlt' => ?_⟩
          rw [Function.iterate_add_apply]
          by_cases hfirst : a < (runEvents mem s₀).2.musPos
          · exact ticks_reads n' _ (hread a hge hfirst)
          · rw [hn]
            refine hn' a (by omega) ?_
            rw [hon.fin, htrue hmore, hpos, hend]
            exact hlt'

-- ================================================================== a lump

variable (mem)

/-- Where the header puts a lump's score, and where it ends. -/
def scoreOf (d : Nat) : Nat := u32 (d + le16 mem (u32 (d + 6)))

def scoreEndOf (d : Nat) : Nat := u32 (scoreOf mem d + le16 mem (u32 (d + 4)))

/-- The events of the score, from where the header puts it, lie in the lump:
they end before the lump does, or there are none. -/
def EventsInside (d len : Nat) : Prop :=
  ends mem (scoreEndOf mem d) (scoreOf mem d) ≤ d + len
    ∨ ends mem (scoreEndOf mem d) (scoreOf mem d) = scoreOf mem d

/-- The song that is played: its first event is next. -/
structure Started (d : Nat) (s s' : Music) : Prop where
  score : s'.score = scoreOf mem d
  scoreEnd : s'.scoreEnd = scoreEndOf mem d
  musPos : s'.musPos = scoreOf mem d
  delayTicks : s'.delayTicks = 0
  playing : s'.playing = true
  paused : s'.paused = false
  reads : s'.reads = s.reads

theorem musPlay_started {d : Nat} (hd : d ≠ 0) (loop : Bool) {s : Music} (hgen : s.genmidi = true) :
    Started mem d s (musPlay mem d loop s) := by
  have hplay : ¬ (d = 0 ∨ (!s.genmidi) = true) := by
    rintro (h | h)
    · exact hd h
    · rw [hgen] at h
      exact nomatch h
  unfold musPlay
  rw [if_neg hplay]
  exact ⟨rfl, rfl, rfl, rfl, rfl, rfl, rfl⟩

theorem scoreOf_ge {d : Nat} (hroom : d + 2 ^ 17 ≤ 2 ^ 32) : d ≤ scoreOf mem d := by
  have h0 := (mem (u32 (d + 6))).toNat_lt
  have h1 := (mem (u32 (u32 (d + 6) + 1))).toNat_lt
  unfold scoreOf le16
  rw [u32_of_lt (by omega)]
  exact Nat.le_add_right _ _

/-- The player stays in an accepted lump, whatever the ticks, exactly if the
score's events lie in it. -/
theorem mus_inside {d len : Nat} (hd : d ≠ 0) (hroom : d + 2 ^ 17 ≤ 2 ^ 32)
    (_hreg : musRegister mem d len = true) (loop : Bool) (s : Music) (hgen : s.genmidi = true)
    (hreads : s.reads = []) :
    (∀ n, ∀ a ∈ ((musicTick mem)^[n] (musPlay mem d loop s)).reads, d ≤ a ∧ a < d + len)
      ↔ EventsInside mem d len := by
  have hstart := musPlay_started mem hd loop hgen
  generalize musPlay mem d loop s = s' at hstart
  have hge := scoreOf_ge mem hroom
  constructor
  · intro h
    obtain ⟨n, hn⟩ := reads_all s' hstart.playing hstart.paused (Int.le_of_eq hstart.delayTicks.symm)
    rw [hstart.scoreEnd, hstart.musPos] at hn
    have hle := le_ends mem (scoreEndOf mem d) (scoreOf mem d)
    unfold EventsInside
    by_contra hout
    rw [not_or] at hout
    have hlast := h n (ends mem (scoreEndOf mem d) (scoreOf mem d) - 1) (hn _ (by omega) (by omega))
    omega
  · intro hin n a ha
    have hlast : ∀ a, scoreOf mem d ≤ a → a < ends mem (scoreEndOf mem d) (scoreOf mem d) →
        a < d + len := by
      intro a hlo hlt
      rcases hin with hin | hnone
      · omega
      · omega
    have hsong : Song mem d (d + len) [] s' := by
      refine ⟨by rw [hstart.score]; exact hge, ?_, fun a ha => ?_⟩
      · rw [hstart.score, hstart.scoreEnd]
        exact hlast
      · rw [hstart.reads, hreads] at ha
        exact nomatch ha
    have hplay : Playing mem d (d + len) [] s' := by
      refine { hsong with posFirst := ?_, posLast := ?_ }
      · rw [hstart.musPos]
        exact hge
      · rw [hstart.musPos, hstart.scoreEnd]
        exact hlast
    rcases (Sound.run ⟨hsong, fun _ => hplay⟩ n).1.reads a ha with hold | hnew
    · exact nomatch hold
    · exact hnew

/-- A lump at 0x1000: 16 bytes, a score of 100 from there on. -/
def shortLump (a : Nat) : UInt8 :=
  ([0x4d, 0x55, 0x53, 0x1a, 100, 0, 16, 0] : List UInt8).getD (a - 0x1000) 0

/-- A lump of a header and the score's end. -/
def emptySong (a : Nat) : UInt8 :=
  ([0x4d, 0x55, 0x53, 0x1a, 1, 0, 16, 0, 0, 0, 0, 0, 0, 0, 0, 0, 0x60] : List UInt8).getD
    (a - 0x1000) 0

theorem mus_inside_empty : EventsInside emptySong 0x1000 17
    ∧ ∀ n, ∀ a ∈ ((musicTick emptySong)^[n] (musPlay emptySong 0x1000 true { genmidi := true })).reads,
      0x1000 ≤ a ∧ a < 0x1000 + 17 := by
  have hin : EventsInside emptySong 0x1000 17 := by
    refine .inl ?_
    have hscore : scoreOf emptySong 0x1000 = 0x1010 := by decide
    have hend : scoreEndOf emptySong 0x1000 = 0x1011 := by decide
    rw [hscore, hend, ends_end (by decide) (by decide)]
    decide
  exact ⟨hin, (mus_inside emptySong (by decide) (by decide) (by decide) true { genmidi := true } rfl
    rfl).2 hin⟩

theorem mus_outside : musRegister shortLump 0x1000 16 = true
    ∧ ∃ n, ∃ a ∈ ((musicTick shortLump)^[n]
        (musPlay shortLump 0x1000 true { genmidi := true })).reads, ¬ a < 0x1000 + 16 := by
  refine ⟨by decide, ?_⟩
  have hstart := musPlay_started shortLump (d := 0x1000) (by decide) true (s := { genmidi := true }) rfl
  generalize musPlay shortLump 0x1000 true { genmidi := true } = s' at hstart
  obtain ⟨n, hn⟩ := reads_all s' hstart.playing hstart.paused (Int.le_of_eq hstart.delayTicks.symm)
  rw [hstart.musPos, hstart.scoreEnd] at hn
  have hscore : scoreOf shortLump 0x1000 = 0x1010 := by decide
  have hend : scoreEndOf shortLump 0x1000 = 0x1074 := by decide
  rw [hscore, hend] at hn
  refine ⟨n, 0x1010, hn _ (Nat.le_refl _) ?_, by decide⟩
  have hle := le_ends shortLump 0x1074 0x1012
  rw [ends_more (by decide) (by decide), if_neg (by decide)]
  exact Nat.lt_of_lt_of_le (by decide) hle

end Ncmips.Doom
