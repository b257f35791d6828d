/-
Playing a file that was loaded: rendering and seeking.

A seek ends, since each step takes a byte. A render also waits for the next
event, in samples rounded up; where the rounding overflows it waits no
samples, for ever.
-/
import Ncmips.Midi.Proofs.Smf
import Mathlib.Logic.Relation

namespace Ncmips.Midi

open Words Prog

variable {mem : Nat → UInt8} {base len : Nat}

-- ================================================================== a turn

/-- The next event is so far from now that rounding up to samples
overflows. -/
def Smf.Stuck (s : Smf) : Prop := s.tMin ≠ 0xffffffff ∧ s.now + (2 ^ 64 - 2 ^ 32) < s.next

theorem next_lt (s : Smf) : s.next < 2 ^ 64 := u64_lt _

/-- The time is a number of samples. -/
structure Clock (s : Smf) : Prop where
  whole : s.now % 2 ^ 32 = 0
  lt : s.now < 2 ^ 64

theorem play_clock {s : Smf} (h : Clock s) (offset seg : Int) : Clock (s.play offset seg) := by
  have hwhole := h.whole
  refine ⟨?_, u64_lt _⟩
  unfold Smf.play Smf.call u64
  dsimp only
  omega

/-- Turns of a render that are left: those of the steps, one that waits for the
next event, those that play samples. -/
def rank (n : Int) (s : Smf) : Nat :=
  s.left * 2 ^ 33 + (if s.next ≤ s.now then 0 else 2 ^ 32) + n.toNat

/-- Waiting takes samples from those that are left, unless it wraps. -/
theorem wait_rank {s : Smf} (h : Clock s) (hwait : s.now < s.next) (hstuck : ¬s.Stuck)
    (hevent : s.tMin ≠ 0xffffffff) {n : Int} (hn : 0 < n) (hint : n < 2 ^ 31) (offset : Int) {seg : Int}
    (hseg : seg = if s.ahead > n then n else s.ahead) :
    s32 (n - seg) ≤ 0 ∨ rank (s32 (n - seg)) (s.play offset seg) < rank n s
      ∨ (s.play offset seg).Stuck := by
  have hwhole := h.whole
  have hnow := h.lt
  have hnext := next_lt s
  have hfar : s.next ≤ s.now + (2 ^ 64 - 2 ^ 32) := by
    by_contra hover
    exact hstuck ⟨hevent, by omega⟩
  -- the samples to wait, rounded up
  obtain ⟨q, hq, hq1, hqlt, hlo, hhi⟩ : ∃ q : Nat, s.ahead = s32 q ∧ 1 ≤ q ∧ q < 2 ^ 32
      ∧ s.next ≤ s.now + q * 2 ^ 32 ∧ s.now + q * 2 ^ 32 < s.next + 2 ^ 32 := by
    have hdist : sub64 s.next s.now = s.next - s.now := by
      unfold sub64 u64
      omega
    refine ⟨(s.next - s.now + 0xffffffff) / 2 ^ 32, ?_, by omega, by omega, by omega, by omega⟩
    unfold Smf.ahead
    rw [hdist, u64_of_lt (show s.next - s.now + 0xffffffff < 2 ^ 64 by omega)]
  have hsame : (s.play offset seg).next = s.next := rfl
  have hleft : (s.play offset seg).left = s.left := rfl
  have hplay : (s.play offset seg).now = (s.now + (seg * 2 ^ 32 % 2 ^ 64).toNat) % 2 ^ 64 := rfl
  have hrank : rank n s = s.left * 2 ^ 33 + 2 ^ 32 + n.toNat := by
    unfold rank
    rw [if_neg (by omega)]
  by_cases hsmall : q < 2 ^ 31
  · -- as many samples as fit
    rw [s32_of_range (by omega) (by omega)] at hq
    by_cases hmore : s.ahead > n
    · rw [if_pos hmore] at hseg
      left
      rw [hseg, s32_of_range (by omega) (by omega)]
      omega
    · rw [if_neg hmore, hq] at hseg
      right; left
      have hrest : s32 (n - seg) = n - q := by
        rw [hseg, s32_of_range (by omega) (by omega)]
      rw [hrest, hrank]
      unfold rank
      rw [hleft]
      have hflag : (if (s.play offset seg).next ≤ (s.play offset seg).now then 0 else 2 ^ 32) ≤ 2 ^ 32 := by
        split_ifs <;> omega
      omega
  · -- a negative number of samples: the time is the event's at once
    rw [s32_of_high (by omega) (by omega)] at hq
    have hseg' : seg = (q : Int) - 2 ^ 32 := by
      rw [hseg, if_neg (by omega), hq]
    have htime : (s.play offset seg).now = (s.now + q * 2 ^ 32) % 2 ^ 64 := by
      rw [hplay, hseg']
      omega
    have hint' := s32_range (n - seg)
    generalize s32 (n - seg) = n' at hint' ⊢
    right
    by_cases hwrap : s.now + q * 2 ^ 32 < 2 ^ 64
    · left
      rw [Nat.mod_eq_of_lt hwrap] at htime
      rw [hrank]
      unfold rank
      rw [hleft, hsame, if_pos (by omega)]
      omega
    · right
      refine ⟨hevent, ?_⟩
      rw [hsame, htime]
      omega

/-- The sequencer between calls, and between turns. -/
structure Ready (base len : Nat) (s : Smf) : Prop extends Playing base len s, Clock s

theorem Ready.play {s : Smf} (h : Ready base len s) (offset seg : Int) :
    Ready base len (s.play offset seg) :=
  { play_clock h.toClock offset seg with
    file := h.file, fileLen := h.fileLen, tracks := h.tracks, count := h.count }

/-- The events of a step take no time. -/
theorem Ready.steps {s s' : Smf} (h : Ready base len s) (hs' : Playing base len s')
    (hsteady : Steady s s') : Ready base len s' :=
  { hs' with
    whole := by rw [hsteady.now]; exact h.whole
    lt := by rw [hsteady.now]; exact h.lt }

theorem renderTurn_goes (hp : Placed base len) {fuel : Nat} {n : Int} (hn : 0 < n)
    (hint : n < 2 ^ 31) {offset : Int} {s : Smf} (hs : Ready base len s) :
    Goes mem (InFile base len) (renderTurn fuel n offset s) (Short base len fuel)
      (fun r => Ready base len r.2.2 ∧ r.1 < 2 ^ 31
        ∧ (¬s.Stuck → r.1 ≤ 0 ∨ rank r.1 r.2.2 < rank n s ∨ r.2.2.Stuck)) := by
  unfold renderTurn
  by_cases hnone : s.tMin = 0xffffffff
  · -- no event is left
    rw [if_pos hnone]
    have hdone : Ready base len { s with finished := true } :=
      { file := hs.file, fileLen := hs.fileLen, tracks := hs.tracks, count := hs.count
        whole := hs.whole, lt := hs.lt }
    refine goes_pure ⟨hdone.play offset n, (s32_range _).2, fun _ => .inl ?_⟩
    rw [s32_of_range (by omega) (by omega)]
    omega
  rw [if_neg hnone]
  by_cases hnow : s.next ≤ s.now
  · -- an event is due
    rw [if_pos hnow]
    refine ((step_goes hp hs.toPlaying).mono (fun s' hs' => ⟨hs'.1, le_trans hs'.2 hs.left_le⟩)
      fun _ hr => hr).bind fun r hr => goes_pure ?_
    obtain ⟨more, s'⟩ := r
    obtain ⟨hplaying, hsteady, -, hmore, hless⟩ := hr
    dsimp only at hplaying hsteady hmore hless ⊢
    refine ⟨hs.steps hplaying hsteady, hint, fun _ => .inr (.inl ?_)⟩
    have := hless (hmore.mpr hnone)
    unfold rank
    have hflag : (if s'.next ≤ s'.now then 0 else 2 ^ 32) ≤ 2 ^ 32 := by
      split_ifs <;> omega
    omega
  · rw [if_neg hnow]
    generalize hseg : (if s.ahead > n then n else s.ahead) = seg
    refine goes_pure ⟨hs.play offset seg, (s32_range _).2, fun hstuck => ?_⟩
    exact wait_rank hs.toClock (by omega) hstuck hnone hn hint offset hseg.symm

/-- Rendering reads the file only. -/
theorem renderLoop_goes (hp : Placed base len) {fuel turns : Nat} {n offset : Int}
    (hint : n < 2 ^ 31) {s : Smf} (hs : Ready base len s) :
    Goes mem (InFile base len) (renderLoop fuel turns n offset s) (Playing base len)
      (Ready base len) := by
  induction turns generalizing n offset s with
  | zero => exact goes_throw hs.toPlaying
  | succ turns ih =>
      unfold renderLoop
      split_ifs with hn
      · refine ((renderTurn_goes hp hn hint hs).mono (fun _ h => h.1) fun _ h => h).bind fun r hr => ?_
        exact ih hr.2.1 hr.1
      · exact goes_pure hs

-- ========================================================== the render's turns

/-- A turn of a render: the samples left, the offset, the sequencer. -/
def Turned (mem : Nat → UInt8) (a b : Int × Int × Smf) : Prop :=
  0 < a.1 ∧ ∃ fuel, outcome mem (renderTurn fuel a.1 a.2.1 a.2.2) = .ok b

/-- No turn of a render of `n` samples begins in a state that is stuck. -/
def NeverStuck (mem : Nat → UInt8) (n : Int) (s : Smf) : Prop :=
  ∀ b, Relation.ReflTransGen (Turned mem) (n, 0, s) b → 0 < b.1 → ¬b.2.2.Stuck

/-- If no turn begins stuck, the loop ends: each turn has fewer before it. -/
theorem renderLoop_ends (hp : Placed base len) {fuel turns : Nat} (hfuel : enough len < fuel)
    {n offset : Int} (hint : n < 2 ^ 31) {s : Smf} (hs : Ready base len s)
    (hnever : ∀ b, Relation.ReflTransGen (Turned mem) (n, offset, s) b → 0 < b.1 → ¬b.2.2.Stuck)
    (hturns : rank n s < turns) :
    ∃ s', outcome mem (renderLoop fuel turns n offset s) = .ok s' := by
  induction turns generalizing n offset s with
  | zero => exact absurd hturns (Nat.not_lt_zero _)
  | succ turns ih =>
      unfold renderLoop
      split_ifs with hn
      · have hturn := (@renderTurn_goes mem _ _ hp fuel n hn hint offset _ hs).outcome
        rw [outcome_bind]
        cases hres : outcome mem (renderTurn fuel n offset s) with
        | error s' =>
            rw [hres] at hturn
            have := hturn.2
            omega
        | ok r =>
            rw [hres] at hturn
            obtain ⟨n', offset', s'⟩ := r
            obtain ⟨hs', hint', hrank⟩ := hturn
            dsimp only at hs' hint' hrank ⊢
            have hnext : Turned mem (n, offset, s) (n', offset', s') := ⟨hn, fuel, hres⟩
            have hnever' b (hb : Relation.ReflTransGen (Turned mem) (n', offset', s') b) :=
              hnever b (.head hnext hb)
            by_cases hmore : 0 < n'
            · rcases hrank (hnever _ .refl hn) with hzero | hless | hstuck
              · omega
              · exact ih hint' hs' hnever' (by omega)
              · exact absurd hstuck (hnever' _ .refl hmore)
            · cases turns with
              | zero =>
                  unfold rank at hturns
                  omega
              | succ turns =>
                  unfold renderLoop
                  rw [if_neg hmore]
                  exact ⟨s', rfl⟩
      · exact ⟨s, rfl⟩

-- ================================================================ where it hangs

theorem trackLoop_longer (send i turns : Nat) (s : Smf) :
    Longer mem (trackLoop send i turns s) (trackLoop send i (turns + 1) s) := by
  induction turns generalizing s with
  | zero => exact longer_throw _ _
  | succ turns ih =>
      rw [trackLoop, trackLoop]
      split
      · exact .refl _
      · split_ifs
        · exact (Longer.refl _).bind fun r => ih _
        · exact .refl _

theorem tracksLoop_longer (send turns : Nat) (is : List Nat) (s : Smf) :
    Longer mem (tracksLoop send turns is s) (tracksLoop send (turns + 1) is s) := by
  induction is generalizing s with
  | nil => exact .refl _
  | cons i is ih =>
      unfold tracksLoop
      exact (trackLoop_longer send i turns s).bind ih

theorem step_longer (turns send : Nat) (s : Smf) :
    Longer mem (step turns send s) (step (turns + 1) send s) := by
  unfold step
  split_ifs
  · exact .refl _
  · exact (tracksLoop_longer _ _ _ _).bind fun _ => .refl _

theorem renderTurn_longer (fuel : Nat) (n offset : Int) (s : Smf) :
    Longer mem (renderTurn fuel n offset s) (renderTurn (fuel + 1) n offset s) := by
  unfold renderTurn
  by_cases hnone : s.tMin = 0xffffffff
  · rw [if_pos hnone, if_pos hnone]
    exact .refl _
  rw [if_neg hnone, if_neg hnone]
  by_cases hnow : s.next ≤ s.now
  · rw [if_pos hnow, if_pos hnow]
    exact (step_longer _ _ _).bind fun _ => .refl _
  · rw [if_neg hnow, if_neg hnow]
    exact .refl _

/-- In a state that is stuck, a turn plays no samples. -/
theorem stuck_turn {s : Smf} (hs : Clock s) (hstuck : s.Stuck) {n : Int} (hn : 0 < n)
    (hint : n < 2 ^ 31) (fuel : Nat) (offset : Int) :
    renderTurn fuel n offset s = pure (n, offset, s.play offset 0) ∧ (s.play offset 0).Stuck := by
  obtain ⟨hevent, hfar⟩ := hstuck
  have hnext := next_lt s
  have hnow := hs.lt
  have hzero : s.ahead = 0 := by
    unfold Smf.ahead
    have hover : u64 (sub64 s.next s.now + 0xffffffff) / 2 ^ 32 = 0 := by
      unfold sub64 u64
      omega
    rw [hover]
    rfl
  have htime : (s.play offset 0).now = s.now := by
    unfold Smf.play Smf.call u64
    dsimp only
    omega
  constructor
  · unfold renderTurn
    rw [if_neg hevent, if_neg (by omega), hzero, if_neg (by omega)]
    dsimp only
    rw [Int.sub_zero, Int.add_zero, s32_of_range (by omega) hint]
  · refine ⟨hevent, ?_⟩
    rw [htime]
    exact hfar

theorem stuck_hangs {s : Smf} (hs : Clock s) (hstuck : s.Stuck) {n : Int} (hn : 0 < n)
    (hint : n < 2 ^ 31) (fuel turns : Nat) (offset : Int) (s' : Smf) :
    outcome mem (renderLoop fuel turns n offset s) ≠ .ok s' := by
  induction turns generalizing s with
  | zero => exact fun h => nomatch h
  | succ turns ih =>
      obtain ⟨hturn, hstuck'⟩ := stuck_turn hs hstuck hn hint fuel offset
      unfold renderLoop
      rw [if_pos hn, hturn, outcome_bind, outcome_pure]
      exact ih (play_clock hs offset 0) hstuck'

/-- A render ends if and only if no turn of it begins stuck. -/
theorem render_ends_iff (hp : Placed base len) {n : Int} (hint : n < 2 ^ 31) {s : Smf}
    (hs : Ready base len s) :
    (∃ turns s', outcome mem (render turns n s) = .ok s') ↔ NeverStuck mem n s := by
  constructor
  · rintro ⟨fuel, s', hend⟩ b hb
    -- the loop ends from each turn on
    have hrest : Ready base len b.2.2 ∧ b.1 < 2 ^ 31
        ∧ ∃ turns, outcome mem (renderLoop fuel turns b.1 b.2.1 b.2.2) = .ok s' := by
      induction hb with
      | refl => exact ⟨hs, hint, fuel, hend⟩
      | @tail b c _ hturn ih =>
          obtain ⟨hready, hint', turns, hres⟩ := ih
          obtain ⟨hn, fuel', hc⟩ := hturn
          have hgoes := (@renderTurn_goes mem _ _ hp fuel' _ hn hint' b.2.1 _ hready).outcome
          rw [hc] at hgoes
          refine ⟨hgoes.1, hgoes.2.1, ?_⟩
          cases turns with
          | zero => exact nomatch hres
          | succ turns =>
              unfold renderLoop at hres
              rw [if_pos hn, outcome_bind] at hres
              cases hturn' : outcome mem (renderTurn fuel b.1 b.2.1 b.2.2) with
              | error _ =>
                  rw [hturn'] at hres
                  exact nomatch hres
              | ok c' =>
                  rw [hturn'] at hres
                  obtain rfl := outcome_unique (fun m => renderTurn_longer m _ _ _) hc hturn'
                  exact ⟨turns, hres⟩
    obtain ⟨hready, hint', turns, hres⟩ := hrest
    exact fun hn hstuck => stuck_hangs hready.toClock hstuck hn hint' fuel turns _ _ hres
  · intro hnever
    have hturns := @renderLoop_ends mem _ _ hp (enough len + rank n s + 1)
      (enough len + rank n s + 1) (by omega) _ _ hint _ hs hnever (by omega)
    obtain ⟨s', hres⟩ := hturns
    exact ⟨_, s', hres⟩

-- ================================================================== seeking

theorem seekLoop_goes (hp : Placed base len) {fuel target turns : Nat} {s : Smf}
    (hs : Playing base len s) :
    Goes mem (InFile base len) (seekLoop fuel target turns s)
      (fun s' => Playing base len s' ∧ (fuel ≤ enough len ∨ turns ≤ s.left))
      (Playing base len) := by
  induction turns generalizing s with
  | zero => exact goes_throw ⟨hs, .inr (Nat.zero_le _)⟩
  | succ turns ih =>
      unfold seekLoop
      by_cases hnone : s.tMin = 0xffffffff
      · rw [if_pos hnone]
        exact goes_pure ⟨hs.file, hs.fileLen, hs.tracks, hs.count⟩
      rw [if_neg hnone]
      by_cases hfar : s.next > target
      · rw [if_pos hfar]
        exact goes_pure hs
      rw [if_neg hfar]
      refine ((step_goes hp hs).mono (fun s' hs' => ⟨hs'.1, .inl (le_trans hs'.2 hs.left_le)⟩)
        fun _ hr => hr).bind fun r hr => ?_
      obtain ⟨more, s₁⟩ := r
      obtain ⟨hplaying, -, -, hmore, hless⟩ := hr
      dsimp only at hplaying hmore hless ⊢
      have hfewer := hless (hmore.mpr hnone)
      refine (ih hplaying).mono (fun s' hs' => ⟨hs'.1, ?_⟩) fun _ h => h
      rcases hs'.2 with h | h
      · exact .inl h
      · exact .inr (by omega)

/-- A seek reads the file only, and ends. -/
theorem seek_goes (hp : Placed base len) (hfit : ChunksFit mem base len) (hlen : 14 ≤ len)
    {turns ms : Nat} {s : Smf} (hs : Playing base len s) :
    Goes mem (InFile base len) (seek turns ms s) (Short base len turns) (Ready base len) := by
  unfold seek
  refine (rewind_goes hp hfit hlen hs.file hs.fileLen).bind fun s₁ hs₁ => ?_
  obtain ⟨hplaying, -⟩ := hs₁
  have hloop : Goes mem (InFile base len)
      (seekLoop turns (u64 (ms * synthRate / 1000 * 2 ^ 32)) turns s₁) (Short base len turns)
      (Playing base len) := by
    refine (seekLoop_goes hp hplaying).mono (fun s' hs' => ⟨hs'.1, ?_⟩) fun _ h => h
    rcases hs'.2 with h | h
    · exact h
    · exact le_trans h hplaying.left_le
  refine hloop.bind fun s₂ hs₂ => goes_pure ?_
  refine { file := hs₂.file, fileLen := hs₂.fileLen, tracks := hs₂.tracks, count := hs₂.count
           whole := ?_, lt := u64_lt _ }
  dsimp only
  unfold u64
  generalize ms * synthRate / 1000 = samples
  omega

-- ================================================================= a session

/-- The states of the sequencer since the file was loaded: any renders and
seeks. The number of samples is an `int`. -/
inductive Session (mem : Nat → UInt8) (base len : Nat) : Smf → Prop
  | load {s s' : Smf} {turns : Nat}
      (hres : outcome mem (load turns base len s) = .ok (true, s')) : Session mem base len s'
  | render {s s' : Smf} {turns : Nat} {n : Int} (h : Session mem base len s) (hint : n < 2 ^ 31)
      (hres : outcome mem (render turns n s) = .ok s') : Session mem base len s'
  | seek {s s' : Smf} {turns ms : Nat} (h : Session mem base len s)
      (hres : outcome mem (seek turns ms s) = .ok s') : Session mem base len s'

/-- Every track's range is in the file. -/
def TracksIn (base len : Nat) (s : Smf) : Prop :=
  ∀ t ∈ s.tracks, ∀ a, t.p ≤ a → a < t.fin → InFile base len a

/-- However many turns its loops have had, a call has read the file only, and
the tracks are in it. -/
def Inside (mem : Nat → UInt8) (base len : Nat) (call : Nat → Run Smf) : Prop :=
  ∀ turns, Goes mem (InFile base len) (call turns) (TracksIn base len) (TracksIn base len)

/-- A call comes to its end. -/
def Ends {α : Type} (mem : Nat → UInt8) (call : Nat → Run α) : Prop :=
  ∃ turns a, outcome mem (call turns) = .ok a

/-- Loading the file ends, and nothing but it is ever read; a seek ends. -/
structure Contained (mem : Nat → UInt8) (base len : Nat) : Prop where
  load : ∀ s turns, Goes mem (InFile base len) (load turns base len s) (TracksIn base len)
    (fun r => r.1 = true → TracksIn base len r.2)
  load_ends : ∀ s, Ends mem fun turns => Midi.load turns base len s
  render : ∀ s, Session mem base len s → ∀ n < 2 ^ 31,
    Inside mem base len fun turns => Midi.render turns n s
  seek : ∀ s, Session mem base len s → ∀ ms, Inside mem base len fun turns => Midi.seek turns ms s
  seek_ends : ∀ s, Session mem base len s → ∀ ms, Ends mem fun turns => Midi.seek turns ms s

/-- The file is safe to load, and to play in any way: each render ends too. -/
structure Safe (mem : Nat → UInt8) (base len : Nat) : Prop extends Contained mem base len where
  render_ends : ∀ s, Session mem base len s → ∀ n < 2 ^ 31,
    Ends mem fun turns => Midi.render turns n s

theorem Playing.tracksIn {s : Smf} (h : Playing base len s) : TracksIn base len s :=
  fun t ht _ hlo hhi => (h.tracks t ht).range hlo hhi

/-- With enough turns a call that is cut short only for too few ends. -/
theorem ends_of_short {α : Type} {call : Nat → Run α} {Q : α → Prop}
    (h : ∀ turns, Goes mem (InFile base len) (call turns) (Short base len turns) Q) :
    Ends mem call := by
  have hgoes := (h (enough len + 1)).outcome
  cases hres : outcome mem (call (enough len + 1)) with
  | error s =>
      rw [hres] at hgoes
      have := hgoes.2
      omega
  | ok a => exact ⟨_, a, hres⟩

theorem Session.ready (hp : Placed base len) (hfit : ChunksFit mem base len) {s : Smf}
    (h : Session mem base len s) : 14 ≤ len ∧ Ready base len s := by
  induction h with
  | @load s s' turns hres =>
      have hgoes := (@load_goes mem _ _ hp hfit turns s).outcome
      rw [hres] at hgoes
      obtain ⟨hlen, hplaying, hnow⟩ := hgoes rfl
      exact ⟨hlen, { hplaying with whole := (congrArg (· % 2 ^ 32) hnow).trans (Nat.zero_mod _), lt := by rw [hnow]; decide }⟩
  | @render s s' turns n _ hint hres ih =>
      obtain ⟨hlen, hready⟩ := ih
      have hgoes := (@renderLoop_goes mem _ _ hp turns turns _ 0 hint _ hready).outcome
      unfold Midi.render at hres
      rw [hres] at hgoes
      exact ⟨hlen, hgoes⟩
  | @seek s s' turns ms _ hres ih =>
      obtain ⟨hlen, hready⟩ := ih
      have hgoes := (@seek_goes mem _ _ hp hfit hlen turns ms _ hready.toPlaying).outcome
      rw [hres] at hgoes
      exact ⟨hlen, hgoes⟩

theorem contained (hp : Placed base len) (hfit : ChunksFit mem base len) :
    Contained mem base len where
  load := fun s _ => (load_goes hp hfit s).mono (fun _ h => h.1.tracksIn)
    fun _ hr htrue => (hr htrue).2.1.tracksIn
  load_ends := fun s => ends_of_short fun _ => load_goes hp hfit s
  render := fun _ hs _ hint _ => (renderLoop_goes hp hint (hs.ready hp hfit).2).mono
    (fun _ h => h.tracksIn) fun _ h => h.toPlaying.tracksIn
  seek := by
    intro s hs ms turns
    obtain ⟨hlen, hready⟩ := hs.ready hp hfit
    exact (seek_goes hp hfit hlen hready.toPlaying).mono (fun _ h => h.1.tracksIn)
      fun _ h => h.toPlaying.tracksIn
  seek_ends := by
    intro s hs ms
    obtain ⟨hlen, hready⟩ := hs.ready hp hfit
    exact ends_of_short fun turns => seek_goes hp hfit hlen hready.toPlaying

/-- A file whose chunks fit is loaded and played safely: of all calls only a
render may hang, and does if and only if a turn of it begins stuck. -/
theorem safe_when_chunks_fit (hp : Placed base len) (hfit : ChunksFit mem base len) :
    Contained mem base len
      ∧ ∀ s, Session mem base len s → ∀ n < 2 ^ 31,
        ((Ends mem fun turns => Midi.render turns n s) ↔ NeverStuck mem n s) :=
  ⟨contained hp hfit, fun _ hs _ hint => render_ends_iff hp hint (hs.ready hp hfit).2⟩

-- ================================================================ two files

/-- A file in RAM. -/
def ramBase : Nat := 0x80100000

def inRam (bs : List UInt8) (a : Nat) : UInt8 := bs.getD (a - ramBase) 0

/-- The header of a file with one track. -/
def header : List UInt8 := [0x4d, 0x54, 0x68, 0x64, 0, 0, 0, 6, 0, 0, 0, 1, 0, 0x60]

/-- A file with one track, which ends at once. -/
def quietFile : List UInt8 := header ++ [0x4d, 0x54, 0x72, 0x6b, 0, 0, 0, 4, 0, 0xff, 0x2f, 0]

theorem quietFile_chunks {n pos : Nat} (h : Chunk (inRam quietFile) ramBase 26 n pos) :
    n = 0 ∧ pos = 14 ∨ pos = 26 := by
  have hnum : number (inRam quietFile) (ramBase + 14 + 4) = 4 := by decide
  induction h with
  | first => exact .inl ⟨rfl, rfl⟩
  | next _ _ hend ih =>
      rcases ih with ⟨-, rfl⟩ | rfl
      · right
        rw [hnum]
      · omega

theorem safe_when_chunks_fit_quiet : Contained (inRam quietFile) ramBase 26
    ∧ ∀ s, Session (inRam quietFile) ramBase 26 s → ∀ n < 2 ^ 31,
      ((Ends (inRam quietFile) fun turns => Midi.render turns n s)
        ↔ NeverStuck (inRam quietFile) n s) := by
  have hfit : ChunksFit (inRam quietFile) ramBase 26 := by
    intro n pos h _ hroom
    rcases quietFile_chunks h with ⟨-, rfl⟩ | rfl
    · have hnum : number (inRam quietFile) (ramBase + 14 + 4) = 4 := by decide
      rw [hnum]
      decide
    · omega
  exact safe_when_chunks_fit ⟨by decide, by decide⟩ hfit

/-- A file whose only chunk is not a track, and has a length that is −8 as a
`long`. -/
def loopFile : List UInt8 := header ++ [0x58, 0x58, 0x58, 0x58, 0xff, 0xff, 0xff, 0xf8]

theorem loopFile_scan (turns : Nat) {s : Smf} (hfile : s.file = ramBase) (hlen : s.fileLen = 22)
    (htracks : s.tracks = []) (s' : Smf) :
    outcome (inRam loopFile) (chunkLoop turns 14 s) ≠ .ok s' := by
  induction turns with
  | zero => exact fun h => nomatch h
  | succ turns ih =>
      have hat4 : s.at (s32 (14 + 4)) = ramBase + 18 := by
        unfold Smf.at
        rw [hfile]
        decide
      have hat0 : s.at 14 = ramBase + 14 := by
        unfold Smf.at
        rw [hfile]
        decide
      have hsize : (be32 (ramBase + 18)).eval (inRam loopFile) = 0xfffffff8 := by decide
      have hname : (sameBytes (ramBase + 14) mtrk).eval (inRam loopFile) = false := by decide
      have hsum : ¬s32 (s32 (14 + 8) + s32 ((0xfffffff8 : Nat) : Int)) > 22 := by decide
      have hback : s32 (14 + 8 + ((0xfffffff8 : Nat) : Int)) = 14 := by decide
      have hmore : s32 (14 + 8) ≤ 22 ∧ 0 < maxTracks := by decide
      unfold chunkLoop
      rw [hlen, htracks, hat4, hat0, List.length_nil, if_pos hmore, outcome_bind, outcome_lift, hsize]
      dsimp only
      rw [if_neg hsum, outcome_bind, outcome_lift, hname]
      dsimp only
      rw [hback]
      exact ih

/-- Loading it never ends: each turn of the scan is at the same chunk. -/
theorem not_safe : ∃ mem base len, Placed base len ∧ ¬Safe mem base len := by
  refine ⟨inRam loopFile, ramBase, 22, ⟨by decide, by decide⟩, fun hsafe => ?_⟩
  obtain ⟨turns, r, hres⟩ := hsafe.load_ends { file := 0, fileLen := 0 }
  have hheader : (sameBytes ramBase mthd).eval (inRam loopFile) = true := by decide
  have hsize : (be32 (u32 (ramBase + 4))).eval (inRam loopFile) = 6 := by decide
  have h12 : (byteOf (u32 (ramBase + 12))).eval (inRam loopFile) = 0 := by decide
  have h13 : (byteOf (u32 (ramBase + 13))).eval (inRam loopFile) = 0x60 := by decide
  unfold load at hres
  dsimp only at hres
  rw [if_neg (by decide), outcome_bind, outcome_lift, hheader] at hres
  dsimp only at hres
  rw [if_neg (by decide), outcome_bind, outcome_lift, hsize] at hres
  dsimp only at hres
  rw [if_neg (by decide), outcome_bind, outcome_lift, h12] at hres
  dsimp only at hres
  rw [outcome_bind, outcome_lift, h13] at hres
  dsimp only at hres
  rw [if_neg (by decide), if_neg (by decide), outcome_bind] at hres
  unfold initTracks at hres
  rw [outcome_bind] at hres
  split at hres
  · exact nomatch hres
  · next s₁ hinit =>
    split at hinit
    · exact nomatch hinit
    · next s₂ hscan => exact loopFile_scan turns rfl rfl rfl s₂ hscan

end Ncmips.Midi
