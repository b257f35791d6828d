/-
The resampler and its chunks.

A chunk's samples are counted from its own start, and so is `rs_pos`;
what the resampler keeps between two chunks, the position and the last
sample, makes up for that. So a chunk of `n + m` samples and two of `n`
and `m` leave the same sound (`words_add`, `after_add`), and the
position, which is at most one step behind a chunk of 5120 samples,
has 32 bits to spare.
-/
import Ncmips.Tjcplay.Proofs.Sound

namespace Ncmips.Tjcplay

-- ================================================================ chunks

/-- The stream `x` of `ch` channels from sample `off` on. -/
def shift (x : Nat → Int) (ch off : Nat) : Nat → Int := fun i => x (off * ch + i)

@[simp] theorem shift_shift (x : Nat → Int) (ch n m : Nat) :
    shift (shift x ch n) ch m = shift x ch (n + m) := by
  funext i
  rw [shift, shift, shift, Nat.add_mul, Nat.add_assoc]

@[simp] theorem shift_zero (x : Nat → Int) (ch : Nat) : shift x ch 0 = x := by
  funext i
  rw [shift, Nat.zero_mul, Nat.zero_add]

namespace Sound

/-- The stream `x` in chunks of `ns` samples. -/
def pushes (ch rate : Nat) : (x : Nat → Int) → (ns : List Nat) → Sound → Sound
  | _, [], s => s
  | x, n :: ns, s => pushes ch rate (shift x ch n) ns (s.audioPush ch rate x n)

/-- The loop comes to its end, and no turn of it takes `rs_pos` past 32
bits. -/
def LoopFits (x : Nat → Int) (ch n : Nat) : (fuel : Nat) → Sound → Prop
  | 0, s => n ≤ s.rs.pos / 2 ^ 16
  | fuel + 1, s =>
      s.rs.pos / 2 ^ 16 < n →
        s.rs.pos + s.rs.step < 2 ^ 32
          ∧ LoopFits x ch n fuel ((s.fifoPut (interpolate s.rs x ch)).withRs
              (s.rs.moveTo (u32 (s.rs.pos + s.rs.step))))

/-- One chunk: the loop, and the chunk's length taken off again. -/
def PushFits (s : Sound) (ch : Nat) (x : Nat → Int) (n : Nat) : Prop :=
  LoopFits x ch n (n * 2 ^ 16) s
    ∧ n * 2 ^ 16 < 2 ^ 32
    ∧ n * 2 ^ 16 ≤ (resample x ch n (n * 2 ^ 16) s).rs.pos

/-- `rs_pos` does not wrap on any of the chunks. -/
def PushesFit (ch rate : Nat) : (x : Nat → Int) → (ns : List Nat) → Sound → Prop
  | _, [], _ => True
  | x, n :: ns, s =>
      s.PushFits ch x n ∧ PushesFit ch rate (shift x ch n) ns (s.audioPush ch rate x n)

end Sound

/-- The resampler as the player sets it up. -/
def Resampler.setUp (rate : Nat) : Resampler := { step := u32 (rate * 2 ^ 16 / 48000) }

theorem Resampler.ready_setUp {rate : Nat} (hlow : 1 ≤ rate) (hhigh : rate ≤ 16777215) :
    (setUp rate).Ready rate := by
  have hstep : (setUp rate).step = rate * 2 ^ 16 / 48000 := Nat.mod_eq_of_lt (by omega)
  exact {
    step_pos := by rw [hstep]; omega
    step_eq := hstep
    rate_lt := by omega
    pos_le := Nat.le_add_right _ _ }

-- ======================================================= between two chunks

attribute [ext] Resampler

namespace Resampler

variable {rs : Resampler} (x : Nat → Int) (ch : Nat)

/-- The resampler behind `n` more samples. -/
def after (rs : Resampler) (x : Nat → Int) (ch n : Nat) : Resampler :=
  { rs with
    pos := rs.pos + turns rs.step n rs.pos * rs.step - n * 2 ^ 16
    prevL := if n = 0 then rs.prevL else x ((n - 1) * ch)
    prevR :=
      if n = 0 then rs.prevR
      else if 1 < ch then x ((n - 1) * ch + 1) else x ((n - 1) * ch) }

-- read off the constructor: by `rfl` the kernel compares the positions first
theorem mk_step (step pos : Nat) (l r : Int) : (Resampler.mk step pos l r).step = step := rfl

theorem mk_pos (step pos : Nat) (l r : Int) : (Resampler.mk step pos l r).pos = pos := rfl

theorem mk_prevL (step pos : Nat) (l r : Int) : (Resampler.mk step pos l r).prevL = l := rfl

theorem mk_prevR (step pos : Nat) (l r : Int) : (Resampler.mk step pos l r).prevR = r := rfl

theorem moveTo_prevL (rs : Resampler) (pos : Nat) : (rs.moveTo pos).prevL = rs.prevL :=
  mk_prevL ..

theorem moveTo_prevR (rs : Resampler) (pos : Nat) : (rs.moveTo pos).prevR = rs.prevR :=
  mk_prevR ..

@[simp] theorem after_step (n : Nat) : (rs.after x ch n).step = rs.step := mk_step ..

theorem after_pos (n : Nat) :
    (rs.after x ch n).pos = rs.pos + turns rs.step n rs.pos * rs.step - n * 2 ^ 16 := mk_pos ..

theorem after_prevL (n : Nat) :
    (rs.after x ch n).prevL = if n = 0 then rs.prevL else x ((n - 1) * ch) := mk_prevL ..

theorem after_prevR (n : Nat) :
    (rs.after x ch n).prevR
      = if n = 0 then rs.prevR
        else if 1 < ch then x ((n - 1) * ch + 1) else x ((n - 1) * ch) := mk_prevR ..

theorem Ready.after {rate : Nat} (h : rs.Ready rate) (n : Nat) :
    (rs.after x ch n).Ready rate where
  step_pos := by rw [after_step]; exact h.step_pos
  step_eq := by rw [after_step]; exact h.step_eq
  rate_lt := h.rate_lt
  pos_le := by
    have hpos := h.pos_le
    obtain ⟨_, hend⟩ := @turns_end _ n rs.pos h.step_pos
    rw [after_pos, after_step]
    rcases hend with hend | h0
    · omega
    · rw [h0]
      omega

/-- Where a chunk starts does not matter to an output: the sample
before it is the one that was kept. -/
theorem interpolate_after (n p : Nat) :
    Sound.interpolate ((rs.after x ch n).moveTo p) (shift x ch n) ch
      = Sound.interpolate (rs.moveTo (p + n * 2 ^ 16)) x ch := by
  have hint : (p + n * 2 ^ 16) / 2 ^ 16 = n + p / 2 ^ 16 := by omega
  have hfrac : (p + n * 2 ^ 16) % 2 ^ 16 = p % 2 ^ 16 := by omega
  have hmul : ∀ i, n * ch + i * ch = (n + i) * ch := fun i => (Nat.add_mul ..).symm
  simp only [Sound.interpolate, moveTo_pos, moveTo_prevL, moveTo_prevR, after_prevL, after_prevR,
    hint, hfrac, shift]
  generalize p / 2 ^ 16 = i
  rcases Nat.eq_zero_or_pos i with h0 | hpos
  · subst h0
    rcases Nat.eq_zero_or_pos n with hn | hn
    · subst hn
      simp only [Nat.zero_mul, Nat.zero_add, Nat.add_zero, ne_eq, not_true_eq_false, if_false,
        if_true]
    · have hne : n ≠ 0 := by omega
      simp only [Nat.add_zero, ne_eq, not_true_eq_false, if_false, Nat.zero_mul, hne,
        not_false_eq_true, if_true, ← Nat.add_assoc]
  · have hne : i ≠ 0 := by omega
    have hne' : n + i ≠ 0 := by omega
    have hpred : n + i - 1 = n + (i - 1) := by omega
    simp only [ne_eq, hne, hne', not_false_eq_true, if_true, hpred, ← Nat.add_assoc, hmul]

theorem words_zero (hstep : 0 < rs.step) : rs.words x ch 0 = [] := by
  rw [words, turns_zero hstep (by omega), List.range_zero, List.map_nil]

theorem after_zero (hstep : 0 < rs.step) : rs.after x ch 0 = rs := by
  simp only [after, if_true, turns_zero hstep (show 0 * 2 ^ 16 ≤ rs.pos by omega), Nat.zero_mul,
    Nat.add_zero, Nat.sub_zero]

/-- Two chunks are worth their samples in one: the words, … -/
theorem words_add (hstep : 0 < rs.step) (n m : Nat) :
    rs.words x ch (n + m) = rs.words x ch n ++ (rs.after x ch n).words (shift x ch n) ch m := by
  obtain ⟨hge, _⟩ := @turns_end _ n rs.pos hstep
  unfold words
  rw [turns_add hstep, List.range_add, List.map_append, List.map_map, after_step, after_pos]
  refine congrArg _ ?_
  refine List.map_congr_left fun j _ => ?_
  rw [interpolate_after, Function.comp]
  congr 2
  rw [Nat.add_mul]
  omega

/-- … and what is kept. -/
theorem after_add (hstep : 0 < rs.step) (n m : Nat) :
    rs.after x ch (n + m) = (rs.after x ch n).after (shift x ch n) ch m := by
  obtain ⟨hge, _⟩ := @turns_end _ n rs.pos hstep
  have hlast : m ≠ 0 → (n + m - 1) * ch = n * ch + (m - 1) * ch := by
    intro hm
    rw [← Nat.add_mul]
    congr 1
    omega
  apply Resampler.ext
  · rw [after_step, after_step, after_step]
  · rw [after_pos, after_pos, after_step, after_pos, turns_add hstep, Nat.add_mul]
    omega
  · rcases Nat.eq_zero_or_pos m with hm | hm
    · subst hm
      rw [after_prevL, after_prevL, if_pos rfl, Nat.add_zero, after_prevL]
    · have hm0 : m ≠ 0 := by omega
      have hnm : n + m ≠ 0 := by omega
      simp only [after_prevL, hm0, hnm, if_false, hlast hm0, shift]
  · rcases Nat.eq_zero_or_pos m with hm | hm
    · subst hm
      rw [after_prevR, after_prevR, if_pos rfl, Nat.add_zero, after_prevR]
    · have hm0 : m ≠ 0 := by omega
      have hnm : n + m ≠ 0 := by omega
      simp only [after_prevR, hm0, hnm, if_false, hlast hm0, shift, ← Nat.add_assoc]

end Resampler

-- ============================================================== one chunk

/-- A chunk puts its words and keeps its last sample. -/
theorem audioPush_after (s : Sound) (ch : Nat) {rate : Nat} (x : Nat → Int) {n : Nat}
    (hrs : s.rs.Ready rate) (hrate : rate ≠ 48000) (hpos : 1 ≤ n) (hn : n ≤ 5120) :
    s.audioPush ch rate x n = (s.puts (s.rs.words x ch n)).withRs (s.rs.after x ch n) := by
  have hlt := hrs.step_lt
  have hbig : n * 2 ^ 16 + s.rs.step ≤ 2 ^ 32 := by omega
  have hfuel := @turns_le _ n s.rs.pos hrs.step_pos
  have hn0 : n ≠ 0 := by omega
  unfold Sound.audioPush
  rw [if_neg hrate, resample_eq x ch n _ s hrs.step_pos hbig hfuel]
  refine Eq.trans (Sound.withRs_withRs _ _ _) ?_
  refine congrArg (Sound.withRs (s.puts (s.rs.words x ch n))) (Resampler.ext ?_ ?_ ?_ ?_)
  · rw [Resampler.mk_step, Resampler.after_step, Sound.withRs_rs, Resampler.moveTo_step]
  · rw [Resampler.mk_pos, Resampler.after_pos, Sound.withRs_rs, Resampler.moveTo_pos]
    exact hrs.back hn
  · rw [Resampler.mk_prevL, Resampler.after_prevL, if_neg hn0]
  · rw [Resampler.mk_prevR, Resampler.after_prevR, if_neg hn0]

/-- The loop over a chunk, position by position. -/
theorem loopFits (x : Nat → Int) (ch n fuel : Nat) (s : Sound) (hstep : 0 < s.rs.step)
    (hbig : n * 2 ^ 16 + s.rs.step ≤ 2 ^ 32) (hfuel : turns s.rs.step n s.rs.pos ≤ fuel) :
    Sound.LoopFits x ch n fuel s := by
  induction fuel generalizing s with
  | zero =>
      obtain ⟨hge, _⟩ := @turns_end _ n s.rs.pos hstep
      rw [show turns s.rs.step n s.rs.pos = 0 by omega] at hge
      show n ≤ s.rs.pos / 2 ^ 16
      omega
  | succ fuel ih =>
      intro hin
      have hlt : s.rs.pos < n * 2 ^ 16 := by omega
      have hsucc := turns_succ hstep hlt
      have hnow : u32 (s.rs.pos + s.rs.step) = s.rs.pos + s.rs.step := Nat.mod_eq_of_lt (by omega)
      refine ⟨by omega, ?_⟩
      rw [hnow]
      exact ih _ hstep hbig (show turns s.rs.step n (s.rs.pos + s.rs.step) ≤ fuel by omega)

theorem pushFits (s : Sound) (ch : Nat) {rate : Nat} (x : Nat → Int) {n : Nat}
    (hrs : s.rs.Ready rate) (hn : n ≤ 5120) : s.PushFits ch x n := by
  have hlt := hrs.step_lt
  have hbig : n * 2 ^ 16 + s.rs.step ≤ 2 ^ 32 := by omega
  have hfuel := @turns_le _ n s.rs.pos hrs.step_pos
  refine ⟨loopFits x ch n _ s hrs.step_pos hbig hfuel, by omega, ?_⟩
  rw [resample_eq x ch n _ s hrs.step_pos hbig hfuel]
  exact (@turns_end _ n s.rs.pos hrs.step_pos).1

-- ============================================================= all of them

variable {s : Sound} {ch rate : Nat}

/-- However it is cut, the stream puts the words of its samples. -/
theorem pushes_eq (hrate : rate ≠ 48000) (x : Nat → Int) (ns : List Nat)
    (hns : ∀ n ∈ ns, 1 ≤ n ∧ n ≤ 5120) (hrs : s.rs.Ready rate) :
    s.pushes ch rate x ns = (s.puts (s.rs.words x ch ns.sum)).withRs (s.rs.after x ch ns.sum)
      ∧ s.PushesFit ch rate x ns := by
  induction ns generalizing x s with
  | nil =>
      refine ⟨?_, trivial⟩
      rw [List.sum_nil, Resampler.words_zero x ch hrs.step_pos,
        Resampler.after_zero x ch hrs.step_pos]
      rfl
  | cons n ns ih =>
      obtain ⟨hpos, hn⟩ := hns n List.mem_cons_self
      have hpush := audioPush_after s ch x hrs hrate hpos hn
      have hrs' : (s.audioPush ch rate x n).rs = s.rs.after x ch n := by rw [hpush]; rfl
      obtain ⟨hrest, hfit⟩ := ih (shift x ch n) (fun m hm => hns m (List.mem_cons_of_mem _ hm))
        (s := s.audioPush ch rate x n) (by rw [hrs']; exact hrs.after x ch n)
      refine ⟨?_, pushFits s ch x hrs hn, hfit⟩
      show Sound.pushes ch rate (shift x ch n) ns (s.audioPush ch rate x n) = _
      rw [hrest, hrs', hpush, List.sum_cons, Resampler.words_add x ch hrs.step_pos,
        Resampler.after_add x ch hrs.step_pos, Sound.puts_append, Sound.puts_withRs,
        Sound.withRs_withRs]

/-- The sound of a stream does not depend on how it was cut: the same
words in the same order, and everything else the same; and `rs_pos`
never wraps on the way. -/
theorem audioPush_partition (hlow : 1 ≤ rate) (hhigh : rate ≤ 16777215) (hrate : rate ≠ 48000)
    (ch : Nat) (x : Nat → Int) (hs : s.rs = .setUp rate) {ns ms : List Nat}
    (hns : ∀ n ∈ ns, 1 ≤ n ∧ n ≤ 5120) (hms : ∀ n ∈ ms, 1 ≤ n ∧ n ≤ 5120)
    (hsum : ns.sum = ms.sum) :
    s.pushes ch rate x ns = s.pushes ch rate x ms ∧ s.PushesFit ch rate x ns := by
  have hready : s.rs.Ready rate := by
    rw [hs]
    exact Resampler.ready_setUp hlow hhigh
  obtain ⟨heq, hfit⟩ := @pushes_eq s ch rate hrate x ns hns hready
  obtain ⟨heq', _⟩ := @pushes_eq s ch rate hrate x ms hms hready
  refine ⟨?_, hfit⟩
  rw [heq, heq', hsum]

/-- Three samples at 44.1 kHz, cut behind the first or behind the
second. -/
theorem audioPush_partition_three :
    let s : Sound := { rs := .setUp 44100 }
    let x : Nat → Int := fun i => if i = 0 then 100 else if i = 1 then -32768 else 32767
    s.pushes 1 44100 x [1, 2] = s.pushes 1 44100 x [2, 1]
      ∧ s.PushesFit 1 44100 x [1, 2] := by
  intro s x
  exact audioPush_partition (by decide) (by decide) (by decide) 1 x rfl (by decide) (by decide)
    (by decide)

end Ncmips.Tjcplay
