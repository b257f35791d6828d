/-
What each call does to the sound: a read puts words behind the tape, the
pump takes words off the read point into the ring, a pause takes back
what the ring still holds.

`At s r b` reads the 32-bit counters as positions on the tape: `r` words
have been taken from the FIFO and not given back, `b` of them before
the ring was last cleared. It survives every call, whatever its
arguments; all else about the sound is said of `r` and `b`.
-/
import Ncmips.Lib.Circular
import Ncmips.Tjcplay.Player

namespace Ncmips.Tjcplay

open Circular (Holds)

-- ================================================================== puts

namespace Sound

/-- Words into the FIFO one after the other. -/
def puts (s : Sound) (ws : List Nat) : Sound := ws.foldl fifoPut s

@[simp] theorem puts_nil (s : Sound) : s.puts [] = s := rfl

theorem puts_cons (s : Sound) (w : Nat) (ws : List Nat) :
    s.puts (w :: ws) = (s.fifoPut w).puts ws := rfl

theorem puts_append (s : Sound) (ws ws' : List Nat) :
    s.puts (ws ++ ws') = (s.puts ws).puts ws' := List.foldl_append

/-- A put touches the FIFO and its write counter only. -/
theorem puts_frame (s : Sound) (ws : List Nat) :
    s.puts ws = { s with
      fifo := (s.puts ws).fifo, fifoW := (s.puts ws).fifoW, tape := s.tape ++ ws } := by
  induction ws generalizing s with
  | nil => simp
  | cons w ws ih =>
      rw [puts_cons, ih]
      simp [fifoPut]

def withRs (s : Sound) (rs : Resampler) : Sound := { s with rs }

@[simp] theorem withRs_rs (s : Sound) (rs : Resampler) : (s.withRs rs).rs = rs := rfl

@[simp] theorem withRs_withRs (s : Sound) (rs rs' : Resampler) :
    (s.withRs rs).withRs rs' = s.withRs rs' := rfl

theorem withRs_set (s : Sound) (rs rs' : Resampler) :
    { s.withRs rs with rs := rs' } = s.withRs rs' := rfl

@[simp] theorem fifoPut_rs (s : Sound) (w : Nat) : (s.fifoPut w).rs = s.rs := rfl

theorem puts_withRs (s : Sound) (rs : Resampler) (ws : List Nat) :
    (s.withRs rs).puts ws = (s.puts ws).withRs rs := by
  induction ws generalizing s with
  | nil => rfl
  | cons w ws ih => exact ih (s.fifoPut w)

theorem puts_withRs_self (s : Sound) (ws : List Nat) : (s.puts ws).withRs s.rs = s.puts ws := by
  rw [← puts_withRs]
  rfl

end Sound

-- ============================================================= resampling

def Resampler.moveTo (rs : Resampler) (pos : Nat) : Resampler := { rs with pos }

@[simp] theorem Resampler.moveTo_pos (rs : Resampler) (pos : Nat) : (rs.moveTo pos).pos = pos := rfl

@[simp] theorem Resampler.moveTo_step (rs : Resampler) (pos : Nat) :
    (rs.moveTo pos).step = rs.step := rfl

@[simp] theorem Resampler.moveTo_moveTo (rs : Resampler) (pos pos' : Nat) :
    (rs.moveTo pos).moveTo pos' = rs.moveTo pos' := rfl

@[simp] theorem Resampler.moveTo_self (rs : Resampler) : rs.moveTo rs.pos = rs := rfl

/-- Turns of the loop from position `pos` to the end of `n` samples. -/
def turns (step n pos : Nat) : Nat := (n * 2 ^ 16 - pos + step - 1) / step

/-- Outputs the resampler makes of `n` more samples. -/
def Resampler.outputs (rs : Resampler) (rate n : Nat) : Nat :=
  if rate = 48000 then n else turns rs.step n rs.pos

/-- The resampler of a stream of rate `rate`, between two frames. -/
structure Resampler.Ready (rs : Resampler) (rate : Nat) : Prop where
  step_pos : 0 < rs.step
  step_eq : rs.step = rate * 2 ^ 16 / 48000
  rate_lt : rate < 2 ^ 24
  pos_le : rs.pos ≤ 2 ^ 16 + rs.step

theorem Resampler.Ready.step_lt {rs : Resampler} {rate : Nat} (h : rs.Ready rate) :
    rs.step < 2 ^ 25 := by
  have := h.step_eq
  have := h.rate_lt
  omega

theorem turns_zero {step n pos : Nat} (hstep : 0 < step) (h : n * 2 ^ 16 ≤ pos) :
    turns step n pos = 0 := by
  unfold turns
  rw [Nat.sub_eq_zero_of_le h]
  exact Nat.div_eq_of_lt (by omega)

theorem turns_succ {step n pos : Nat} (hstep : 0 < step) (h : pos < n * 2 ^ 16) :
    turns step n pos = turns step n (pos + step) + 1 := by
  unfold turns
  rcases Nat.lt_or_ge (pos + step) (n * 2 ^ 16) with hlt | hge
  · rw [show n * 2 ^ 16 - pos + step - 1 = (n * 2 ^ 16 - (pos + step) + step - 1) + step by omega,
      Nat.add_div_right _ hstep]
  · rw [Nat.sub_eq_zero_of_le hge, Nat.div_eq_of_lt (show 0 + step - 1 < step by omega)]
    exact Nat.div_eq_of_lt_le (by omega) (by omega)

/-- Where the loop ends: at or behind the end, by less than a step. -/
theorem turns_end {step n pos : Nat} (hstep : 0 < step) :
    n * 2 ^ 16 ≤ pos + turns step n pos * step
      ∧ (pos + turns step n pos * step < n * 2 ^ 16 + step ∨ turns step n pos = 0) := by
  rcases Nat.lt_or_ge pos (n * 2 ^ 16) with hlt | hge
  · have hdiv := Nat.div_add_mod (n * 2 ^ 16 - pos + step - 1) step
    have hmod := Nat.mod_lt (n * 2 ^ 16 - pos + step - 1) hstep
    unfold turns
    rw [Nat.mul_comm _ step]
    omega
  · rw [turns_zero hstep hge]
    omega

theorem turns_le {step n pos : Nat} (hstep : 0 < step) : turns step n pos ≤ n * 2 ^ 16 := by
  unfold turns
  rcases Nat.eq_zero_or_pos (n * 2 ^ 16 - pos) with h | h
  · rw [h, Nat.div_eq_of_lt (by omega)]
    omega
  · calc (n * 2 ^ 16 - pos + step - 1) / step
        ≤ n * 2 ^ 16 - pos := by
          apply Nat.div_le_of_le_mul
          obtain ⟨k, hk⟩ : ∃ k, n * 2 ^ 16 - pos = k + 1 := ⟨_, (Nat.succ_pred_eq_of_pos h).symm⟩
          rw [hk, Nat.mul_succ]
          have hk : k ≤ step * k := Nat.le_mul_of_pos_left _ hstep
          omega
      _ ≤ n * 2 ^ 16 := Nat.sub_le _ _

/-- The words of the loop: one for each turn, at positions a step apart. -/
def Resampler.words (rs : Resampler) (x : Nat → Int) (ch n : Nat) : List Nat :=
  (List.range (turns rs.step n rs.pos)).map fun j =>
    Sound.interpolate (rs.moveTo (rs.pos + j * rs.step)) x ch

theorem Resampler.words_succ {rs : Resampler} (x : Nat → Int) (ch : Nat) {n : Nat}
    (hstep : 0 < rs.step) (h : rs.pos < n * 2 ^ 16) :
    rs.words x ch n
      = Sound.interpolate rs x ch :: (rs.moveTo (rs.pos + rs.step)).words x ch n := by
  unfold Resampler.words
  rw [turns_succ hstep h, List.range_succ_eq_map, List.map_cons, List.map_map]
  rw [Nat.zero_mul, Nat.add_zero, moveTo_self]
  refine congrArg _ (List.map_congr_left ?_)
  intro j _
  simp only [Function.comp, moveTo_pos, moveTo_step, moveTo_moveTo, Nat.succ_mul]
  rw [Nat.add_assoc, Nat.add_comm (j * rs.step)]

theorem resample_succ (x : Nat → Int) (ch n fuel : Nat) (s : Sound) :
    Sound.resample x ch n (fuel + 1) s =
      if s.rs.pos / 2 ^ 16 < n then
        Sound.resample x ch n fuel ((s.fifoPut (Sound.interpolate s.rs x ch)).withRs
          (s.rs.moveTo (u32 (s.rs.pos + s.rs.step))))
      else s := rfl

/-- The loop puts its words and stops behind the chunk's end. -/
theorem resample_eq (x : Nat → Int) (ch n fuel : Nat) (s : Sound) (hstep : 0 < s.rs.step)
    (hbig : n * 2 ^ 16 + s.rs.step ≤ 2 ^ 32) (hfuel : turns s.rs.step n s.rs.pos ≤ fuel) :
    Sound.resample x ch n fuel s =
      (s.puts (s.rs.words x ch n)).withRs
        (s.rs.moveTo (s.rs.pos + turns s.rs.step n s.rs.pos * s.rs.step)) := by
  induction fuel generalizing s with
  | zero =>
      have h0 : turns s.rs.step n s.rs.pos = 0 := by omega
      simp only [Sound.resample, Resampler.words, h0, List.range_zero, List.map_nil,
        Sound.puts_nil, Nat.zero_mul, Nat.add_zero, Resampler.moveTo_self]
      rfl
  | succ fuel ih =>
      rw [resample_succ]
      by_cases hlt : s.rs.pos < n * 2 ^ 16
      · have hin : s.rs.pos / 2 ^ 16 < n := by omega
        have hsucc := turns_succ hstep hlt
        have hnow : u32 (s.rs.pos + s.rs.step) = s.rs.pos + s.rs.step :=
          Nat.mod_eq_of_lt (by omega)
        have hrest := ih ((s.fifoPut (Sound.interpolate s.rs x ch)).withRs
          (s.rs.moveTo (s.rs.pos + s.rs.step))) hstep hbig
          (show turns s.rs.step n (s.rs.pos + s.rs.step) ≤ fuel by omega)
        rw [if_pos hin, hnow, hrest]
        rw [Sound.withRs_rs, Sound.puts_withRs, Sound.withRs_withRs, Resampler.moveTo_moveTo,
          Resampler.moveTo_step, Resampler.moveTo_pos, Resampler.words_succ x ch hstep hlt,
          Sound.puts_cons, hsucc, Nat.succ_mul, Nat.add_assoc, Nat.add_comm s.rs.step]
      · have hnot : ¬ s.rs.pos / 2 ^ 16 < n := by omega
        have h0 := turns_zero hstep (Nat.le_of_not_lt hlt)
        rw [if_neg hnot]
        simp only [Resampler.words, h0, List.range_zero, List.map_nil,
          Sound.puts_nil, Nat.zero_mul, Nat.add_zero, Resampler.moveTo_self]
        rfl

/-- Where the next chunk starts, after one of `n` samples. -/
def Resampler.next (rs : Resampler) (rate n : Nat) : Nat :=
  if rate = 48000 then rs.pos else rs.pos + turns rs.step n rs.pos * rs.step - n * 2 ^ 16

theorem Resampler.Ready.next_le {rs : Resampler} {rate : Nat} (h : rs.Ready rate) (n : Nat) :
    rs.next rate n ≤ 2 ^ 16 + rs.step := by
  have hpos := h.pos_le
  obtain ⟨_, hend⟩ := @turns_end _ n rs.pos h.step_pos
  unfold Resampler.next
  split
  · exact hpos
  · rcases hend with hend | h0
    · omega
    · rw [h0]
      omega

/-- The loop over two chunks turns as often as over both at once. -/
theorem turns_add {step pos : Nat} (hstep : 0 < step) (n m : Nat) :
    turns step (n + m) pos
      = turns step n pos + turns step m (pos + turns step n pos * step - n * 2 ^ 16) := by
  obtain ⟨hge, hend⟩ := @turns_end _ n pos hstep
  generalize turns step n pos = t at hge hend ⊢
  unfold turns
  rcases Nat.lt_or_ge ((n + m) * 2 ^ 16) (pos + t * step) with hlt | hle'
  · -- the first part's last output lies behind both
    have hnone : m * 2 ^ 16 - (pos + t * step - n * 2 ^ 16) = 0 := by omega
    have hzero : (0 + step - 1) / step = 0 := Nat.div_eq_of_lt (by omega)
    rw [hnone, hzero, Nat.add_zero]
    have hsucc : (t + 1) * step = t * step + step := Nat.succ_mul _ _
    rcases hend with hend | h0
    · exact Nat.div_eq_of_lt_le (by omega) (by omega)
    · rw [h0, Nat.zero_mul, Nat.add_zero] at hlt
      rw [Nat.sub_eq_zero_of_le hlt.le, hzero, h0]
  · rw [show (n + m) * 2 ^ 16 - pos + step - 1
        = m * 2 ^ 16 - (pos + t * step - n * 2 ^ 16) + step - 1 + t * step by omega,
      Nat.add_mul_div_right _ _ hstep, Nat.add_comm]

/-- A chunk in two parts makes the same number of words. -/
theorem Resampler.Ready.outputs_add {rs rs' : Resampler} {rate : Nat} (h : rs.Ready rate)
    (n m : Nat) (hstep : rs'.step = rs.step) (hpos : rs'.pos = rs.next rate n) :
    rs.outputs rate (n + m) = rs.outputs rate n + rs'.outputs rate m := by
  unfold Resampler.outputs
  by_cases hrate : rate = 48000
  · simp [hrate]
  · simp only [hrate, if_false, hpos, hstep, Resampler.next]
    exact turns_add h.step_pos n m

theorem sub32_of_le {a b : Nat} (hle : b ≤ a) (ha : a < 2 ^ 32) : sub32 a b = a - b := by
  unfold sub32 u32
  omega

/-- Behind the loop, the position is counted from the next chunk's start. -/
theorem Resampler.Ready.back {rs : Resampler} {rate n : Nat} (h : rs.Ready rate) (hn : n ≤ 5120) :
    sub32 (rs.pos + turns rs.step n rs.pos * rs.step) (u32 (n * 2 ^ 16))
      = rs.pos + turns rs.step n rs.pos * rs.step - n * 2 ^ 16 := by
  have hlt := h.step_lt
  have hpos := h.pos_le
  obtain ⟨hge, hend⟩ := @turns_end _ n rs.pos h.step_pos
  have hsmall : u32 (n * 2 ^ 16) = n * 2 ^ 16 := Nat.mod_eq_of_lt (by omega)
  have hbound : rs.pos + turns rs.step n rs.pos * rs.step < 2 ^ 32 := by
    rcases hend with hend | h0
    · omega
    · rw [h0]
      omega
  rw [hsmall, sub32_of_le hge hbound]

/-- One decoded QOA frame. -/
theorem audioPush_eq (s : Sound) (ch : Nat) {rate : Nat} (x : Nat → Int) {n : Nat}
    (hrs : s.rs.Ready rate) (hn : n ≤ 5120) :
    ∃ ws rs', s.audioPush ch rate x n = (s.puts ws).withRs rs'
      ∧ ws.length = s.rs.outputs rate n ∧ rs'.step = s.rs.step ∧ rs'.pos = s.rs.next rate n := by
  have hlt := hrs.step_lt
  unfold Sound.audioPush Resampler.outputs Resampler.next
  by_cases hrate : rate = 48000
  · simp only [hrate, if_true]
    refine ⟨(List.range n).map fun i =>
      fifoWord (x (i * ch)) (if 1 < ch then x (i * ch + 1) else x (i * ch)), s.rs, ?_, by simp, rfl,
      rfl⟩
    rw [Sound.puts_withRs_self, Sound.puts, List.foldl_map]
  · simp only [hrate, if_false]
    have hfuel := @turns_le _ n s.rs.pos hrs.step_pos
    rw [resample_eq x ch n _ s hrs.step_pos (by omega) hfuel]
    refine ⟨s.rs.words x ch n, _, Sound.withRs_set _ _ _, by simp [Resampler.words, turns], ?_, ?_⟩
    · dsimp only
      rw [Sound.withRs_rs, Resampler.moveTo_step]
    · dsimp only
      rw [Sound.withRs_rs, Resampler.moveTo_pos]
      exact hrs.back hn

theorem tjcQoaDecode_samples {data : List UInt8} {size channels rate out : Nat} {mem : Nat → Int}
    {n used : Nat} {q : QoaState}
    (h : tjcQoaDecode data size channels rate out mem = some (n, used, q)) : n ≤ 5120 := by
  unfold tjcQoaDecode at h
  dsimp only at h
  split at h
  · simp at h
  · split at h
    · simp at h
    · next hok =>
      push Not at hok
      obtain ⟨_, _, _, hslices, _⟩ := hok
      simp only [Option.some.injEq, Prod.mk.injEq] at h
      rw [← h.1]
      omega

/-- Samples per channel in the QOA frames of `abuf` from `pos` on, up to
a corrupt one. -/
def sampleCount (h : Header) (abuf : List UInt8) : (fuel : Nat) → (pos : Nat) → Nat
  | 0, _ => 0
  | fuel + 1, pos =>
      if pos < abuf.length then
        match tjcQoaDecode (abuf.drop pos) (abuf.length - pos) h.audioChannels h.audioRate 0
            (fun _ => 0) with
        | none => 0
        | some (n, used, _) => n + sampleCount h abuf fuel (pos + used)
      else 0

theorem Resampler.Ready.outputs_zero {rs : Resampler} {rate : Nat} (h : rs.Ready rate) :
    rs.outputs rate 0 = 0 := by
  unfold Resampler.outputs
  split
  · rfl
  · exact turns_zero h.step_pos (by omega)

/-- A record's audio: as many words as its samples make. -/
theorem pushAudio_eq (h : Header) (abuf : List UInt8) (fuel pos : Nat) (s : Sound)
    (hrs : s.rs.Ready h.audioRate) :
    ∃ ws rs', (pushAudio h abuf fuel pos s).2 = (s.puts ws).withRs rs'
      ∧ ws.length = s.rs.outputs h.audioRate (sampleCount h abuf fuel pos)
      ∧ rs'.Ready h.audioRate := by
  induction fuel generalizing pos s with
  | zero => exact ⟨[], s.rs, rfl, hrs.outputs_zero.symm, hrs⟩
  | succ fuel ih =>
      unfold pushAudio sampleCount
      by_cases hpos : pos < abuf.length
      · rw [if_pos hpos, if_pos hpos]
        cases hdec : tjcQoaDecode (abuf.drop pos) (abuf.length - pos) h.audioChannels h.audioRate 0
            (fun _ => 0) with
        | none => exact ⟨[], s.rs, rfl, hrs.outputs_zero.symm, hrs⟩
        | some res =>
            obtain ⟨n, used, q⟩ := res
            dsimp only
            obtain ⟨ws, rs₁, hpush, hlen, hstep₁, hpos₁⟩ :=
              audioPush_eq s h.audioChannels q.out hrs (tjcQoaDecode_samples hdec)
            have hrs₁ : rs₁.Ready h.audioRate :=
              { step_pos := by rw [hstep₁]; exact hrs.step_pos
                step_eq := by rw [hstep₁]; exact hrs.step_eq
                rate_lt := hrs.rate_lt
                pos_le := by rw [hpos₁, hstep₁]; exact hrs.next_le n }
            obtain ⟨ws', rs₂, hrest, hlen', hrs₂⟩ := ih (pos + used)
              (s.audioPush h.audioChannels h.audioRate q.out n) (by rw [hpush]; exact hrs₁)
            refine ⟨ws ++ ws', rs₂, ?_, ?_, hrs₂⟩
            · rw [hrest, hpush, Sound.puts_withRs, Sound.puts_append, Sound.withRs_withRs]
            · rw [List.length_append, hlen, hlen', hpush, hrs.outputs_add _ _ hstep₁ hpos₁]
              rfl
      · rw [if_neg hpos, if_neg hpos]
        exact ⟨[], s.rs, rfl, hrs.outputs_zero.symm, hrs⟩

-- ============================================================ the counters

namespace Sound

/-- Words in the FIFO that the pump has not taken. -/
def unread (s : Sound) : Nat := sub32 s.fifoW s.fifoR

/-- The counters as positions on the tape. -/
structure At (s : Sound) (r base : Nat) : Prop where
  wrote : s.fifoW = u32 s.tape.length
  holds : Holds s.fifo fifoN s.tape
  reading : s.fifoR = u32 r
  read_le : r ≤ s.tape.length
  based : s.clockBase = u32 base
  base_le : base ≤ r
  written : s.hwWritten = u32 (r - base)
  resting : s.paused = true → base = r

variable {s : Sound} {r base : Nat}

theorem At.unread_le (h : s.At r base) : s.unread ≤ s.tape.length - r := by
  have hle := h.read_le
  have hw := h.wrote
  have hr := h.reading
  unfold unread sub32
  unfold u32 at hw hr ⊢
  omega

theorem At.unread_eq (h : s.At r base) (hroom : s.tape.length < r + 2 ^ 32) :
    s.unread = s.tape.length - r := by
  have hle := h.read_le
  have hw := h.wrote
  have hr := h.reading
  unfold unread sub32
  unfold u32 at hw hr ⊢
  omega

theorem At.hw_le (h : s.At r base) : s.hwWritten ≤ r := by
  have hw := h.written
  unfold u32 at hw
  omega

theorem At.withRs (h : s.At r base) (rs : Resampler) : (s.withRs rs).At r base :=
  { wrote := h.wrote, holds := h.holds, reading := h.reading, read_le := h.read_le
    based := h.based, base_le := h.base_le, written := h.written, resting := h.resting }

theorem At.drain (h : s.At r base) (n : Nat) : (s.drain n).At r base :=
  { wrote := h.wrote, holds := h.holds, reading := h.reading, read_le := h.read_le
    based := h.based, base_le := h.base_le, written := h.written, resting := h.resting }

theorem At.fifoPut (h : s.At r base) (w : Nat) : (s.fifoPut w).At r base where
  wrote := by
    show u32 (s.fifoW + 1) = u32 (s.tape ++ [w]).length
    rw [h.wrote, List.length_append, List.length_singleton]
    unfold u32
    omega
  holds := by
    have hcell : s.fifoW % fifoN = s.tape.length % fifoN := by
      rw [h.wrote]
      unfold u32 fifoN
      omega
    show Holds (Function.update s.fifo (s.fifoW % fifoN) w) fifoN (s.tape ++ [w])
    rw [hcell]
    exact h.holds.put w
  reading := h.reading
  read_le := by
    show r ≤ (s.tape ++ [w]).length
    have hle := h.read_le
    rw [List.length_append]
    omega
  based := h.based
  base_le := h.base_le
  written := h.written
  resting := h.resting

theorem At.puts (h : s.At r base) (ws : List Nat) : (s.puts ws).At r base := by
  induction ws generalizing s with
  | nil => exact h
  | cons w ws ih => exact ih (h.fifoPut w)

@[simp] theorem puts_tape (s : Sound) (ws : List Nat) : (s.puts ws).tape = s.tape ++ ws := by
  rw [puts_frame]

@[simp] theorem puts_hwWritten (s : Sound) (ws : List Nat) :
    (s.puts ws).hwWritten = s.hwWritten := by
  rw [puts_frame]

@[simp] theorem puts_paused (s : Sound) (ws : List Nat) : (s.puts ws).paused = s.paused := by
  rw [puts_frame]

@[simp] theorem puts_ring (s : Sound) (ws : List Nat) : (s.puts ws).ring = s.ring := by
  rw [puts_frame]

@[simp] theorem puts_heard (s : Sound) (ws : List Nat) : (s.puts ws).heard = s.heard := by
  rw [puts_frame]

-- ================================================================ the pump

/-- `k` words off the FIFO into the ring. -/
def take (s : Sound) (vol k : Nat) : Sound :=
  { s with
    fifoR := u32 (s.fifoR + k)
    hwWritten := u32 (s.hwWritten + k)
    ring := s.ring ++ (List.range k).map fun i => mixed vol (s.fifo (u32 (s.fifoR + i) % fifoN)) }

theorem take_take (s : Sound) (vol k l : Nat) : (s.take vol k).take vol l = s.take vol (k + l) := by
  unfold take
  have hadd : ∀ a b c : Nat, u32 (u32 (a + b) + c) = u32 (a + (b + c)) := by
    intro a b c
    unfold u32
    omega
  simp only [hadd, List.append_assoc, List.range_add, List.map_append, List.map_map]
  rfl

theorem take_zero (s : Sound) (vol : Nat) (hr : s.fifoR < 2 ^ 32) (hhw : s.hwWritten < 2 ^ 32) :
    s = s.take vol 0 := by
  have hr0 : u32 (s.fifoR + 0) = s.fifoR := Nat.mod_eq_of_lt hr
  have hhw0 : u32 (s.hwWritten + 0) = s.hwWritten := Nat.mod_eq_of_lt hhw
  unfold take
  rw [hr0, hhw0, List.range_zero, List.map_nil, List.append_nil]

/-- Room taken from the difference of two counters. -/
theorem sub32_add {w r k : Nat} (hk : k ≤ sub32 w r) (hr : r < 2 ^ 32) :
    sub32 w (u32 (r + k)) = sub32 w r - k := by
  unfold sub32 u32 at hk ⊢
  omega

/-- How much one turn of the pump takes. -/
def grab (want avail : Nat) : Nat :=
  let n := if want > 1024 then 1024 else want
  if n > avail then avail else n

theorem grab_le (want avail : Nat) : grab want avail ≤ want ∧ grab want avail ≤ avail := by
  unfold grab
  dsimp only
  split_ifs <;> omega

theorem pumpLoop_turn (vol fuel want : Nat) (s : Sound) (hp : s.paused = false) :
    pumpLoop vol (fuel + 1) want s =
      if want = 0 then s
      else if grab want s.unread = 0 then s
      else pumpLoop vol fuel (want - grab want s.unread) (s.take vol (grab want s.unread)) := by
  have hplay : (!s.paused) = true := by rw [hp]; rfl
  rw [pumpLoop]
  split
  · rfl
  · rfl

/-- The pump while playing: some words, no more than wanted and there. -/
theorem pumpLoop_playing (vol fuel want : Nat) (s : Sound) (hp : s.paused = false)
    (hr : s.fifoR < 2 ^ 32) (hhw : s.hwWritten < 2 ^ 32) :
    ∃ k ≤ want, k ≤ s.unread ∧ pumpLoop vol fuel want s = s.take vol k := by
  induction fuel generalizing want s with
  | zero => exact ⟨0, Nat.zero_le _, Nat.zero_le _, take_zero s vol hr hhw⟩
  | succ fuel ih =>
      rw [pumpLoop_turn vol fuel want s hp]
      split
      · exact ⟨0, Nat.zero_le _, Nat.zero_le _, take_zero s vol hr hhw⟩
      · split
        · exact ⟨0, Nat.zero_le _, Nat.zero_le _, take_zero s vol hr hhw⟩
        · obtain ⟨hwant, hav⟩ := grab_le want s.unread
          generalize grab want s.unread = n at hwant hav ⊢
          have hmod : ∀ a : Nat, u32 a < 2 ^ 32 := fun a => Nat.mod_lt a (by decide)
          have hleft : (s.take vol n).unread = s.unread - n := sub32_add hav hr
          obtain ⟨k, hk, hk', hrest⟩ := ih (want - n) (s.take vol n) hp (hmod _) (hmod _)
          rw [hleft] at hk'
          exact ⟨n + k, by omega, by omega, by rw [hrest, take_take]⟩

/-- The pump while paused: silence. -/
theorem pumpLoop_paused (vol fuel want : Nat) (s : Sound) (hp : s.paused = true) :
    ∃ k ≤ want, pumpLoop vol fuel want s
      = { s with ring := s.ring ++ List.replicate k silence } := by
  induction fuel generalizing want s with
  | zero => exact ⟨0, Nat.zero_le _, by simp [pumpLoop]⟩
  | succ fuel ih =>
      have hrest : ¬ (!s.paused) = true := by rw [hp]; decide
      rw [pumpLoop]
      split
      · exact ⟨0, Nat.zero_le _, by simp⟩
      · dsimp only
        generalize hn : (if want > 1024 then 1024 else want) = n
        have hle : n ≤ want := by
          rw [← hn]
          split <;> omega
        obtain ⟨k, hk, hloop⟩ := ih (want - n)
          { s with ring := s.ring ++ List.replicate n silence } hp
        refine ⟨n + k, by omega, ?_⟩
        rw [hloop, List.append_assoc, List.replicate_append_replicate]

/-- The pump while playing fills the ring up to its target at most. -/
theorem pumpAudio_playing (s : Sound) (hp : s.paused = false) (hr : s.fifoR < 2 ^ 32)
    (hhw : s.hwWritten < 2 ^ 32) :
    ∃ k ≤ ringTarget - s.ring.length, k ≤ s.unread
      ∧ s.pumpAudio = s.take (s.volume * 256 / 100) k := by
  unfold pumpAudio
  dsimp only [ringQueued]
  split
  · exact ⟨0, Nat.zero_le _, Nat.zero_le _, take_zero s _ hr hhw⟩
  · exact pumpLoop_playing _ _ _ s hp hr hhw

theorem pumpAudio_paused (s : Sound) (hp : s.paused = true) :
    ∃ k ≤ ringTarget - s.ring.length,
      s.pumpAudio = { s with ring := s.ring ++ List.replicate k silence } := by
  unfold pumpAudio
  dsimp only [ringQueued]
  split
  · exact ⟨0, Nat.zero_le _, by simp⟩
  · exact pumpLoop_paused _ _ _ s hp

theorem At.take (h : s.At r base) (vol : Nat) {k : Nat} (hk : r + k ≤ s.tape.length)
    (hp : s.paused = false) : (s.take vol k).At (r + k) base where
  wrote := h.wrote
  holds := h.holds
  reading := by
    have hr := h.reading
    show u32 (s.fifoR + k) = u32 (r + k)
    unfold u32 at hr ⊢
    omega
  read_le := hk
  based := h.based
  base_le := by
    have := h.base_le
    omega
  written := by
    have hb := h.base_le
    have hw := h.written
    show u32 (s.hwWritten + k) = u32 (r + k - base)
    unfold u32 at hw ⊢
    omega
  resting := fun hpaused => absurd (hp.symm.trans hpaused) (by decide)

/-- What the pump takes is on the tape, if the FIFO still holds it. -/
theorem At.take_words (h : s.At r base) {k : Nat} (hk : r + k ≤ s.tape.length)
    (hroom : s.tape.length ≤ r + fifoN) :
    (List.range k).map (fun i => s.fifo (u32 (s.fifoR + i) % fifoN))
      = (s.tape.drop r).take k := by
  rw [← h.holds.read hk hroom]
  apply List.map_congr_left
  intro i _
  have hcell : u32 (s.fifoR + i) % fifoN = (r + i) % fifoN := by
    have hr := h.reading
    unfold u32 at hr ⊢
    unfold fifoN
    omega
  rw [hcell]

-- ============================================================== the pause

/-- What a pause takes back: media still in the ring. -/
def back (s : Sound) : Nat := min s.hwWritten s.ring.length

theorem back_eq (s : Sound) :
    (if s.hwWritten > s.ring.length then s.ring.length else s.hwWritten) = s.back := by
  unfold back
  split <;> omega

theorem setPause_on (s : Sound) (hp : s.paused = false) :
    s.setPause true = { s with
      fifoR := sub32 s.fifoR s.back, clockBase := s.mediaClock, paused := true, ring := []
      hwWritten := 0 } := by
  have hne : ¬ true = s.paused := by rw [hp]; decide
  rw [← back_eq, setPause, if_neg hne]
  rfl

theorem setPause_off (s : Sound) (hp : s.paused = true) :
    s.setPause false = { s with paused := false, ring := [], hwWritten := 0 } := by
  have hne : ¬ false = s.paused := by rw [hp]; decide
  rw [setPause, if_neg hne]
  rfl

theorem setPause_same (s : Sound) : s.setPause s.paused = s := by
  rw [setPause, if_pos rfl]

/-- The clock is the position of the oldest word in the ring. -/
theorem At.mediaClock_eq (h : s.At r base) : s.mediaClock = u32 (r - s.back) := by
  have hb := h.based
  have hle := h.base_le
  have hw := h.written
  unfold mediaClock back ringQueued
  dsimp only
  unfold u32 at hb hw ⊢
  split <;> omega

theorem At.pause (h : s.At r base) (hp : s.paused = false) :
    (s.setPause true).At (r - s.back) (r - s.back) := by
  have hback : s.back ≤ r := le_trans (Nat.min_le_left _ _) h.hw_le
  have hle := h.read_le
  have hclock := h.mediaClock_eq
  rw [setPause_on s hp]
  exact {
    wrote := h.wrote
    holds := h.holds
    reading := by
      have hr := h.reading
      have hlt : s.back < 2 ^ 32 := by
        have hw := h.written
        have hmin : s.back ≤ s.hwWritten := Nat.min_le_left _ _
        unfold u32 at hw
        omega
      show sub32 s.fifoR s.back = u32 (r - s.back)
      unfold sub32
      unfold u32 at hr ⊢
      omega
    read_le := by
      show r - s.back ≤ s.tape.length
      omega
    based := hclock
    base_le := le_refl _
    written := by simp
    resting := fun _ => rfl }

theorem At.resume (h : s.At r base) (hp : s.paused = true) : (s.setPause false).At r r := by
  have hrest := h.resting hp
  rw [setPause_off s hp]
  exact {
    wrote := h.wrote
    holds := h.holds
    reading := h.reading
    read_le := h.read_le
    based := by rw [← hrest]; exact h.based
    base_le := le_refl _
    written := by simp
    resting := fun hpaused => absurd hpaused Bool.false_ne_true }

end Sound

-- ============================================================== the player

variable {σ : Type}

/-- FIFO words that the audio of the record at the reader makes. -/
def frameWords (fn : Source σ) (p : Player σ) : Nat :=
  match (readRecord fn p.video.dec p.reader).1 with
  | .ok (some (_, _, abuf)) =>
      p.sound.rs.outputs p.h.audioRate (sampleCount p.h abuf abuf.length 0)
  | _ => 0

theorem frameWords_eq {fn : Source σ} {p : Player σ} {buf abuf : List UInt8} {force : Bool}
    {r : Reader σ} (h : readRecord fn p.video.dec p.reader = (.ok (some (buf, force, abuf)), r)) :
    frameWords fn p
      = p.sound.rs.outputs p.h.audioRate (sampleCount p.h abuf abuf.length 0) := by
  unfold frameWords
  rw [h]

/-- Reading a frame puts its words and leaves the rest of the sound. -/
theorem readFrame_sound (fn : Source σ) (p : Player σ) (hrs : p.sound.rs.Ready p.h.audioRate) :
    ∃ ws rs', (readFrame fn p).2.sound = (p.sound.puts ws).withRs rs'
      ∧ ws.length = frameWords fn p ∧ rs'.Ready p.h.audioRate := by
  unfold readFrame frameWords
  split
  · next e reader hrec =>
    rw [hrec]
    exact ⟨[], p.sound.rs, rfl, rfl, hrs⟩
  · next reader hrec =>
    rw [hrec]
    exact ⟨[], p.sound.rs, rfl, rfl, hrs⟩
  · next buf force abuf reader hrec =>
    rw [hrec]
    obtain ⟨ws, rs', hpush, hlen, hrs'⟩ := pushAudio_eq p.h abuf abuf.length 0 p.sound hrs
    refine ⟨ws, rs', ?_, hlen, hrs'⟩
    rw [← hpush]
    split
    · next hres => rw [hres]
    · next hres => rw [hres]

theorem readFrame_dec (fn : Source σ) (p : Player σ) :
    (readFrame fn p).2.video = p.video := by
  unfold readFrame
  split
  · rfl
  · rfl
  · split <;> rfl

/-- Without audio a record has no audio bytes. -/
theorem readRecord_silent {fn : Source σ} {d : Dec} {r r' : Reader σ} {buf abuf : List UInt8}
    {force : Bool} (hcodec : d.h.audioCodec = 0)
    (h : readRecord fn d r = (.ok (some (buf, force, abuf)), r')) : abuf = [] := by
  unfold readRecord at h
  dsimp only at h
  split at h
  · simp at h
  · split at h
    · simp at h
    · split at h
      · simp at h
      · split at h
        · simp at h
        · unfold readAbuf at h
          rw [if_pos hcodec] at h
          simp only [Prod.mk.injEq, Except.ok.injEq, Option.some.injEq] at h
          exact h.1.2.2.symm

theorem readFrame_silent (fn : Source σ) (p : Player σ) (hcodec : p.h.audioCodec = 0) :
    (readFrame fn p).2.sound = p.sound := by
  unfold readFrame
  split
  · rfl
  · rfl
  · next buf force abuf reader hrec =>
    have hnil := readRecord_silent hcodec hrec
    subst hnil
    rfl

theorem readOrEnd_sound (fn : Source σ) (p : Player σ) :
    (readOrEnd fn p).sound = (readFrame fn p).2.sound := by
  unfold readOrEnd
  split
  · next hres => rw [hres]
  · next hres => rw [hres]

end Ncmips.Tjcplay
