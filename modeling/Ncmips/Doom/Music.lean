/-
Doom's music player, `dg_music.c`: the MUS score and the clock that
advances it with the samples rendered.

A score is addresses in memory. What the player does to the OPL and its
voices is the list of calls it makes, and every byte of the score that it
reads is noted by its address.
-/
import Mathlib.Data.List.Range
import Mathlib.Logic.Function.Basic
import Ncmips.Lib.Words

namespace Ncmips.Doom

open Words

-- =================================================================== state

structure Mchan where
  program : Nat := 0
  volume : Nat := 100
  expression : Nat := 127
  pan : Nat := 64
  bend : Nat := 128
  lastVel : Nat := 127

inductive Call
  | noteOff (chan note : Nat)
  | noteOn (chan note vel : Nat)
  | updateChan (chan what : Nat)
  | allNotesOff (chan : Nat)
  | silence
  /-- `music_tick` is called. -/
  | tick
  /-- `opl_render`: `n` samples, at an offset into the caller's buffers. -/
  | render (offset n : Nat)

structure Music where
  /-- There is a GENMIDI lump. -/
  genmidi : Bool := false
  playing : Bool := false
  paused : Bool := false
  looping : Bool := false
  delayTicks : Int := 0
  tickAcc : Int := 0
  score : Nat := 0
  scoreEnd : Nat := 0
  musPos : Nat := 0
  chans : Nat → Mchan := fun _ => {}
  reads : List Nat := []
  calls : List Call := []

def Music.call (s : Music) (c : Call) : Music := { s with calls := s.calls ++ [c] }

def Music.setChan (s : Music) (chan : Nat) (c : Mchan) : Music :=
  { s with chans := Function.update s.chans chan c }

-- =================================================================== score

variable (mem : Nat → UInt8)

def nextByte (s : Music) : Nat × Music :=
  if s.musPos < s.scoreEnd then
    ((mem s.musPos).toNat, { s with musPos := s.musPos + 1, reads := s.reads ++ [s.musPos] })
  else (0, s)

/-- The `switch` over an event's type; `false` is the score's end. -/
def event (ev : Nat) (s : Music) : Bool × Music :=
  let chan := ev % 16
  match ev / 16 % 8 with
  | 0 =>
      let (b, s) := nextByte mem s
      (true, s.call (.noteOff chan (b % 128)))
  | 1 =>
      let (b, s) := nextByte mem s
      let s :=
        if b ≥ 0x80 then
          let (v, s) := nextByte mem s
          s.setChan chan { s.chans chan with lastVel := v % 128 }
        else s
      (true, s.call (.noteOn chan (b % 128) (s.chans chan).lastVel))
  | 2 =>
      let (b, s) := nextByte mem s
      (true, (s.setChan chan { s.chans chan with bend := b }).call (.updateChan chan 2))
  | 3 =>
      let (b, s) := nextByte mem s
      if b = 10 ∨ b = 11 then (true, s.call (.allNotesOff chan))
      else if b = 14 then
        (true, s.setChan chan
          { s.chans chan with volume := 100, expression := 127, pan := 64, bend := 128 })
      else (true, s)
  | 4 =>
      let (b, s) := nextByte mem s
      let (v, s) := nextByte mem s
      let val := v % 128
      if b = 0 then (true, s.setChan chan { s.chans chan with program := val })
      else if b = 3 then
        (true, (s.setChan chan { s.chans chan with volume := val }).call (.updateChan chan 0))
      else if b = 4 then
        (true, (s.setChan chan { s.chans chan with pan := val }).call (.updateChan chan 1))
      else if b = 5 then
        (true, (s.setChan chan { s.chans chan with expression := val }).call (.updateChan chan 0))
      else (true, s)
  | 6 => (false, s)
  | _ => (true, s)

-- What an event leaves alone, and how far it goes: the loops end by it.

/-- Forward in the score, over bytes that were read on the way; the clock is
left alone. -/
structure Onward (s s' : Music) : Prop where
  genmidi : s'.genmidi = s.genmidi
  playing : s'.playing = s.playing
  paused : s'.paused = s.paused
  looping : s'.looping = s.looping
  tickAcc : s'.tickAcc = s.tickAcc
  score : s'.score = s.score
  fin : s'.scoreEnd = s.scoreEnd
  ahead : s.musPos ≤ s'.musPos
  reads : s'.reads = s.reads ++ List.range' s.musPos (s'.musPos - s.musPos)
  calls : ∃ cs, s'.calls = s.calls ++ cs ∧ ∀ c ∈ cs, c ≠ .tick ∧ ∀ offset n, c ≠ .render offset n

theorem Onward.refl (s : Music) : Onward s s where
  genmidi := rfl
  playing := rfl
  paused := rfl
  looping := rfl
  tickAcc := rfl
  score := rfl
  fin := rfl
  ahead := Nat.le_refl _
  reads := by rw [Nat.sub_self]; exact (List.append_nil _).symm
  calls := ⟨[], (List.append_nil _).symm, fun _ h => nomatch h⟩

theorem Onward.trans {s s' s'' : Music} (h : Onward s s') (h' : Onward s' s'') :
    Onward s s'' where
  genmidi := h'.genmidi.trans h.genmidi
  playing := h'.playing.trans h.playing
  paused := h'.paused.trans h.paused
  looping := h'.looping.trans h.looping
  tickAcc := h'.tickAcc.trans h.tickAcc
  score := h'.score.trans h.score
  fin := h'.fin.trans h.fin
  ahead := Nat.le_trans h.ahead h'.ahead
  reads := by
    have hlo := h.ahead
    have hhi := h'.ahead
    have hcount : s''.musPos - s.musPos = (s'.musPos - s.musPos) + (s''.musPos - s'.musPos) := by
      omega
    have hstart : s'.musPos = s.musPos + (s'.musPos - s.musPos) := by omega
    rw [h'.reads, h.reads, hcount, ← List.range'_append_1, List.append_assoc, ← hstart]
  calls := by
    obtain ⟨cs, hcs, hq⟩ := h.calls
    obtain ⟨ds, hds, hq'⟩ := h'.calls
    refine ⟨cs ++ ds, by rw [hds, hcs, List.append_assoc], fun c hc => ?_⟩
    rcases List.mem_append.mp hc with hc | hc
    · exact hq c hc
    · exact hq' c hc

variable {mem}

theorem onward_setChan (s : Music) (chan : Nat) (c : Mchan) : Onward s (s.setChan chan c) :=
  { Onward.refl s with }

theorem onward_call (s : Music) {c : Call} (hc : c ≠ .tick ∧ ∀ offset n, c ≠ .render offset n) :
    Onward s (s.call c) :=
  { Onward.refl s with
    calls := ⟨[c], rfl, fun d hd => by rw [List.mem_singleton.mp hd]; exact hc⟩ }

theorem nextByte_onward (s : Music) : Onward s (nextByte mem s).2 := by
  unfold nextByte
  split
  · refine { Onward.refl s with ahead := Nat.le_succ _, reads := ?_ }
    show s.reads ++ [s.musPos] = s.reads ++ List.range' s.musPos (s.musPos + 1 - s.musPos)
    rw [Nat.add_sub_cancel_left]
    rfl
  · exact .refl s

/-- The byte is gone, if there was one. -/
theorem nextByte_ahead {s : Music} (h : s.musPos < s.scoreEnd) :
    (nextByte mem s).2.musPos = s.musPos + 1 := by
  unfold nextByte
  rw [if_pos h]

theorem event_onward (ev : Nat) (s : Music) : Onward s (event mem ev s).2 := by
  have hnote (s : Music) {c : Call} (hc : c ≠ .tick ∧ ∀ offset n, c ≠ .render offset n) :
      Onward s (s.call c) := onward_call s hc
  unfold event
  dsimp only
  split
  · exact (nextByte_onward s).trans (hnote _ ⟨by simp, by simp⟩)
  · refine (@nextByte_onward mem s).trans (.trans ?_ (hnote _ ⟨by simp, by simp⟩))
    split
    · exact (nextByte_onward _).trans (onward_setChan _ _ _)
    · exact .refl _
  · exact (nextByte_onward s).trans ((onward_setChan _ _ _).trans (hnote _ ⟨by simp, by simp⟩))
  · refine (@nextByte_onward mem s).trans ?_
    split
    · exact hnote _ ⟨by simp, by simp⟩
    · split
      · exact onward_setChan _ _ _
      · exact .refl _
  · refine (@nextByte_onward mem s).trans ((@nextByte_onward mem _).trans ?_)
    split
    · exact onward_setChan _ _ _
    · split
      · exact (onward_setChan _ _ _).trans (hnote _ ⟨by simp, by simp⟩)
      · split
        · exact (onward_setChan _ _ _).trans (hnote _ ⟨by simp, by simp⟩)
        · split
          · exact (onward_setChan _ _ _).trans (hnote _ ⟨by simp, by simp⟩)
          · exact .refl _
  · exact .refl s
  · exact .refl s

variable (mem)

/-- The bytes of a delay. -/
def delayLoop (d : Int) (s : Music) : Int × Music :=
  let r := nextByte mem s
  let d := s32 (s32 (d * 2 ^ 7) + (r.1 % 2 ^ 7 : Nat))
  if r.1 ≥ 0x80 ∧ r.2.musPos < r.2.scoreEnd then delayLoop d r.2 else (d, r.2)
termination_by s.scoreEnd - s.musPos
decreasing_by
  rename_i h
  have hon : Onward s r.2 := nextByte_onward s
  have hfin := hon.fin
  have hle := hon.ahead
  have hahead : r.2.musPos = s.musPos + 1 := nextByte_ahead (by omega)
  show r.2.scoreEnd - r.2.musPos < s.scoreEnd - s.musPos
  omega

variable {mem}

theorem delayLoop_onward (d : Int) (s : Music) : Onward s (delayLoop mem d s).2 := by
  fun_induction delayLoop mem d s with
  | case1 d s r d' h ih => exact (nextByte_onward s).trans ih
  | case2 d s r d' h => exact nextByte_onward s

variable (mem)

/-- Runs events until one asks for a delay; `false` at the score's end. -/
def runEvents (s : Music) : Bool × Music :=
  if s.scoreEnd ≤ s.musPos then (false, s)
  else
    let r := nextByte mem s
    let e := event mem r.1 r.2
    if !e.1 then (false, e.2)
    else if r.1 ≥ 0x80 then
      let w := delayLoop mem 0 e.2
      if w.1 > 0 then (true, { w.2 with delayTicks := w.1 }) else runEvents w.2
    else runEvents e.2
termination_by s.scoreEnd - s.musPos
decreasing_by
  · have hahead : r.2.musPos = s.musPos + 1 := nextByte_ahead (by omega)
    have hbyte : Onward s r.2 := nextByte_onward s
    have hrest : Onward r.2 w.2 := (event_onward r.1 r.2).trans (delayLoop_onward 0 e.2)
    have hfin := (hbyte.trans hrest).fin
    have hle := hrest.ahead
    show w.2.scoreEnd - w.2.musPos < s.scoreEnd - s.musPos
    omega
  · have hahead : r.2.musPos = s.musPos + 1 := nextByte_ahead (by omega)
    have hbyte : Onward s r.2 := nextByte_onward s
    have hrest : Onward r.2 e.2 := event_onward r.1 r.2
    have hfin := (hbyte.trans hrest).fin
    have hle := hrest.ahead
    show e.2.scoreEnd - e.2.musPos < s.scoreEnd - s.musPos
    omega

variable {mem}

theorem runEvents_onward (s : Music) : Onward s (runEvents mem s).2 := by
  fun_induction runEvents mem s with
  | case1 s h => exact .refl s
  | case2 s h r e hend => exact (nextByte_onward s).trans (event_onward r.1 r.2)
  | case3 s h r e hend hlast w hd =>
      have hon : Onward s w.2 :=
        (nextByte_onward s).trans ((event_onward r.1 r.2).trans (delayLoop_onward 0 e.2))
      exact { hon with }
  | case4 s h r e hend hlast w hd ih =>
      have hon : Onward s w.2 :=
        (nextByte_onward s).trans ((event_onward r.1 r.2).trans (delayLoop_onward 0 e.2))
      exact hon.trans ih
  | case5 s h r e hend hlast ih =>
      have hon : Onward s e.2 := (nextByte_onward s).trans (event_onward r.1 r.2)
      exact hon.trans ih

variable (mem)

def resetChans (s : Music) : Music := { s with chans := fun _ => {} }

def restart (s : Music) : Music := resetChans { s with musPos := s.score, delayTicks := 0 }

/-- `while (delay_ticks == 0)`: a score without any delay stops at its second
end. -/
def tickLoop (s : Music) (restarts : Nat) : Music :=
  if s.delayTicks = 0 then
    match runEvents mem s with
    | (true, s) => s
    | (false, s) =>
        let s := s.call .silence
        if _h : s.looping ∧ restarts = 0 then tickLoop (restart s) (restarts + 1)
        else { s with playing := false }
  else s
termination_by 1 - restarts

def musicTick (s : Music) : Music :=
  if !s.playing ∨ s.paused then s
  else if s.delayTicks > 0 then
    let s := { s with delayTicks := s.delayTicks - 1 }
    if s.delayTicks > 0 then s else tickLoop mem s 0
  else tickLoop mem s 0

-- ================================================================== lumps

def le16 (p : Nat) : Nat := (mem p).toNat + (mem (u32 (p + 1))).toNat * 2 ^ 8

/-- `"MUS\x1a"` -/
def musMagic : List Nat := [0x4d, 0x55, 0x53, 0x1a]

/-- `mus_register`: whether the lump is taken. -/
def musRegister (d : Nat) (len : Int) : Bool :=
  16 ≤ len ∧ (List.range 4).map (fun i => (mem (u32 (d + i))).toNat) = musMagic

def musPlay (d : Nat) (loop : Bool) (s : Music) : Music :=
  if d = 0 ∨ !s.genmidi then s
  else
    let len := le16 mem (u32 (d + 4))
    let start := le16 mem (u32 (d + 6))
    let s := s.call .silence
    let s := { s with
      score := u32 (d + start), scoreEnd := u32 (u32 (d + start) + len)
      looping := loop, paused := false, tickAcc := 0 }
    { restart s with playing := true }

-- ================================================================= samples

def rate : Int := 48000

def tickHz : Int := 140

/-- `while (done < seg)`: the OPL renders into a buffer of 256. -/
def oplChunks (offset seg done : Nat) (s : Music) : Music :=
  if done < seg then
    let m := min (seg - done) 256
    oplChunks offset seg (done + m) (s.call (.render (offset + done) m))
  else s
termination_by seg - done

/-- `while (n > 0)`; `left` and `right` are at an offset. -/
def renderLoop : (turns : Nat) → (offset : Nat) → (n : Int) → Music → Option Music
  | 0, _, _, _ => none
  | turns + 1, offset, n, s =>
      if n > 0 then
        let seg := (s32 (rate - s.tickAcc + tickHz - 1)).tdiv tickHz
        let seg := if seg > n then n else seg
        let (offset, n, s) :=
          if seg > 0 then (offset + seg.toNat, n - seg, oplChunks offset seg.toNat 0 s)
          else (offset, n, s)
        let s := { s with tickAcc := s32 (s.tickAcc + s32 (seg * tickHz)) }
        let s :=
          if s.tickAcc ≥ rate then
            musicTick mem ({ s with tickAcc := s.tickAcc - rate }.call .tick)
          else s
        renderLoop turns offset n s
      else some s

/-- Adds `n` samples of music to the mixer's buffers. -/
def dgMusicRender (turns : Nat) (n : Int) (s : Music) : Option Music :=
  if !s.genmidi then some s else renderLoop mem turns 0 n s

/-- One call after the other. -/
def renderAll (turns : Nat) : List Nat → Music → Option Music
  | [], s => some s
  | n :: ns, s => (dgMusicRender mem turns n s).bind (renderAll turns ns)

end Ncmips.Doom
