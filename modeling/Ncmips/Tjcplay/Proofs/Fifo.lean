/-
The FIFO is not overrun: when the reads fit, no word is written over
before it is read, nor one that a pause may still take back.

A pause goes back over words that are in the ring, so over no more than
went there since the ring was last cleared, and over no more than the
ring's target, which is below `FIFO_KEEP`. The oldest of these,
`r - behind`, never moves back, whatever is done: this is what the one
room check in the loop rests on. Before the clock starts there is no
check, and for a very low audio rate the loop's is not enough.
-/
import Ncmips.Lib.Steps
import Ncmips.Tjcplay.Proofs.Reader
import Ncmips.Tjcplay.Proofs.Sound

namespace Ncmips.Tjcplay

variable {σ : Type}

namespace Sound

/-- The words behind the read point that `set_pause` may rewind over. -/
def behind (s : Sound) : Nat := min s.hwWritten fifoKeep

/-- No more than `FIFO_N` unread, and these and the ones behind them are
in the FIFO as they were put there. -/
def Intact (s : Sound) : Prop :=
  s.unread ≤ fifoN ∧ s.unread + s.behind ≤ s.tape.length
    ∧ ∀ j < s.unread + s.behind,
        s.fifo (sub32 s.fifoW (j + 1) % fifoN) = s.tape.getD (s.tape.length - 1 - j) 0

/-- The invariant: the oldest word a pause may go back to is still there. -/
structure Kept (s : Sound) (r base : Nat) : Prop extends At s r base where
  room : s.tape.length + s.behind ≤ r + fifoN
  queued : s.ring.length ≤ ringTarget

variable {s : Sound} {r base : Nat}

theorem Kept.unread (h : s.Kept r base) : s.unread = s.tape.length - r := by
  have hroom := h.room
  unfold fifoN at hroom
  exact h.unread_eq (by omega)

theorem Kept.intact (h : s.Kept r base) : s.Intact := by
  have hroom := h.room
  have hle := h.read_le
  have hw := h.wrote
  have hhw : s.behind ≤ r := le_trans (Nat.min_le_left _ _) h.hw_le
  have hun := h.unread
  refine ⟨by omega, by omega, fun j hj => ?_⟩
  rw [hun] at hj
  have hget : s.tape.length - 1 - j < s.tape.length := by omega
  have hcell : sub32 s.fifoW (j + 1) % fifoN = (s.tape.length - 1 - j) % fifoN := by
    unfold fifoN at hroom ⊢
    unfold sub32
    unfold u32 at hw ⊢
    omega
  rw [hcell, List.getD_eq_getElem _ _ hget]
  exact h.holds _ hget (by omega)

/-- Words put where there is room for them. -/
theorem Kept.puts (h : s.Kept r base) (ws : List Nat) (rs : Resampler)
    (hfit : s.tape.length + ws.length + s.behind ≤ r + fifoN) :
    ((s.puts ws).withRs rs).Kept r base where
  toAt := (h.toAt.puts ws).withRs rs
  room := by
    show (s.puts ws).tape.length + min (s.puts ws).hwWritten fifoKeep ≤ r + fifoN
    rw [puts_tape, puts_hwWritten, List.length_append]
    exact hfit
  queued := by
    show (s.puts ws).ring.length ≤ ringTarget
    rw [puts_ring]
    exact h.queued

theorem Kept.drain (h : s.Kept r base) (n : Nat) : (s.drain n).Kept r base where
  toAt := h.toAt.drain n
  room := h.room
  queued := by
    have hq := h.queued
    show (s.ring.drop n).length ≤ ringTarget
    rw [List.length_drop]
    omega

theorem Kept.fifoR_lt (h : s.Kept r base) : s.fifoR < 2 ^ 32 := by
  rw [h.reading]
  exact Nat.mod_lt _ (by decide)

theorem Kept.hwWritten_lt (h : s.Kept r base) : s.hwWritten < 2 ^ 32 := by
  rw [h.written]
  exact Nat.mod_lt _ (by decide)

theorem Kept.pump (h : s.Kept r base) :
    ∃ r', s.pumpAudio.Kept r' base ∧ s.pumpAudio.rs = s.rs := by
  have hroom := h.room
  have hle := h.read_le
  have hq := h.queued
  cases hp : s.paused with
  | false =>
      obtain ⟨k, hk, hun, heq⟩ := pumpAudio_playing s hp h.fifoR_lt h.hwWritten_lt
      rw [h.unread] at hun
      refine ⟨r + k, ?_, by rw [heq]; rfl⟩
      rw [heq]
      exact {
        toAt := h.toAt.take _ (by omega) hp
        room := by
          have hhw : u32 (s.hwWritten + k) ≤ s.hwWritten + k := Nat.mod_le _ _
          show s.tape.length + min (u32 (s.hwWritten + k)) fifoKeep ≤ r + k + fifoN
          unfold behind at hroom
          omega
        queued := by
          show (s.ring ++ _).length ≤ ringTarget
          rw [List.length_append, List.length_map, List.length_range]
          omega }
  | true =>
      obtain ⟨k, hk, heq⟩ := pumpAudio_paused s hp
      refine ⟨r, ?_, by rw [heq]⟩
      rw [heq]
      exact {
        wrote := h.wrote, holds := h.holds, reading := h.reading, read_le := h.read_le
        based := h.based, base_le := h.base_le, written := h.written, resting := h.resting
        room := h.room
        queued := by
          show (s.ring ++ _).length ≤ ringTarget
          rw [List.length_append, List.length_replicate]
          omega }

theorem Kept.setPause (h : s.Kept r base) (on : Bool) :
    ∃ r' base', (s.setPause on).Kept r' base' := by
  have hroom := h.room
  have hq := h.queued
  by_cases hsame : on = s.paused
  · rw [hsame, setPause_same]
    exact ⟨r, base, h⟩
  · cases hp : s.paused with
    | false =>
        have hon : on = true := by cases on <;> simp_all
        have hback : s.back ≤ s.behind := by
          unfold back behind fifoKeep
          unfold ringTarget at hq
          omega
        rw [hon]
        refine ⟨_, _, h.toAt.pause hp, ?_, ?_⟩
        · rw [setPause_on s hp]
          show s.tape.length + min 0 fifoKeep ≤ _
          have hle : s.back ≤ r := le_trans (Nat.min_le_left _ _) h.hw_le
          omega
        · rw [setPause_on s hp]
          exact Nat.zero_le _
    | true =>
        have hoff : on = false := by cases on <;> simp_all
        rw [hoff]
        refine ⟨_, _, h.toAt.resume hp, ?_, ?_⟩
        · rw [setPause_off s hp]
          show s.tape.length + min 0 fifoKeep ≤ _
          omega
        · rw [setPause_off s hp]
          exact Nat.zero_le _

end Sound

-- ============================================================== the player

theorem parseV2_audio {inp : List UInt8} {r h : Header} (hok : parseV2 inp r = some h)
    (hcodec : h.audioCodec ≠ 0) : 1 ≤ h.audioRate ∧ h.audioRate ≤ 0xffffff := by
  unfold parseV2 at hok
  dsimp only at hok
  split at hok
  · simp at hok
  · split at hok
    · split at hok
      · simp at hok
      · next hrate =>
        push Not at hrate
        simp only [Option.some.injEq] at hok
        subst hok
        exact ⟨hrate.2.2.1, hrate.2.2.2⟩
    · next hnone =>
      simp only [Option.some.injEq] at hok
      subst hok
      exact absurd hcodec hnone

theorem parseGeometry_audio {inp : List UInt8} {n need : Nat} {r h : Header}
    (hok : parseGeometry inp n r = .ok need h) :
    h.audioCodec = r.audioCodec ∧ h.audioRate = r.audioRate := by
  unfold parseGeometry at hok
  dsimp only at hok
  split at hok
  · simp at hok
  · split at hok
    · simp at hok
    · simp only [Parsed.ok.injEq] at hok
      obtain ⟨-, rfl⟩ := hok
      exact ⟨rfl, rfl⟩

/-- An accepted header has a rate for its audio. -/
theorem parseHeader_audio {inp : List UInt8} {n need : Nat} {h : Header}
    (hok : tjcParseHeader inp n = .ok need h) (hcodec : h.audioCodec ≠ 0) :
    1 ≤ h.audioRate ∧ h.audioRate ≤ 0xffffff := by
  unfold tjcParseHeader at hok
  split at hok
  · simp at hok
  · split at hok
    · simp at hok
    · dsimp only at hok
      generalize (if (Bits.byteAt inp 3).toNat - 0x30 = 1 then hdrSizeV1 else hdrSize) = size at hok
      split at hok
      · simp at hok
      · split at hok
        · split at hok
          · simp at hok
          · next r hv2 =>
            obtain ⟨hc, hr⟩ := parseGeometry_audio hok
            rw [hc] at hcodec
            rw [hr]
            exact parseV2_audio hv2 hcodec
        · exact absurd (parseGeometry_audio hok).1 hcodec

theorem openFile_header {fn : Source σ} {file : σ} {p : Player σ} (h : openFile fn file = some p) :
    ∃ r hdr inp n need, p = .start r hdr ∧ tjcParseHeader inp n = .ok need hdr := by
  unfold openFile at h
  dsimp only at h
  split at h
  · simp at h
  · split at h
    · next need hdr hparse => exact ⟨_, hdr, _, _, need, (Option.some.inj h).symm, hparse⟩
    · simp at h
    · split at h
      · simp at h
      · split at h
        · next need hdr hparse => exact ⟨_, hdr, _, _, need, (Option.some.inj h).symm, hparse⟩
        · simp at h

/-- Decoding a tile keeps the header. -/
theorem tjcDecodeTile_h (d : Dec) (data : List UInt8) (size tile : Nat) :
    (tjcDecodeTile d data size tile).2.h = d.h := by
  unfold tjcDecodeTile
  split <;> rfl

theorem decodeSlotFrom_h (sl : Slot) (ts : List Nat) (pos : Nat) (v : Video) :
    (decodeSlotFrom sl ts pos v).2.dec.h = v.dec.h := by
  induction ts generalizing pos v with
  | nil => rfl
  | cons t ts ih =>
      unfold decodeSlotFrom
      split
      · exact ih pos v
      · dsimp only
        split
        · rfl
        · split
          · have htile := tjcDecodeTile_h v.dec (sl.buf.drop (pos + 2)) (tjcU16 sl.buf pos) t
            split
            · next hdec =>
              rw [hdec] at htile
              exact htile
            · next hdec =>
              rw [hdec] at htile
              rw [ih]
              split <;> exact htile
          · exact ih _ v

theorem decodeSlots_h (sls : List Slot) (v : Video) :
    (decodeSlots sls v).2.dec.h = v.dec.h := by
  induction sls generalizing v with
  | nil => rfl
  | cons sl sls ih =>
      have hslot := decodeSlotFrom_h sl (List.range v.dec.tiles)
        (if sl.force then 0 else bitmapLen v.dec) v
      unfold decodeSlots
      split
      · next hdec =>
        unfold decodeSlot at hdec
        rw [hdec] at hslot
        exact hslot
      · next hdec =>
        unfold decodeSlot at hdec
        rw [hdec] at hslot
        rw [ih]
        exact hslot

theorem nextGen_dec (v : Video) : (nextGen v).dec = v.dec := by
  unfold nextGen
  dsimp only
  split <;> rfl

/-- The video step leaves the sound and the header. -/
theorem videoStep_frame (p : Player σ) :
    (videoStep p).sound = p.sound ∧ (videoStep p).h = p.h := by
  have hclock : (mediaClock p).2.sound = p.sound ∧ (mediaClock p).2.h = p.h := by
    unfold mediaClock
    split
    · exact ⟨rfl, rfl⟩
    · split <;> exact ⟨rfl, rfl⟩
  unfold videoStep
  dsimp only
  split
  · exact hclock
  · refine ⟨hclock.1, ?_⟩
    have hdue := decodeSlots_h ((mediaClock p).2.queue.take
      (dueCount (mediaClock p).2.h (mediaClock p).1 (mediaClock p).2.queue)).reverse
      (nextGen (mediaClock p).2.video)
    rw [nextGen_dec] at hdue
    exact hdue.trans hclock.2

-- ================================================================= the run

/-- The sound of a player in the play loop, or reading before it. -/
structure Sounds (ph : Phase) (p : Player σ) (r base : Nat) : Prop where
  kept : p.sound.Kept r base
  unstarted : ph = .preRead → r = 0
  silent : p.h.audioCodec = 0 → r = 0
  ready : p.h.audioCodec ≠ 0 → p.sound.rs.Ready p.h.audioRate

theorem Sounds.start (reader : Reader σ) {h : Header} (hrate : h.audioCodec ≠ 0 →
    1 ≤ h.audioRate ∧ h.audioRate ≤ 0xffffff) : Sounds .preRead (Player.start reader h) 0 0 where
  kept :=
    { wrote := rfl, holds := Circular.holds_nil _ _, reading := rfl, read_le := le_refl _
      based := rfl, base_le := le_refl _, written := rfl, resting := fun _ => rfl
      room := Nat.zero_le _, queued := Nat.zero_le _ }
  unstarted _ := rfl
  silent _ := rfl
  ready hcodec := by
    obtain ⟨hlow, hhigh⟩ := hrate hcodec
    have hcodec' : h.audioCodec ≠ 0 := hcodec
    have hstep : (Player.start reader h).sound.rs.step = h.audioRate * 2 ^ 16 / 48000 := by
      show (if h.audioCodec ≠ 0 then u32 (h.audioRate * 2 ^ 16 / 48000) else 0) = _
      rw [if_pos hcodec']
      exact Nat.mod_eq_of_lt (by omega)
    have hr : (Player.start reader h).h.audioRate = h.audioRate := rfl
    refine { step_pos := ?_, step_eq := hstep, rate_lt := ?_, pos_le := ?_ }
    · rw [hstep]
      omega
    · rw [hr]
      omega
    · exact Nat.le_add_right _ _

/-- Reading a frame whose words fit. -/
theorem Sounds.readFrame {fn : Source σ} {ph : Phase} {p : Player σ} {r base : Nat}
    (h : Sounds ph p r base)
    (hfit : p.sound.tape.length + frameWords fn p + p.sound.behind ≤ r + fifoN) :
    Sounds ph (readFrame fn p).2 r base := by
  have hh : (Tjcplay.readFrame fn p).2.h = p.h := by
    unfold Player.h
    rw [readFrame_dec]
  by_cases hcodec : p.h.audioCodec = 0
  · have hsound := readFrame_silent fn p hcodec
    refine { kept := ?_, unstarted := h.unstarted, silent := ?_, ready := ?_ }
    · rw [hsound]
      exact h.kept
    · rw [hh]
      exact h.silent
    · rw [hh]
      exact fun hne => absurd hcodec hne
  · obtain ⟨ws, rs', hsound, hlen, hrs'⟩ := readFrame_sound fn p (h.ready hcodec)
    refine { kept := ?_, unstarted := h.unstarted, silent := ?_, ready := ?_ }
    · rw [hsound]
      exact h.kept.puts ws rs' (by rw [hlen]; exact hfit)
    · rw [hh]
      exact h.silent
    · rw [hh, hsound]
      exact fun _ => hrs'

theorem Sounds.readOrEnd {fn : Source σ} {ph : Phase} {p : Player σ} {r base : Nat}
    (h : Sounds ph p r base)
    (hfit : p.sound.tape.length + frameWords fn p + p.sound.behind ≤ r + fifoN) :
    Sounds ph (readOrEnd fn p) r base := by
  have hread := h.readFrame hfit
  unfold Tjcplay.readOrEnd
  split
  · next hres =>
    rw [hres] at hread
    exact hread
  · next hres =>
    rw [hres] at hread
    exact ⟨hread.kept, hread.unstarted, hread.silent, hread.ready⟩

/-- When a read fits. Before the clock starts: its words fit into the
FIFO beside the unread ones. In the loop: they are no more than the room
the loop checks for, and that sum does not wrap. -/
def FrameFits (fn : Source σ) : Phase × Player σ → Act → Prop
  | (_, p), .preRead => p.sound.unread + frameWords fn p ≤ fifoN
  | (_, p), .readAhead => frameWords fn p ≤ reserve p ∧ p.sound.unread + reserve p < 2 ^ 32
  | _, _ => True

theorem Sounds.preRead {fn : Source σ} {p : Player σ} {r base : Nat}
    (h : Sounds .preRead p r base) (hfit : p.sound.unread + frameWords fn p ≤ fifoN) :
    Sounds .preRead (Tjcplay.readOrEnd fn p) r base := by
  have hr := h.unstarted rfl
  have hhw : p.sound.behind ≤ r := le_trans (Nat.min_le_left _ _) h.kept.hw_le
  rw [h.kept.unread] at hfit
  exact h.readOrEnd (by omega)

theorem Sounds.readAhead {fn : Source σ} {p p' : Player σ} {r base : Nat}
    (h : Sounds .loop p r base) (hwords : frameWords fn p ≤ reserve p)
    (hwrap : p.sound.unread + reserve p < 2 ^ 32) (hread : readAhead fn p = some p') :
    Sounds .loop p' r base := by
  unfold Tjcplay.readAhead at hread
  split at hread
  · next hok =>
    obtain ⟨-, -, hroom⟩ := hok
    simp only [Option.some.injEq] at hread
    subst hread
    have hcheck : p.sound.unread + reserve p ≤ fifoN - fifoKeep := by
      unfold hasRoom at hroom
      simp only [gt_iff_lt, Bool.not_eq_true', decide_eq_false_iff_not, not_lt] at hroom
      have hmod : u32 (p.sound.unread + reserve p) = p.sound.unread + reserve p :=
        Nat.mod_eq_of_lt hwrap
      rw [← hmod]
      exact hroom
    have hbehind : p.sound.behind ≤ fifoKeep := Nat.min_le_right _ _
    rw [h.kept.unread] at hcheck
    apply h.readOrEnd
    unfold fifoN fifoKeep at *
    omega
  · simp at hread

theorem Sounds.begin {p : Player σ} {r base : Nat} (h : Sounds .preRead p r base)
    (noaudioClock cntLast cntFrac : Nat) :
    Sounds .loop { p with
      sound := Sound.audioStart { p.sound with clockBase := 0, hwWritten := 0 }
      noaudioClock, cntLast, cntFrac } r 0 where
  kept := by
    have hr := h.unstarted rfl
    exact {
      wrote := h.kept.wrote, holds := h.kept.holds, reading := h.kept.reading
      read_le := h.kept.read_le, based := rfl, base_le := Nat.zero_le _
      written := by rw [hr]; rfl
      resting := fun _ => hr.symm
      room := by
        have hroom := h.kept.room
        show p.sound.tape.length + min 0 fifoKeep ≤ r + fifoN
        omega
      queued := Nat.zero_le _ }
  unstarted hph := Phase.noConfusion hph
  silent := h.silent
  ready := h.ready

theorem Sounds.setPause {p : Player σ} {r base : Nat} (h : Sounds .loop p r base) (on : Bool) :
    ∃ r' base', Sounds .loop (setPause p on) r' base' := by
  unfold Tjcplay.setPause
  split
  · exact ⟨r, base, h⟩
  · split
    · next hcodec =>
      obtain ⟨r', base', hk⟩ := h.kept.setPause on
      have hrs : (p.sound.setPause on).rs = p.sound.rs := by
        unfold Sound.setPause
        split
        · rfl
        · dsimp only
          split <;> rfl
      refine ⟨r', base', hk, fun hph => Phase.noConfusion hph, fun h0 => absurd h0 hcodec, ?_⟩
      exact fun hne => hrs ▸ h.ready hne
    · next hcodec =>
      push Not at hcodec
      have hr := h.silent hcodec
      have hb : base = 0 := by
        have := h.kept.base_le
        omega
      have hclock : (mediaClock p).2.sound = p.sound ∧ (mediaClock p).2.h = p.h := by
        unfold mediaClock
        split
        · exact ⟨rfl, rfl⟩
        · split <;> exact ⟨rfl, rfl⟩
      dsimp only
      refine ⟨r, base, ?_, fun hph => Phase.noConfusion hph, fun _ => hr, ?_⟩
      · rw [hclock.1]
        have hk := h.kept
        exact {
          wrote := hk.wrote, holds := hk.holds, reading := hk.reading, read_le := hk.read_le
          based := hk.based, base_le := hk.base_le, written := hk.written
          resting := fun _ => hb.trans hr.symm
          room := hk.room, queued := hk.queued }
      · intro hne
        exact absurd (by rw [← hcodec, ← hclock.2]; rfl) hne

/-- One step of `play` whose read, if it is one, fits. -/
theorem Sounds.step {fn : Source σ} {ph ph' : Phase} {p p' : Player σ} {a : Act} {r base : Nat}
    (h : Sounds ph p r base) (hfit : FrameFits fn (ph, p) a)
    (hstep : playStep fn (ph, p) a = some (ph', p')) : ∃ r' base', Sounds ph' p' r' base' := by
  cases ph with
  | preRead =>
      cases a <;> simp only [playStep, reduceCtorEq] at hstep
      case preRead =>
        split at hstep
        · simp only [Option.some.injEq, Prod.mk.injEq] at hstep
          obtain ⟨rfl, rfl⟩ := hstep
          exact ⟨r, base, h.preRead hfit⟩
        · simp at hstep
      case begin =>
        split at hstep
        · simp only [Option.some.injEq, Prod.mk.injEq] at hstep
          obtain ⟨rfl, rfl⟩ := hstep
          exact ⟨r, 0, h.begin _ _ _⟩
        · simp at hstep
  | loop =>
      cases a <;> simp only [playStep, reduceCtorEq, Option.some.injEq, Prod.mk.injEq] at hstep
      case pump =>
        obtain ⟨rfl, rfl⟩ := hstep
        unfold Tjcplay.pumpAudio
        split
        · exact ⟨r, base, h⟩
        · next hcodec =>
          obtain ⟨r', hk, hrs⟩ := h.kept.pump
          refine ⟨r', base, hk, fun hph => Phase.noConfusion hph, fun h0 => absurd h0 hcodec, ?_⟩
          exact fun hne => hrs ▸ h.ready hne
      case readAhead =>
        cases hread : Tjcplay.readAhead fn p with
        | none => simp [hread] at hstep
        | some q =>
            simp only [hread, Option.map_some, Option.some.injEq, Prod.mk.injEq] at hstep
            obtain ⟨rfl, rfl⟩ := hstep
            exact ⟨r, base, h.readAhead hfit.1 hfit.2 hread⟩
      case video =>
        obtain ⟨rfl, rfl⟩ := hstep
        obtain ⟨hs, hh⟩ := videoStep_frame p
        refine ⟨r, base, ?_, h.unstarted, ?_, ?_⟩
        · rw [hs]; exact h.kept
        · rw [hh]; exact h.silent
        · rw [hs, hh]; exact h.ready
      case pause on =>
        obtain ⟨rfl, rfl⟩ := hstep
        exact h.setPause on
      case volume v =>
        obtain ⟨rfl, rfl⟩ := hstep
        have hk := h.kept
        refine ⟨r, base, ?_, h.unstarted, h.silent, h.ready⟩
        exact {
          wrote := hk.wrote, holds := hk.holds, reading := hk.reading, read_le := hk.read_le
          based := hk.based, base_le := hk.base_le, written := hk.written, resting := hk.resting
          room := hk.room, queued := hk.queued }
      case drain n =>
        obtain ⟨rfl, rfl⟩ := hstep
        exact ⟨r, base, h.kept.drain n, h.unstarted, h.silent, h.ready⟩
      case tick c =>
        obtain ⟨rfl, rfl⟩ := hstep
        exact ⟨r, base, h.kept, h.unstarted, h.silent, h.ready⟩

theorem playStep_preRead (fn : Source σ) {p : Player σ} (hdone : p.readDone = false)
    (hroom : p.queue.length < qn / 2) :
    playStep fn (.preRead, p) .preRead = some (.preRead, readOrEnd fn p) := by
  unfold playStep
  exact if_pos ⟨hdone, hroom⟩

/-- In every run of `play` on an accepted file in which each read fits,
the FIFO holds what is unread and what a pause may take back. -/
theorem fifo_not_overrun (fn : Source σ) (file : σ) {p₀ p : Player σ} {ph : Phase}
    (hopen : openFile fn file = some p₀)
    (hrun : Steps.Run (playStep fn) (FrameFits fn) (.preRead, p₀) (ph, p)) : p.sound.Intact := by
  obtain ⟨reader, hdr, inp, n, need, rfl, hparse⟩ := openFile_header hopen
  have hstart := Sounds.start reader (parseHeader_audio hparse)
  obtain ⟨r, base, h⟩ := hrun.keeps (I := fun s => ∃ r base, Sounds s.1 s.2 r base)
    (fun _ _ _ hok hstep ⟨_, _, h⟩ => h.step hok hstep) ⟨0, 0, hstart⟩
  exact h.kept.intact

/-- One pixel, mono, 48 kHz, 24000 frames a second. -/
def briskHeader : List UInt8 :=
  [0x54, 0x4a, 0x43, 0x32, 1, 0, 1, 0, 1, 1, 0, 0, 0, 0, 50, 0, 0, 0,
   0xC0, 0x5D, 0, 0, 1, 0, 0, 0, 1, 1, 0x80, 0xBB, 0, 0, 0, 0]

/-- A QOA frame of the samples 1, 1. -/
def briskAudio : List UInt8 :=
  [1, 0, 0xBB, 0x80, 0, 2, 0, 32, 0, 0, 0, 0, 0, 0, 0, 0, 0, 0, 0, 0, 0, 0, 0, 0,
   0, 0, 0, 0, 0, 0, 0, 0]

/-- A record without a tile, with the two samples of its time. -/
def briskRecord : List UInt8 := [0, 0, 0, 0, 0] ++ [0] ++ [32, 0, 0, 0] ++ briskAudio

def briskHdr : Header :=
  { version := 2, width := 1, height := 1, tileW := 1, tileH := 1, quality := 50, fpsNum := 24000
    fpsDen := 1, audioCodec := 1, audioChannels := 1, audioRate := 48000 }

theorem briskAudio_samples : sampleCount briskHdr briskAudio briskAudio.length 0 = 2 := by
  have hdec : (tjcQoaDecode (briskAudio.drop 0) (briskAudio.length - 0) briskHdr.audioChannels
      briskHdr.audioRate 0 (fun _ => 0)).map (fun r => (r.1, r.2.1)) = some (2, 32) := by decide
  obtain ⟨⟨n, used, q⟩, hq, hval⟩ := Option.map_eq_some_iff.mp hdec
  simp only [Prod.mk.injEq] at hval
  obtain ⟨rfl, rfl⟩ := hval
  have hfirst : sampleCount briskHdr briskAudio 32 0 = 2 + sampleCount briskHdr briskAudio 31 32 := by
    rw [sampleCount, if_pos (by decide), hq]
  have hlen : briskAudio.length = 32 := rfl
  rw [hlen, hfirst, sampleCount, if_neg (by decide)]

/-- Reading it before the clock starts puts two words, which fit. -/
theorem fifo_not_overrun_brisk :
    ∃ p₀ p : Player (List UInt8),
      openFile .memory (briskHeader ++ briskRecord) = some p₀
      ∧ Steps.Run (playStep .memory) (FrameFits .memory) (.preRead, p₀) (.preRead, p)
      ∧ frameWords .memory p₀ = 2 ∧ p.sound.Intact := by
  have hwhole : tjcParseHeader (briskHeader.take 18 ++ briskHeader.drop 18) hdrSize
      = .ok 34 briskHdr := by decide
  obtain ⟨r, hopen, hleft⟩ := @openFile_v2 _ .memory (briskHeader ++ briskRecord) _ _ briskRecord
    _ _ rfl rfl rfl (by decide) hwhole
  have hparts : r.left .memory
      = [0, 0, 0, 0, 0] ++ ([0] ++ ([32, 0, 0, 0] ++ (briskAudio ++ []))) := hleft
  obtain ⟨r', hread, -⟩ := readRecord_audio (d := tjcDecInit briskHdr) hparts rfl rfl rfl rfl
    (by decide) rfl rfl (by decide)
  have hwords : frameWords .memory (Player.start r briskHdr) = 2 := by
    have hsamples : sampleCount (Player.start r briskHdr).h briskAudio briskAudio.length 0 = 2 :=
      briskAudio_samples
    rw [frameWords_eq (p := Player.start r briskHdr) hread, hsamples]
    rfl
  have hfits : FrameFits .memory (.preRead, Player.start r briskHdr) .preRead := by
    show Sound.unread _ + frameWords .memory (Player.start r briskHdr) ≤ fifoN
    rw [hwords]
    show sub32 0 0 + 2 ≤ fifoN
    decide
  have hqueue : (Player.start r briskHdr).queue.length < qn / 2 := show 0 < qn / 2 by decide
  have hrun : Steps.Run (playStep .memory) (FrameFits .memory) (.preRead, Player.start r briskHdr)
      (.preRead, readOrEnd .memory (Player.start r briskHdr)) :=
    .step (.nil _) hfits (playStep_preRead .memory rfl hqueue)
  exact ⟨_, _, hopen, hrun, hwords, fifo_not_overrun .memory _ hopen hrun⟩

-- ==================================================== room in the play loop

/-- Samples per channel that frame `k` is to carry. -/
def prescribed (h : Header) (k : Nat) : Nat :=
  (k + 1) * h.audioRate * h.fpsDen / h.fpsNum - k * h.audioRate * h.fpsDen / h.fpsNum

/-- A read finds the samples the format prescribes. -/
def Prescribed (fn : Source σ) : Phase × Player σ → Act → Prop
  | (_, p), .preRead | (_, p), .readAhead =>
      ∀ buf force abuf r, readRecord fn p.video.dec p.reader = (.ok (some (buf, force, abuf)), r) →
        sampleCount p.h abuf abuf.length 0 = prescribed p.h p.framesRead
  | _, _ => True

/-- Two roundings of one fraction differ by its floor, or one more. -/
theorem floor_step (k a n : Nat) (hn : 0 < n) :
    k * a / n + a / n ≤ (k + 1) * a / n ∧ (k + 1) * a / n ≤ k * a / n + a / n + 1 := by
  have hsucc : (k + 1) * a = k * a + a := Nat.succ_mul k a
  have h₁ := Nat.div_add_mod (k * a) n
  have h₂ := Nat.div_add_mod a n
  have h₃ := Nat.mod_lt (k * a) hn
  have h₄ := Nat.mod_lt a hn
  have hsum : (k * a / n + a / n) * n = n * (k * a / n) + n * (a / n) := by ring
  have hsum2 : (k * a / n + a / n + 2) * n = n * (k * a / n) + n * (a / n) + 2 * n := by ring
  rw [hsucc]
  constructor
  · rw [Nat.le_div_iff_mul_le hn]
    omega
  · have hlt : (k * a + a) / n < k * a / n + a / n + 2 := by
      rw [Nat.div_lt_iff_lt_mul hn]
      omega
    omega

/-- From 48 Hz on, the words of a frame's samples are within three times
its time at 48 kHz and 1024: `x` is its samples, `y` its time. -/
theorem outputs_le {rs : Resampler} {rate : Nat} (h : rs.Ready rate) (hrate : 48 ≤ rate)
    {den num x y : Nat} (hx : x * num ≤ rate * den) (hy : 48000 * den < (y + 1) * num) :
    rs.outputs rate (x + 1) ≤ 3 * y + 1024 := by
  have hnum : 0 < num := Nat.pos_of_ne_zero fun h0 => by simp [h0] at hy
  have hstep := h.step_eq
  have hlow : 65 ≤ rs.step := by omega
  have hhigh : rate * 65536 < (rs.step + 1) * 48000 := by omega
  -- both in units of `num * rate`
  have hxy : x * 48000 < rate * (y + 1) := by
    have hmul : (x * 48000) * num < (rate * (y + 1)) * num := by
      calc (x * 48000) * num = 48000 * (x * num) := by ring
        _ ≤ 48000 * (rate * den) := Nat.mul_le_mul_left _ hx
        _ = rate * (48000 * den) := by ring
        _ < rate * ((y + 1) * num) := Nat.mul_lt_mul_of_pos_left hy (by omega)
        _ = (rate * (y + 1)) * num := by ring
    exact Nat.lt_of_mul_lt_mul_right hmul
  have hx' : x * 65536 < (rs.step + 1) * (y + 1) := by
    have hmul : (x * 65536) * 48000 < ((rs.step + 1) * (y + 1)) * 48000 := by
      calc (x * 65536) * 48000 = 65536 * (x * 48000) := by ring
        _ < 65536 * (rate * (y + 1)) := Nat.mul_lt_mul_of_pos_left hxy (by omega)
        _ = (rate * 65536) * (y + 1) := by ring
        _ ≤ ((rs.step + 1) * 48000) * (y + 1) := Nat.mul_le_mul_right _ hhigh.le
        _ = ((rs.step + 1) * (y + 1)) * 48000 := by ring
    exact Nat.lt_of_mul_lt_mul_right hmul
  have hexp : (rs.step + 1) * (y + 1) = rs.step * y + rs.step + y + 1 := by ring
  have hy' : 65 * y ≤ rs.step * y := Nat.mul_le_mul_right y hlow
  unfold Resampler.outputs
  split
  · next h48 =>
    subst h48
    omega
  · unfold turns
    have hlt : ((x + 1) * 2 ^ 16 - rs.pos + rs.step - 1) / rs.step < 3 * y + 1025 := by
      rw [Nat.div_lt_iff_lt_mul h.step_pos]
      have hgoal : (3 * y + 1025) * rs.step = 3 * (rs.step * y) + 1025 * rs.step := by ring
      omega
    omega

theorem Resampler.outputs_mono (rs : Resampler) (rate : Nat) {n m : Nat} (h : n ≤ m) :
    rs.outputs rate n ≤ rs.outputs rate m := by
  unfold Resampler.outputs
  split
  · exact h
  · unfold turns
    apply Nat.div_le_div_right
    omega

/-- As long as `frame_due` is exact, the loop reserves three times a
frame's time and 1024. -/
theorem reserve_ge {p : Player σ} (hnum : 0 < p.h.fpsNum) (hframes : p.framesRead + 1 < 2 ^ 32)
    (hexact : (p.framesRead + 1) * 48000 * p.h.fpsDen < 2 ^ 64)
    (hper : 48000 * p.h.fpsDen / p.h.fpsNum < 2 ^ 29) :
    3 * (48000 * p.h.fpsDen / p.h.fpsNum) + 1024 ≤ reserve p ∧ reserve p < 2 ^ 31 := by
  have hassoc : ∀ k, k * 48000 * p.h.fpsDen = k * (48000 * p.h.fpsDen) :=
    fun k => Nat.mul_assoc k 48000 _
  obtain ⟨hlow, hhigh⟩ := floor_step p.framesRead (48000 * p.h.fpsDen) p.h.fpsNum hnum
  have hnext : u32 (p.framesRead + 1) = p.framesRead + 1 := Nat.mod_eq_of_lt hframes
  have hdue' : frameDue p.h (p.framesRead + 1)
      = u32 ((p.framesRead + 1) * (48000 * p.h.fpsDen) / p.h.fpsNum) := by
    unfold frameDue
    rw [Nat.mod_eq_of_lt hexact, hassoc]
  have hdue : frameDue p.h p.framesRead
      = u32 (p.framesRead * (48000 * p.h.fpsDen) / p.h.fpsNum) := by
    have hle : p.framesRead * 48000 * p.h.fpsDen ≤ (p.framesRead + 1) * 48000 * p.h.fpsDen :=
      Nat.mul_le_mul_right _ (Nat.mul_le_mul_right _ (Nat.le_succ _))
    unfold frameDue
    rw [Nat.mod_eq_of_lt (lt_of_le_of_lt hle hexact), hassoc]
  unfold reserve
  rw [hnext, hdue', hdue]
  generalize (p.framesRead + 1) * (48000 * p.h.fpsDen) / p.h.fpsNum = b at hlow hhigh ⊢
  generalize p.framesRead * (48000 * p.h.fpsDen) / p.h.fpsNum = a at hlow hhigh ⊢
  generalize 48000 * p.h.fpsDen / p.h.fpsNum = y at hlow hhigh hper ⊢
  have hsub : sub32 (u32 b) (u32 a) = b - a := by
    unfold sub32 u32
    omega
  rw [hsub]
  dsimp only
  omega

/-- A frame that carries what the format prescribes fits when the loop
reads it, for every rate from 48 Hz on, as long as `frame_due` is exact. -/
theorem Prescribed.fits {fn : Source σ} {p : Player σ} {r base : Nat}
    (hp : Prescribed fn (.loop, p) .readAhead) (h : Sounds .loop p r base)
    (hcodec : p.h.audioCodec ≠ 0) (hrate : 48 ≤ p.h.audioRate) (hnum : 0 < p.h.fpsNum)
    (hframes : p.framesRead + 1 < 2 ^ 32)
    (hexact : (p.framesRead + 1) * 48000 * p.h.fpsDen < 2 ^ 64)
    (hper : 48000 * p.h.fpsDen / p.h.fpsNum < 2 ^ 29) : FrameFits fn (.loop, p) .readAhead := by
  obtain ⟨hlow, hhigh⟩ := reserve_ge hnum hframes hexact hper
  have hroom := h.kept.room
  have hun := h.kept.unread
  refine ⟨?_, by unfold fifoN at hroom; omega⟩
  unfold frameWords
  split
  · next buf force abuf hread =>
    have hsamples := hp buf force abuf _ (Prod.ext hread rfl)
    obtain ⟨-, hle⟩ := floor_step p.framesRead (p.h.audioRate * p.h.fpsDen) p.h.fpsNum hnum
    have hcount : sampleCount p.h abuf abuf.length 0
        ≤ p.h.audioRate * p.h.fpsDen / p.h.fpsNum + 1 := by
      rw [hsamples]
      unfold prescribed
      rw [Nat.mul_assoc (p.framesRead + 1), Nat.mul_assoc p.framesRead]
      exact tsub_le_iff_left.mpr hle
    refine le_trans (Resampler.outputs_mono _ _ hcount) (le_trans (outputs_le (h.ready hcodec) hrate
      (Nat.div_mul_le_self _ _) ?_) hlow)
    exact (Nat.div_lt_iff_lt_mul hnum).mp (Nat.lt_succ_self _)
  · exact Nat.zero_le _

-- ======================================================= a file it overruns

/-- One pixel, one mono sample a second, a frame every six seconds. -/
def slowHeader : List UInt8 :=
  [0x54, 0x4a, 0x43, 0x32, 1, 0, 1, 0, 1, 1, 0, 0, 0, 0, 50, 0, 0, 0,
   1, 0, 0, 0, 6, 0, 0, 0, 1, 1, 1, 0, 0, 0, 0, 0]

/-- A QOA frame of the samples 1, 1, 1, 1, 7, 1. -/
def slowAudio : List UInt8 :=
  [1, 0, 0, 1, 0, 6, 0, 32, 0, 0, 0, 0, 0, 0, 0, 0, 0, 0, 0, 0, 0, 0, 0, 0,
   0, 0, 0xC0, 0, 0, 0, 0, 0]

/-- The one record: no tile, the six samples of its six seconds. -/
def slowRecord : List UInt8 := [0, 0, 0, 0, 0] ++ [0] ++ [32, 0, 0, 0] ++ slowAudio

def slowHdr : Header :=
  { version := 2, width := 1, height := 1, tileW := 1, tileH := 1, quality := 50, fpsNum := 1
    fpsDen := 6, audioCodec := 1, audioChannels := 1, audioRate := 1 }

theorem slowFile_opens :
    ∃ r, openFile .memory (slowHeader ++ slowRecord) = some (.start r slowHdr)
      ∧ r.left .memory = slowRecord :=
  have hwhole : tjcParseHeader (slowHeader.take 18 ++ slowHeader.drop 18) hdrSize
      = .ok 34 slowHdr := by decide
  openFile_v2 rfl rfl rfl (by decide) hwhole

theorem slowRecord_reads {r : Reader (List UInt8)} (h : r.left .memory = slowRecord) :
    ∃ r', readRecord .memory (tjcDecInit slowHdr) r = (.ok (some ([0], false, slowAudio)), r') := by
  have hparts : r.left .memory
      = [0, 0, 0, 0, 0] ++ ([0] ++ ([32, 0, 0, 0] ++ (slowAudio ++ []))) := h
  obtain ⟨r', hread, -⟩ := readRecord_audio (d := tjcDecInit slowHdr) hparts rfl rfl rfl rfl
    (by decide) rfl rfl (by decide)
  exact ⟨r', hread⟩

/-- The first and the fifth of its six samples. -/
theorem slowAudio_decodes : ∃ q,
    tjcQoaDecode (slowAudio.drop 0) (slowAudio.length - 0) slowHdr.audioChannels
        slowHdr.audioRate 0 (fun _ => 0) = some (6, 32, q)
      ∧ q.out 0 = 1 ∧ q.out 4 = 7 := by
  have hdec : (tjcQoaDecode (slowAudio.drop 0) (slowAudio.length - 0) slowHdr.audioChannels
      slowHdr.audioRate 0 (fun _ => 0)).map (fun r => (r.1, r.2.1, r.2.2.out 0, r.2.2.out 4)) = some (6, 32, 1, 7) := by decide
  obtain ⟨⟨n, used, q⟩, hq, hval⟩ := Option.map_eq_some_iff.mp hdec
  simp only [Prod.mk.injEq] at hval
  obtain ⟨rfl, rfl, h0, h4⟩ := hval
  exact ⟨q, hq, h0, h4⟩

theorem slowAudio_samples : sampleCount slowHdr slowAudio slowAudio.length 0 = 6 := by
  obtain ⟨q, hq, -⟩ := slowAudio_decodes
  have hfirst : sampleCount slowHdr slowAudio 32 0 = 6 + sampleCount slowHdr slowAudio 31 32 := by
    rw [sampleCount, if_pos (by decide), hq]
  have hlen : slowAudio.length = 32 := rfl
  rw [hlen, hfirst, sampleCount, if_neg (by decide)]

/-- 65536 words from each sample but the first. -/
theorem slowFile_words {r : Reader (List UInt8)} (h : r.left .memory = slowRecord) :
    frameWords .memory (Player.start r slowHdr) = 5 * 2 ^ 16 := by
  obtain ⟨r', hread⟩ := slowRecord_reads h
  have hread' : readRecord .memory (Player.start r slowHdr).video.dec (Player.start r slowHdr).reader
      = (.ok (some ([0], false, slowAudio)), r') := hread
  have hsamples : sampleCount (Player.start r slowHdr).h slowAudio slowAudio.length 0 = 6 :=
    slowAudio_samples
  have hstep : (Player.start r slowHdr).sound.rs = { step := 1 } := rfl
  have hrate : (Player.start r slowHdr).h.audioRate = 1 := rfl
  unfold frameWords
  rw [hread']
  dsimp only
  rw [hsamples, hstep, hrate]
  rfl

theorem slowFile_prescribed {r : Reader (List UInt8)} (h : r.left .memory = slowRecord) :
    Prescribed .memory (.preRead, Player.start r slowHdr) .preRead := by
  intro buf force abuf r' hread
  obtain ⟨r'', hread'⟩ := slowRecord_reads h
  have hsame := hread.symm.trans hread'
  simp only [Prod.mk.injEq, Except.ok.injEq, Option.some.injEq] at hsame
  have hsix : prescribed slowHdr 0 = 6 := by decide
  rw [hsame.1.2.2]
  exact slowAudio_samples.trans hsix.symm

/-- Reading it puts five times 65536 words. -/
theorem slowFile_sound {r : Reader (List UInt8)} (h : r.left .memory = slowRecord) :
    ∃ ws rs', (readOrEnd .memory (Player.start r slowHdr)).sound
        = ((Player.start r slowHdr).sound.puts ws).withRs rs' ∧ ws.length = 5 * 2 ^ 16 := by
  have hstart := Sounds.start r (h := slowHdr) (fun _ => by decide)
  obtain ⟨ws, rs', hsound, hlen, -⟩ := readFrame_sound .memory (Player.start r slowHdr)
    (hstart.ready (show slowHdr.audioCodec ≠ 0 by decide))
  rw [slowFile_words h] at hlen
  exact ⟨ws, rs', (readOrEnd_sound _ _).trans hsound, hlen⟩

theorem slowFile_overrun {r : Reader (List UInt8)} (h : r.left .memory = slowRecord) :
    ¬ (readOrEnd .memory (Player.start r slowHdr)).sound.Intact := by
  intro hintact
  obtain ⟨ws, rs', hsound, hlen⟩ := slowFile_sound h
  have hstart := Sounds.start r (h := slowHdr) (fun _ => by decide)
  have hat := (hstart.kept.toAt.puts ws).withRs rs'
  have htape : (((Player.start r slowHdr).sound.puts ws).withRs rs').tape.length = 5 * 2 ^ 16 := by
    show ((Player.start r slowHdr).sound.puts ws).tape.length = 5 * 2 ^ 16
    rw [Sound.puts_tape, List.length_append, hlen]
    exact Nat.zero_add _
  have hle := hintact.1
  rw [hsound, hat.unread_eq (by omega), htape] at hle
  exact absurd hle (by decide)

/-- The one frame of this file carries its six samples, and before the
clock starts it leaves more in the FIFO than the FIFO holds. -/
theorem fifo_overrun :
    ∃ p₀ p : Player (List UInt8),
      openFile .memory (slowHeader ++ slowRecord) = some p₀
      ∧ Steps.Run (playStep .memory) (Prescribed .memory) (.preRead, p₀) (.preRead, p)
      ∧ ¬ p.sound.Intact := by
  obtain ⟨r, hopen, hleft⟩ := slowFile_opens
  have hqueue : (Player.start r slowHdr).queue.length < qn / 2 :=
    show 0 < qn / 2 by decide
  exact ⟨_, readOrEnd .memory (Player.start r slowHdr), hopen,
    .step (.nil _) (slowFile_prescribed hleft) (playStep_preRead .memory rfl hqueue),
    slowFile_overrun hleft⟩

end Ncmips.Tjcplay
