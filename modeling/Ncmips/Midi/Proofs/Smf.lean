/-
The sequencer stays in its file.

A track's position only goes forward, and where a length would take it past
the track's end the track is done; so each turn takes a byte of what is
left, and whatever is read is in a chunk. The chunks themselves are found
by their lengths, which are any 32 bits.
-/
import Mathlib
import Ncmips.Midi.Smf

namespace Ncmips.Midi

open Words Prog

variable {mem : Nat → UInt8} {base len : Nat}

-- ================================================================= the file

/-- Where a file lies in memory: the longest length of an event does not
reach the end of the address space from it (RAM is at 0x80000000 to
0xa0000000), and its size is a `long`. -/
structure Placed (base len : Nat) : Prop where
  room : base + len + 2 ^ 28 ≤ 2 ^ 32
  short : len + 8 < 2 ^ 31

/-- An address in the file. -/
def InFile (base len a : Nat) : Prop := base ≤ a ∧ a < base + len

/-- What is in the file from an address on, `n` bytes of it. -/
theorem byteOf_meets {a : Nat} (h : InFile base len a) {Q : Nat → Prop} (hQ : Q (mem a).toNat) :
    (byteOf a).Meets mem (InFile base len) Q := ⟨h, hQ⟩

/-- The bytes at consecutive addresses. -/
def spell (mem : Nat → UInt8) (p : Nat) : Nat → List Nat
  | 0 => []
  | n + 1 => (mem p).toNat :: spell mem (p + 1) n

theorem bytesOf_meets (hroom : base + len ≤ 2 ^ 32) {n p : Nat} (hlo : base ≤ p)
    (hhi : p + n ≤ base + len) :
    (bytesOf p n).Meets mem (InFile base len) fun bs => bs = spell mem p n := by
  induction n generalizing p with
  | zero => exact rfl
  | succ n ih =>
      unfold bytesOf
      apply meets_bind
      refine byteOf_meets ⟨hlo, by omega⟩ ?_
      cases n with
      | zero => exact rfl
      | succ n =>
          rw [u32_of_lt (show p + 1 < 2 ^ 32 by omega)]
          refine (ih (by omega) (by omega)).bind fun bs hbs => meets_pure ?_
          rw [hbs]
          rfl

/-- The number at an address. -/
def number (mem : Nat → UInt8) (p : Nat) : Nat :=
  (mem p).toNat * 2 ^ 24 + (mem (p + 1)).toNat * 2 ^ 16 + (mem (p + 2)).toNat * 2 ^ 8
    + (mem (p + 3)).toNat

theorem number_lt (mem : Nat → UInt8) (p : Nat) : number mem p < 2 ^ 32 := by
  have h0 := (mem p).toNat_lt
  have h1 := (mem (p + 1)).toNat_lt
  have h2 := (mem (p + 2)).toNat_lt
  have h3 := (mem (p + 3)).toNat_lt
  unfold number
  omega

theorem be32_meets (hroom : base + len ≤ 2 ^ 32) {p : Nat} (hlo : base ≤ p)
    (hhi : p + 4 ≤ base + len) :
    (be32 p).Meets mem (InFile base len) fun n => n = number mem p := by
  unfold be32
  rw [u32_of_lt (show p + 1 < 2 ^ 32 by omega), u32_of_lt (show p + 2 < 2 ^ 32 by omega),
    u32_of_lt (show p + 3 < 2 ^ 32 by omega)]
  apply meets_bind
  refine byteOf_meets ⟨hlo, by omega⟩ (meets_bind ?_)
  refine byteOf_meets ⟨by omega, by omega⟩ (meets_bind ?_)
  refine byteOf_meets ⟨by omega, by omega⟩ (meets_bind ?_)
  exact byteOf_meets ⟨by omega, by omega⟩ (meets_pure rfl)

theorem sameBytes_meets (hroom : base + len ≤ 2 ^ 32) {p : Nat} {s : List Nat} (hlo : base ≤ p)
    (hhi : p + s.length ≤ base + len) :
    (sameBytes p s).Meets mem (InFile base len) fun b => b = decide (spell mem p s.length = s) := by
  unfold sameBytes
  refine (bytesOf_meets hroom hlo hhi).bind fun bs hbs => meets_pure ?_
  rw [hbs]

-- ================================================================= a track

/-- A track's range is in the file, and its position in the range unless it is
done. -/
structure TrackOk (base len : Nat) (t : Track) : Prop where
  lo : base ≤ t.p
  hi : t.fin ≤ base + len
  inside : t.done = false → t.p ≤ t.fin

/-- What is left to read is in the file. -/
theorem TrackOk.range {t : Track} (h : TrackOk base len t) {a : Nat} (hlo : t.p ≤ a)
    (hhi : a < t.fin) : InFile base len a := by
  have := h.lo
  have := h.hi
  exact ⟨by omega, by omega⟩

/-- Bytes that a track has left, and one until it is done. -/
def Track.left (t : Track) : Nat := if t.done then 0 else t.fin - t.p + 1

/-- A track that went on: within its range, and by a byte at least if there
was one. -/
structure Forward (t t' : Track) : Prop where
  fin : t'.fin = t.fin
  done : t'.done = t.done
  ahead : t.p ≤ t'.p
  upto : t'.p ≤ t.fin
  moved : t.p < t.fin → t.p < t'.p

theorem Forward.ok {t t' : Track} (h : Forward t t') (ht : TrackOk base len t) :
    TrackOk base len t' where
  lo := le_trans ht.lo h.ahead
  hi := by rw [h.fin]; exact ht.hi
  inside := fun _ => by rw [h.fin]; exact h.upto

theorem Forward.trans {t t' t'' : Track} (h : Forward t t') (h' : Forward t' t'') :
    Forward t t'' where
  fin := h'.fin.trans h.fin
  done := h'.done.trans h.done
  ahead := le_trans h.ahead h'.ahead
  upto := by rw [← h.fin]; exact h'.upto
  moved := fun hmore => lt_of_lt_of_le (h.moved hmore) h'.ahead

/-- One byte on. -/
theorem forward_byte (hp : Placed base len) {t : Track} (ht : TrackOk base len t)
    (hmore : t.p < t.fin) : Forward t { t with p := u32 (t.p + 1) } := by
  have hroom := hp.room
  have hhi := ht.hi
  rw [u32_of_lt (show t.p + 1 < 2 ^ 32 by omega)]
  exact ⟨rfl, rfl, Nat.le_succ _, hmore, fun _ => Nat.lt_succ_self _⟩

theorem vlqLoop_meets (hp : Placed base len) {i v k : Nat} {t : Track} (ht : TrackOk base len t)
    (hin : t.p ≤ t.fin) (hi : i ≠ 0) (hv : v < 2 ^ (7 * k)) (hk : k + i ≤ 4) :
    (vlqLoop i v t).Meets mem (InFile base len) fun r => r.1 < 2 ^ 28 ∧ Forward t r.2 := by
  have hsmall : ∀ k v, k ≤ 4 → v < 2 ^ (7 * k) → v < 2 ^ 28 := fun k v hk hv =>
    lt_of_lt_of_le hv (Nat.pow_le_pow_right (by decide) (by omega))
  induction i generalizing v k t with
  | zero => exact absurd rfl hi
  | succ i ih =>
      unfold vlqLoop
      by_cases hmore : t.p < t.fin
      · rw [if_pos hmore]
        apply meets_bind
        refine byteOf_meets (ht.range (le_refl _) hmore) ?_
        have hfwd := forward_byte hp ht hmore
        have hb := (mem t.p).toNat_lt
        have hv' : u32 (v * 2 ^ 7) + (mem t.p).toNat % 2 ^ 7 < 2 ^ (7 * (k + 1)) := by
          have hlow : (mem t.p).toNat % 2 ^ 7 < 2 ^ 7 := Nat.mod_lt _ (by decide)
          have hle : u32 (v * 2 ^ 7) ≤ v * 2 ^ 7 := Nat.mod_le _ _
          rw [show 7 * (k + 1) = 7 * k + 7 by omega, Nat.pow_add]
          have : (v + 1) * 2 ^ 7 ≤ 2 ^ (7 * k) * 2 ^ 7 := Nat.mul_le_mul_right _ hv
          omega
        dsimp only
        by_cases hlast : (mem t.p).toNat < 0x80
        · rw [if_pos hlast]
          exact meets_pure ⟨hsmall (k + 1) _ (by omega) hv', hfwd⟩
        · rw [if_neg hlast]
          cases i with
          | zero => exact meets_pure ⟨hsmall (k + 1) _ (by omega) hv', hfwd⟩
          | succ i =>
              have hin' : ({ t with p := u32 (t.p + 1) } : Track).p ≤ t.fin := hfwd.upto
              exact (ih (hfwd.ok ht) hin' (Nat.succ_ne_zero i) hv' (by omega)).mono
                fun r hr => ⟨hr.1, hfwd.trans hr.2⟩
      · rw [if_neg hmore]
        exact meets_pure ⟨hsmall k v (by omega) hv,
          ⟨rfl, rfl, le_refl _, hin, fun h => absurd h hmore⟩⟩

theorem vlq_meets (hp : Placed base len) {t : Track} (ht : TrackOk base len t) (hin : t.p ≤ t.fin) :
    (vlq t).Meets mem (InFile base len) fun r => r.1 < 2 ^ 28 ∧ Forward t r.2 :=
  vlqLoop_meets hp ht hin (by decide) (show 0 < 2 ^ (7 * 0) by decide) (by decide)

theorem nextByte_meets (hp : Placed base len) {t : Track} (ht : TrackOk base len t)
    (hin : t.p ≤ t.fin) :
    (nextByte t).Meets mem (InFile base len) fun r => Forward t r.2 := by
  unfold nextByte
  by_cases hmore : t.p < t.fin
  · rw [if_pos hmore]
    apply meets_bind
    exact byteOf_meets (ht.range (le_refl _) hmore) (meets_pure (forward_byte hp ht hmore))
  · rw [if_neg hmore]
    exact meets_pure ⟨rfl, rfl, le_refl _, hin, fun h => absurd h hmore⟩

/-- A track after an event: done, or gone forward. -/
structure Went (base len : Nat) (t t' : Track) : Prop where
  ok : TrackOk base len t'
  fin : t'.fin = t.fin
  on : t'.done = false → t.p ≤ t'.p ∧ (t.p < t.fin → t.p < t'.p)

theorem Forward.went {t t' : Track} (h : Forward t t') (ht : TrackOk base len t) :
    Went base len t t' := ⟨h.ok ht, h.fin, fun _ => ⟨h.ahead, h.moved⟩⟩

/-- A track that is given up. -/
theorem Forward.giveUp {t t' : Track} (h : Forward t t') (ht : TrackOk base len t) :
    Went base len t { t' with done := true } :=
  ⟨⟨(h.ok ht).lo, (h.ok ht).hi, fun h => nomatch h⟩, h.fin, fun h => nomatch h⟩

theorem readDelta_meets (hp : Placed base len) {t : Track} (ht : TrackOk base len t) :
    (readDelta t).Meets mem (InFile base len) fun t' => Went base len t t' := by
  unfold readDelta
  by_cases hend : t.p ≥ t.fin
  · rw [if_pos hend]
    exact meets_pure ⟨⟨ht.lo, ht.hi, fun h => nomatch h⟩, rfl, fun h => nomatch h⟩
  · rw [if_neg hend]
    refine (vlq_meets hp ht (by omega)).bind fun r hr => meets_pure ?_
    obtain ⟨-, hfwd⟩ := hr
    have hok := hfwd.ok ht
    exact ⟨⟨hok.lo, hok.hi, hok.inside⟩, hfwd.fin, fun _ => ⟨hfwd.ahead, hfwd.moved⟩⟩

-- ================================================================= an event

/-- What playing a tick's events leaves as it is. -/
structure Steady (s s' : Smf) : Prop where
  file : s'.file = s.file
  fileLen : s'.fileLen = s.fileLen
  now : s'.now = s.now
  syn : s'.syn = s.syn

theorem Steady.refl (s : Smf) : Steady s s := ⟨rfl, rfl, rfl, rfl⟩

theorem Steady.trans {s s' s'' : Smf} (h : Steady s s') (h' : Steady s' s'') : Steady s s'' :=
  ⟨h'.file.trans h.file, h'.fileLen.trans h.fileLen, h'.now.trans h.now, h'.syn.trans h.syn⟩

/-- What a single event does, its track apart. -/
structure Keeps (s s' : Smf) : Prop extends Steady s s' where
  tracks : s'.tracks = s.tracks
  curTick : s'.curTick = s.curTick

theorem Keeps.refl (s : Smf) : Keeps s s := ⟨.refl s, rfl, rfl⟩

theorem setTempo_keeps (s : Smf) (us : Nat) : Keeps s (setTempo s us) :=
  ⟨⟨rfl, rfl, rfl, rfl⟩, rfl, rfl⟩

theorem channelEvent_keeps (s : Smf) (status a b send : Nat) :
    Keeps s (channelEvent s status a b send) := by
  unfold channelEvent Smf.call
  dsimp only
  split
  · split_ifs <;> exact ⟨⟨rfl, rfl, rfl, rfl⟩, rfl, rfl⟩
  · split_ifs <;> exact ⟨⟨rfl, rfl, rfl, rfl⟩, rfl, rfl⟩
  · split_ifs <;> exact ⟨⟨rfl, rfl, rfl, rfl⟩, rfl, rfl⟩
  · split_ifs <;> exact ⟨⟨rfl, rfl, rfl, rfl⟩, rfl, rfl⟩
  · split_ifs <;> exact ⟨⟨rfl, rfl, rfl, rfl⟩, rfl, rfl⟩
  · exact .refl s

theorem metaEvent_meets (hp : Placed base len) {s : Smf} {t : Track} (ht : TrackOk base len t)
    {type n : Nat} (hin : t.p + n ≤ t.fin) :
    (metaEvent s t type n).Meets mem (InFile base len) fun r => Keeps s r.1
      ∧ (r.2 = t ∨ r.2 = { t with done := true }) := by
  have hroom := hp.room
  have hhi := ht.hi
  have hlo := ht.lo
  unfold metaEvent
  split_ifs with htempo hend htitle
  · obtain ⟨-, rfl⟩ := htempo
    rw [u32_of_lt (show t.p + 1 < 2 ^ 32 by omega), u32_of_lt (show t.p + 2 < 2 ^ 32 by omega)]
    apply meets_bind
    refine byteOf_meets (ht.range (le_refl _) (by omega)) (meets_bind ?_)
    refine byteOf_meets (ht.range (by omega) (by omega)) (meets_bind ?_)
    refine byteOf_meets (ht.range (by omega) (by omega)) (meets_pure ?_)
    exact ⟨setTempo_keeps _ _, .inl rfl⟩
  · exact meets_pure ⟨.refl s, .inr rfl⟩
  · refine (bytesOf_meets (by omega) hlo (by omega)).bind fun cs _ => meets_pure ?_
    exact ⟨⟨⟨rfl, rfl, rfl, rfl⟩, rfl, rfl⟩, .inl rfl⟩
  · exact meets_pure ⟨.refl s, .inl rfl⟩

/-- An event, whatever its status: a byte at least, or the track is done. -/
theorem event_meets (hp : Placed base len) {send : Nat} {s : Smf} {t : Track} {st : Nat}
    (ht : TrackOk base len t) (hin : t.p ≤ t.fin) :
    (event send s t st).Meets mem (InFile base len) fun r => Keeps s r.2.1
      ∧ Went base len t r.2.2 ∧ (r.1 = false → r.2.2.done = true) := by
  have hroom := hp.room
  have hhi := ht.hi
  unfold event
  split_ifs with hmeta hsysex hchan
  · -- a meta event, whose length is checked
    refine (nextByte_meets hp ht hin).bind fun r hr => ?_
    obtain ⟨type, t₁⟩ := r
    refine (vlq_meets hp (hr.ok ht) (by rw [hr.fin]; exact hr.upto)).bind fun r hr' => ?_
    obtain ⟨n, t₂⟩ := r
    obtain ⟨hn, hr'⟩ := hr'
    have hfwd := hr.trans hr'
    have hok := hfwd.ok ht
    dsimp only at hn hfwd hok ⊢
    have hupto := hfwd.upto
    rw [u32_of_lt (show t₂.p + n < 2 ^ 32 by omega)]
    split_ifs with hover
    · exact meets_pure ⟨.refl s, hfwd.giveUp ht, fun _ => rfl⟩
    · refine (metaEvent_meets hp hok (by omega)).bind fun r hr => meets_pure ?_
      obtain ⟨s', t'⟩ := r
      obtain ⟨hkeeps, hsame⟩ := hr
      refine ⟨hkeeps, ?_, fun h => nomatch h⟩
      dsimp only at hsame ⊢
      have hp₂ := hok.lo
      have hfin := hfwd.fin
      have hahead := hfwd.ahead
      rcases hsame with rfl | rfl
      · rw [u32_of_lt (show t'.p + n < 2 ^ 32 by omega)]
        refine ⟨⟨by dsimp only; omega, hok.hi, fun _ => by dsimp only; omega⟩, hfin, fun _ => ?_⟩
        dsimp only
        exact ⟨by omega, fun hmore => by have := hfwd.moved hmore; omega⟩
      · dsimp only
        rw [u32_of_lt (show t₂.p + n < 2 ^ 32 by omega)]
        exact ⟨⟨by dsimp only; omega, hok.hi, fun h => nomatch h⟩, hfin, fun h => nomatch h⟩
  · -- a sysex event, which may go past the end
    refine (vlq_meets hp ht hin).bind fun r hr => meets_pure ?_
    obtain ⟨n, t₁⟩ := r
    obtain ⟨hn, hfwd⟩ := hr
    have hok := hfwd.ok ht
    dsimp only at hn hfwd hok ⊢
    have hp₁ := hok.lo
    have hupto := hfwd.upto
    have hahead := hfwd.ahead
    rw [u32_of_lt (show t₁.p + n < 2 ^ 32 by omega)]
    refine ⟨.refl s, ?_, fun h => nomatch h⟩
    split_ifs with hover
    · exact ⟨⟨by dsimp only; omega, hok.hi, fun h => nomatch h⟩, hfwd.fin, fun h => nomatch h⟩
    · refine ⟨⟨by dsimp only; omega, hok.hi, fun _ => by dsimp only; omega⟩, hfwd.fin, fun _ => ?_⟩
      dsimp only
      exact ⟨by omega, fun hmore => by have := hfwd.moved hmore; omega⟩
  · -- a channel's event
    have ht' : TrackOk base len { t with status := st } := ⟨ht.lo, ht.hi, ht.inside⟩
    refine (nextByte_meets hp ht' hin).bind fun r hr => ?_
    obtain ⟨a, t₁⟩ := r
    dsimp only at hr ⊢
    have hwent {t' : Track} (h : Forward { t with status := st } t') : Went base len t t' :=
      ⟨h.ok ht', h.fin, fun _ => ⟨h.ahead, h.moved⟩⟩
    split_ifs with hkind
    · refine (nextByte_meets hp (hr.ok ht') (by rw [hr.fin]; exact hr.upto)).bind
        fun r hr' => meets_pure ?_
      exact ⟨channelEvent_keeps _ _ _ _ _, hwent (hr.trans hr'), fun h => nomatch h⟩
    · exact meets_pure ⟨channelEvent_keeps _ _ _ _ _, hwent hr, fun h => nomatch h⟩
  · exact meets_pure ⟨.refl s, ⟨⟨ht.lo, ht.hi, fun h => nomatch h⟩, rfl, fun h => nomatch h⟩,
      fun _ => rfl⟩

/-- A turn takes at least a byte of what the track has left. -/
theorem eventTurn_meets (hp : Placed base len) {send : Nat} {s : Smf} {t : Track}
    (ht : TrackOk base len t) (hdone : t.done = false) :
    (eventTurn send s t).Meets mem (InFile base len) fun r => Keeps s r.1
      ∧ TrackOk base len r.2 ∧ r.2.fin = t.fin ∧ r.2.left < t.left := by
  have hin := ht.inside hdone
  -- what is left of a track that is done, or gone forward
  have hleft {t' : Track} (hfin : t'.fin = t.fin) (hok : TrackOk base len t')
      (h : t'.done = false → t.p < t'.p) : t'.left < t.left := by
    unfold Track.left
    rw [hdone, hfin]
    cases hdone' : t'.done with
    | true => simp
    | false =>
        have hmore := h hdone'
        have hin' := hok.inside hdone'
        rw [hfin] at hin'
        simp only [Bool.false_eq_true, if_false]
        omega
  unfold eventTurn
  split_ifs with hend
  · have hok : TrackOk base len { t with done := true } := ⟨ht.lo, ht.hi, fun h => nomatch h⟩
    exact meets_pure ⟨.refl s, hok, rfl, hleft rfl hok fun h => nomatch h⟩
  · have hmore : t.p < t.fin := Nat.lt_of_not_ge hend
    apply meets_bind
    refine byteOf_meets (ht.range (le_refl _) hmore) ?_
    dsimp only
    -- the status is a byte of the track, or the one before
    obtain ⟨t₁, st, heq, hok₁, hfin₁, hdone₁, hin₁, hmove₁⟩ : ∃ (t₁ : Track) (st : Nat),
        (if (mem t.p).toNat ≥ 0x80 then ((mem t.p).toNat, { t with p := u32 (t.p + 1) })
          else (t.status, t)) = (st, t₁) ∧ TrackOk base len t₁ ∧ t₁.fin = t.fin
          ∧ t₁.done = false ∧ t₁.p ≤ t₁.fin ∧ (t.p < t₁.p ∨ t₁.p = t.p) := by
      have hfwd := forward_byte hp ht hmore
      split_ifs
      · exact ⟨_, _, rfl, hfwd.ok ht, rfl, hdone, hfwd.upto, .inl (hfwd.moved hmore)⟩
      · exact ⟨_, _, rfl, ht, rfl, hdone, hin, .inr rfl⟩
    rw [heq]
    dsimp only
    refine (event_meets hp hok₁ hin₁).bind fun r hr => ?_
    obtain ⟨go, s', t₂⟩ := r
    obtain ⟨hkeeps, hwent, hgo⟩ := hr
    dsimp only at hkeeps hwent hgo ⊢
    have hfin₂ : t₂.fin = t.fin := hwent.fin.trans hfin₁
    have hmoved (h : t₂.done = false) : t.p < t₂.p := by
      obtain ⟨hle, hlt⟩ := hwent.on h
      rcases hmove₁ with h₁ | h₁
      · omega
      · have := hlt (by omega)
        omega
    split_ifs with hdelta
    · refine (readDelta_meets hp hwent.ok).bind fun t₃ hr => meets_pure ?_
      have hfin₃ : t₃.fin = t.fin := hr.fin.trans hfin₂
      refine ⟨hkeeps, hr.ok, hfin₃, hleft hfin₃ hr.ok fun h => ?_⟩
      obtain ⟨-, hd⟩ := hdelta
      exact lt_of_lt_of_le (hmoved (by simpa using hd)) (hr.on h).1
    · exact meets_pure ⟨hkeeps, hwent.ok, hfin₂, hleft hfin₂ hwent.ok hmoved⟩

-- ===================================================================== a tick

/-- The sequencer of the file: each track is in it. -/
structure Playing (base len : Nat) (s : Smf) : Prop where
  file : s.file = base
  fileLen : s.fileLen = len
  tracks : ∀ t ∈ s.tracks, TrackOk base len t
  count : s.tracks.length ≤ maxTracks

/-- What all tracks have left. -/
def Smf.left (s : Smf) : Nat := (s.tracks.map Track.left).sum

theorem TrackOk.left_le {t : Track} (h : TrackOk base len t) : t.left ≤ len + 1 := by
  have := h.lo
  have := h.hi
  unfold Track.left
  split_ifs <;> omega

/-- Turns that are enough for any loop over the tracks. -/
def enough (len : Nat) : Nat := maxTracks * (len + 1)

theorem Playing.left_le {s : Smf} (h : Playing base len s) : s.left ≤ enough len := by
  have hsum : ∀ ts : List Track, (∀ t ∈ ts, TrackOk base len t) →
      (ts.map Track.left).sum ≤ ts.length * (len + 1) := by
    intro ts
    induction ts with
    | nil => exact fun _ => Nat.zero_le _
    | cons t ts ih =>
        intro hts
        have hfirst := (hts t List.mem_cons_self).left_le
        have hrest := ih fun t' ht' => hts t' (List.mem_cons_of_mem _ ht')
        rw [List.map_cons, List.sum_cons, List.length_cons, Nat.succ_mul]
        omega
  exact le_trans (hsum s.tracks h.tracks) (Nat.mul_le_mul_right _ h.count)

/-- Track `i` has an event now. -/
def Smf.due (s : Smf) (i : Nat) : Prop :=
  ∃ t, s.tracks[i]? = some t ∧ t.done = false ∧ t.nextTick = s.curTick

theorem left_set {ts : List Track} {i : Nat} {t t' : Track} (hi : ts[i]? = some t)
    (h : t'.left < t.left) :
    ((ts.set i t').map Track.left).sum < (ts.map Track.left).sum := by
  induction ts generalizing i with
  | nil => exact nomatch hi
  | cons t₀ ts ih =>
      cases i with
      | zero =>
          simp only [List.getElem?_cons_zero, Option.some.injEq] at hi
          subst hi
          simp only [List.set_cons_zero, List.map_cons, List.sum_cons]
          omega
      | succ i =>
          have := ih (show ts[i]? = some t by simpa using hi)
          simp only [List.set_cons_succ, List.map_cons, List.sum_cons]
          omega

/-- Some events of this tick. -/
structure Ticked (base len : Nat) (s s' : Smf) : Prop where
  playing : Playing base len s'
  steady : Steady s s'
  curTick : s'.curTick = s.curTick
  count : s'.tracks.length = s.tracks.length
  less : s'.left ≤ s.left

theorem Ticked.refl {s : Smf} (h : Playing base len s) : Ticked base len s s :=
  ⟨h, .refl s, rfl, rfl, le_refl _⟩

theorem Ticked.trans {s s' s'' : Smf} (h : Ticked base len s s') (h' : Ticked base len s' s'') :
    Ticked base len s s'' :=
  ⟨h'.playing, h.steady.trans h'.steady, h'.curTick.trans h.curTick, h'.count.trans h.count,
    le_trans h'.less h.less⟩

theorem trackLoop_goes (hp : Placed base len) {send i turns : Nat} {s : Smf}
    (hs : Playing base len s) :
    Goes mem (InFile base len) (trackLoop send i turns s)
      (fun s' => Playing base len s' ∧ turns ≤ s.left)
      (fun s' => Ticked base len s s' ∧ (∀ j ≠ i, s'.tracks[j]? = s.tracks[j]?)
        ∧ (s.due i → s'.left < s.left)) := by
  induction turns generalizing s with
  | zero => exact goes_throw ⟨hs, Nat.zero_le _⟩
  | succ turns ih =>
      unfold trackLoop
      cases ht : s.tracks[i]? with
      | none =>
          refine goes_pure ⟨.refl hs, fun _ _ => rfl, fun hdue => ?_⟩
          obtain ⟨t, hsome, -⟩ := hdue
          rw [ht] at hsome
          exact nomatch hsome
      | some t =>
          dsimp only
          split_ifs with hdue
          · obtain ⟨hdone, -⟩ := hdue
            have hok := hs.tracks t (List.mem_of_getElem? ht)
            have hturn := @eventTurn_meets mem _ _ hp send s _ hok
              (by simpa using hdone)
            refine (goes_lift hturn).bind fun r hr => ?_
            obtain ⟨s₁, t₁⟩ := r
            obtain ⟨hkeeps, hok₁, -, hless⟩ := hr
            dsimp only at hkeeps hok₁ hless ⊢
            have hset := left_set ht hless
            have hfewer : ({ s₁ with tracks := s₁.tracks.set i t₁ } : Smf).left < s.left := by
              unfold Smf.left
              rw [hkeeps.tracks]
              exact hset
            have hs₁ : Playing base len { s₁ with tracks := s₁.tracks.set i t₁ } := by
              refine ⟨hkeeps.file.trans hs.file, hkeeps.fileLen.trans hs.fileLen, fun t' ht' => ?_,
                by rw [List.length_set, hkeeps.tracks]; exact hs.count⟩
              rcases List.mem_or_eq_of_mem_set ht' with hold | rfl
              · rw [hkeeps.tracks] at hold
                exact hs.tracks t' hold
              · exact hok₁
            refine (ih hs₁).mono (fun s' hs' => ⟨hs'.1, by omega⟩) fun s' hs' => ?_
            obtain ⟨hticked, hframe, -⟩ := hs'
            have hstep : Ticked base len s { s₁ with tracks := s₁.tracks.set i t₁ } :=
              ⟨hs₁, ⟨hkeeps.file, hkeeps.fileLen, hkeeps.now, hkeeps.syn⟩, hkeeps.curTick,
                by rw [List.length_set, hkeeps.tracks], Nat.le_of_lt hfewer⟩
            refine ⟨hstep.trans hticked, fun j hj => ?_, fun _ => lt_of_le_of_lt hticked.less hfewer⟩
            rw [hframe j hj]
            dsimp only
            rw [List.getElem?_set_ne (Ne.symm hj), hkeeps.tracks]
          · refine goes_pure ⟨.refl hs, fun _ _ => rfl, fun h => ?_⟩
            obtain ⟨t', hsome, hdone, htick⟩ := h
            rw [ht, Option.some.injEq] at hsome
            subst hsome
            exact absurd ⟨by simpa using hdone, htick⟩ hdue

theorem tracksLoop_goes (hp : Placed base len) {send turns : Nat} {is : List Nat} {s : Smf}
    (hs : Playing base len s) :
    Goes mem (InFile base len) (tracksLoop send turns is s)
      (fun s' => Playing base len s' ∧ turns ≤ s.left)
      (fun s' => Ticked base len s s' ∧ ((∃ i ∈ is, s.due i) → s'.left < s.left)) := by
  induction is generalizing s with
  | nil => exact goes_pure ⟨.refl hs, fun ⟨i, hi, _⟩ => nomatch hi⟩
  | cons i is ih =>
      unfold tracksLoop
      refine (trackLoop_goes hp hs).bind fun s₁ hs₁ => ?_
      obtain ⟨hticked, hframe, hless⟩ := hs₁
      refine (ih hticked.playing).mono (fun s' hs' => ⟨hs'.1, le_trans hs'.2 hticked.less⟩)
        fun s' hs' => ?_
      obtain ⟨hticked', hrest⟩ := hs'
      refine ⟨hticked.trans hticked', fun ⟨j, hj, hdue⟩ => ?_⟩
      by_cases hij : j = i
      · subst hij
        exact lt_of_le_of_lt hticked'.less (hless hdue)
      · -- the loop over track `i` has not touched it
        have hlater : s₁.due j := by
          obtain ⟨t, ht, hdone, htick⟩ := hdue
          exact ⟨t, by rw [hframe j hij, ht], hdone, htick.trans hticked.curTick.symm⟩
        rcases List.mem_cons.mp hj with h | h
        · exact absurd h hij
        · exact lt_of_lt_of_le (hrest ⟨j, h, hlater⟩) hticked.less

/-- The earliest pending tick is a track's, or there is none. -/
theorem pending_cases (ts : List Track) :
    pending ts = (0xffffffff, false)
      ∨ ∃ t ∈ ts, t.done = false ∧ t.nextTick < 0xffffffff ∧ pending ts = (t.nextTick, true) := by
  have hfold : ∀ (ts : List Track) (m : Nat × Bool),
      let r := ts.foldl (fun (m : Nat × Bool) t =>
        if !t.done ∧ t.nextTick < m.1 then (t.nextTick, true) else m) m
      r = m ∨ ∃ t ∈ ts, t.done = false ∧ t.nextTick < m.1 ∧ r = (t.nextTick, true) := by
    intro ts
    induction ts with
    | nil => exact fun m => .inl rfl
    | cons t ts ih =>
        intro m
        dsimp only
        rw [List.foldl_cons]
        split_ifs with hless
        · obtain ⟨hdone, hlt⟩ := hless
          rcases ih (t.nextTick, true) with h | ⟨t', ht', hdone', hlt', h⟩
          · exact .inr ⟨t, List.mem_cons_self, by simpa using hdone, hlt, h⟩
          · exact .inr ⟨t', List.mem_cons_of_mem _ ht', hdone', lt_trans hlt' hlt, h⟩
        · rcases ih m with h | ⟨t', ht', hdone', hlt', h⟩
          · exact .inl h
          · exact .inr ⟨t', List.mem_cons_of_mem _ ht', hdone', hlt', h⟩
  exact hfold ts (0xffffffff, false)

theorem pending_iff (s : Smf) : (pending s.tracks).2 = false ↔ s.tMin = 0xffffffff := by
  unfold Smf.tMin
  rcases pending_cases s.tracks with h | ⟨t, -, -, hlt, h⟩
  · rw [h]
    exact ⟨fun _ => rfl, fun _ => rfl⟩
  · rw [h]
    refine ⟨fun hf => (nomatch hf), fun heq => ?_⟩
    exact absurd heq (Nat.ne_of_lt hlt)

/-- A step: all events of the earliest pending tick. -/
theorem step_goes (hp : Placed base len) {turns send : Nat} {s : Smf} (hs : Playing base len s) :
    Goes mem (InFile base len) (step turns send s)
      (fun s' => Playing base len s' ∧ turns ≤ s.left)
      (fun r => Playing base len r.2 ∧ Steady s r.2 ∧ r.2.left ≤ s.left
        ∧ (r.1 = true ↔ s.tMin ≠ 0xffffffff) ∧ (r.1 = true → r.2.left < s.left)) := by
  unfold step
  rcases pending_cases s.tracks with h | ⟨t, ht, hdone, hlt, h⟩
  · have hnone : s.tMin = 0xffffffff := congrArg Prod.fst h
    rw [if_pos (by rw [h]; rfl)]
    refine goes_pure ⟨hs, .refl s, le_refl _, ⟨fun hf => (nomatch hf), fun hne => ?_⟩,
      fun hf => nomatch hf⟩
    exact absurd hnone hne
  · have hsome : s.tMin = t.nextTick := congrArg Prod.fst h
    rw [if_neg (by rw [h]; exact Bool.false_ne_true)]
    have hs₁ : Playing base len { s with tickTime := s.next, curTick := s.tMin } :=
      ⟨hs.file, hs.fileLen, hs.tracks, hs.count⟩
    refine (tracksLoop_goes hp hs₁).bind fun s' hs' => goes_pure ?_
    obtain ⟨hticked, hless⟩ := hs'
    obtain ⟨i, hi⟩ := List.getElem?_of_mem ht
    have hrange : i ∈ List.range s.tracks.length :=
      List.mem_range.mpr (List.getElem?_eq_some_iff.mp hi).1
    refine ⟨hticked.playing, ⟨hticked.steady.file, hticked.steady.fileLen, hticked.steady.now,
      hticked.steady.syn⟩, hticked.less, ⟨fun _ => ?_, fun _ => rfl⟩, fun _ => ?_⟩
    · rw [hsome]
      exact Nat.ne_of_lt hlt
    · exact hless ⟨i, hrange, t, hi, hdone, hsome.symm⟩

-- ================================================================ the chunks

/-- The chunks that the scan comes to: the number of tracks before one, and
its place. -/
inductive Chunk (mem : Nat → UInt8) (base len : Nat) : Nat → Nat → Prop
  | first : Chunk mem base len 0 14
  | next {n pos : Nat} (h : Chunk mem base len n pos) (hn : n < maxTracks)
      (hend : pos + 8 + number mem (base + pos + 4) ≤ len) :
      Chunk mem base len (if spell mem (base + pos) 4 = mtrk then n + 1 else n)
        (pos + 8 + number mem (base + pos + 4))

/-- No chunk's end is a place that a `long` has no number for. -/
def ChunksFit (mem : Nat → UInt8) (base len : Nat) : Prop :=
  ∀ n pos, Chunk mem base len n pos → n < maxTracks → pos + 8 ≤ len →
    pos + 8 + number mem (base + pos + 4) < 2 ^ 31

theorem at_eq (hp : Placed base len) {s : Smf} (hs : s.file = base) {pos : Nat}
    (hpos : pos ≤ len) : s.at (pos : Int) = base + pos := by
  have hroom := hp.room
  unfold Smf.at
  rw [hs, ofInt32_of_range (by omega) (by omega)]
  omega

theorem chunkLoop_goes (hp : Placed base len) (hfit : ChunksFit mem base len) {turns pos : Nat}
    {s : Smf} (hs : Playing base len s) (hpos : pos ≤ len)
    (hchunk : pos + 8 ≤ len → Chunk mem base len s.tracks.length pos) :
    Goes mem (InFile base len) (chunkLoop turns pos s)
      (fun s' => Playing base len s' ∧ turns ≤ len - pos)
      (fun s' => Playing base len s' ∧ Steady s s') := by
  have hroom := hp.room
  have hshort := hp.short
  induction turns generalizing pos s with
  | zero => exact goes_throw ⟨hs, Nat.zero_le _⟩
  | succ turns ih =>
      have h8 : s32 ((pos : Int) + 8) = (pos : Int) + 8 := s32_of_range (by omega) (by omega)
      have h4 : s32 ((pos : Int) + 4) = ((pos + 4 : Nat) : Int) := by
        rw [s32_of_range (by omega) (by omega)]
        rfl
      unfold chunkLoop
      rw [h8, h4, hs.fileLen]
      split_ifs with hmore
      · obtain ⟨hmore, hcount⟩ := hmore
        have hroom8 : pos + 8 ≤ len := by omega
        clear h8 h4
        have hhere := hchunk hroom8
        have hlt := hfit _ _ hhere hcount hroom8
        rw [at_eq hp hs.file (show pos + 4 ≤ len by omega), at_eq hp hs.file hpos,
          show ((pos : Int) + 8) = ((pos + 8 : Nat) : Int) from rfl,
          at_eq hp hs.file (show pos + 8 ≤ len by omega)]
        refine (goes_lift (be32_meets (by omega) (by omega) (by omega))).bind fun n hn => ?_
        rw [show base + (pos + 4) = base + pos + 4 by omega] at hn
        subst hn
        generalize hnum : number mem (base + pos + 4) = n at hlt
        rw [s32_of_range (show -2 ^ 31 ≤ (n : Int) by omega) (by omega),
          s32_of_range (show -2 ^ 31 ≤ ((pos + 8 : Nat) : Int) + (n : Int) by omega) (by omega)]
        -- the chunk's length, cut at the end of the file
        obtain ⟨k, hk, hkend, hkeq⟩ : ∃ k, (if ((pos + 8 : Nat) : Int) + (n : Int) > (len : Int) then
            ofInt32 ((len : Int) - pos - 8) else n) = k ∧ pos + 8 + k ≤ len
              ∧ (k = n ∧ pos + 8 + n ≤ len ∨ pos + 8 + k = len) := by
          split_ifs with hover
          · rw [ofInt32_of_range (by omega) (by omega)]
            exact ⟨_, rfl, by omega, .inr (by omega)⟩
          · exact ⟨n, rfl, by omega, .inl ⟨rfl, by omega⟩⟩
        dsimp only
        rw [hk]
        clear hk
        refine (goes_lift (sameBytes_meets (by omega) (by omega)
          (show base + pos + mtrk.length ≤ base + len by simp [mtrk]; omega))).bind fun b hb => ?_
        have hnext : s32 (((pos + 8 : Nat) : Int) + (k : Int)) = ((pos + 8 + k : Nat) : Int) := by
          rw [s32_of_range (by omega) (by omega)]
          rfl
        rw [hnext]
        clear hnext
        -- the rest of the scan, with or without a new track
        have hrest {s₁ : Smf} (hs₁ : Playing base len s₁) (hsteady : Steady s s₁)
            (hcount₁ : s₁.tracks.length
              = if spell mem (base + pos) 4 = mtrk then s.tracks.length + 1 else s.tracks.length) :
            Goes mem (InFile base len) (chunkLoop turns ((pos + 8 + k : Nat) : Int) s₁)
              (fun s' => Playing base len s' ∧ turns + 1 ≤ len - pos)
              (fun s' => Playing base len s' ∧ Steady s s') := by
          refine (ih hs₁ hkend fun hmore₁ => ?_).mono (fun s' hs' => ⟨hs'.1, by omega⟩)
            fun s' hs' => ⟨hs'.1, hsteady.trans hs'.2⟩
          rcases hkeq with ⟨rfl, hin⟩ | hlast
          · rw [hcount₁, ← hnum]
            exact .next hhere hcount (by rw [hnum]; exact hin)
          · omega
        cases b with
        | false =>
            have hno : spell mem (base + pos) 4 ≠ mtrk := by simpa [mtrk] using hb.symm
            exact hrest hs (.refl s) (by rw [if_neg hno])
        | true =>
            have hyes : spell mem (base + pos) 4 = mtrk := by simpa [mtrk] using hb.symm
            rw [if_pos rfl, u32_of_lt (show base + (pos + 8) + k < 2 ^ 32 by omega)]
            have hnew : TrackOk base len { p := base + (pos + 8), fin := base + (pos + 8) + k } :=
              ⟨by dsimp only; omega, by dsimp only; omega, fun _ => by dsimp only; omega⟩
            refine (goes_lift (readDelta_meets hp hnew)).bind fun t ht => ?_
            refine hrest ⟨hs.file, rfl, fun t' ht' => ?_, ?_⟩ ⟨rfl, hs.fileLen.symm, rfl, rfl⟩ ?_
            · rcases List.mem_append.mp ht' with hold | hnew'
              · exact hs.tracks t' hold
              · rw [List.mem_singleton.mp hnew']
                exact ht.ok
            · rw [List.length_append]
              exact hcount
            · rw [if_pos hyes]
              exact List.length_append
      · exact goes_pure ⟨hs, .refl s⟩

-- ================================================================== loading

/-- A state in which a call is cut short: only if it had too few turns. -/
def Short (base len turns : Nat) (s : Smf) : Prop := Playing base len s ∧ turns ≤ enough len

theorem initTracks_goes (hp : Placed base len) (hfit : ChunksFit mem base len) (hlen : 14 ≤ len)
    {turns : Nat} {s : Smf} (hfile : s.file = base) (hfileLen : s.fileLen = len) :
    Goes mem (InFile base len) (initTracks turns s) (Short base len turns)
      (fun s' => Playing base len s' ∧ s'.now = 0) := by
  have hempty : Playing base len { s with tracks := [] } :=
    ⟨hfile, hfileLen, fun t ht => (nomatch ht), Nat.zero_le _⟩
  have hscan : Goes mem (InFile base len) (chunkLoop turns 14 { s with tracks := [] })
      (Short base len turns) (Playing base len) := by
    refine (chunkLoop_goes hp hfit hempty hlen fun _ => .first).mono (fun s' hs' => ⟨hs'.1, ?_⟩)
      fun _ hs' => hs'.1
    have := hs'.2
    unfold enough maxTracks
    omega
  unfold initTracks
  refine hscan.bind fun s₁ hs₁ => goes_pure ?_
  exact ⟨⟨hs₁.file, hs₁.fileLen, hs₁.tracks, hs₁.count⟩, rfl⟩

theorem rewind_goes (hp : Placed base len) (hfit : ChunksFit mem base len) (hlen : 14 ≤ len)
    {turns : Nat} {s : Smf} (hfile : s.file = base) (hfileLen : s.fileLen = len) :
    Goes mem (InFile base len) (rewind turns s) (Short base len turns)
      (fun s' => Playing base len s' ∧ s'.now = 0) := by
  unfold rewind
  refine (initTracks_goes hp hfit hlen hfile hfileLen).bind fun s₁ hs₁ => goes_pure ?_
  split_ifs
  · obtain ⟨hplaying, hnow⟩ := hs₁
    exact ⟨⟨hplaying.file, hplaying.fileLen, hplaying.tracks, hplaying.count⟩, hnow⟩
  · exact hs₁

/-- A loop of steps ends: each takes a byte. -/
theorem lengthLoop_goes (hp : Placed base len) {fuel turns : Nat} {s : Smf}
    (hs : Playing base len s) :
    Goes mem (InFile base len) (lengthLoop fuel turns s)
      (fun s' => Playing base len s' ∧ (fuel ≤ enough len ∨ turns ≤ s.left))
      (Playing base len) := by
  induction turns generalizing s with
  | zero => exact goes_throw ⟨hs, .inr (Nat.zero_le _)⟩
  | succ turns ih =>
      unfold lengthLoop
      refine ((step_goes hp hs).mono (fun s' hs' => ⟨hs'.1, .inl (le_trans hs'.2 hs.left_le)⟩)
        fun _ hr => hr).bind fun r hr => ?_
      obtain ⟨more, s₁⟩ := r
      obtain ⟨hplaying, -, -, -, hless⟩ := hr
      dsimp only at hplaying hless ⊢
      cases more with
      | false => exact goes_pure hplaying
      | true =>
          refine (ih hplaying).mono (fun s' hs' => ⟨hs'.1, ?_⟩) fun _ h => h
          have := hless rfl
          rcases hs'.2 with h | h
          · exact .inl h
          · exact .inr (by omega)

theorem lengthLoop_short (hp : Placed base len) {turns : Nat} {s : Smf}
    (hs : Playing base len s) :
    Goes mem (InFile base len) (lengthLoop turns turns s) (Short base len turns)
      (Playing base len) := by
  refine (lengthLoop_goes hp hs).mono (fun s' hs' => ⟨hs'.1, ?_⟩) fun _ h => h
  rcases hs'.2 with h | h
  · exact h
  · exact le_trans h hs.left_le

/-- Loading reads the file only, and ends. -/
theorem load_goes (hp : Placed base len) (hfit : ChunksFit mem base len) {turns : Nat} (s : Smf) :
    Goes mem (InFile base len) (load turns base len s) (Short base len turns)
      (fun r => r.1 = true → 14 ≤ len ∧ Playing base len r.2 ∧ r.2.now = 0) := by
  have hroom := hp.room
  have hfail {s' : Smf} : Goes mem (InFile base len) (pure (false, s') : Run (Bool × Smf))
      (Short base len turns) (fun r => r.1 = true → 14 ≤ len ∧ Playing base len r.2 ∧ r.2.now = 0) :=
    goes_pure fun h => nomatch h
  unfold load
  dsimp only
  split_ifs with hshort
  · exact hfail
  have hlen : 14 ≤ len := by omega
  refine (goes_lift (sameBytes_meets (by omega) (le_refl base)
    (show base + mthd.length ≤ base + len by simp [mthd]; omega))).bind fun b _ => ?_
  split_ifs
  · exact hfail
  rw [u32_of_lt (show base + 4 < 2 ^ 32 by omega), u32_of_lt (show base + 12 < 2 ^ 32 by omega),
    u32_of_lt (show base + 13 < 2 ^ 32 by omega)]
  refine (goes_lift (be32_meets (by omega) (by omega) (by omega))).bind fun n _ => ?_
  split_ifs
  · exact hfail
  refine (goes_lift (byteOf_meets (Q := fun _ => True) ⟨by omega, by omega⟩ trivial)).bind
    fun b12 _ => ?_
  refine (goes_lift (byteOf_meets (Q := fun _ => True) ⟨by omega, by omega⟩ trivial)).bind
    fun b13 _ => ?_
  -- the two initialisations, with the run for the length between them
  have hrest {s₀ : Smf} (hfile : s₀.file = base) (hfileLen : s₀.fileLen = len) :
      Goes mem (InFile base len)
        (do
          let s ← initTracks turns s₀
          let s ← lengthLoop turns turns { s with chanUsed := fun _ => false }
          let s := { s with lengthMs := u32 (u64 (s.tickTime / 2 ^ 32 * 1000) / synthRate) }
          let s ← rewind turns { s with syn := true }
          pure (true, s) : Run (Bool × Smf))
        (Short base len turns) (fun r => r.1 = true → 14 ≤ len ∧ Playing base len r.2 ∧ r.2.now = 0) := by
    refine (initTracks_goes hp hfit hlen hfile hfileLen).bind fun s₁ hs₁ => ?_
    obtain ⟨hplaying, -⟩ := hs₁
    have hplaying' : Playing base len { s₁ with chanUsed := fun _ => false } :=
      ⟨hplaying.file, hplaying.fileLen, hplaying.tracks, hplaying.count⟩
    refine (lengthLoop_short hp hplaying').bind fun s₂ hs₂ => ?_
    refine Goes.bind (rewind_goes hp hfit hlen ?_ ?_) fun s₃ hs₃ => ?_
    · exact hs₂.file
    · exact hs₂.fileLen
    · obtain ⟨hplaying₃, hnow⟩ := hs₃
      exact goes_pure fun _ => ⟨hlen, hplaying₃, hnow⟩
  split_ifs
  · exact hfail
  · exact hrest rfl rfl
  · exact hrest rfl rfl

end Ncmips.Midi
