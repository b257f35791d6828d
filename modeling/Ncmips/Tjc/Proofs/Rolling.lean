/-
Rolling refresh: no tile stays out for longer than a round takes.

A frame that is not forced marks the next `param` tiles from the cursor on
and leaves the cursor behind them; a forced one carries every tile and leaves
the cursor where it is. So the tiles that frames in a row have not carried
yet are always those from the cursor on, up to where the cursor was at first.
-/
import Ncmips.Tjc.Proofs.Stale

namespace Ncmips.Tjc

open Bits

-- ================================================================ the policy

/-- A cursor position and a step, taken around. -/
theorem around {c j n : Nat} (hc : c < n) (hj : j ≤ n) :
    (c + j) % n = if c + j < n then c + j else c + j - n := by
  split_ifs with h
  · exact Nat.mod_eq_of_lt h
  · rw [Nat.mod_eq_sub_mod (Nat.le_of_not_lt h), Nat.mod_eq_of_lt (by omega)]

/-- Marking `n` tiles in turn. -/
theorem RefreshPolicy.mark_iterate {p : RefreshPolicy} (hp : p.cursor < p.tiles)
    (dirty : Nat → Bool) (n : Nat) :
    (mark^[n] (p, dirty)).1 = { p with cursor := (p.cursor + n) % p.tiles }
      ∧ ∀ t, (mark^[n] (p, dirty)).2 t = true
        ↔ dirty t = true ∨ ∃ j < n, t = (p.cursor + j) % p.tiles := by
  induction n with
  | zero =>
    refine ⟨?_, fun t => by simp⟩
    rw [Nat.add_zero, Nat.mod_eq_of_lt hp]
    rfl
  | succ n ih =>
    obtain ⟨hp₁, hdirty⟩ := ih
    rw [Function.iterate_succ_apply']
    have hlt := Nat.mod_lt (p.cursor + n) (Nat.lt_of_le_of_lt (Nat.zero_le _) hp)
    refine ⟨?_, fun t => ?_⟩
    · show { (mark^[n] (p, dirty)).1 with
        cursor := if (mark^[n] (p, dirty)).1.cursor + 1 = (mark^[n] (p, dirty)).1.tiles then 0
          else (mark^[n] (p, dirty)).1.cursor + 1 } = _
      rw [hp₁]
      dsimp only
      congr 1
      rw [← Nat.add_assoc, ← Nat.mod_add_mod (p.cursor + n), around hlt (by omega)]
      split_ifs <;> omega
    · show Function.update (mark^[n] (p, dirty)).2 (mark^[n] (p, dirty)).1.cursor true t = true ↔ _
      rw [hp₁]
      dsimp only
      by_cases ht : t = (p.cursor + n) % p.tiles
      · rw [ht, Function.update_self]
        exact iff_of_true rfl (.inr ⟨n, Nat.lt_succ_self n, rfl⟩)
      · rw [Function.update_of_ne ht, hdirty]
        refine or_congr_right ⟨?_, ?_⟩
        · rintro ⟨j, hj, rfl⟩
          exact ⟨j, Nat.lt_succ_of_lt hj, rfl⟩
        · rintro ⟨j, hj, rfl⟩
          have hne : j ≠ n := fun h => ht (by rw [h])
          exact ⟨j, by omega, rfl⟩

/-- The tiles `n` steps of the cursor go over. -/
def turnTiles (tiles cursor n : Nat) : Finset Nat :=
  (Finset.range n).image fun j => (cursor + j) % tiles

theorem mem_turnTiles {tiles cursor n t : Nat} :
    t ∈ turnTiles tiles cursor n ↔ ∃ j < n, t = (cursor + j) % tiles := by
  simp only [turnTiles, Finset.mem_image, Finset.mem_range, eq_comm]

/-- They are as many, up to a full round. -/
theorem turnTiles_card {tiles cursor n : Nat} (hc : cursor < tiles) (hn : n ≤ tiles) :
    (turnTiles tiles cursor n).card = n := by
  rw [turnTiles, Finset.card_image_of_injOn, Finset.card_range]
  intro i hi j hj heq
  simp only [Finset.coe_range, Set.mem_Iio] at hi hj
  dsimp only at heq
  rw [around hc (by omega), around hc (by omega)] at heq
  split_ifs at heq <;> omega

theorem turnTiles_lt {tiles cursor n t : Nat} (hc : cursor < tiles)
    (h : t ∈ turnTiles tiles cursor n) : t < tiles := by
  obtain ⟨j, -, rfl⟩ := mem_turnTiles.mp h
  exact Nat.mod_lt _ (Nat.lt_of_le_of_lt (Nat.zero_le _) hc)

-- ================================================================ the encoder

/-- What a rolling encoder keeps; the cursor is on a tile. -/
structure Encoder.Rolls (e : Encoder) (param tiles : Nat) : Prop where
  mode : e.policy.mode = .rolling
  param_eq : e.policy.param.toNat = param
  param_pos : 1 ≤ param
  policyTiles : e.policy.tiles = tiles
  layoutTiles : e.layout.tiles = tiles
  cursor : 0 < tiles → e.policy.cursor < tiles

variable {e : Encoder} {param tiles : Nat}

/-- Whether the next frame is a full refresh. -/
def Encoder.forces (e : Encoder) : Bool := e.keyframeRequest || e.policy.forced e.frameIndex

/-- The tiles the round-robin marks, and the cursor behind them. -/
theorem Encoder.Rolls.apply (h : e.Rolls param tiles) (htiles : 0 < tiles) (dirty : Nat → Bool) :
    (e.policy.apply dirty).1
        = { e.policy with cursor := (e.policy.cursor + min param tiles) % tiles }
      ∧ ∀ t, (e.policy.apply dirty).2 t = true
        ↔ dirty t = true ∨ t ∈ turnTiles tiles e.policy.cursor (min param tiles) := by
  have hparam := h.param_pos
  have hcond : ¬(e.policy.mode ≠ .rolling ∨ e.policy.param = 0 ∨ e.policy.tiles = 0) := by
    rintro (hm | hz | hz)
    · exact hm h.mode
    · have := h.param_eq
      rw [hz] at this
      exact absurd this (by show ¬(0 = param); omega)
    · rw [h.policyTiles] at hz
      omega
  obtain ⟨hp, hdirty⟩ := e.policy.mark_iterate (h.policyTiles ▸ h.cursor htiles) dirty
    (min param tiles)
  unfold RefreshPolicy.apply
  rw [if_neg hcond, h.param_eq, h.policyTiles]
  refine ⟨by simp only [hp, h.policyTiles], fun t => ?_⟩
  rw [hdirty, mem_turnTiles, h.policyTiles]

/-- A frame that is not forced carries what changed and what the
round-robin marks. -/
theorem Encoder.Rolls.dirtyList (h : e.Rolls param tiles) (pic : Picture) (hforce : e.forces = false)
    {t : Nat} (ht : t < tiles) :
    t ∈ e.dirtyList pic ↔ (e.load pic).tileChanged t = true
      ∨ t ∈ turnTiles tiles e.policy.cursor (min param tiles) := by
  have hforce : (e.keyframeRequest || e.policy.forced e.frameIndex) = false := hforce
  unfold Encoder.dirtyList Encoder.markDirty
  rw [hforce]
  simp only [List.mem_filter, List.mem_range, h.layoutTiles, ht, true_and, Bool.false_eq_true,
    if_false]
  have happly := (h.apply (Nat.lt_of_le_of_lt (Nat.zero_le t) ht)
    ((e.load pic).changed (max 1 (32768 / (e.layout.tileW * e.layout.tileH))))).2 t
  rw [(e.load pic).changed_apply _ (h.layoutTiles.symm ▸ ht)] at happly
  exact happly

theorem Encoder.Rolls.of_policy {e' : Encoder} {c : Nat} (h : e.Rolls param tiles)
    (hpolicy : e'.policy = { e.policy with cursor := c }) (hlayout : e'.layout = e.layout)
    (hc : 0 < tiles → c < tiles) : e'.Rolls param tiles where
  mode := by rw [hpolicy]; exact h.mode
  param_eq := by rw [hpolicy]; exact h.param_eq
  param_pos := h.param_pos
  policyTiles := by rw [hpolicy]; exact h.policyTiles
  layoutTiles := by rw [hlayout]; exact h.layoutTiles
  cursor htiles := by rw [hpolicy]; exact hc htiles

/-- The cursor behind a frame. -/
theorem Encoder.Rolls.encodeFrame (h : e.Rolls param tiles) (pic : Picture) :
    (e.encodeFrame pic).2.2.Rolls param tiles
      ∧ (e.forces = false → 0 < tiles →
        (e.encodeFrame pic).2.2.policy.cursor = (e.policy.cursor + min param tiles) % tiles) := by
  have hlayout : (e.encodeFrame pic).2.2.layout = e.layout := e.encodeFrame_layout pic
  have hpolicy : (e.encodeFrame pic).2.2.policy = ((e.load pic).markDirty e.forces).1 := by
    obtain ⟨rem, queue, lms, heq⟩ := e.encodeFrame_planes pic
    rw [heq]
    rfl
  unfold Encoder.markDirty at hpolicy
  split at hpolicy
  next hf =>
    exact ⟨h.of_policy hpolicy hlayout h.cursor, fun hf' => absurd hf (by rw [hf']; decide)⟩
  next hf =>
    rcases Nat.eq_zero_or_pos tiles with h0 | htiles
    · have hsame : (e.encodeFrame pic).2.2.policy = { e.policy with cursor := e.policy.cursor } := by
        rw [hpolicy]
        unfold RefreshPolicy.apply
        rw [if_pos (.inr (.inr (h.policyTiles.trans h0)))]
        rfl
      exact ⟨h.of_policy hsame hlayout h.cursor, fun _ hpos => absurd hpos (by omega)⟩
    · have hnext := hpolicy.trans (h.apply htiles _).1
      refine ⟨h.of_policy hnext hlayout fun _ => Nat.mod_lt _ htiles, fun _ _ => ?_⟩
      rw [hnext]

theorem Encoder.Rolls.call (h : e.Rolls param tiles) (c : Call) : (e.call c).Rolls param tiles := by
  cases c with
  | pushAudio interleaved n => exact h.of_policy rfl rfl h.cursor
  | forceKeyframe => exact h.of_policy rfl rfl h.cursor
  | encodeFrame pic => exact (h.encodeFrame pic).1

theorem Encoder.rolls_init {hardware : Nat} {cfg : Config} (hinit : Encoder.init hardware cfg = .ok e)
    (hmode : cfg.mode = .rolling) (hparam : 1 ≤ cfg.refreshParam.toNat) :
    e.Rolls cfg.refreshParam.toNat e.layout.tiles := by
  unfold Encoder.init at hinit
  split at hinit
  · cases hinit
  · cases hinit
    exact ⟨hmode, rfl, hparam, rfl, rfl, id⟩

-- =================================================================== the runs

/-- Frames in a row reach every tile that is `j` behind the cursor, once
they come to more than `j` marks. -/
theorem Encoder.Rolls.reaches (h : e.Rolls param tiles) (htiles : 0 < tiles) (calls : List Call)
    {n j : Nat} (hj : j < n * min param tiles) (hjt : j < tiles)
    (hlen : n ≤ (e.run calls).length) :
    ∃ i < n, ∃ r, (e.run calls)[i]? = some r
      ∧ carries r.bytes ((e.policy.cursor + j) % tiles) = true := by
  induction calls generalizing e n j with
  | nil =>
    rw [Nat.le_zero.mp hlen, Nat.zero_mul] at hj
    exact absurd hj (Nat.not_lt_zero j)
  | cons c calls ih =>
    cases c with
    | pushAudio interleaved k => exact ih (h.call (.pushAudio interleaved k)) hj hjt hlen
    | forceKeyframe => exact ih (h.call .forceKeyframe) hj hjt hlen
    | encodeFrame pic =>
      have hpos : 0 < n := by
        rcases Nat.eq_zero_or_pos n with h0 | hpos
        · rw [h0, Nat.zero_mul] at hj
          omega
        · exact hpos
      obtain ⟨hnext, hcursor⟩ := h.encodeFrame pic
      have ht := Nat.mod_lt (e.policy.cursor + j) htiles
      have hcarry : (e.policy.cursor + j) % tiles ∈ e.dirtyList pic →
          ∃ i < n, ∃ r, (e.run (.encodeFrame pic :: calls))[i]? = some r
            ∧ carries r.bytes ((e.policy.cursor + j) % tiles) = true := fun hmem =>
        ⟨0, hpos, _, rfl, (e.carries_iff pic (h.layoutTiles.symm ▸ ht)).2 hmem⟩
      cases hforce : e.forces with
      | true => exact hcarry (e.dirtyList_forced pic hforce (h.layoutTiles.symm ▸ ht))
      | false =>
        rcases Nat.lt_or_ge j (min param tiles) with hnow | hlater
        · exact hcarry ((h.dirtyList pic hforce ht).2 (.inr (mem_turnTiles.2 ⟨j, hnow, rfl⟩)))
        · -- not among this frame's: the cursor has come nearer
          obtain ⟨m, rfl⟩ : ∃ m, n = m + 1 := ⟨n - 1, by omega⟩
          have hj' : j - min param tiles < m * min param tiles := by
            rw [Nat.add_mul, Nat.one_mul] at hj
            omega
          obtain ⟨i, hi, r, hr, hcar⟩ := ih hnext hj' (by omega)
            (by simpa [Encoder.run] using hlen)
          refine ⟨i + 1, by omega, r, hr, ?_⟩
          rw [hcursor hforce htiles, Nat.mod_add_mod] at hcar
          rwa [show e.policy.cursor + min param tiles + (j - min param tiles)
            = e.policy.cursor + j by omega] at hcar

/-- The records from the `k`-th on are those of a run from where the encoder
is then. -/
theorem Encoder.run_drop (e : Encoder) (calls : List Call) (k : Nat) :
    ∃ before after, (e.run calls).drop k = (e.after before).run after := by
  induction calls generalizing e k with
  | nil => exact ⟨[], [], List.drop_nil⟩
  | cons c calls ih =>
    cases k with
    | zero => exact ⟨[], c :: calls, rfl⟩
    | succ k =>
      cases c with
      | pushAudio interleaved n =>
        obtain ⟨before, after, h⟩ := ih (e.pushAudio interleaved n) (k + 1)
        exact ⟨.pushAudio interleaved n :: before, after, h⟩
      | forceKeyframe =>
        obtain ⟨before, after, h⟩ := ih e.forceKeyframe (k + 1)
        exact ⟨.forceKeyframe :: before, after, h⟩
      | encodeFrame pic =>
        obtain ⟨before, after, h⟩ := ih (e.encodeFrame pic).2.2 k
        exact ⟨.encodeFrame pic :: before, after, h⟩

/-- Frames that a round of the cursor takes. -/
def roundFrames (param tiles : Nat) : Nat := (tiles + param - 1) / param

theorem round_covers {param tiles : Nat} (hparam : 1 ≤ param) :
    tiles ≤ roundFrames param tiles * min param tiles := by
  unfold roundFrames
  rcases Nat.le_total param tiles with hle | hle
  · rw [Nat.min_eq_left hle]
    have hdiv := Nat.div_add_mod (tiles + param - 1) param
    have hmod := Nat.mod_lt (tiles + param - 1) hparam
    rw [Nat.mul_comm]
    omega
  · rw [Nat.min_eq_right hle]
    rcases Nat.eq_zero_or_pos tiles with h0 | hpos
    · omega
    · have hone : 1 ≤ (tiles + param - 1) / param := (Nat.one_le_div_iff hparam).2 (by omega)
      exact Nat.le_mul_of_pos_left tiles hone

/-- Rolling refresh: every frame that is not forced marks the next
`min param tiles` tiles and no others but what changed, and in any
`tiles / param` frames in a row, rounded up, every tile is carried. -/
theorem rolling_reaches_all {hardware : Nat} {cfg : Config} {e₀ : Encoder}
    (hinit : Encoder.init hardware cfg = .ok e₀) (hmode : cfg.mode = .rolling)
    (hparam : 1 ≤ cfg.refreshParam.toNat) (calls : List Call) :
    let param := cfg.refreshParam.toNat
    let tiles := e₀.layout.tiles
    (∀ pic, (e₀.after calls).forces = false →
      let e := e₀.after calls
      let marked := turnTiles tiles e.policy.cursor (min param tiles)
      marked.card = min param tiles ∧ (∀ t ∈ marked, t < tiles)
        ∧ ∀ t < tiles, t ∈ e.dirtyList pic ↔ (e.load pic).tileChanged t = true ∨ t ∈ marked)
      ∧ ∀ k, k + roundFrames param tiles ≤ (e₀.run calls).length → ∀ t < tiles,
        ∃ i, k ≤ i ∧ i < k + roundFrames param tiles
          ∧ ∃ r, (e₀.run calls)[i]? = some r ∧ carries r.bytes t = true := by
  intro param tiles
  have hrolls : ∀ calls, (e₀.after calls).Rolls param tiles :=
    Encoder.after_inv (I := fun e => e.Rolls param tiles) (fun _ c h => h.call c)
      (Encoder.rolls_init hinit hmode hparam)
  refine ⟨fun pic hforce => ?_, fun k hk t ht => ?_⟩
  · have h := hrolls calls
    refine ⟨?_, ?_, fun t ht => h.dirtyList pic hforce ht⟩
    · rcases Nat.eq_zero_or_pos tiles with h0 | hpos
      · rw [h0, Nat.min_zero]
        rfl
      · exact turnTiles_card (h.cursor hpos) (Nat.min_le_right _ _)
    · intro t ht
      rcases Nat.eq_zero_or_pos tiles with h0 | hpos
      · rw [h0, Nat.min_zero] at ht
        exact absurd ht (Finset.notMem_empty t)
      · exact turnTiles_lt (h.cursor hpos) ht
  · have htiles : 0 < tiles := Nat.lt_of_le_of_lt (Nat.zero_le t) ht
    obtain ⟨before, after, hdrop⟩ := e₀.run_drop calls k
    have h := hrolls before
    have hc := h.cursor htiles
    -- how far the tile is behind the cursor
    obtain ⟨j, hj, hjt⟩ : ∃ j < tiles, ((e₀.after before).policy.cursor + j) % tiles = t := by
      rcases Nat.lt_or_ge t (e₀.after before).policy.cursor with hlt | hge
      · refine ⟨t + tiles - (e₀.after before).policy.cursor, by omega, ?_⟩
        rw [around hc (by omega)]
        split_ifs <;> omega
      · refine ⟨t - (e₀.after before).policy.cursor, by omega, ?_⟩
        rw [around hc (by omega)]
        split_ifs <;> omega
    have hcovers := @round_covers param tiles hparam
    obtain ⟨i, hi, r, hr, hcar⟩ := h.reaches htiles after (n := roundFrames param tiles)
      (Nat.lt_of_lt_of_le hj hcovers) hj (by rw [← hdrop, List.length_drop]; omega)
    refine ⟨k + i, Nat.le_add_right k i, by omega, r, ?_, hjt ▸ hcar⟩
    rw [← List.getElem?_drop, hdrop]
    exact hr

/-- Two tiles, one a frame: two frames of the same picture carry both,
whatever else is done between them. -/
theorem rolling_reaches_all_two :
    let cfg : Config := { width := 2, height := 1, tileW := 1, tileH := 1, refreshParam := 1 }
    let pic : Picture := { src := fun _ _ => 200, stride := fun _ => 2 }
    let calls : List Call := [.encodeFrame pic, .encodeFrame pic, .encodeFrame pic]
    ∃ e₀ : Encoder, Encoder.init 1 cfg = .ok e₀ ∧ e₀.layout.tiles = 2
      ∧ ∃ i, 1 ≤ i ∧ i < 3 ∧ ∃ r, (e₀.run calls)[i]? = some r ∧ carries r.bytes 1 = true := by
  intro cfg pic calls
  obtain ⟨e₀, he₀⟩ := Encoder.init_ok 1 (show cfg.error = none by decide)
  obtain ⟨hinv, hcfg, -⟩ := Encoder.inv_init he₀
  have htiles : e₀.layout.tiles = 2 := by
    rw [hinv.layout_eq, hcfg]
    decide
  have hround : roundFrames cfg.refreshParam.toNat e₀.layout.tiles = 2 := by
    rw [htiles]
    decide
  obtain ⟨i, hi, hlt, hr⟩ := (rolling_reaches_all he₀ (by decide) (by decide) calls).2 1
    (by rw [hround]; exact le_rfl) 1 (by omega)
  rw [hround] at hlt
  exact ⟨e₀, he₀, htiles, i, hi, hlt, hr⟩

end Ncmips.Tjc
