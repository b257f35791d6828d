/-
How old a picture can be: the tiles a frame did not carry.

Two facts about the state after a frame. A tile that was left out is
close to its reference block by block, because change detection said so
and nothing touched the tile since (`Encoder.Close`). And the shadow
planes show the reference planes, coded and decoded, in every tile
(`Encoder.Shown`): a carried tile because both were just written from
the input, any other because both were kept. The first frame is always
a full refresh, so this holds from the first frame on. With the last
coded tiles as reference and no tolerance, the two together say that a
full refresh would change nothing.
-/
import Ncmips.Tjc.Proofs.Threads

namespace Ncmips.Tjc

open Bits (byteAt byteAt_append_left)

-- ============================================================= difference

/-- The sum of absolute differences of a whole block. -/
def blockSad (a b : Array UInt8) (off stride w h : Nat) : Nat :=
  ((List.range h).map fun y => sadRow a b (off + y * stride) w).sum

theorem sad_le_iff (a b : Array UInt8) (off stride w limit rows : Nat) :
    ∀ y total, total ≤ limit →
      (sad a b off stride w limit rows y total ≤ limit ↔
        total + ((List.range' y rows).map fun k => sadRow a b (off + k * stride) w).sum
          ≤ limit) := by
  induction rows with
  | zero => exact fun y total h => by simp [sad]
  | succ rows ih =>
      intro y total htotal
      simp only [sad, List.range'_succ, List.map_cons, List.sum_cons]
      split
      · next hgt =>
        -- given up: the rest only adds to it
        constructor
        · exact fun h => absurd h (by omega)
        · intro h
          omega
      · next hle =>
        rw [ih (y + 1) _ (by omega)]
        omega

/-- Giving up early never changes the verdict. -/
theorem sad_le (a b : Array UInt8) (off stride w limit h : Nat) :
    sad a b off stride w limit h 0 0 ≤ limit ↔ blockSad a b off stride w h ≤ limit := by
  rw [sad_le_iff _ _ _ _ _ _ _ _ _ (Nat.zero_le limit), Nat.zero_add, blockSad,
    List.range_eq_range']

/-- The planes a frame is compared with. -/
def Encoder.reference (e : Encoder) : Planes :=
  match e.cfg.reference with
  | .reconstructed => e.recon
  | .lastCoded => e.lastCoded

/-- Every block of the tile is within the threshold of its
reference. -/
def Encoder.Close (e : Encoder) (t : Nat) : Prop :=
  ∀ c, let r := tileRect e.layout t c
    ∀ y x, (y, x) ∈ blockOrigins r.w r.h →
      blockSad (e.cur.p c) (e.reference.p c) ((r.y + y) * e.cur.stride c + r.x + x)
          (e.cur.stride c) (min 8 (r.w - x)) (min 8 (r.h - y))
        ≤ e.cfg.motionThresholdK.toNat * (min 8 (r.w - x) * min 8 (r.h - y))

theorem Encoder.tileChanged_eq_false (e : Encoder) (t : Nat) :
    e.tileChanged t = false ↔ e.Close t := by
  unfold Encoder.tileChanged
  simp only [List.any_eq_false, decide_eq_true_eq, Nat.not_lt, List.any_eq_true, not_exists,
    not_and, Prod.exists]
  constructor
  · intro h c r y x ho
    have hc : c ∈ ([0, 1, 2] : List (Fin 3)) := by fin_cases c <;> simp
    exact (sad_le ..).1 (h c hc y x ho)
  · intro h c _ y x ho
    exact (sad_le ..).2 (h c y x ho)

-- ============================================================ dirty tiles

theorem Encoder.changed_apply (e : Encoder) (minPerThread : Nat) {t : Nat}
    (ht : t < e.layout.tiles) : e.changed minPerThread t = e.tileChanged t := by
  rw [Encoder.changed_eq]
  have hfold : ∀ (ts : List Nat) (d : Nat → Bool), t ∈ ts ∨ d t = e.tileChanged t →
      (ts.foldl (fun d t => Function.update d t (e.tileChanged t)) d) t = e.tileChanged t := by
    intro ts
    induction ts with
    | nil => exact fun d h => h.elim (fun h => nomatch h) id
    | cons s ts ih =>
        intro d h
        apply ih
        by_cases hs : t = s
        · subst hs
          exact Or.inr (Function.update_self ..)
        · rcases h with h | h
          · exact Or.inl ((List.mem_cons.1 h).resolve_left hs)
          · exact Or.inr ((Function.update_of_ne hs _ _).trans h)
  exact hfold _ _ (Or.inl (List.mem_range.2 ht))

/-- The refresh policy adds tiles and drops none. -/
theorem RefreshPolicy.apply_mono (p : RefreshPolicy) {dirty : Nat → Bool} {t : Nat}
    (h : dirty t = true) : (p.apply dirty).2 t = true := by
  have hmark : ∀ (n : Nat) (s : RefreshPolicy × (Nat → Bool)), s.2 t = true →
      (RefreshPolicy.mark^[n] s).2 t = true := by
    intro n
    induction n with
    | zero => exact fun s hs => hs
    | succ n ih =>
        intro s hs
        apply ih
        by_cases heq : t = s.1.cursor
        · simp only [RefreshPolicy.mark, heq, Function.update_self]
        · simp only [RefreshPolicy.mark, Function.update_of_ne heq, hs]
  unfold RefreshPolicy.apply
  split
  · exact h
  · exact hmark _ _ h

/-- A tile that is not in the list was found unchanged. -/
theorem Encoder.close_of_not_dirty (e : Encoder) (pic : Picture) {t : Nat}
    (ht : t < e.layout.tiles) (hmem : t ∉ e.dirtyList pic) :
    (e.load pic).Close t := by
  rw [← Encoder.tileChanged_eq_false]
  have hflag : ((e.load pic).markDirty
      (e.keyframeRequest || e.policy.forced e.frameIndex)).2 t ≠ true := fun h =>
    hmem (List.mem_filter.2 ⟨List.mem_range.2 ht, h⟩)
  unfold Encoder.markDirty at hflag
  split at hflag
  · exact absurd rfl hflag
  · rw [Bool.eq_false_iff]
    intro hchanged
    apply hflag
    apply RefreshPolicy.apply_mono
    rw [(e.load pic).changed_apply _ ht]
    exact hchanged

-- ================================================================= shown

/-- Coding a tile again from planes that agree on it writes the same. -/
theorem shadeTile_congr {l : Layout} (q : Bool → Nat → Nat) {src src' : Planes} {t : Nat}
    (hsrc : src.stride = planeWidth l) (hsrc' : src'.stride = planeWidth l)
    (hagree : Planes.Agree l t src src') : shadeTile l q src t = shadeTile l q src' t := by
  funext c
  unfold shadeTile shadeBlocks
  rw [hsrc, hsrc']
  apply List.flatMap_congr
  rintro ⟨y, x⟩ ho
  obtain ⟨-, -, hy, hx⟩ := mem_blockOrigins.1 ho
  have hload : loadBlock (src.p c)
        (((tileRect l t c).y + y) * planeWidth l c + (tileRect l t c).x + x) (planeWidth l c)
        (min 8 ((tileRect l t c).w - x)) (min 8 ((tileRect l t c).h - y))
      = loadBlock (src'.p c)
        (((tileRect l t c).y + y) * planeWidth l c + (tileRect l t c).x + x) (planeWidth l c)
        (min 8 ((tileRect l t c).w - x)) (min 8 ((tileRect l t c).h - y)) := by
    funext k
    have hcell := hagree c _ (block_cell ho (k := min (k / 8) (min 8 ((tileRect l t c).h - y) - 1))
      (j := min (k % 8) (min 8 ((tileRect l t c).w - x) - 1)) (by omega) (by omega))
    unfold loadBlock
    rw [Array.getD_eq_getD_getElem?, Array.getD_eq_getD_getElem?, hcell]
  simp only [hload]

/-- The shadow planes show tile `t` of the reference planes. -/
def Encoder.Shown (e : Encoder) (t : Nat) : Prop :=
  e.recon.patch (shadeTile e.layout e.q e.lastCoded t) = e.recon

theorem Planes.patch_eq_self {fb : Planes} {ws : PlanePatch}
    (h : ∀ c, ∀ i ∈ Patch.dom (ws c), (Patch.apply (ws c) (fb.p c))[i]? = (fb.p c)[i]?) :
    fb.patch ws = fb := by
  have hp : (fun c => Patch.apply (ws c) (fb.p c)) = fb.p := by
    funext c
    exact Patch.apply_eq_self (h c)
  rw [Planes.patch, hp]

variable {e : Encoder}

/-- After a frame, a carried tile of the reference planes is the
input's. -/
theorem Encoder.Planar.copied (h : e.Planar) (pic : Picture) {t : Nat}
    (hmem : t ∈ e.dirtyList pic) :
    Planes.Agree e.layout t
      (e.lastCoded.paint (copyPatch e.layout (e.load pic).cur) (e.dirtyList pic))
      (e.load pic).cur := by
  intro c i hi
  have hfits := Encoder.load_fits h.cur pic
  have ht := e.dirtyList_lt pic t hmem
  have hlt := h.sound.cells_lt ht c hi
  rw [paint_hit h.sound (owned_copyPatch hfits) hi _ (e.dirtyList_lt pic) hmem,
    apply_copyPatch _ _ _ _ _ (by rwa [hfits.stride]) (by rwa [h.lastCoded.size]),
    Array.getD_eq_getD_getElem?, Array.getElem?_eq_getElem (by rwa [hfits.size])]
  rfl

theorem Encoder.Planar.kept (h : e.Planar) (pic : Picture) {t : Nat} (ht : t < e.layout.tiles)
    (hmem : t ∉ e.dirtyList pic) :
    Planes.Agree e.layout t
        (e.lastCoded.paint (copyPatch e.layout (e.load pic).cur) (e.dirtyList pic)) e.lastCoded
      ∧ Planes.Agree e.layout t
        (e.recon.paint (shadeTile e.layout e.q (e.load pic).cur) (e.dirtyList pic)) e.recon := by
  have hfits := Encoder.load_fits h.cur pic
  exact ⟨fun c i hi => paint_miss h.sound (owned_copyPatch hfits) ht hi _ (e.dirtyList_lt pic) hmem,
    fun c i hi => paint_miss h.sound (owned_shadeTile e.q hfits) ht hi _ (e.dirtyList_lt pic) hmem⟩

/-- A frame leaves a tile shown if it carries it, or if it was shown
before. -/
theorem Encoder.Planar.shown_step (h : e.Planar) (pic : Picture) {t : Nat}
    (ht : t < e.layout.tiles) (hor : t ∈ e.dirtyList pic ∨ e.Shown t) :
    (e.encodeFrame pic).2.2.Shown t := by
  have hfits := Encoder.load_fits h.cur pic
  obtain ⟨rem, queue, lms, heq⟩ := e.encodeFrame_planes pic
  rw [heq, Encoder.Shown]
  set cur := (e.load pic).cur with hcur
  set last := e.lastCoded.paint (copyPatch e.layout cur) (e.dirtyList pic)
  have hlast : last.Fits e.layout := h.lastCoded.paint _ _
  have hstride := hlast.stride
  have hdom : ∀ (src : Planes), src.Fits e.layout → ∀ c,
      Patch.dom (shadeTile e.layout e.q src t c)
        = (tileRect e.layout t c).cells (planeWidth e.layout c) := fun src hsrc c =>
    owned_shadeTile e.q hsrc t ht c
  show (e.recon.paint (shadeTile e.layout e.q cur) (e.dirtyList pic)).patch
    (shadeTile e.layout e.q last t) = _
  apply Planes.patch_eq_self
  intro c i hi
  rw [hdom last hlast] at hi
  by_cases hmem : t ∈ e.dirtyList pic
  · rw [shadeTile_congr e.q hstride hfits.stride (h.copied pic hmem),
      paint_hit h.sound (owned_shadeTile e.q hfits) hi _ (e.dirtyList_lt pic) hmem]
    apply Patch.apply_eq_of_mem
    · rwa [hdom cur hfits]
    · exact ((h.recon.paint _ _).size c).trans (h.recon.size c).symm
  · obtain ⟨hkept, hrecon⟩ := h.kept pic ht hmem
    have hshown := hor.resolve_left hmem
    have hcell : (Patch.apply (shadeTile e.layout e.q e.lastCoded t c) (e.recon.p c))[i]?
        = (e.recon.p c)[i]? :=
      congrArg (fun fb : Planes => (fb.p c)[i]?) hshown
    rw [shadeTile_congr e.q hstride h.lastCoded.stride hkept, hrecon c i hi, ← hcell]
    apply Patch.apply_eq_of_mem
    · rwa [hdom e.lastCoded h.lastCoded]
    · exact ((h.recon.paint _ _).size c).trans (h.recon.size c).symm

/-- A forced frame carries every tile. -/
theorem Encoder.dirtyList_forced (e : Encoder) (pic : Picture)
    (hforce : (e.keyframeRequest || e.policy.forced e.frameIndex) = true) {t : Nat}
    (ht : t < e.layout.tiles) : t ∈ e.dirtyList pic := by
  unfold Encoder.dirtyList Encoder.markDirty
  rw [hforce]
  exact List.mem_filter.2 ⟨List.mem_range.2 ht, rfl⟩

/-- The shape of an encoder, and what it shows from the first frame
on. -/
structure Encoder.Shows (e : Encoder) : Prop where
  planar : e.Planar
  shown : e.frameIndex = 0 ∨ ∀ t < e.layout.tiles, e.Shown t

theorem Encoder.Shows.encodeFrame (h : e.Shows) (pic : Picture) :
    ∀ t < e.layout.tiles, (e.encodeFrame pic).2.2.Shown t := by
  intro t ht
  apply h.planar.shown_step pic ht
  rcases h.shown with hzero | hall
  · left
    apply e.dirtyList_forced pic _ ht
    simp [RefreshPolicy.forced, hzero]
  · exact Or.inr (hall t ht)

theorem Encoder.encodeFrame_layout (e : Encoder) (pic : Picture) :
    (e.encodeFrame pic).2.2.layout = e.layout := by
  obtain ⟨rem, queue, lms, heq⟩ := e.encodeFrame_planes pic
  rw [heq]
  rfl

theorem Encoder.Shows.call (h : e.Shows) (c : Call) : (e.call c).Shows := by
  refine ⟨h.planar.call c, ?_⟩
  cases c with
  | pushAudio interleaved n => exact h.shown
  | forceKeyframe => exact h.shown
  | encodeFrame pic =>
      right
      intro t ht
      rw [Encoder.call, Encoder.encodeFrame_layout] at ht
      exact h.encodeFrame pic t ht

theorem Encoder.shows_init {hardware : Nat} {cfg : Config}
    (h : Encoder.init hardware cfg = .ok e) : e.Shows := by
  refine ⟨Encoder.planar_init h, Or.inl ?_⟩
  unfold Encoder.init at h
  split at h
  · cases h
  · cases h
    rfl

-- ======================================================= what is carried

/-- Whether a record carries tile `t`, by its own bytes. -/
def carries (rec : List UInt8) (t : Nat) : Bool :=
  byteAt rec 4 ≠ 0 || unpackBitmap (rec.drop kFrameHeaderSize) t

theorem unpackBitmap_append (a b : List UInt8) {t : Nat} (ht : t / 8 < a.length) :
    unpackBitmap (a ++ b) t = unpackBitmap a t := by
  rw [unpackBitmap, unpackBitmap, byteAt_append_left _ ht]

/-- A record's own account is the dirty list. -/
theorem Encoder.carries_iff (e : Encoder) (pic : Picture) {t : Nat} (ht : t < e.layout.tiles) :
    carries (e.encodeFrame pic).1 t = true ↔ t ∈ e.dirtyList pic := by
  obtain ⟨hrec, -, -⟩ := e.encodeFrame_eq pic rfl
  rw [hrec, carries, byteAt_append_left _ (by rw [frameHeader_length]; decide),
    byteAt_frameHeader, ← frameHeader_length e.frameNum
      (e.keyframeRequest || e.policy.forced e.frameIndex), List.drop_left]
  by_cases hforce : (e.keyframeRequest || e.policy.forced e.frameIndex) = true
  · have hall := e.dirtyList_forced pic hforce ht
    simp [hforce, hall]
  · rw [Bool.not_eq_true] at hforce
    rw [hforce]
    simp only [Bool.false_eq_true, if_false, ne_eq, not_true_eq_false, decide_false,
      Bool.false_or]
    rw [unpackBitmap_append _ _ (by rw [packBitmap_length]; omega), unpack_packBitmap]
    simp only [Encoder.dirtyList, hforce, List.mem_filter, List.mem_range, ht, true_and,
      decide_true, Bool.true_and]

-- =============================================================== results

/-- What change detection found still holds behind the frame. -/
theorem Encoder.Planar.close_after (h : e.Planar) (pic : Picture) {t : Nat}
    (ht : t < e.layout.tiles) (hmem : t ∉ e.dirtyList pic) :
    (e.encodeFrame pic).2.2.Close t := by
  have hload : (e.load pic).Planar :=
    ⟨h.sound, Encoder.load_fits h.cur pic, h.lastCoded, h.recon⟩
  obtain ⟨hlast, hrecon⟩ := h.kept pic ht hmem
  have hsame := (hload.footprint t).detects _ _ hrecon hlast
  have hclose := e.close_of_not_dirty pic ht hmem
  rw [← Encoder.tileChanged_eq_false, ← hsame] at hclose
  obtain ⟨rem, queue, lms, heq⟩ := e.encodeFrame_planes pic
  rw [← Encoder.tileChanged_eq_false, heq]
  exact hclose

/-- A block without any difference is the same block. -/
theorem blockSad_zero {a b : Array UInt8} {off stride w h : Nat}
    (hzero : blockSad a b off stride w h ≤ 0) {k j : Nat} (hk : k < h) (hj : j < w) :
    a.getD (off + k * stride + j) 0 = b.getD (off + k * stride + j) 0 := by
  have hrows := List.sum_eq_zero_iff.1 (Nat.le_zero.1 hzero)
  have hrow := hrows _ (List.mem_map_of_mem (List.mem_range.2 hk))
  have hcell := List.sum_eq_zero_iff.1 hrow _ (List.mem_map_of_mem (List.mem_range.2 hj))
  apply UInt8.toNat_inj.1
  omega

/-- Without tolerance, a close tile is the input's. -/
theorem Encoder.Planar.agree_of_close (h : e.Planar) (href : e.cfg.reference = .lastCoded)
    (hk : e.cfg.motionThresholdK = 0) {t : Nat} (ht : t < e.layout.tiles)
    (hclose : e.Close t) :
    Planes.Agree e.layout t e.lastCoded e.cur := by
  intro c i hi
  have hlt := h.sound.cells_lt ht c hi
  obtain ⟨⟨y, x⟩, ho, k, hk', j, hj, rfl⟩ := (iUnion_blockCells _ _ i).2 hi
  have hblock := hclose c y x ho
  rw [Encoder.reference, href, hk, h.cur.stride] at hblock
  have hcell := blockSad_zero (by simpa using hblock) hk' hj
  rw [Array.getD_eq_getD_getElem?, Array.getD_eq_getD_getElem?,
    Array.getElem?_eq_getElem (by rwa [h.cur.size]),
    Array.getElem?_eq_getElem (by rwa [h.lastCoded.size])] at hcell
  rw [Array.getElem?_eq_getElem (by rwa [h.lastCoded.size]),
    Array.getElem?_eq_getElem (by rwa [h.cur.size])]
  exact congrArg some hcell.symm

theorem Encoder.Planar.copied_after (h : e.Planar) (pic : Picture) {t : Nat}
    (hmem : t ∈ e.dirtyList pic) :
    Planes.Agree (e.encodeFrame pic).2.2.layout t (e.encodeFrame pic).2.2.lastCoded
      (e.encodeFrame pic).2.2.cur := by
  obtain ⟨rem, queue, lms, heq⟩ := e.encodeFrame_planes pic
  rw [heq]
  exact h.copied pic hmem

/-- Loading the same input again changes nothing. -/
theorem Encoder.load_after (e : Encoder) (pic : Picture) :
    ((e.encodeFrame pic).2.2.load pic).cur = (e.encodeFrame pic).2.2.cur := by
  obtain ⟨rem, queue, lms, heq⟩ := e.encodeFrame_planes pic
  rw [heq]
  rfl

theorem Encoder.encodeFrame_cfg (e : Encoder) (pic : Picture) :
    (e.encodeFrame pic).2.2.cfg = e.cfg := by
  obtain ⟨rem, queue, lms, heq⟩ := e.encodeFrame_planes pic
  rw [heq]
  rfl

theorem Encoder.after_cfg (e : Encoder) (calls : List Call) : (e.after calls).cfg = e.cfg := by
  refine Encoder.after_inv (I := fun s => s.cfg = e.cfg) ?_ rfl calls
  intro s c h
  cases c with
  | pushAudio interleaved n => exact h
  | forceKeyframe => exact h
  | encodeFrame pic => exact (s.encodeFrame_cfg pic).trans h

/-- What a shown tile means: its coding decodes, onto any planes, to
what the shadow planes hold there. -/
theorem Encoder.Planar.shown_decodes (h : e.Planar) {t : Nat} (hshown : e.Shown t) :
    ∃ payload, (Encoder.encodeTile { e with cur := e.lastCoded } t).1
        = putU16 (.ofNat payload.length) ++ payload
      ∧ ∀ d : Decoder, d.layout = e.layout → d.dq = (fun t k => e.q t (zigzag k)) →
        d.fb.Fits e.layout → (d.decodeTile payload t).1 = true
          ∧ Planes.Agree e.layout t (d.decodeTile payload t).2.fb e.recon := by
  obtain ⟨payload, hbytes, -, -, hdec⟩ := Encoder.encodeTile_coded { e with cur := e.lastCoded } t
    h.sound.tileW_pos h.sound.tileH_pos (h.recon.stride.trans h.lastCoded.stride.symm)
  refine ⟨payload, hbytes, fun d hlayout hdq hfits => ?_⟩
  have hrecon := hdec { d with fb := e.recon } hlayout hdq rfl
  have hread : Decoder.readTile { d with fb := e.recon } payload t = d.readTile payload t := by
    simp only [Decoder.readTile, h.recon.stride, hfits.stride]
  rw [Encoder.encodeTile_eq, Decoder.decodeTile_eq, hread] at hrecon
  obtain ⟨hgood, hfb⟩ := Prod.mk.injEq .. ▸ hrecon
  have hpatch : e.recon.patch (d.readTile payload t).2 = e.recon :=
    (congrArg Decoder.fb hfb).trans hshown
  rw [Decoder.decodeTile_eq]
  refine ⟨hgood, fun c i hi => ?_⟩
  have hcell := congrArg (fun fb : Planes => (fb.p c)[i]?) hpatch
  rw [← hcell]
  apply Patch.apply_eq_of_mem
  · rw [(d.dom_readTile payload t c).2 hgood, hlayout, hfits.stride]
    exact hi
  · exact (hfits.size c).trans (h.recon.size c).symm

/-- A refresh writes what is there, if every tile is shown and the
reference is the input. -/
theorem Encoder.Planar.paint_shown (h : e.Planar) {cur : Planes} (hcur : cur.Fits e.layout)
    {ts : List Nat} (hts : ∀ t ∈ ts, t < e.layout.tiles)
    (hsame : ∀ t < e.layout.tiles, Planes.Agree e.layout t e.lastCoded cur)
    (hshown : ∀ t < e.layout.tiles, e.Shown t) :
    e.recon.paint (shadeTile e.layout e.q cur) ts = e.recon := by
  induction ts with
  | nil => rfl
  | cons t ts ih =>
      have ht := hts t (List.mem_cons_self ..)
      have hshade := shadeTile_congr e.q h.lastCoded.stride hcur.stride (hsame t ht)
      rw [Planes.paint, List.foldl_cons, ← hshade, hshown t ht]
      exact ih fun t ht => hts t (List.mem_cons_of_mem _ ht)

/-- How stale a picture can be: after every frame of every run, what
was not carried is within the threshold of its reference, and the shadow
planes show the reference planes in every tile. With the last coded
tiles as reference and threshold 0, a full refresh of the same input
would leave the shadow planes as they are. -/
theorem bounded_staleness {hardware : Nat} {cfg : Config} {e₀ : Encoder}
    (hinit : Encoder.init hardware cfg = .ok e₀) (calls : List Call) (pic : Picture) :
    let before := e₀.after calls
    let e := (before.encodeFrame pic).2.2
    (∀ t < e.layout.tiles, carries (before.encodeFrame pic).1 t = false → e.Close t)
      ∧ (∀ t < e.layout.tiles, ∃ payload, (Encoder.encodeTile { e with cur := e.lastCoded } t).1
          = putU16 (.ofNat payload.length) ++ payload
        ∧ ∀ d : Decoder, d.layout = e.layout → d.dq = (fun t k => e.q t (zigzag k)) →
          d.fb.Fits e.layout → (d.decodeTile payload t).1 = true
            ∧ Planes.Agree e.layout t (d.decodeTile payload t).2.fb e.recon)
      ∧ (cfg.reference = .lastCoded → cfg.motionThresholdK = 0 →
        (e.forceKeyframe.encodeFrame pic).2.2.recon = e.recon) := by
  intro before e
  have hshows : before.Shows :=
    Encoder.after_inv (fun _ c h => h.call c) (Encoder.shows_init hinit) calls
  have hplanar : e.Planar := hshows.planar.encodeFrame pic
  have hshown : ∀ t < before.layout.tiles, e.Shown t := hshows.encodeFrame pic
  have hlayout : e.layout = before.layout := before.encodeFrame_layout pic
  have hclose : ∀ t < e.layout.tiles, t ∉ before.dirtyList pic → e.Close t := by
    intro t ht hmem
    exact hshows.planar.close_after pic (hlayout ▸ ht) hmem
  refine ⟨fun t ht hcar => ?_, fun t ht => ?_, fun href hk => ?_⟩
  · apply hclose t ht
    rw [← before.carries_iff pic (hlayout ▸ ht), hcar]
    decide
  · exact hplanar.shown_decodes (hshown t (hlayout ▸ ht))
  · have hcfg : e.cfg = cfg := by
      rw [Encoder.encodeFrame_cfg, Encoder.after_cfg]
      exact (Encoder.inv_init hinit).2.1
    have hsame : ∀ t < e.layout.tiles, Planes.Agree e.layout t e.lastCoded e.cur := by
      intro t ht
      by_cases hmem : t ∈ before.dirtyList pic
      · exact hshows.planar.copied_after pic hmem
      · exact hplanar.agree_of_close (hcfg ▸ href) (hcfg ▸ hk) ht (hclose t ht hmem)
    obtain ⟨rem, queue, lms, heq⟩ := e.forceKeyframe.encodeFrame_planes pic
    rw [heq]
    refine Eq.trans (b := e.recon.paint (shadeTile e.layout e.q e.cur)
      (e.forceKeyframe.dirtyList pic)) ?_ ?_
    · rw [← before.load_after pic]
      rfl
    · exact hplanar.paint_shown hplanar.cur (e.forceKeyframe.dirtyList_lt pic) hsame
        fun t ht => hshown t (hlayout ▸ ht)

/-- One grey pixel, sent twice without tolerance: nothing to refresh. -/
theorem bounded_staleness_pixel :
    let cfg : Config := { width := 1, height := 1, tileW := 1, tileH := 1, motionThresholdK := 0 }
    let pic : Picture := { src := fun _ _ => 200, stride := fun _ => 1 }
    ∃ e₀ : Encoder, Encoder.init 1 cfg = .ok e₀ ∧
      let e := ((e₀.after [.encodeFrame pic]).encodeFrame pic).2.2
      (e.forceKeyframe.encodeFrame pic).2.2.recon = e.recon := by
  intro cfg pic
  obtain ⟨e₀, he₀⟩ := Encoder.init_ok 1 (show cfg.error = none by decide)
  refine ⟨e₀, he₀, ?_⟩
  exact (bounded_staleness he₀ [.encodeFrame pic] pic).2.2 (by decide) (by decide)

end Ncmips.Tjc
