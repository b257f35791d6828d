/-
What a frame does to the encoder's plane sets.

A frame paints the dirty tiles into the shadow planes and copies them
into the reference planes, tile by tile; the patches of different tiles
are disjoint, so afterwards a cell of a dirty tile holds what that tile
alone would have put there, and every other cell what it held before
(`paint_hit`, `paint_miss`). `Encoder.Planar` is the shape of the three
plane sets, kept by every call.
-/
import Ncmips.Tjc.Proofs.Drift
import Ncmips.Tjc.Proofs.Paint

namespace Ncmips.Tjc

-- ================================================================= shapes

/-- Planes of a layout's padded sizes. -/
structure Planes.Fits (fb : Planes) (l : Layout) : Prop where
  stride : fb.stride = planeWidth l
  size : ∀ c, (fb.p c).size = planeWidth l c * planeHeight l c

theorem Planes.alloc_fits (l : Layout) : (Planes.alloc l).Fits l where
  stride := rfl
  size c := by
    unfold Planes.alloc planeWidth planeHeight
    dsimp only
    split <;> exact Array.size_replicate

theorem Planes.Fits.patch {fb : Planes} {l : Layout} (h : fb.Fits l) (ws : PlanePatch) :
    (fb.patch ws).Fits l :=
  ⟨h.stride, fun c => (Patch.size_apply _ _).trans (h.size c)⟩

/-- The shape of an encoder. -/
structure Encoder.Planar (e : Encoder) : Prop where
  sound : e.layout.Sound
  cur : e.cur.Fits e.layout
  lastCoded : e.lastCoded.Fits e.layout
  recon : e.recon.Fits e.layout

theorem Encoder.load_fits {e : Encoder} (h : e.cur.Fits e.layout) (pic : Picture) :
    (e.load pic).cur.Fits e.layout where
  stride := h.stride
  size c := by
    show (loadPlane e.layout pic c (e.cur.stride c)).size = _
    rw [h.stride]
    simp [loadPlane]

/-- Sizes that `init` accepted make a sound layout. -/
theorem Encoder.planar_init {hardware : Nat} {cfg : Config} {e : Encoder}
    (h : Encoder.init hardware cfg = .ok e) : e.Planar := by
  unfold Encoder.init at h
  split at h
  · cases h
  · next hnone =>
    obtain ⟨hw, hh, -⟩ := validateGeometry_none (Config.accepted hnone).geometry
    cases h
    exact ⟨makeLayout_sound _ _ hw hh, Planes.alloc_fits _, Planes.alloc_fits _,
      Planes.alloc_fits _⟩

-- =============================================================== painting

/-- A patch for every tile, each over just that tile's cells. -/
def Owned (l : Layout) (P : Nat → PlanePatch) : Prop :=
  ∀ t < l.tiles, ∀ c, Patch.dom (P t c) = (tileRect l t c).cells (planeWidth l c)

/-- The patches of the tiles in the list, one after the other. -/
def Planes.paint (fb : Planes) (P : Nat → PlanePatch) (ts : List Nat) : Planes :=
  ts.foldl (fun fb t => fb.patch (P t)) fb

theorem Planes.Fits.paint {fb : Planes} {l : Layout} (h : fb.Fits l) (P : Nat → PlanePatch)
    (ts : List Nat) : (fb.paint P ts).Fits l := by
  induction ts generalizing fb with
  | nil => exact h
  | cons t ts ih => exact ih (h.patch (P t))

variable {l : Layout} {P : Nat → PlanePatch}

theorem paint_miss (hl : l.Sound) (hP : Owned l P) {t : Nat} (ht : t < l.tiles) {c : Fin 3}
    {i : Nat} (hi : i ∈ (tileRect l t c).cells (planeWidth l c)) (fb : Planes) {ts : List Nat}
    (hts : ∀ s ∈ ts, s < l.tiles) (hmem : t ∉ ts) :
    ((fb.paint P ts).p c)[i]? = (fb.p c)[i]? := by
  induction ts generalizing fb with
  | nil => rfl
  | cons s ts ih =>
      have hs := hts s (List.mem_cons_self ..)
      have hne : t ≠ s := fun h => hmem (h ▸ List.mem_cons_self ..)
      have hout : i ∉ Patch.dom (P s c) := by
        rw [hP s hs c]
        exact Set.disjoint_left.1 (hl.cells_disjoint ht hs hne c) hi
      have hrest := ih (fb.patch (P s)) (fun s hs => hts s (List.mem_cons_of_mem _ hs))
        fun h => hmem (List.mem_cons_of_mem _ h)
      exact hrest.trans (Patch.apply_eq_of_notMem _ hout)

theorem paint_hit (hl : l.Sound) (hP : Owned l P) {t : Nat} {c : Fin 3} {i : Nat}
    (hi : i ∈ (tileRect l t c).cells (planeWidth l c)) (fb : Planes) {ts : List Nat}
    (hts : ∀ s ∈ ts, s < l.tiles) (hmem : t ∈ ts) :
    ((fb.paint P ts).p c)[i]? = (Patch.apply (P t c) (fb.p c))[i]? := by
  have ht := hts t hmem
  have hdom : i ∈ Patch.dom (P t c) := by rwa [hP t ht c]
  induction ts generalizing fb with
  | nil => cases hmem
  | cons s ts ih =>
      have hts' : ∀ s ∈ ts, s < l.tiles := fun s hs => hts s (List.mem_cons_of_mem _ hs)
      by_cases hlater : t ∈ ts
      · -- painted again later: what `s` left is hidden
        refine (ih (fb.patch (P s)) hts' hlater).trans ?_
        exact Patch.apply_eq_of_mem hdom (Patch.size_apply _ _)
      · rcases List.mem_cons.1 hmem with rfl | hmem
        · exact paint_miss hl hP ht hi (fb.patch (P t)) hts' hlater
        · exact absurd hmem hlater

-- ================================================================= frames

theorem owned_shadeTile (q : Bool → Nat → Nat) {cur : Planes} (hcur : cur.Fits l) :
    Owned l (shadeTile l q cur) := by
  intro t _ c
  rw [dom_shadeTile, hcur.stride]

theorem owned_copyPatch {cur : Planes} (hcur : cur.Fits l) : Owned l (copyPatch l cur) := by
  intro t _ c
  rw [dom_copyPatch, hcur.stride]

theorem Encoder.codeTile_eq (s : List UInt8 × Encoder) (t : Nat) :
    Encoder.codeTile s t
      = (s.1 ++ s.2.tileBytes t,
        { s.2 with
          recon := s.2.recon.patch (shadeTile s.2.layout s.2.q s.2.cur t)
          lastCoded := s.2.lastCoded.patch (copyPatch s.2.layout s.2.cur t) }) := by
  rw [Encoder.codeTile, Encoder.encodeTile_eq]
  simp only [copyTile_eq]

/-- The tiles of a list: their bytes in order, their patches in
order. -/
theorem Encoder.codeTile_fold (ts : List Nat) (acc : List UInt8) (e : Encoder) :
    ts.foldl Encoder.codeTile (acc, e)
      = (acc ++ ts.flatMap e.tileBytes,
        { e with
          recon := e.recon.paint (shadeTile e.layout e.q e.cur) ts
          lastCoded := e.lastCoded.paint (copyPatch e.layout e.cur) ts }) := by
  induction ts generalizing acc e with
  | nil => simp [Planes.paint]
  | cons t ts ih =>
      rw [List.foldl_cons, Encoder.codeTile_eq, ih, List.flatMap_cons, List.append_assoc]
      rfl

/-- Audio coding leaves everything but the audio state alone. -/
theorem Encoder.encodeAudio_keeps (e : Encoder) :
    ∃ rem queue lms, e.encodeAudio.2
      = { e with audioRem := rem, audioQueue := queue, audioLms := lms } := by
  unfold Encoder.encodeAudio
  dsimp only
  split
  · exact ⟨_, _, _, rfl⟩
  · exact ⟨_, _, _, rfl⟩

/-- A frame, as far as planes go. -/
theorem Encoder.encodeFrame_planes (e : Encoder) (pic : Picture) :
    ∃ rem queue lms, (e.encodeFrame pic).2.2 =
      { e.begun pic with
        recon := e.recon.paint (shadeTile e.layout e.q (e.load pic).cur) (e.dirtyList pic)
        lastCoded := e.lastCoded.paint (copyPatch e.layout (e.load pic).cur) (e.dirtyList pic)
        audioRem := rem
        audioQueue := queue
        audioLms := lms
        frameNum := e.frameNum + 1
        frameIndex := e.frameIndex + 1 } := by
  obtain ⟨-, -, hnext⟩ := e.encodeFrame_eq pic (Encoder.codeTile_fold (e.dirtyList pic) [] _)
  obtain ⟨rem, queue, lms, haudio⟩ := Encoder.encodeAudio_keeps
    { e.begun pic with
      recon := (e.begun pic).recon.paint (shadeTile (e.begun pic).layout (e.begun pic).q
        (e.begun pic).cur) (e.dirtyList pic)
      lastCoded := (e.begun pic).lastCoded.paint (copyPatch (e.begun pic).layout
        (e.begun pic).cur) (e.dirtyList pic) }
  refine ⟨rem, queue, lms, ?_⟩
  rw [hnext, haudio]
  rfl

theorem Encoder.dirtyList_lt (e : Encoder) (pic : Picture) :
    ∀ t ∈ e.dirtyList pic, t < e.layout.tiles := fun _ ht =>
  List.mem_range.1 (List.mem_filter.1 ht).1

theorem Encoder.Planar.encodeFrame {e : Encoder} (h : e.Planar) (pic : Picture) :
    (e.encodeFrame pic).2.2.Planar := by
  obtain ⟨rem, queue, lms, heq⟩ := e.encodeFrame_planes pic
  rw [heq]
  exact ⟨h.sound, Encoder.load_fits h.cur pic, h.lastCoded.paint _ _, h.recon.paint _ _⟩

-- =================================================================== runs

/-- The encoder after one call. -/
def Encoder.call (e : Encoder) : Call → Encoder
  | .pushAudio interleaved n => e.pushAudio interleaved n
  | .forceKeyframe => e.forceKeyframe
  | .encodeFrame pic => (e.encodeFrame pic).2.2

/-- The encoder after a run. -/
def Encoder.after (e : Encoder) (calls : List Call) : Encoder := calls.foldl Encoder.call e

/-- What every call keeps holds after every run. -/
theorem Encoder.after_inv {I : Encoder → Prop} (hcall : ∀ e c, I e → I (e.call c)) {e : Encoder}
    (h : I e) (calls : List Call) : I (e.after calls) := by
  induction calls generalizing e with
  | nil => exact h
  | cons c calls ih => exact ih (hcall e c h)

theorem Encoder.Planar.call {e : Encoder} (h : e.Planar) (c : Call) : (e.call c).Planar := by
  cases c with
  | pushAudio interleaved n => exact ⟨h.sound, h.cur, h.lastCoded, h.recon⟩
  | forceKeyframe => exact ⟨h.sound, h.cur, h.lastCoded, h.recon⟩
  | encodeFrame pic => exact h.encodeFrame pic

theorem Encoder.Planar.after {e : Encoder} (h : e.Planar) (calls : List Call) :
    (e.after calls).Planar :=
  Encoder.after_inv (fun _ c h => h.call c) h calls

end Ncmips.Tjc
