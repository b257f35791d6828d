/-
The number of threads never shows.

Two encoders that differ in nothing but their thread count
(`Encoder.withThreads`) put out the same records and hold the same
planes after every call: the chunks of `parallel_for` cut `[0, n)` into
consecutive pieces whatever their number. Behind that stands the
workers' independence. A tile is coded from the input planes alone and
written to its own cells (`Encoder.Footprint`), so a pool of workers
that take their tiles at any time ends like one worker, and its joined
outputs read the same (`Encoder.pool_done`).
-/
import Ncmips.Lib.Workers
import Ncmips.Tjc.Proofs.Shadow

namespace Ncmips.Tjc

-- ================================================================= chunks

theorem mem_chunks {threads n minPerThread : Nat} {c : Nat × Nat}
    (hc : c ∈ chunks threads n minPerThread) : c.1 ≤ c.2 ∧ c.2 ≤ n := by
  unfold chunks at hc
  dsimp only at hc
  split at hc
  · split at hc
    · rw [List.mem_singleton.1 hc]
      exact ⟨Nat.zero_le n, le_rfl⟩
    · cases hc
  · next hmany =>
    obtain ⟨w, hw, rfl⟩ := List.mem_map.1 hc
    rw [List.mem_range] at hw
    refine ⟨Nat.div_le_div_right (Nat.mul_le_mul_left n (Nat.le_succ w)), ?_⟩
    refine Nat.div_le_of_le_mul ?_
    rw [Nat.mul_comm]
    exact Nat.mul_le_mul_right n hw

/-- No more chunks than workers. -/
theorem chunks_length (threads n minPerThread : Nat) :
    (chunks threads n minPerThread).length ≤ max 1 threads := by
  unfold chunks
  dsimp only
  split
  · split
    · exact le_max_left ..
    · exact Nat.zero_le _
  · rw [List.length_map, List.length_range]
    omega

/-- Worker after worker, the chunks are all of `[0, n)` in order. -/
theorem chunks_range (threads n minPerThread : Nat) :
    ((chunks threads n minPerThread).flatMap fun c => List.range' c.1 (c.2 - c.1))
      = List.range n := by
  have hcut := chunks_partition (List.range n) threads minPerThread
  rw [List.length_range] at hcut
  have hpiece : ∀ c ∈ chunks threads n minPerThread,
      List.range' c.1 (c.2 - c.1) = ((List.range n).drop c.1).take (c.2 - c.1) := by
    intro c hc
    obtain ⟨hle, hn⟩ := mem_chunks hc
    rw [List.range_eq_range', List.drop_range', Nat.mul_one, Nat.zero_add,
      List.take_range'_of_length_ge (by omega)]
  calc _ = (chunks threads n minPerThread).flatMap
        fun c => ((List.range n).drop c.1).take (c.2 - c.1) := List.flatMap_congr hpiece
    _ = _ := hcut

/-- A chunk starts where the one before it ends. -/
theorem chunks_contiguous (threads n minPerThread : Nat) :
    (chunks threads n minPerThread).IsChain fun a b => a.2 = b.1 := by
  unfold chunks
  dsimp only
  split
  · split
    · exact List.isChain_singleton _
    · exact List.isChain_nil
  · rw [List.isChain_map]
    rw [List.isChain_iff_getElem]
    intro i hi
    simp only [List.getElem_range]

-- ============================================================== detection

theorem Encoder.changed_join (e : Encoder) (cs : List (Nat × Nat)) : ∀ d : Nat → Bool,
    cs.foldl (fun dirty (b, n) => (List.range' b (n - b)).foldl
        (fun d t => Function.update d t (e.tileChanged t)) dirty) d
      = (cs.flatMap fun c => List.range' c.1 (c.2 - c.1)).foldl
        (fun d t => Function.update d t (e.tileChanged t)) d := by
  induction cs with
  | nil => exact fun d => rfl
  | cons c cs ih =>
      intro d
      rw [List.foldl_cons, List.flatMap_cons, List.foldl_append, ih]

/-- The flags after change detection, whatever the chunks. -/
theorem Encoder.changed_eq (e : Encoder) (minPerThread : Nat) :
    e.changed minPerThread
      = (List.range e.layout.tiles).foldl (fun d t => Function.update d t (e.tileChanged t))
        fun _ => false := by
  rw [Encoder.changed, Encoder.changed_join, chunks_range]

-- ================================================================== twins

/-- The same encoder with another number of threads. -/
def Encoder.withThreads (e : Encoder) (n : Nat) (m : Int) : Encoder :=
  { e with threads := n, cfg := { e.cfg with threads := m } }

variable (e : Encoder) (n : Nat) (m : Int)

theorem Encoder.withThreads_markDirty (force : Bool) :
    (e.withThreads n m).markDirty force = e.markDirty force := by
  unfold Encoder.markDirty
  rw [Encoder.changed_eq, Encoder.changed_eq]
  rfl

theorem Encoder.withThreads_codeTiles (dirty : List Nat) (minPerThread : Nat) :
    (e.withThreads n m).codeTiles dirty minPerThread
      = ((e.codeTiles dirty minPerThread).1,
        (e.codeTiles dirty minPerThread).2.withThreads n m) := by
  rw [Encoder.codeTiles_eq, Encoder.codeTiles_eq, Encoder.codeTile_fold, Encoder.codeTile_fold]
  rfl

theorem Encoder.withThreads_encodeAudio :
    (e.withThreads n m).encodeAudio = (e.encodeAudio.1, e.encodeAudio.2.withThreads n m) := by
  unfold Encoder.encodeAudio
  dsimp only [Encoder.withThreads]
  split <;> rfl

/-- The record of a frame and the encoder behind it, once the tiles are
coded. -/
def Encoder.assemble (frameNum frameIndex : UInt32) (force : Bool) (tiles : Nat)
    (dirty : Nat → Bool) (dirtyTiles : Nat) (coded : List UInt8 × Encoder) :
    List UInt8 × FrameStats × Encoder :=
  let audio := coded.2.encodeAudio
  let out := (putU32 frameNum ++ [if force then 1 else 0])
    ++ ((if force then [] else packBitmap dirty tiles) ++ (coded.1 ++ audio.1.bytes))
  (out,
    { frameNum
      forceRefresh := force
      dirtyTiles
      totalTiles := tiles
      bytes := out.length
      audioSamples := audio.1.samples % 2 ^ 32
      audioBytes := audio.1.bytes.length - 4
      audioPadded := audio.1.padded % 2 ^ 32 },
    { audio.2 with frameNum := frameNum + 1, frameIndex := frameIndex + 1 })

theorem Encoder.encodeFrame_assemble (pic : Picture) :
    e.encodeFrame pic
      = Encoder.assemble e.frameNum e.frameIndex
        (e.keyframeRequest || e.policy.forced e.frameIndex) e.layout.tiles
        ((e.load pic).markDirty (e.keyframeRequest || e.policy.forced e.frameIndex)).2
        (e.dirtyList pic).length
        ((e.begun pic).codeTiles (e.dirtyList pic)
          (max 1 (8192 / (e.layout.tileW * e.layout.tileH)))) := rfl

theorem Encoder.withThreads_assemble (frameNum frameIndex : UInt32) (force : Bool) (tiles : Nat)
    (dirty : Nat → Bool) (dirtyTiles : Nat) (bytes : List UInt8) :
    Encoder.assemble frameNum frameIndex force tiles dirty dirtyTiles (bytes, e.withThreads n m)
      = ((Encoder.assemble frameNum frameIndex force tiles dirty dirtyTiles (bytes, e)).1,
        (Encoder.assemble frameNum frameIndex force tiles dirty dirtyTiles (bytes, e)).2.1,
        (Encoder.assemble frameNum frameIndex force tiles dirty dirtyTiles
          (bytes, e)).2.2.withThreads n m) := by
  unfold Encoder.assemble
  rw [Encoder.withThreads_encodeAudio]
  rfl

/-- A frame comes out the same. -/
theorem Encoder.withThreads_encodeFrame (pic : Picture) :
    (e.withThreads n m).encodeFrame pic
      = ((e.encodeFrame pic).1, (e.encodeFrame pic).2.1,
        (e.encodeFrame pic).2.2.withThreads n m) := by
  have hmark := (e.load pic).withThreads_markDirty n m
    (e.keyframeRequest || e.policy.forced e.frameIndex)
  have hdirty : (e.withThreads n m).dirtyList pic = e.dirtyList pic := by
    unfold Encoder.dirtyList
    exact congrArg (fun x => (List.range e.layout.tiles).filter x.2) hmark
  have hbegun : (e.withThreads n m).begun pic = (e.begun pic).withThreads n m := by
    unfold Encoder.begun
    exact congrArg (fun x : RefreshPolicy × (Nat → Bool) =>
      ({ (e.load pic).withThreads n m with policy := x.1, keyframeRequest := false } : Encoder))
      hmark
  rw [Encoder.encodeFrame_assemble, Encoder.encodeFrame_assemble, hdirty, hbegun]
  have hcode := (e.begun pic).withThreads_codeTiles n m (e.dirtyList pic)
    (max 1 (8192 / (e.layout.tileW * e.layout.tileH)))
  have hmark' : ((e.withThreads n m).load pic).markDirty
      ((e.withThreads n m).keyframeRequest
        || (e.withThreads n m).policy.forced (e.withThreads n m).frameIndex)
      = (e.load pic).markDirty (e.keyframeRequest || e.policy.forced e.frameIndex) := hmark
  rw [hmark', show (e.withThreads n m).layout = e.layout from rfl, hcode]
  exact Encoder.withThreads_assemble ..

theorem Encoder.withThreads_call (c : Call) :
    (e.withThreads n m).call c = (e.call c).withThreads n m := by
  cases c with
  | pushAudio interleaved k => rfl
  | forceKeyframe => rfl
  | encodeFrame pic => simp only [Encoder.call, Encoder.withThreads_encodeFrame]

theorem Encoder.withThreads_after (calls : List Call) :
    (e.withThreads n m).after calls = (e.after calls).withThreads n m := by
  induction calls generalizing e with
  | nil => rfl
  | cons c calls ih =>
      rw [Encoder.after, List.foldl_cons, Encoder.withThreads_call]
      exact ih (e.call c)

theorem Encoder.withThreads_run (calls : List Call) :
    (e.withThreads n m).run calls = e.run calls := by
  induction calls generalizing e with
  | nil => rfl
  | cons c calls ih =>
      cases c with
      | pushAudio interleaved k => exact ih (e.pushAudio interleaved k)
      | forceKeyframe => exact ih e.forceKeyframe
      | encodeFrame pic =>
          simp only [Encoder.run, Encoder.withThreads_encodeFrame, ih]
          rfl

-- ============================================================= footprints

/-- A sum of absolute differences looks at its own block only. -/
theorem sad_congr (a b b' : Array UInt8) (off stride w limit rows : Nat) :
    ∀ y total, (∀ k < rows, ∀ x < w, b.getD (off + (y + k) * stride + x) 0
        = b'.getD (off + (y + k) * stride + x) 0) →
      sad a b off stride w limit rows y total = sad a b' off stride w limit rows y total := by
  induction rows with
  | zero => exact fun _ _ _ => rfl
  | succ rows ih =>
      intro y total hsame
      have hrow : sadRow a b (off + y * stride) w = sadRow a b' (off + y * stride) w := by
        unfold sadRow
        congr 1
        apply List.map_congr_left
        intro x hx
        have hcell := hsame 0 (Nat.succ_pos rows) x (List.mem_range.1 hx)
        rw [Nat.add_zero] at hcell
        rw [hcell]
      have hrest : ∀ total, sad a b off stride w limit rows (y + 1) total
          = sad a b' off stride w limit rows (y + 1) total := by
        intro total
        apply ih
        intro k hk x hx
        have hcell := hsame (k + 1) (by omega) x hx
        rw [show y + (k + 1) = y + 1 + k by omega] at hcell
        exact hcell
      unfold sad
      simp only [hrow, hrest]

/-- The planes agree on the cells of tile `t`. -/
def Planes.Agree (l : Layout) (t : Nat) (fb fb' : Planes) : Prop :=
  ∀ c, ∀ i ∈ (tileRect l t c).cells (planeWidth l c), (fb.p c)[i]? = (fb'.p c)[i]?

/-- What the work on tile `t` reads and writes of the planes that all
workers share: only the tile's own cells. -/
structure Encoder.Footprint (e : Encoder) (t : Nat) : Prop where
  /-- Coding writes nowhere else. -/
  writes : ∀ acc c i, i ∉ (tileRect e.layout t c).cells (planeWidth e.layout c) →
    ((Encoder.codeTile (acc, e) t).2.recon.p c)[i]? = (e.recon.p c)[i]?
      ∧ ((Encoder.codeTile (acc, e) t).2.lastCoded.p c)[i]? = (e.lastCoded.p c)[i]?
  /-- Coding does not even read them. -/
  codes : ∀ acc (recon lastCoded : Planes), recon.Fits e.layout → lastCoded.Fits e.layout →
    (Encoder.codeTile (acc, { e with recon, lastCoded }) t).1 = (Encoder.codeTile (acc, e) t).1
      ∧ Planes.Agree e.layout t (Encoder.codeTile (acc, { e with recon, lastCoded }) t).2.recon
        (Encoder.codeTile (acc, e) t).2.recon
      ∧ Planes.Agree e.layout t
        (Encoder.codeTile (acc, { e with recon, lastCoded }) t).2.lastCoded
        (Encoder.codeTile (acc, e) t).2.lastCoded
  /-- Change detection reads only them. -/
  detects : ∀ recon lastCoded : Planes, Planes.Agree e.layout t recon e.recon →
    Planes.Agree e.layout t lastCoded e.lastCoded →
      Encoder.tileChanged { e with recon, lastCoded } t = e.tileChanged t

/-- Cells of a block are cells of its rectangle. -/
theorem block_cell {r : Rect} {stride y x k j : Nat} (ho : (y, x) ∈ blockOrigins r.w r.h)
    (hk : k < min 8 (r.h - y)) (hj : j < min 8 (r.w - x)) :
    (r.y + y) * stride + r.x + x + k * stride + j ∈ r.cells stride :=
  (iUnion_blockCells r stride _).1 ⟨(y, x), ho, k, hk, j, hj, rfl⟩

variable {e n m}

theorem Encoder.Planar.footprint (h : e.Planar) (t : Nat) : e.Footprint t where
  writes := by
    intro acc c i hi
    rw [Encoder.codeTile_eq]
    constructor
    · apply Patch.apply_eq_of_notMem
      rw [dom_shadeTile, h.cur.stride]
      exact hi
    · apply Patch.apply_eq_of_notMem
      rw [dom_copyPatch, h.cur.stride]
      exact hi
  codes := by
    intro acc recon lastCoded hrecon hlast
    rw [Encoder.codeTile_eq, Encoder.codeTile_eq]
    refine ⟨rfl, fun c i hi => ?_, fun c i hi => ?_⟩
    · apply Patch.apply_eq_of_mem
      · rw [dom_shadeTile, h.cur.stride]
        exact hi
      · exact (hrecon.size c).trans (h.recon.size c).symm
    · apply Patch.apply_eq_of_mem
      · rw [dom_copyPatch, h.cur.stride]
        exact hi
      · exact (hlast.size c).trans (h.lastCoded.size c).symm
  detects := by
    intro recon lastCoded hrecon hlast
    -- one block against either reference
    have hblock : ∀ (fb fb' : Planes), Planes.Agree e.layout t fb fb' → ∀ c y x,
        (y, x) ∈ blockOrigins (tileRect e.layout t c).w (tileRect e.layout t c).h →
        ∀ limit, sad (e.cur.p c) (fb.p c)
            (((tileRect e.layout t c).y + y) * e.cur.stride c + (tileRect e.layout t c).x + x)
            (e.cur.stride c) (min 8 ((tileRect e.layout t c).w - x)) limit
            (min 8 ((tileRect e.layout t c).h - y)) 0 0
          = sad (e.cur.p c) (fb'.p c)
            (((tileRect e.layout t c).y + y) * e.cur.stride c + (tileRect e.layout t c).x + x)
            (e.cur.stride c) (min 8 ((tileRect e.layout t c).w - x)) limit
            (min 8 ((tileRect e.layout t c).h - y)) 0 0 := by
      intro fb fb' hagree c y x ho limit
      apply sad_congr
      intro k hk j hj
      have hcell := hagree c _ (by
        rw [← h.cur.stride]
        exact block_cell ho hk hj)
      rw [Nat.zero_add, Array.getD_eq_getD_getElem?, Array.getD_eq_getD_getElem?, hcell]
    unfold Encoder.tileChanged
    apply Bool.eq_iff_iff.2
    simp only [List.any_eq_true, decide_eq_true_eq, Prod.exists]
    cases e.cfg.reference with
    | lastCoded =>
        refine exists_congr fun c => and_congr Iff.rfl (exists_congr fun y => exists_congr fun x =>
          and_congr_right fun ho => ?_)
        rw [hblock _ _ hlast c y x ho]
    | reconstructed =>
        refine exists_congr fun c => and_congr Iff.rfl (exists_congr fun y => exists_congr fun x =>
          and_congr_right fun ho => ?_)
        rw [hblock _ _ hrecon c y x ho]

-- =================================================================== pool

/-- What a worker does with a tile, on shared planes. -/
def Encoder.task (e : Encoder) (t : Nat) : List UInt8 × Encoder := Encoder.codeTile ([], e) t

/-- The dirty tiles, one list a worker. -/
def Encoder.shares (e : Encoder) (dirty : List Nat) (minPerThread : Nat) : List (List Nat) :=
  (chunks e.threads dirty.length minPerThread).map fun (b, n) => (dirty.drop b).take (n - b)

theorem Encoder.shares_flatten (e : Encoder) (dirty : List Nat) (minPerThread : Nat) :
    (e.shares dirty minPerThread).flatten = dirty := by
  rw [Encoder.shares, ← List.flatMap_def]
  exact chunks_partition dirty e.threads minPerThread

/-- The encoder but for the planes the workers write. -/
def Encoder.SameSource (e s : Encoder) : Prop :=
  s.layout = e.layout ∧ s.q = e.q ∧ s.cur = e.cur

theorem Encoder.Planar.independent (h : e.Planar) {dirty : List Nat} (hnodup : dirty.Nodup)
    (hlt : ∀ t ∈ dirty, t < e.layout.tiles) :
    Workers.Independent Encoder.task e.SameSource e.tileBytes dirty where
  nodup := hnodup
  keeps := by
    intro s t _ hs
    rw [Encoder.task, Encoder.codeTile_eq]
    exact hs
  emits := by
    intro s t _ ⟨hlayout, hq, hcur⟩
    rw [Encoder.task, Encoder.codeTile_eq]
    simp only [Encoder.tileBytes, hlayout, hq, hcur, List.nil_append]
  comm := by
    intro s a b ha hb hne ⟨hlayout, hq, hcur⟩
    have hcells := fun c => h.sound.cells_disjoint (hlt a ha) (hlt b hb) hne c
    have hlast := @Planes.patch_comm s.lastCoded (copyPatch e.layout e.cur a)
      (copyPatch e.layout e.cur b) fun c => by
        rw [dom_copyPatch, dom_copyPatch, h.cur.stride]
        exact hcells c
    have hrecon := @Planes.patch_comm s.recon (shadeTile e.layout e.q e.cur a)
      (shadeTile e.layout e.q e.cur b) fun c => by
        rw [dom_shadeTile, dom_shadeTile, h.cur.stride]
        exact hcells c
    simp only [Encoder.task, Encoder.codeTile_eq, hlayout, hq, hcur, hlast, hrecon]

/-- A pool of workers on the tiles of a frame, each taking its tiles
when it likes, ends with what `codeTiles` computes. -/
theorem Encoder.Planar.pool_done (h : e.Planar) {dirty : List Nat} (hnodup : dirty.Nodup)
    (hlt : ∀ t ∈ dirty, t < e.layout.tiles) (minPerThread : Nat)
    {p : Workers.Pool Nat Encoder UInt8}
    (hrun : Relation.ReflTransGen (Workers.Step Encoder.task)
      (Workers.Pool.start (e.shares dirty minPerThread) e) p) (hdone : p.Done) :
    (p.outs.flatten, p.shared) = e.codeTiles dirty minPerThread := by
  have hflat := e.shares_flatten dirty minPerThread
  have hind := h.independent hnodup hlt
  rw [← hflat] at hind
  obtain ⟨htext, hshared⟩ := Workers.run_done hind ⟨rfl, rfl, rfl⟩ hrun hdone
  rw [hflat] at htext hshared
  have hall : ∀ (ts : List Nat) (e : Encoder), Workers.runAll Encoder.task ts e
      = { e with
          recon := e.recon.paint (shadeTile e.layout e.q e.cur) ts
          lastCoded := e.lastCoded.paint (copyPatch e.layout e.cur) ts } := by
    intro ts
    induction ts with
    | nil => exact fun e => rfl
    | cons t ts ih =>
        intro e
        rw [Workers.runAll, List.foldl_cons, ← Workers.runAll, ih, Encoder.task,
          Encoder.codeTile_eq]
        rfl
  rw [Encoder.codeTiles_eq, Encoder.codeTile_fold, List.nil_append, htext, hshared, hall]

-- ================================================================== result

/-- Thread counts never show: not in the stream, not in the planes, not
in the way `[0, n)` is cut up, and not through the planes the workers
share. -/
theorem threads_independent {hw hw' : Nat} {cfg : Config} {a b : Int} {e e' : Encoder}
    (h : Encoder.init hw { cfg with threads := a } = .ok e)
    (h' : Encoder.init hw' { cfg with threads := b } = .ok e') (calls : List Call) :
    e.run calls = e'.run calls
      ∧ (e.after calls).recon = (e'.after calls).recon
      ∧ (e.after calls).lastCoded = (e'.after calls).lastCoded
      ∧ (∀ threads n minPerThread,
        (chunks threads n minPerThread).length ≤ max 1 threads
          ∧ (chunks threads n minPerThread).IsChain (fun a b => a.2 = b.1)
          ∧ ((chunks threads n minPerThread).flatMap fun c => List.range' c.1 (c.2 - c.1))
            = List.range n)
      ∧ (let l := (e.after calls).layout
        ∀ t < l.tiles, ∀ u < l.tiles, t ≠ u →
          (∀ c, Disjoint ((tileRect l t c).cells (planeWidth l c))
            ((tileRect l u c).cells (planeWidth l c)))
          ∧ (e.after calls).Footprint t ∧ (e.after calls).Footprint u)
      ∧ ∀ (pic : Picture) (minPerThread : Nat) (p : Workers.Pool Nat Encoder UInt8),
        let s := (e.after calls).begun pic
        let dirty := (e.after calls).dirtyList pic
        Relation.ReflTransGen (Workers.Step Encoder.task)
            (Workers.Pool.start (s.shares dirty minPerThread) s) p →
          p.Done → (p.outs.flatten, p.shared) = s.codeTiles dirty minPerThread := by
  have hplanar := Encoder.planar_init h
  have htwin : e' = e.withThreads e'.threads b := by
    unfold Encoder.init at h h'
    rw [show ({ cfg with threads := a } : Config).error = cfg.error from rfl] at h
    rw [show ({ cfg with threads := b } : Config).error = cfg.error from rfl] at h'
    cases herr : cfg.error with
    | some msg => rw [herr] at h; cases h
    | none =>
        rw [herr] at h h'
        cases h
        cases h'
        rfl
  refine ⟨?_, ?_, ?_, ?_, ?_, ?_⟩
  · rw [htwin, Encoder.withThreads_run]
  · rw [htwin, Encoder.withThreads_after]
    rfl
  · rw [htwin, Encoder.withThreads_after]
    rfl
  · exact fun threads n minPerThread => ⟨chunks_length .., chunks_contiguous .., chunks_range ..⟩
  · intro l t ht u hu hne
    exact ⟨fun c => (hplanar.after calls).sound.cells_disjoint ht hu hne c,
      (hplanar.after calls).footprint t, (hplanar.after calls).footprint u⟩
  · intro pic minPerThread p s dirty hrun hdone
    have hs : (e.after calls).Planar := hplanar.after calls
    have hbegun : s.Planar :=
      ⟨hs.sound, Encoder.load_fits hs.cur pic, hs.lastCoded, hs.recon⟩
    exact hbegun.pool_done (List.nodup_range.filter _)
      ((e.after calls).dirtyList_lt pic) minPerThread hrun hdone

/-- Four tiles, one thread against three. -/
theorem threads_independent_four :
    let cfg : Config := { width := 2, height := 2, tileW := 1, tileH := 1 }
    let frame : Call := .encodeFrame { src := fun _ i => .ofNat (40 * i), stride := fun _ => 2 }
    ∃ e e' : Encoder, Encoder.init 1 { cfg with threads := 1 } = .ok e
      ∧ Encoder.init 8 { cfg with threads := 3 } = .ok e'
      ∧ e.run [frame, frame] = e'.run [frame, frame] := by
  intro cfg frame
  obtain ⟨e, he⟩ := Encoder.init_ok 1 (show ({ cfg with threads := 1 } : Config).error = none
    by decide)
  obtain ⟨e', he'⟩ := Encoder.init_ok 8 (show ({ cfg with threads := 3 } : Config).error = none
    by decide)
  exact ⟨e, e', he, he', (@threads_independent 1 8 cfg 1 3 e e' he he' [frame, frame]).1⟩

end Ncmips.Tjc
