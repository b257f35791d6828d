/-
Tile rectangles: inside their plane, disjoint, and together all of it.

Both axes work alike. `edge c a` is the first sample of component `c`
at or behind luma coordinate `a`; a tile's rectangle runs from the edge
of its first luma column (row) to the edge of the next tile's, whatever
the parity. `Rect.cells` is a rectangle as indices into a plane.
-/
import Mathlib.Data.Set.Disjoint
import Ncmips.Tjc.Encoder

namespace Ncmips.Tjc

-- ============================================================= one axis

/-- The first sample of component `c` at or behind luma coordinate
`a`. -/
def edge (c : Fin 3) (a : Nat) : Nat := if c = 0 then a else (a + 1) / 2

theorem edge_mono (c : Fin 3) {a b : Nat} (h : a ≤ b) : edge c a ≤ edge c b := by
  unfold edge
  split
  · exact h
  · omega

theorem edge_le (c : Fin 3) (a : Nat) : edge c a ≤ a := by
  unfold edge
  split <;> omega

/-- Every sample before the last edge lies between two neighbours. -/
theorem exists_between_edges (c : Fin 3) {n size x : Nat} (hsize : 1 ≤ size)
    (hx : x < edge c (n * size)) :
    ∃ k < n, edge c (k * size) ≤ x ∧ x < edge c ((k + 1) * size) := by
  -- the luma coordinate the sample stands for
  obtain ⟨a, ha, hlo, hhi⟩ : ∃ a < n * size, edge c a ≤ x ∧ x < edge c (a + 1) := by
    unfold edge at *
    split at hx
    · exact ⟨x, hx, by simp [*], by simp [*]⟩
    · exact ⟨2 * x, by omega, by simp [*]; omega, by simp [*]; omega⟩
  have hdiv : a / size * size ≤ a := Nat.div_mul_le_self a size
  have hlt : a < (a / size + 1) * size := by
    have := Nat.div_add_mod a size
    have := Nat.mod_lt a (show 0 < size by omega)
    rw [Nat.succ_mul, Nat.mul_comm]
    omega
  refine ⟨a / size, Nat.div_lt_of_lt_mul (by rwa [Nat.mul_comm] at ha), ?_, ?_⟩
  · exact (edge_mono c hdiv).trans hlo
  · exact hhi.trans_le (edge_mono c hlt)

/-- Two different stretches between neighbouring edges never meet. -/
theorem between_edges_unique (c : Fin 3) {k m size x : Nat}
    (hk : edge c (k * size) ≤ x ∧ x < edge c ((k + 1) * size))
    (hm : edge c (m * size) ≤ x ∧ x < edge c ((m + 1) * size)) : k = m := by
  rcases Nat.lt_trichotomy k m with hlt | heq | hlt
  · have := edge_mono c (Nat.mul_le_mul_right size (show k + 1 ≤ m from hlt))
    omega
  · exact heq
  · have := edge_mono c (Nat.mul_le_mul_right size (show m + 1 ≤ k from hlt))
    omega

-- ============================================================= rectangles

/-- Width and height of a component's padded plane. -/
def planeWidth (l : Layout) (c : Fin 3) : Nat := if c = 0 then l.pwidth else l.pcwidth

/-- The indices of a rectangle's samples. -/
def Rect.cells (r : Rect) (stride : Nat) : Set Nat :=
  {i | ∃ y < r.h, ∃ x < r.w, i = (r.y + y) * stride + r.x + x}

theorem Rect.mem_cells {r : Rect} {stride : Nat} (hr : r.x + r.w ≤ stride) (i : Nat) :
    i ∈ r.cells stride ↔ (r.x ≤ i % stride ∧ i % stride < r.x + r.w)
      ∧ r.y ≤ i / stride ∧ i / stride < r.y + r.h := by
  constructor
  · rintro ⟨y, hy, x, hx, rfl⟩
    have hlt : r.x + x < stride := by omega
    have hdiv : ((r.y + y) * stride + r.x + x) / stride = r.y + y := by
      rw [Nat.add_assoc, Nat.mul_comm, Nat.mul_add_div (by omega), Nat.div_eq_of_lt hlt]
      rfl
    have hmod : ((r.y + y) * stride + r.x + x) % stride = r.x + x := by
      rw [Nat.add_assoc, Nat.mul_comm, Nat.mul_add_mod, Nat.mod_eq_of_lt hlt]
    omega
  · rintro ⟨⟨hx, hx'⟩, hy, hy'⟩
    have hi := Nat.div_add_mod i stride
    refine ⟨i / stride - r.y, by omega, i % stride - r.x, by omega, ?_⟩
    rw [show r.y + (i / stride - r.y) = i / stride by omega, Nat.mul_comm]
    omega

/-- A layout as `makeLayout` derives it. -/
structure Layout.Sound (l : Layout) : Prop where
  tileW_pos : 1 ≤ l.tileW
  tileH_pos : 1 ≤ l.tileH
  tiles_eq : l.tiles = l.cols * l.rows
  pwidth_eq : l.pwidth = l.cols * l.tileW
  pheight_eq : l.pheight = l.rows * l.tileH
  pcwidth_eq : l.pcwidth = (l.pwidth + 1) / 2
  pcheight_eq : l.pcheight = (l.pheight + 1) / 2

theorem makeLayout_sound (w h : Nat) {tw th : Nat} (htw : 1 ≤ tw) (hth : 1 ≤ th) :
    (makeLayout w h tw th).Sound :=
  ⟨htw, hth, rfl, rfl, rfl, rfl, rfl⟩

variable {l : Layout} (hl : l.Sound)
include hl

theorem Layout.Sound.planeWidth_eq (c : Fin 3) : planeWidth l c = edge c (l.cols * l.tileW) := by
  rw [planeWidth, edge, ← hl.pwidth_eq, hl.pcwidth_eq]

theorem Layout.Sound.planeHeight_eq (c : Fin 3) :
    planeHeight l c = edge c (l.rows * l.tileH) := by
  rw [planeHeight, edge, ← hl.pheight_eq, hl.pcheight_eq]

omit hl in
/-- A rectangle runs from edge to edge. -/
theorem tileRect_edges (tile : Nat) (c : Fin 3) :
    (tileRect l tile c).x = edge c (tile % l.cols * l.tileW)
      ∧ (tileRect l tile c).x + (tileRect l tile c).w = edge c ((tile % l.cols + 1) * l.tileW)
      ∧ (tileRect l tile c).y = edge c (tile / l.cols * l.tileH)
      ∧ (tileRect l tile c).y + (tileRect l tile c).h
        = edge c ((tile / l.cols + 1) * l.tileH) := by
  unfold tileRect edge
  rw [Nat.succ_mul, Nat.succ_mul]
  split
  · exact ⟨rfl, rfl, rfl, rfl⟩
  · refine ⟨rfl, ?_, rfl, ?_⟩ <;> dsimp only <;> omega

theorem Layout.Sound.col_lt {tile : Nat} (ht : tile < l.tiles) : tile % l.cols < l.cols := by
  apply Nat.mod_lt
  rcases Nat.eq_zero_or_pos l.cols with h0 | hpos
  · rw [hl.tiles_eq, h0, Nat.zero_mul] at ht
    omega
  · exact hpos

theorem Layout.Sound.row_lt {tile : Nat} (ht : tile < l.tiles) : tile / l.cols < l.rows :=
  Nat.div_lt_of_lt_mul (by rwa [hl.tiles_eq] at ht)

theorem Layout.Sound.rect_inside {tile : Nat} (ht : tile < l.tiles) (c : Fin 3) :
    (tileRect l tile c).x + (tileRect l tile c).w ≤ planeWidth l c
      ∧ (tileRect l tile c).y + (tileRect l tile c).h ≤ planeHeight l c := by
  obtain ⟨-, hx, -, hy⟩ := tileRect_edges (l := l) tile c
  rw [hx, hy, hl.planeWidth_eq, hl.planeHeight_eq]
  exact ⟨edge_mono c (Nat.mul_le_mul_right _ (hl.col_lt ht)),
    edge_mono c (Nat.mul_le_mul_right _ (hl.row_lt ht))⟩

/-- Cells of a tile, by the column and the row they lie in. -/
theorem Layout.Sound.mem_cells {tile : Nat} (ht : tile < l.tiles) (c : Fin 3) (i : Nat) :
    i ∈ (tileRect l tile c).cells (planeWidth l c) ↔
      (edge c (tile % l.cols * l.tileW) ≤ i % planeWidth l c
        ∧ i % planeWidth l c < edge c ((tile % l.cols + 1) * l.tileW))
      ∧ edge c (tile / l.cols * l.tileH) ≤ i / planeWidth l c
        ∧ i / planeWidth l c < edge c ((tile / l.cols + 1) * l.tileH) := by
  obtain ⟨hx, hx', hy, hy'⟩ := tileRect_edges (l := l) tile c
  rw [Rect.mem_cells (hl.rect_inside ht c).1, ← hx, ← hx', ← hy, ← hy']

/-- No sample belongs to two tiles. -/
theorem Layout.Sound.cells_disjoint {s t : Nat} (hs : s < l.tiles) (ht : t < l.tiles)
    (hne : s ≠ t) (c : Fin 3) :
    Disjoint ((tileRect l s c).cells (planeWidth l c))
      ((tileRect l t c).cells (planeWidth l c)) := by
  rw [Set.disjoint_left]
  intro i his hit
  obtain ⟨hcs, hrs⟩ := (hl.mem_cells hs c i).1 his
  obtain ⟨hct, hrt⟩ := (hl.mem_cells ht c i).1 hit
  have hcol := between_edges_unique c hcs hct
  have hrow := between_edges_unique c hrs hrt
  apply hne
  rw [← Nat.div_add_mod s l.cols, ← Nat.div_add_mod t l.cols, hcol, hrow]

/-- Every sample of a padded plane belongs to a tile. -/
theorem Layout.Sound.cells_cover (c : Fin 3) {i : Nat}
    (hi : i < planeWidth l c * planeHeight l c) :
    ∃ t < l.tiles, i ∈ (tileRect l t c).cells (planeWidth l c) := by
  have hw : 0 < planeWidth l c := by
    rcases Nat.eq_zero_or_pos (planeWidth l c) with h0 | hpos
    · rw [h0, Nat.zero_mul] at hi
      omega
    · exact hpos
  have hx := Nat.mod_lt i hw
  have hy := Nat.div_lt_of_lt_mul hi
  rw [hl.planeWidth_eq c] at hx
  rw [hl.planeHeight_eq c] at hy
  obtain ⟨k, hk, hcol⟩ := exists_between_edges c hl.tileW_pos hx
  obtain ⟨m, hm, hrow⟩ := exists_between_edges c hl.tileH_pos hy
  rw [← hl.planeWidth_eq c] at hcol
  have hmod : (l.cols * m + k) % l.cols = k := by
    rw [Nat.mul_add_mod, Nat.mod_eq_of_lt hk]
  have hdiv : (l.cols * m + k) / l.cols = m := by
    rw [Nat.mul_add_div (by omega), Nat.div_eq_of_lt hk]
    rfl
  have ht : l.cols * m + k < l.tiles := by
    have := Nat.mul_le_mul_left l.cols (Nat.succ_le_of_lt hm)
    rw [Nat.mul_succ] at this
    rw [hl.tiles_eq]
    omega
  refine ⟨l.cols * m + k, ht, (hl.mem_cells ht c i).2 ?_⟩
  rw [hmod, hdiv]
  exact ⟨hcol, hrow⟩

/-- A tile's cells lie in its plane. -/
theorem Layout.Sound.cells_lt {t : Nat} (ht : t < l.tiles) (c : Fin 3) {i : Nat}
    (hi : i ∈ (tileRect l t c).cells (planeWidth l c)) :
    i < planeWidth l c * planeHeight l c := by
  obtain ⟨hin, hin'⟩ := hl.rect_inside ht c
  obtain ⟨⟨-, hx⟩, -, hy⟩ := (Rect.mem_cells hin i).1 hi
  have hrow : i / planeWidth l c + 1 ≤ planeHeight l c := by omega
  have hdiv := Nat.div_add_mod i (planeWidth l c)
  have hmul := Nat.mul_le_mul_left (planeWidth l c) hrow
  rw [Nat.mul_succ] at hmul
  omega

-- =============================================================== partition

omit hl

/-- The sample in column `x` and row `y`. -/
def Rect.Holds (r : Rect) (x y : Nat) : Prop :=
  (r.x ≤ x ∧ x < r.x + r.w) ∧ r.y ≤ y ∧ y < r.y + r.h

/-- Each sample of the plane lies in one of the rectangles, and in no other;
none of them reaches out of the plane. -/
structure Splits (rect : Nat → Rect) (tiles w h : Nat) : Prop where
  one : ∀ x < w, ∀ y < h, ∃! t, t < tiles ∧ (rect t).Holds x y
  inside : ∀ t < tiles, ∀ x y, (rect t).Holds x y → x < w ∧ y < h

theorem tileRect_holds (tile : Nat) (c : Fin 3) (x y : Nat) :
    (tileRect l tile c).Holds x y ↔
      (edge c (tile % l.cols * l.tileW) ≤ x ∧ x < edge c ((tile % l.cols + 1) * l.tileW))
        ∧ edge c (tile / l.cols * l.tileH) ≤ y ∧ y < edge c ((tile / l.cols + 1) * l.tileH) := by
  obtain ⟨hx, hx', hy, hy'⟩ := tileRect_edges (l := l) tile c
  rw [← hx, ← hx', ← hy, ← hy']
  exact Iff.rfl

include hl

theorem Layout.Sound.splits (c : Fin 3) :
    Splits (fun t => tileRect l t c) l.tiles (planeWidth l c) (planeHeight l c) := by
  refine ⟨fun x hx y hy => ?_, fun t ht x y hxy => ?_⟩
  · have hw : x < planeWidth l c := hx
    rw [hl.planeWidth_eq c] at hx
    have hmul : y * planeWidth l c + x < planeWidth l c * planeHeight l c := by
      have hrow := Nat.mul_le_mul_right (planeWidth l c) (Nat.succ_le_of_lt hy)
      rw [Nat.succ_mul, Nat.mul_comm (planeHeight l c)] at hrow
      omega
    have hmod : (y * planeWidth l c + x) % planeWidth l c = x := by
      rw [Nat.mul_comm, Nat.mul_add_mod, Nat.mod_eq_of_lt hw]
    have hdiv : (y * planeWidth l c + x) / planeWidth l c = y := by
      rw [Nat.mul_comm, Nat.mul_add_div (by omega), Nat.div_eq_of_lt hw, Nat.add_zero]
    obtain ⟨t, ht, hcell⟩ := hl.cells_cover c hmul
    rw [hl.mem_cells ht c, hmod, hdiv] at hcell
    refine ⟨t, ⟨ht, (tileRect_holds t c x y).2 hcell⟩, fun u ⟨hu, hhold⟩ => ?_⟩
    obtain ⟨hcol, hrow⟩ := (tileRect_holds u c x y).1 hhold
    rw [← Nat.div_add_mod t l.cols, ← Nat.div_add_mod u l.cols,
      between_edges_unique c hcol hcell.1, between_edges_unique c hrow hcell.2]
  · obtain ⟨hx, hy⟩ := hl.rect_inside ht c
    obtain ⟨⟨-, hx'⟩, -, hy'⟩ := hxy
    exact ⟨Nat.lt_of_lt_of_le hx' hx, Nat.lt_of_lt_of_le hy' hy⟩

omit hl in
/-- A chroma sample is in the stretch that has its luma coordinate. -/
theorem edge_half {c : Fin 3} (hc : c ≠ 0) {a b x : Nat} (hx : x % 2 = 0)
    (h : edge 0 a ≤ x ∧ x < edge 0 b) : edge c a ≤ x / 2 ∧ x / 2 < edge c b := by
  unfold edge at *
  rw [if_pos rfl, if_pos rfl] at h
  rw [if_neg hc, if_neg hc]
  omega

omit hl in
/-- A chroma sample belongs to the tile of its top left luma pixel. -/
theorem chroma_holds {tile : Nat} {c : Fin 3} (hc : c ≠ 0) {x y : Nat}
    (hx : x % 2 = 0) (hy : y % 2 = 0) (h : (tileRect l tile 0).Holds x y) :
    (tileRect l tile c).Holds (x / 2) (y / 2) := by
  obtain ⟨hcol, hrow⟩ := (tileRect_holds tile 0 x y).1 h
  exact (tileRect_holds tile c _ _).2 ⟨edge_half hc hx hcol, edge_half hc hy hrow⟩

omit hl

/-- Tile rectangles of any accepted geometry split the padded planes, and
chroma goes with luma. -/
theorem tiles_split (width height tileW tileH : Nat)
    (hok : validateGeometry width height tileW tileH = none) :
    let l := makeLayout width height tileW tileH
    Splits (fun t => tileRect l t 0) l.tiles l.pwidth l.pheight
      ∧ (∀ c : Fin 3, c ≠ 0 → Splits (fun t => tileRect l t c) l.tiles l.pcwidth l.pcheight)
      ∧ ∀ t < l.tiles, ∀ x y, x % 2 = 0 → y % 2 = 0 → (tileRect l t 0).Holds x y →
          ∀ c : Fin 3, c ≠ 0 → (tileRect l t c).Holds (x / 2) (y / 2) := by
  intro l
  have hl : l.Sound := by
    unfold validateGeometry at hok
    split_ifs at hok
    exact makeLayout_sound width height (by omega) (by omega)
  refine ⟨hl.splits 0, fun c hc => ?_, fun t _ x y hx hy h c hc => chroma_holds hc hx hy h⟩
  have hsplits := hl.splits c
  unfold planeWidth planeHeight at hsplits
  rw [if_neg hc, if_neg hc] at hsplits
  exact hsplits

/-- Three pixels in tiles of one: the second tile of each row has no
chroma. -/
theorem tiles_split_odd :
    Splits (fun t => tileRect (makeLayout 3 3 1 1) t 1) 9 2 2 :=
  (tiles_split 3 3 1 1 (by decide)).2.1 1 (by decide)

end Ncmips.Tjc
