/-
Tiles as patches: what decoding, coding and copying a tile write.

Each of the three writes values that do not depend on what the planes
hold, and only at the tile's own cells: a decoder at all of them when
the payload is good and at some of them when it is not, the encoder
always at all of them. So tiles commute, and a tile hides an earlier
version of itself.
-/
import Ncmips.Lib.Patch
import Ncmips.Tjc.Decoder
import Ncmips.Tjc.Proofs.Geometry

namespace Ncmips.Tjc

open Patch (Writes)

-- ================================================================= blocks

/-- The writes of `storeBlock`. -/
def blockPatch (blk : Block UInt8) (off stride bw bh : Nat) : Writes UInt8 :=
  (List.range bh).flatMap fun y => (List.range bw).map fun x =>
    (off + y * stride + x, blk (y * 8 + x))

theorem storeRow_eq (dst : Array UInt8) (off : Nat) (row : Nat → UInt8) (n : Nat) :
    storeRow dst off row n
      = Patch.apply ((List.range n).map fun x => (off + x, row x)) dst := by
  rw [storeRow, Patch.apply, List.foldl_map]

theorem storeBlock_eq (blk : Block UInt8) (dst : Array UInt8) (off stride bw bh : Nat) :
    storeBlock blk dst off stride bw bh
      = Patch.apply (blockPatch blk off stride bw bh) dst := by
  rw [storeBlock, blockPatch]
  generalize List.range bh = rows
  induction rows generalizing dst with
  | nil => rfl
  | cons y rows ih =>
      rw [List.foldl_cons, List.flatMap_cons, Patch.apply_append, ← storeRow_eq]
      exact ih _

theorem mem_dom_blockPatch {blk : Block UInt8} {off stride bw bh i : Nat} :
    i ∈ Patch.dom (blockPatch blk off stride bw bh)
      ↔ ∃ y < bh, ∃ x < bw, i = off + y * stride + x := by
  constructor
  · rintro ⟨v, hv⟩
    obtain ⟨y, hy, hv⟩ := List.mem_flatMap.1 hv
    obtain ⟨x, hx, heq⟩ := List.mem_map.1 hv
    cases heq
    exact ⟨y, List.mem_range.1 hy, x, List.mem_range.1 hx, rfl⟩
  · rintro ⟨y, hy, x, hx, rfl⟩
    exact ⟨_, List.mem_flatMap.2 ⟨y, List.mem_range.2 hy,
      List.mem_map.2 ⟨x, List.mem_range.2 hx, rfl⟩⟩⟩

theorem mem_blockOrigins {w h y x : Nat} :
    (y, x) ∈ blockOrigins w h ↔ y % 8 = 0 ∧ x % 8 = 0 ∧ y < h ∧ x < w := by
  unfold blockOrigins
  constructor
  · intro hmem
    obtain ⟨j, hj, hmem⟩ := List.mem_flatMap.1 hmem
    obtain ⟨i, hi, heq⟩ := List.mem_map.1 hmem
    cases heq
    rw [List.mem_range] at hj hi
    omega
  · rintro ⟨hy, hx, hyh, hxw⟩
    refine List.mem_flatMap.2 ⟨y / 8, List.mem_range.2 (by omega), List.mem_map.2
      ⟨x / 8, List.mem_range.2 (by omega), ?_⟩⟩
    rw [Nat.mul_div_cancel' (Nat.dvd_of_mod_eq_zero hy),
      Nat.mul_div_cancel' (Nat.dvd_of_mod_eq_zero hx)]

/-- The cells of the block that starts at `o` in a rectangle. -/
def blockCells (r : Rect) (stride : Nat) (o : Nat × Nat) : Set Nat :=
  {i | ∃ y < min 8 (r.h - o.1), ∃ x < min 8 (r.w - o.2),
    i = (r.y + o.1) * stride + r.x + o.2 + y * stride + x}

/-- The blocks of a rectangle are all of it. -/
theorem iUnion_blockCells (r : Rect) (stride : Nat) (i : Nat) :
    (∃ o ∈ blockOrigins r.w r.h, i ∈ blockCells r stride o) ↔ i ∈ r.cells stride := by
  constructor
  · rintro ⟨⟨y₀, x₀⟩, -, y, hy, x, hx, rfl⟩
    refine ⟨y₀ + y, by omega, x₀ + x, by omega, ?_⟩
    simp only
    ring
  · rintro ⟨y, hy, x, hx, rfl⟩
    refine ⟨(y / 8 * 8, x / 8 * 8), mem_blockOrigins.2 (by omega), y % 8, by simp only; omega,
      x % 8, by simp only; omega, ?_⟩
    have hy8 : r.y + y = r.y + y / 8 * 8 + y % 8 := by omega
    have hx8 : x = x / 8 * 8 + x % 8 := by omega
    calc (r.y + y) * stride + r.x + x
        = (r.y + y / 8 * 8 + y % 8) * stride + r.x + (x / 8 * 8 + x % 8) := by
          rw [← hy8, ← hx8]
      _ = _ := by ring

-- ============================================================== decoding

/-- What `decodeBlocks` writes; no plane is looked at. -/
def readBlocks (dq : Nat → Nat) (table : Bool) (r : Rect) (stride : Nat) :
    List (Nat × Nat) → BitReader → Int → Option BitReader × Writes UInt8
  | [], br, _ => (some br, [])
  | (y, x) :: rest, br, pred =>
      let out := decodeBlock br table dq pred
      match out.r with
      | none => (none, [])
      | some hasAc =>
          let blk := if hasAc then idct8x8 out.coef else idct8x8Dc (out.coef 0)
          let next := readBlocks dq table r stride rest out.br out.pred
          (next.1, blockPatch blk ((r.y + y) * stride + r.x + x) stride (min 8 (r.w - x))
            (min 8 (r.h - y)) ++ next.2)

theorem decodeBlocks_eq (dq : Nat → Nat) (table : Bool) (r : Rect) (stride : Nat)
    (os : List (Nat × Nat)) (br : BitReader) (pred : Int) (plane : Array UInt8) :
    decodeBlocks dq table r stride os br pred plane
      = ((readBlocks dq table r stride os br pred).1,
        Patch.apply (readBlocks dq table r stride os br pred).2 plane) := by
  induction os generalizing br pred plane with
  | nil => rfl
  | cons o os ih =>
      obtain ⟨y, x⟩ := o
      simp only [decodeBlocks, readBlocks]
      cases (decodeBlock br table dq pred).r with
      | none => rfl
      | some hasAc => simp only [ih, storeBlock_eq, Patch.apply_append]

/-- Every write lies in a block of the list, and a component that came
through has written them all. -/
theorem dom_readBlocks (dq : Nat → Nat) (table : Bool) (r : Rect) (stride : Nat)
    (os : List (Nat × Nat)) (br : BitReader) (pred : Int) (i : Nat) :
    (i ∈ Patch.dom (readBlocks dq table r stride os br pred).2
        → ∃ o ∈ os, i ∈ blockCells r stride o)
      ∧ ((readBlocks dq table r stride os br pred).1.isSome
        → (∃ o ∈ os, i ∈ blockCells r stride o)
        → i ∈ Patch.dom (readBlocks dq table r stride os br pred).2) := by
  induction os generalizing br pred with
  | nil => simp [readBlocks, Patch.dom]
  | cons o os ih =>
      obtain ⟨y, x⟩ := o
      simp only [readBlocks]
      cases (decodeBlock br table dq pred).r with
      | none => simp [Patch.dom]
      | some hasAc =>
          obtain ⟨hsub, hall⟩ := ih (decodeBlock br table dq pred).br
            (decodeBlock br table dq pred).pred
          simp only [Patch.dom_append, Set.mem_union, mem_dom_blockPatch, List.exists_mem_cons_iff]
          constructor
          · rintro (hblock | hrest)
            · exact Or.inl hblock
            · exact Or.inr (hsub hrest)
          · rintro hsome (hblock | hrest)
            · exact Or.inl hblock
            · exact Or.inr (hall hsome hrest)

/-- Writes to the three planes. -/
abbrev PlanePatch := Fin 3 → Writes UInt8

def Planes.patch (fb : Planes) (ws : PlanePatch) : Planes :=
  { fb with p := fun c => Patch.apply (ws c) (fb.p c) }

@[simp] theorem Planes.patch_stride (fb : Planes) (ws : PlanePatch) :
    (fb.patch ws).stride = fb.stride := rfl

/-- What `decodeComps` writes. -/
def readComps (l : Layout) (dq : Bool → Nat → Nat) (stride : Fin 3 → Nat) (tile : Nat) :
    List (Fin 3) → BitReader → Option BitReader × PlanePatch
  | [], br => (some br, fun _ => [])
  | c :: cs, br =>
      let r := tileRect l tile c
      match readBlocks (dq (compTable c)) (compTable c) r (stride c) (blockOrigins r.w r.h) br 0 with
      | (none, ws) => (none, Function.update (fun _ => []) c ws)
      | (some br, ws) =>
          let next := readComps l dq stride tile cs br
          (next.1, Function.update next.2 c (ws ++ next.2 c))

theorem Planes.patch_setPlane (fb : Planes) (c : Fin 3) (ws : Writes UInt8) (vs : PlanePatch) :
    (fb.setPlane c (Patch.apply ws (fb.p c))).patch vs
      = fb.patch (Function.update vs c (ws ++ vs c)) := by
  simp only [Planes.patch, Planes.setPlane, Planes.mk.injEq, and_true]
  funext c'
  rcases eq_or_ne c' c with rfl | hne
  · simp only [Function.update_self, Patch.apply_append]
  · simp only [Function.update_of_ne hne]

theorem decodeComps_eq (l : Layout) (dq : Bool → Nat → Nat) (tile : Nat) (cs : List (Fin 3))
    (br : BitReader) (fb : Planes) :
    decodeComps l dq tile cs br fb
      = ((readComps l dq fb.stride tile cs br).1,
        fb.patch (readComps l dq fb.stride tile cs br).2) := by
  induction cs generalizing br fb with
  | nil => rfl
  | cons c cs ih =>
      simp only [decodeComps, readComps, decodeBlocks_eq]
      rcases readBlocks (dq (compTable c)) (compTable c) (tileRect l tile c) (fb.stride c)
        (blockOrigins (tileRect l tile c).w (tileRect l tile c).h) br 0 with ⟨_ | br', ws⟩
      · have hnil := fb.patch_setPlane c ws fun _ => []
        rw [List.append_nil] at hnil
        simp only
        rw [← hnil]
        rfl
      · simp only [ih, Planes.patch_setPlane, Planes.setPlane_stride]

/-- The writes of a tile stay in its rectangles, and fill them if the
payload is good to its end. -/
theorem dom_readComps (l : Layout) (dq : Bool → Nat → Nat) (stride : Fin 3 → Nat) (tile : Nat)
    (cs : List (Fin 3)) (br : BitReader) (c : Fin 3) :
    Patch.dom ((readComps l dq stride tile cs br).2 c) ⊆ (tileRect l tile c).cells (stride c)
      ∧ ((readComps l dq stride tile cs br).1.isSome → c ∈ cs →
        Patch.dom ((readComps l dq stride tile cs br).2 c)
          = (tileRect l tile c).cells (stride c)) := by
  induction cs generalizing br with
  | nil => simp [readComps, Patch.dom_nil]
  | cons c' cs ih =>
      have hdom := dom_readBlocks (dq (compTable c')) (compTable c') (tileRect l tile c')
        (stride c') (blockOrigins (tileRect l tile c').w (tileRect l tile c').h) br 0
      simp only [iUnion_blockCells] at hdom
      simp only [readComps]
      rcases hread : readBlocks (dq (compTable c')) (compTable c') (tileRect l tile c') (stride c')
        (blockOrigins (tileRect l tile c').w (tileRect l tile c').h) br 0 with ⟨_ | br', ws⟩
      · rw [hread] at hdom
        simp only [Option.isSome_none, Bool.false_eq_true, false_imp_iff, and_true]
        rcases eq_or_ne c c' with rfl | hne
        · rw [Function.update_self]
          exact fun i hi => (hdom i).1 hi
        · rw [Function.update_of_ne hne, Patch.dom_nil]
          exact Set.empty_subset _
      · rw [hread] at hdom
        obtain ⟨hsub, hall⟩ := ih br'
        rcases eq_or_ne c c' with rfl | hne
        · have hws : Patch.dom ws = (tileRect l tile c).cells (stride c) :=
            Set.Subset.antisymm (fun i hi => (hdom i).1 hi) fun i hi => (hdom i).2 rfl hi
          simp only [Function.update_self, Patch.dom_append, hws,
            Set.union_eq_self_of_subset_right hsub]
          exact ⟨Set.Subset.refl _, fun _ _ => trivial⟩
        · simp only [Function.update_of_ne hne]
          refine ⟨hsub, fun hsome hc => hall hsome ?_⟩
          rcases List.mem_cons.1 hc with heq | hc
          · exact absurd heq hne
          · exact hc

/-- A tile payload: whether it is good, and what it writes. -/
def Decoder.readTile (d : Decoder) (data : List UInt8) (tile : Nat) : Bool × PlanePatch :=
  match readComps d.layout d.dq d.fb.stride tile [0, 1, 2] { data } with
  | (none, ws) => (false, ws)
  | (some br, ws) => (!br.overrun, ws)

theorem Decoder.decodeTile_eq (d : Decoder) (data : List UInt8) (tile : Nat) :
    d.decodeTile data tile
      = ((d.readTile data tile).1, { d with fb := d.fb.patch (d.readTile data tile).2 }) := by
  simp only [Decoder.decodeTile, Decoder.readTile, decodeComps_eq]
  rcases readComps d.layout d.dq d.fb.stride tile [0, 1, 2] { data } with ⟨_ | br, ws⟩ <;> rfl

theorem Decoder.dom_readTile (d : Decoder) (data : List UInt8) (tile : Nat) (c : Fin 3) :
    Patch.dom ((d.readTile data tile).2 c)
        ⊆ (tileRect d.layout tile c).cells (d.fb.stride c)
      ∧ ((d.readTile data tile).1 = true → Patch.dom ((d.readTile data tile).2 c)
          = (tileRect d.layout tile c).cells (d.fb.stride c)) := by
  have hdom := dom_readComps d.layout d.dq d.fb.stride tile [0, 1, 2] { data } c
  have hc : c ∈ ([0, 1, 2] : List (Fin 3)) := by fin_cases c <;> simp
  unfold Decoder.readTile
  rcases hread : readComps d.layout d.dq d.fb.stride tile [0, 1, 2] { data } with ⟨_ | br, ws⟩
  · rw [hread] at hdom
    exact ⟨hdom.1, fun h => by cases h⟩
  · rw [hread] at hdom
    exact ⟨hdom.1, fun _ => hdom.2 rfl hc⟩

-- ================================================================ patches

theorem Planes.patch_patch (fb : Planes) (vs ws : PlanePatch) :
    (fb.patch vs).patch ws = fb.patch fun c => vs c ++ ws c := by
  simp only [Planes.patch, Patch.apply_append]

/-- Patches of different tiles commute. -/
theorem Planes.patch_comm (fb : Planes) {vs ws : PlanePatch}
    (h : ∀ c, Disjoint (Patch.dom (vs c)) (Patch.dom (ws c))) :
    (fb.patch vs).patch ws = (fb.patch ws).patch vs := by
  simp only [Planes.patch, Planes.mk.injEq, and_true]
  funext c
  exact Patch.apply_comm (h c) _

/-- A patch over the same cells hides the one before. -/
theorem Planes.patch_hide (fb : Planes) {vs ws : PlanePatch}
    (h : ∀ c, Patch.dom (vs c) ⊆ Patch.dom (ws c)) : (fb.patch vs).patch ws = fb.patch ws := by
  simp only [Planes.patch, Planes.mk.injEq, and_true]
  funext c
  exact Patch.apply_hide (h c) _

-- ================================================================= coding

/-- What `encodeBlocks` writes to the shadow plane. -/
def shadeBlocks (q : Nat → Nat) (r : Rect) (stride : Nat) (cur : Array UInt8)
    (os : List (Nat × Nat)) : Writes UInt8 :=
  os.flatMap fun (y, x) =>
    let off := (r.y + y) * stride + r.x + x
    let w := min 8 (r.w - x)
    let h := min 8 (r.h - y)
    blockPatch (shadowBlock q (quantise q (fdct8x8 (loadBlock cur off stride w h)))) off stride w h

/-- The bits `encodeBlocks` appends. -/
def codeBlocks (q : Nat → Nat) (table : Bool) (r : Rect) (stride : Nat) (cur : Array UInt8) :
    List (Nat × Nat) → BitWriter → Int → BitWriter
  | [], bw, _ => bw
  | (y, x) :: rest, bw, pred =>
      let zz := quantise q (fdct8x8 (loadBlock cur ((r.y + y) * stride + r.x + x) stride
        (min 8 (r.w - x)) (min 8 (r.h - y))))
      let coded := encodeBlock bw zz pred table
      codeBlocks q table r stride cur rest coded.1 coded.2

theorem encodeBlocks_eq (q : Nat → Nat) (table : Bool) (r : Rect) (stride : Nat)
    (cur : Array UInt8) (os : List (Nat × Nat)) (bw : BitWriter) (pred : Int)
    (recon : Array UInt8) :
    encodeBlocks q table r stride cur os bw pred recon
      = (codeBlocks q table r stride cur os bw pred,
        Patch.apply (shadeBlocks q r stride cur os) recon) := by
  induction os generalizing bw pred recon with
  | nil => rfl
  | cons o os ih =>
      obtain ⟨y, x⟩ := o
      rw [shadeBlocks, List.flatMap_cons, Patch.apply_append, ← storeBlock_eq]
      exact ih _ _ _

theorem mem_dom_shadeBlocks {q : Nat → Nat} {r : Rect} {stride : Nat} {cur : Array UInt8}
    {os : List (Nat × Nat)} {i : Nat} :
    i ∈ Patch.dom (shadeBlocks q r stride cur os) ↔ ∃ o ∈ os, i ∈ blockCells r stride o := by
  induction os with
  | nil => simp [shadeBlocks, Patch.dom]
  | cons o os ih =>
      rw [shadeBlocks, List.flatMap_cons, Patch.dom_append, Set.mem_union, mem_dom_blockPatch,
        List.exists_mem_cons_iff]
      exact or_congr Iff.rfl ih

/-- What a tile writes to the shadow planes. -/
def shadeTile (l : Layout) (q : Bool → Nat → Nat) (cur : Planes) (tile : Nat) : PlanePatch :=
  fun c =>
    let r := tileRect l tile c
    shadeBlocks (q (compTable c)) r (cur.stride c) (cur.p c) (blockOrigins r.w r.h)

/-- The bits of the components in the list. -/
def codeComps (l : Layout) (q : Bool → Nat → Nat) (cur : Planes) (tile : Nat)
    (cs : List (Fin 3)) (bw : BitWriter) : BitWriter :=
  cs.foldl
    (fun bw c =>
      let r := tileRect l tile c
      codeBlocks (q (compTable c)) (compTable c) r (cur.stride c) (cur.p c)
        (blockOrigins r.w r.h) bw 0)
    bw

theorem encodeComps_eq (l : Layout) (q : Bool → Nat → Nat) (cur : Planes) (tile : Nat)
    (cs : List (Fin 3)) (hcs : cs.Nodup) (bw : BitWriter) (recon : Planes) :
    encodeComps l q cur tile cs bw recon
      = (codeComps l q cur tile cs bw,
        recon.patch fun c => if c ∈ cs then shadeTile l q cur tile c else []) := by
  induction cs generalizing bw recon with
  | nil => rfl
  | cons c cs ih =>
      obtain ⟨hc, hcs⟩ := List.nodup_cons.1 hcs
      simp only [encodeComps, encodeBlocks_eq, ih hcs, Planes.patch_setPlane, codeComps,
        List.foldl_cons]
      congr 2
      funext c'
      rcases eq_or_ne c' c with rfl | hne
      · simp [hc, shadeTile]
      · simp [hne]

theorem dom_shadeTile (l : Layout) (q : Bool → Nat → Nat) (cur : Planes) (tile : Nat)
    (c : Fin 3) :
    Patch.dom (shadeTile l q cur tile c) = (tileRect l tile c).cells (cur.stride c) := by
  ext i
  rw [shadeTile, mem_dom_shadeBlocks, iUnion_blockCells]

/-- The bytes of a tile: its length and its payload. -/
def Encoder.tileBytes (e : Encoder) (tile : Nat) : List UInt8 :=
  let payload := (codeComps e.layout e.q e.cur tile [0, 1, 2] {}).flush
  putU16 (.ofNat payload.length) ++ payload

/-- Coding a tile reads only the input planes, tables and geometry. -/
theorem Encoder.encodeTile_eq (e : Encoder) (tile : Nat) :
    e.encodeTile tile
      = (e.tileBytes tile, { e with recon := e.recon.patch (shadeTile e.layout e.q e.cur tile) })
      := by
  have hall : (fun c => if c ∈ ([0, 1, 2] : List (Fin 3)) then shadeTile e.layout e.q e.cur tile c
      else []) = shadeTile e.layout e.q e.cur tile := by
    funext c
    fin_cases c <;> rfl
  simp only [Encoder.encodeTile, encodeComps_eq _ _ _ _ _ (by decide : [(0 : Fin 3), 1, 2].Nodup),
    hall]
  rfl

-- ================================================================ copying

/-- What `copyTile` writes. -/
def copyPatch (l : Layout) (src : Planes) (tile : Nat) : PlanePatch := fun c =>
  let r := tileRect l tile c
  (List.range r.h).flatMap fun y => (List.range r.w).map fun x =>
    ((r.y + y) * src.stride c + r.x + x, (src.p c).getD ((r.y + y) * src.stride c + r.x + x) 0)

theorem copyRows_eq (r : Rect) (stride : Nat) (src dst : Array UInt8) (rows : List Nat) :
    rows.foldl (fun a y => copyRow src a ((r.y + y) * stride + r.x) r.w) dst
      = Patch.apply (rows.flatMap fun y => (List.range r.w).map fun x =>
          ((r.y + y) * stride + r.x + x, src.getD ((r.y + y) * stride + r.x + x) 0)) dst := by
  induction rows generalizing dst with
  | nil => rfl
  | cons y rows ih =>
      rw [List.foldl_cons, List.flatMap_cons, Patch.apply_append, copyRow, storeRow_eq]
      exact ih _

theorem copyTile_eq (l : Layout) (src dst : Planes) (tile : Nat) :
    copyTile l src dst tile = dst.patch (copyPatch l src tile) := by
  simp only [copyTile, List.foldl_cons, List.foldl_nil, copyRows_eq]
  simp only [Planes.patch, Planes.setPlane, Planes.mk.injEq, and_true]
  funext c
  fin_cases c <;> simp [copyPatch, Function.update]

theorem dom_copyPatch (l : Layout) (src : Planes) (tile : Nat) (c : Fin 3) :
    Patch.dom (copyPatch l src tile c) = (tileRect l tile c).cells (src.stride c) := by
  ext i
  constructor
  · rintro ⟨v, hv⟩
    obtain ⟨y, hy, hv⟩ := List.mem_flatMap.1 hv
    obtain ⟨x, hx, heq⟩ := List.mem_map.1 hv
    cases heq
    exact ⟨y, List.mem_range.1 hy, x, List.mem_range.1 hx, rfl⟩
  · rintro ⟨y, hy, x, hx, rfl⟩
    exact ⟨_, List.mem_flatMap.2 ⟨y, List.mem_range.2 hy,
      List.mem_map.2 ⟨x, List.mem_range.2 hx, rfl⟩⟩⟩

/-- A copied cell holds what the source holds. -/
theorem apply_copyPatch (l : Layout) (src : Planes) (tile : Nat) (c : Fin 3) (a : Array UInt8)
    {i : Nat} (hi : i ∈ (tileRect l tile c).cells (src.stride c)) (hlt : i < a.size) :
    (Patch.apply (copyPatch l src tile c) a)[i]? = some ((src.p c).getD i 0) := by
  have hvalue : ∀ (ws : Writes UInt8), (∀ w ∈ ws, w.2 = (src.p c).getD w.1 0) →
      ∀ v, Patch.value ws i = some v → v = (src.p c).getD i 0 := by
    intro ws
    induction ws with
    | nil => exact fun _ v hv => by cases hv
    | cons w ws ih =>
        intro hws v hv
        rw [Patch.value, Option.or_eq_some_iff] at hv
        rcases hv with hv | ⟨-, hv⟩
        · exact ih (fun w hw => hws w (List.mem_cons_of_mem _ hw)) v hv
        · split at hv
          · next heq =>
            cases hv
            rw [hws w (List.mem_cons_self ..), heq]
          · cases hv
  have hdom : i ∈ Patch.dom (copyPatch l src tile c) := by rwa [dom_copyPatch]
  obtain ⟨v, hv⟩ := Option.ne_none_iff_exists'.1 fun h => (Patch.value_eq_none _ i).1 h hdom
  rw [Patch.getElem?_apply, hv, Array.getElem?_eq_getElem hlt, Option.map_some, Option.getD_some,
    hvalue _ ?_ v hv]
  intro w hw
  obtain ⟨y, -, hw⟩ := List.mem_flatMap.1 hw
  obtain ⟨x, -, rfl⟩ := List.mem_map.1 hw
  rfl

end Ncmips.Tjc
