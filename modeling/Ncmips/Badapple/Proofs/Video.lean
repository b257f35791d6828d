/-
The film is played as it was encoded.

A frame's runs are a way to write its pixels (`expand`): unchanged and
toggled in turn. The player adds the runs up to where each of them starts,
and flips the pixels of every second one; a refill only changes where the
next byte is found.
-/
import Mathlib.Tactic.Ring
import Ncmips.Badapple.Video

namespace Ncmips.Badapple

open Words

-- =================================================================== bitmap

/-- Rows and columns go on from entry to entry. -/
theorem toggleLoop_eq {w : Nat} (hw : 0 < w) (n : Nat) {x : Nat} (hx : x ≤ w) (y : Nat) :
    toggleLoop w n x y = List.range' (y * w + x) n := by
  induction n generalizing x y with
  | zero => rfl
  | succ n ih =>
      unfold toggleLoop
      rw [List.range'_succ]
      split_ifs with hin
      · rw [ih (by omega)]
        rfl
      · have hend : x = w := by omega
        have hnext : (y + 1) * w = y * w + x := by
          rw [Nat.add_mul, hend, Nat.one_mul]
        rw [ih hw, hnext]

theorem toggled_eq {w h pos len : Nat} (hw : 0 < w) :
    toggled w h pos len = List.range' pos (min (u32 (pos + len)) (w * h) - pos) := by
  have hx : pos - pos / w * w ≤ w := by
    have hdiv := Nat.div_add_mod pos w
    have hmod := Nat.mod_lt pos hw
    rw [Nat.mul_comm] at hdiv
    omega
  have hpos : pos / w * w + (pos - pos / w * w) = pos := by
    have hle := Nat.div_mul_le_self pos w
    omega
  have hstop : (if u32 (pos + len) > w * h then w * h else u32 (pos + len))
      = min (u32 (pos + len)) (w * h) := by
    split_ifs <;> omega
  unfold toggled
  dsimp only
  rw [toggleLoop_eq hw _ hx, hpos, hstop]

/-- Only entries of the frame are touched. -/
theorem toggled_lt {w h pos len i : Nat} (hw : 0 < w) (hi : i ∈ toggled w h pos len) :
    i < w * h := by
  rw [toggled_eq hw, List.mem_range'_1] at hi
  omega

theorem flips (n pos : Nat) (bm : List Bool) (k : Nat) :
    ((List.range' pos n).foldl (fun bm i => bm.modify i not) bm)[k]?
      = if pos ≤ k ∧ k < pos + n then bm[k]?.map not else bm[k]? := by
  induction n generalizing pos bm with
  | zero =>
      rw [if_neg (by omega)]
      rfl
  | succ n ih =>
      rw [List.range'_succ, List.foldl_cons, ih, List.getElem?_modify]
      split_ifs <;> first | rfl | omega | simp

/-- A run within the frame is flipped. -/
theorem toggleRun_eq {w h pos len : Nat} (hw : 0 < w) (hin : pos + len ≤ w * h)
    (hsmall : w * h < 2 ^ 32) (bm : List Bool) (k : Nat) :
    (toggleRun w h pos len bm)[k]? = if pos ≤ k ∧ k < pos + len then bm[k]?.map not else bm[k]? := by
  unfold toggleRun
  rw [toggled_eq hw, u32_of_lt (by omega), flips, Nat.min_eq_left hin, Nat.add_sub_cancel_left]

-- =================================================================== stream

namespace Stream

/-- All bytes that are left. -/
def bytes (s : Stream) : List UInt8 := s.buf ++ s.refills.flatten

/-- Every refill brings something. -/
def Flows (s : Stream) : Prop := ∀ c ∈ s.refills, c ≠ []

end Stream

theorem vbyte_next {s : Stream} (hs : s.Flows) {b : UInt8} {rest : List UInt8}
    (h : s.bytes = b :: rest) :
    (vbyte s).1 = b.toNat ∧ (vbyte s).2.bytes = rest ∧ (vbyte s).2.Flows := by
  obtain ⟨buf, refills⟩ := s
  unfold vbyte
  cases buf with
  | cons c buf =>
      have hcons : c :: (buf ++ refills.flatten) = b :: rest := h
      cases hcons
      exact ⟨rfl, rfl, hs⟩
  | nil =>
      cases refills with
      | nil => exact nomatch h
      | cons c cs =>
          have hne := hs c List.mem_cons_self
          cases c with
          | nil => exact absurd rfl hne
          | cons c0 c =>
              have hcons : c0 :: (c ++ cs.flatten) = b :: rest := h
              cases hcons
              exact ⟨rfl, rfl, fun d hd => hs d (List.mem_cons_of_mem _ hd)⟩

theorem low7 (b : Nat) : b &&& 0x7f = b % 2 ^ 7 := Nat.and_two_pow_sub_one_eq_mod b 7

theorem or80 : ∀ b < 128, b ||| 0x80 = b + 128 := by decide

theorem and80 : ∀ b < 256, (b &&& 0x80 = 0 ↔ b < 128) := by decide +kernel

/-- A number's last byte is below 128, and the others are not. -/
theorem putVarint_cons (v : Nat) : putVarint v
    = if v ≥ 128 then .ofNat (v % 128 + 128) :: putVarint (v / 128) else [.ofNat v] := by
  rw [putVarint, low7, or80 (v % 2 ^ 7) (Nat.mod_lt _ (by decide))]
  rfl

theorem or_add {acc shift : Nat} (h : acc < 2 ^ shift) (a : Nat) :
    acc ||| a * 2 ^ shift = acc + a * 2 ^ shift := by
  rw [Nat.or_comm, Nat.mul_comm, ← Nat.two_pow_add_eq_or_of_lt h, Nat.add_comm]

/-- A number is read as it was written, from the bits read so far on. -/
theorem varintLoop_put {v acc shift : Nat} {s : Stream} (hs : s.Flows) {rest : List UInt8}
    (h : s.bytes = putVarint v ++ rest) (hv : v * 2 ^ shift < 2 ^ 28) (hshift : shift ≤ 28)
    (hacc : acc < 2 ^ shift) :
    (varintLoop acc shift s).1 = acc + v * 2 ^ shift ∧ (varintLoop acc shift s).2.bytes = rest
      ∧ (varintLoop acc shift s).2.Flows := by
  induction v using Nat.strongRecOn generalizing acc shift s with
  | _ v ih =>
      have hmod : shift % 32 = shift := Nat.mod_eq_of_lt (by omega)
      have hpos := Nat.two_pow_pos shift
      rw [putVarint_cons] at h
      rw [varintLoop]
      by_cases hlast : v < 128
      · rw [if_neg (by omega), List.cons_append, List.nil_append] at h
        obtain ⟨hb, hrest, hflows⟩ := vbyte_next hs h
        have hbyte : (vbyte s).1 = v := by
          rw [hb, UInt8.toNat_ofNat']
          exact Nat.mod_eq_of_lt (by omega)
        dsimp only
        rw [hbyte, low7, hmod, Nat.mod_eq_of_lt (show v < 2 ^ 7 from hlast),
          u32_of_lt (Nat.lt_trans hv (by decide)), or_add hacc,
          if_pos (.inl ((and80 v (by omega)).mpr hlast))]
        exact ⟨rfl, hrest, hflows⟩
      · rw [if_pos (by omega), List.cons_append] at h
        obtain ⟨hb, hrest, hflows⟩ := vbyte_next hs h
        have hbyte : (vbyte s).1 = v % 128 + 128 := by
          rw [hb, UInt8.toNat_ofNat']
          exact Nat.mod_eq_of_lt (by omega)
        have hlow : (v % 128 + 128) % 2 ^ 7 = v % 128 := by omega
        have hnext : 2 ^ (shift + 7) = 2 ^ shift * 128 := by
          rw [Nat.pow_add]
        have hsplit : v * 2 ^ shift = v % 128 * 2 ^ shift + v / 128 * 2 ^ (shift + 7) := by
          conv => lhs; rw [← Nat.mod_add_div v 128]
          rw [hnext]
          ring
        have hroom : shift + 7 ≤ 28 := by
          by_contra hlong
          have hbig : 2 ^ 28 ≤ 2 ^ (shift + 7) := Nat.pow_le_pow_right (by decide) (by omega)
          have hle : 128 * 2 ^ shift ≤ v * 2 ^ shift := Nat.mul_le_mul_right _ (by omega)
          omega
        have hacc' : acc + v % 128 * 2 ^ shift < 2 ^ (shift + 7) := by
          have hle : v % 128 * 2 ^ shift ≤ 127 * 2 ^ shift := Nat.mul_le_mul_right _ (by omega)
          omega
        have hmore : v % 128 * 2 ^ shift < 2 ^ 32 := by omega
        dsimp only
        rw [hbyte, low7, hmod, hlow, u32_of_lt hmore, or_add hacc, if_neg]
        · obtain ⟨hv', hrest', hflows'⟩ := ih (v / 128) (by omega) hflows hrest (by omega) hroom hacc'
          exact ⟨by rw [hv', hsplit, Nat.add_assoc], hrest', hflows'⟩
        · rintro (h0 | h28)
          · have := (and80 _ (by omega)).mp h0
            omega
          · omega

theorem varint_put {v : Nat} {s : Stream} (hs : s.Flows) {rest : List UInt8}
    (h : s.bytes = putVarint v ++ rest) (hv : v < 2 ^ 28) :
    (varint s).1 = v ∧ (varint s).2.bytes = rest ∧ (varint s).2.Flows := by
  have hloop := @varintLoop_put v 0 0 s hs rest h (by omega) (by decide) (by decide)
  rw [Nat.pow_zero, Nat.mul_one, Nat.zero_add] at hloop
  exact hloop

-- ===================================================================== runs

/-- The pixels that runs stand for, the first one of the value `v`. -/
def expand : (v : Bool) → List Nat → List Bool
  | _, [] => []
  | v, n :: ns => List.replicate n v ++ expand (!v) ns

/-- The lengths of the runs in a row. -/
def groups : List Bool → List Nat
  | [] => []
  | a :: d =>
      match d, groups d with
      | b :: _, n :: ns => if a = b then (n + 1) :: ns else 1 :: n :: ns
      | _, _ => [1]

theorem groups_ne_nil (a : Bool) (d : List Bool) : groups (a :: d) ≠ [] := by
  unfold groups
  split
  · split_ifs <;> exact List.cons_ne_nil _ _
  · exact List.cons_ne_nil _ _

theorem expand_groups (a : Bool) (d : List Bool) : expand a (groups (a :: d)) = a :: d := by
  induction d generalizing a with
  | nil => rfl
  | cons b d ih =>
      have hrest := ih b
      cases hg : groups (b :: d) with
      | nil => exact absurd hg (groups_ne_nil b d)
      | cons n ns =>
          rw [hg] at hrest
          unfold groups
          rw [hg]
          dsimp only
          split_ifs with hab
          · subst hab
            show a :: (List.replicate n a ++ expand (!a) ns) = _
            exact congrArg (a :: ·) hrest
          · have hb : b = !a := by
              cases a <;> cases b <;> simp_all
            show a :: expand (!a) (n :: ns) = _
            rw [← hb, hrest]

theorem edges_cons (a b : Bool) (d : List Bool) :
    edges (a :: b :: d) = (if a ≠ b then [1] else []) ++ (edges (b :: d)).map (· + 1) := by
  have hfilter : (List.range (b :: d).length).filter
        (fun i => (a :: b :: d).getD i false ≠ (a :: b :: d).getD (i + 1) false)
      = (if a ≠ b then [0] else []) ++ ((List.range ((b :: d).length - 1)).filter
        fun i => (b :: d).getD i false ≠ (b :: d).getD (i + 1) false).map (· + 1) := by
    rw [List.length_cons, List.range_succ_eq_map, List.filter_cons, List.filter_map]
    by_cases hab : a = b
    · rw [if_neg (by simpa using hab), if_neg (by simpa using hab)]
      rfl
    · rw [if_pos (by simpa using hab), if_pos hab]
      rfl
  have hlen : (a :: b :: d).length - 1 = (b :: d).length := rfl
  unfold edges
  rw [hlen, hfilter, List.map_append]
  by_cases hab : a = b
  · rw [if_neg (not_not_intro hab), if_neg (not_not_intro hab)]
    rfl
  · rw [if_pos hab, if_pos hab]
    rfl

/-- The steps from each number to the next. -/
def steps : Nat → List Nat → List Nat
  | _, [] => []
  | p, q :: qs => (q - p) :: steps q qs

theorem zipWith_steps (p : Nat) (qs : List Nat) :
    qs.zipWith (fun b a => b - a) (p :: qs) = steps p qs := by
  induction qs generalizing p with
  | nil => rfl
  | cons q qs ih =>
      rw [List.zipWith_cons_cons, ih]
      rfl

theorem steps_map (p : Nat) (qs : List Nat) : steps (p + 1) (qs.map (· + 1)) = steps p qs := by
  induction qs generalizing p with
  | nil => rfl
  | cons q qs ih =>
      rw [List.map_cons]
      unfold steps
      rw [ih, Nat.add_sub_add_right]

theorem lengths_eq_steps (d : List Bool) : lengths d = steps 0 (edges d ++ [d.length]) := by
  unfold lengths
  exact zipWith_steps 0 _

theorem lengths_eq (a : Bool) (d : List Bool) : lengths (a :: d) = groups (a :: d) := by
  induction d generalizing a with
  | nil => rfl
  | cons b d ih =>
      have hrest := ih b
      rw [lengths_eq_steps] at hrest ⊢
      have hbounds : edges (a :: b :: d) ++ [(a :: b :: d).length]
          = (if a ≠ b then [1] else []) ++ (edges (b :: d) ++ [(b :: d).length]).map (· + 1) := by
        rw [edges_cons, List.append_assoc, List.map_append]
        rfl
      rw [hbounds]
      unfold groups
      rw [← hrest]
      cases hqs : edges (b :: d) ++ [(b :: d).length] with
      | nil => exact absurd hqs (by simp)
      | cons q qs =>
          rw [List.map_cons]
          dsimp only [steps]
          by_cases hab : a = b
          · rw [if_neg (not_not_intro hab), if_pos hab, List.nil_append]
            dsimp only [steps]
            rw [steps_map, Nat.sub_zero, Nat.sub_zero]
          · rw [if_pos hab, if_neg hab, List.singleton_append]
            dsimp only [steps]
            rw [steps_map, Nat.sub_zero, Nat.sub_zero, Nat.add_sub_cancel]

theorem expand_concat (v : Bool) (ls : List Nat) (n : Nat) :
    expand v (ls ++ [n])
      = expand v ls ++ List.replicate n (if ls.length % 2 = 0 then v else !v) := by
  induction ls generalizing v with
  | nil =>
      rw [if_pos (show ([] : List Nat).length % 2 = 0 from rfl)]
      exact List.append_nil _
  | cons l ls ih =>
      have hturn : (if ls.length % 2 = 0 then !v else !!v)
          = if (l :: ls).length % 2 = 0 then v else !v := by
        rw [List.length_cons, Bool.not_not]
        split_ifs <;> first | rfl | omega
      rw [List.cons_append]
      unfold expand
      rw [ih, hturn, List.append_assoc]

/-- The first run is an unchanged one, if only of no pixels. -/
theorem expand_lengths {d : List Bool} (hd : d ≠ []) :
    expand false ((if d.getD 0 false then [0] else []) ++ lengths d) = d := by
  cases d with
  | nil => exact absurd rfl hd
  | cons a d =>
      rw [lengths_eq]
      cases a with
      | false => exact expand_groups false d
      | true => exact expand_groups true d

/-- A frame's runs: its pixels, but for unchanged ones at the end. -/
theorem runs_spec (d : List Bool) : ∃ n, expand false (runs d) ++ List.replicate n false = d := by
  by_cases hany : true ∈ d
  · have hall := expand_lengths (List.ne_nil_of_mem hany)
    unfold runs
    rw [if_pos hany]
    extract_lets rs
    have hall : expand false rs = d := hall
    split_ifs with hodd
    · have hne : rs ≠ [] := by
        rintro h
        rw [h] at hodd
        contradiction
      have heven : rs.dropLast.length % 2 = 0 := by
        rw [List.length_dropLast]
        omega
      refine ⟨rs.getLast hne, ?_⟩
      rw [← List.dropLast_concat_getLast hne, expand_concat, if_pos heven] at hall
      exact hall
    · exact ⟨0, by rw [List.replicate_zero, List.append_nil, hall]⟩
  · refine ⟨d.length, ?_⟩
    unfold runs
    rw [if_neg hany]
    refine (List.eq_replicate_of_mem fun b hb => ?_).symm
    cases b with
    | false => rfl
    | true => exact absurd hb hany

theorem expand_length (v : Bool) (ls : List Nat) : (expand v ls).length = ls.sum := by
  induction ls generalizing v with
  | nil => rfl
  | cons l ls ih =>
      unfold expand
      rw [List.length_append, List.length_replicate, ih, List.sum_cons]

theorem groups_length (d : List Bool) : (groups d).length ≤ d.length := by
  induction d with
  | nil => exact Nat.le_refl _
  | cons a d ih =>
      unfold groups
      split
      next b d n ns hg =>
        rw [hg] at ih
        rw [List.length_cons] at ih ⊢
        split_ifs
        · exact Nat.le_succ_of_le ih
        · exact Nat.succ_le_succ ih
      next => exact Nat.succ_le_succ (Nat.zero_le _)

theorem runs_length (d : List Bool) : (runs d).length ≤ d.length + 1 := by
  have hlengths : (lengths d).length ≤ d.length ∨ d = [] := by
    cases d with
    | nil => exact .inr rfl
    | cons a d =>
        rw [lengths_eq]
        exact .inl (groups_length _)
  unfold runs
  by_cases hany : true ∈ d
  · rw [if_pos hany]
    extract_lets rs
    have hrs : rs.length ≤ d.length + 1 := by
      obtain hle | rfl := hlengths
      · rw [List.length_append]
        split_ifs
        · rw [List.length_singleton]
          omega
        · rw [List.length_nil]
          omega
      · exact absurd hany List.not_mem_nil
    split_ifs
    · exact Nat.le_trans (List.length_dropLast ▸ Nat.sub_le _ 1) hrs
    · exact hrs
  · rw [if_neg hany]
    exact Nat.zero_le _

-- =================================================================== frames

/-- The runs from the number `i` on, that start at `pos`, flip what they
stand for. -/
theorem runLoop_spec {w h : Nat} (hw : 0 < w) (hsmall : w * h < 2 ^ 28) {ls : List Nat}
    {i pos : Nat} {s : Stream} (hs : s.Flows) {rest : List UInt8}
    (hb : s.bytes = ls.flatMap putVarint ++ rest) (hin : pos + ls.sum ≤ w * h)
    (bm : List Bool) :
    (runLoop w h ls.length i pos s bm).1.bytes = rest
      ∧ (runLoop w h ls.length i pos s bm).1.Flows
      ∧ ∀ k, (runLoop w h ls.length i pos s bm).2[k]?
          = if pos ≤ k ∧ (expand (decide (i % 2 = 1)) ls)[k - pos]? = some true
            then bm[k]?.map not else bm[k]? := by
  induction ls generalizing i pos s bm with
  | nil =>
      refine ⟨hb, hs, fun k => ?_⟩
      rw [if_neg]
      · rfl
      · rintro ⟨-, hnone⟩
        exact nomatch hnone
  | cons l ls ih =>
      rw [List.flatMap_cons, List.append_assoc] at hb
      rw [List.sum_cons] at hin
      obtain ⟨hl, hrest, hflows⟩ := varint_put hs hb (by omega)
      have hpos : u32 (pos + l) = pos + l := u32_of_lt (by omega)
      rw [List.length_cons]
      unfold runLoop
      dsimp only
      rw [hl, hpos]
      obtain ⟨hbytes, hflows', hbm⟩ := @ih (i + 1) (pos + l) _ hflows hrest (by omega)
        (if i % 2 = 1 then toggleRun w h pos l bm else bm)
      refine ⟨hbytes, hflows', fun k => ?_⟩
      have hrun : (if i % 2 = 1 then toggleRun w h pos l bm else bm)[k]?
          = if (pos ≤ k ∧ k < pos + l) ∧ i % 2 = 1 then bm[k]?.map not else bm[k]? := by
        by_cases hodd : i % 2 = 1
        · rw [if_pos hodd, toggleRun_eq hw (by omega) (by omega)]
          simp only [hodd, and_true]
        · rw [if_neg hodd, if_neg (fun hk => hodd hk.2)]
      have hparity : decide ((i + 1) % 2 = 1) = !decide (i % 2 = 1) := by
        rcases Nat.mod_two_eq_zero_or_one i with h0 | h1
        · rw [decide_eq_true (by omega), decide_eq_false (by omega)]
          rfl
        · rw [decide_eq_false (by omega), decide_eq_true (by omega)]
          rfl
      rw [hbm k, hrun, hparity]
      rw [show expand (decide (i % 2 = 1)) (l :: ls)
        = List.replicate l (decide (i % 2 = 1)) ++ expand (!decide (i % 2 = 1)) ls from rfl]
      by_cases hbefore : k < pos
      · rw [if_neg (by omega), if_neg (by omega), if_neg (by omega)]
      by_cases hinside : k < pos + l
      · rw [if_neg (by omega), List.getElem?_append_left (by rw [List.length_replicate]; omega),
          List.getElem?_replicate_of_lt (by omega)]
        by_cases hodd : i % 2 = 1
        · rw [if_pos ⟨⟨by omega, hinside⟩, hodd⟩, if_pos ⟨by omega, by rw [decide_eq_true hodd]⟩]
        · rw [if_neg (fun hk => hodd hk.2), if_neg]
          rintro ⟨-, htrue⟩
          rw [decide_eq_false hodd] at htrue
          exact nomatch htrue
      · have hk : k - pos - l = k - (pos + l) := by omega
        rw [if_neg (show ¬((pos ≤ k ∧ k < pos + l) ∧ i % 2 = 1) from fun hk => hinside hk.1.2),
          List.getElem?_append_right (by rw [List.length_replicate]; omega), List.length_replicate, hk]
        have hiff : pos + l ≤ k ↔ pos ≤ k := by omega
        simp only [hiff]

theorem putVarint_ne_nil (v : Nat) : putVarint v ≠ [] := by
  rw [putVarint]
  split_ifs <;> exact List.cons_ne_nil _ _

theorem refilled {s : Stream} (hs : s.Flows) (hne : s.bytes ≠ []) :
    (if s.buf = [] then videoRefill s else (true, s)).1 = true
      ∧ (if s.buf = [] then videoRefill s else (true, s)).2.bytes = s.bytes
      ∧ (if s.buf = [] then videoRefill s else (true, s)).2.Flows := by
  obtain ⟨buf, refills⟩ := s
  cases buf with
  | cons b buf => exact ⟨rfl, rfl, hs⟩
  | nil =>
      cases refills with
      | nil => exact absurd rfl hne
      | cons c cs =>
          refine ⟨decide_eq_true (hs c List.mem_cons_self), rfl, fun d hd => ?_⟩
          exact hs d (List.mem_cons_of_mem _ hd)

/-- A frame's record flips the pixels that it was made of, and no byte more
is read. -/
theorem nextVideoFrame_spec {w h : Nat} (hw : 0 < w) (hsmall : w * h + 1 < 2 ^ 28)
    {d : List Bool} (hd : d.length = w * h) {s : Stream} (hs : s.Flows) {rest : List UInt8}
    (hb : s.bytes = encodeFrame d ++ rest) (bm : List Bool) :
    (nextVideoFrame w h s bm).1 = true
      ∧ (nextVideoFrame w h s bm).2.1.bytes = rest
      ∧ (nextVideoFrame w h s bm).2.1.Flows
      ∧ ∀ k : Nat, (nextVideoFrame w h s bm).2.2[k]?
          = if d[k]? = some true then bm[k]?.map not else bm[k]? := by
  have hne : s.bytes ≠ [] := by
    rw [hb]
    unfold encodeFrame
    intro hnil
    exact putVarint_ne_nil _ (List.append_eq_nil_iff.mp (List.append_eq_nil_iff.mp hnil).1).1
  obtain ⟨hmore, hsame, hflows⟩ := refilled hs hne
  rw [hb] at hsame
  unfold encodeFrame at hsame
  rw [List.append_assoc] at hsame
  obtain ⟨n, hn⟩ := runs_spec d
  have hsum : (runs d).sum ≤ w * h := by
    have hlen := congrArg List.length hn
    rw [List.length_append, expand_length, hd] at hlen
    omega
  have hcount : (runs d).length < 2 ^ 28 := by
    have hle := runs_length d
    omega
  obtain ⟨hruns, hrecord, hflows⟩ := varint_put hflows hsame hcount
  obtain ⟨hbytes, hflows, hbm⟩ := @runLoop_spec w h hw (by omega) (runs d) 0 0 _ hflows rest
    hrecord (by omega) bm
  have hframe : nextVideoFrame w h s bm = (true, runLoop w h (runs d).length 0 0
      (varint (if s.buf = [] then videoRefill s else (true, s)).2).2 bm) := by
    unfold nextVideoFrame
    dsimp only
    rw [hmore, hruns]
    rfl
  rw [hframe]
  refine ⟨rfl, hbytes, hflows, fun k => ?_⟩
  rw [hbm k]
  have hpixel : (expand false (runs d))[k]? = some true ↔ d[k]? = some true := by
    conv => rhs; rw [← hn]
    rw [List.getElem?_append]
    split_ifs with hk
    · exact Iff.rfl
    · rw [List.getElem?_eq_none (by omega), List.getElem?_replicate]
      split_ifs <;> simp
  have hfrom : (0 ≤ k ∧ (expand false (runs d))[k - 0]? = some true) ↔ d[k]? = some true := by
    rw [Nat.sub_zero, hpixel]
    exact and_iff_right (Nat.zero_le k)
  exact if_congr hfrom rfl rfl

/-- The difference of two frames makes the one of the other. -/
theorem take_flipped {n : Nat} {cur prev bm bm' : List Bool} (hcur : cur.length = n)
    (hprev : bm.take n = prev) (hlen : prev.length = n)
    (hbm : ∀ k : Nat, bm'[k]? = if (frameXor cur prev)[k]? = some true then bm[k]?.map not else bm[k]?) :
    bm'.take n = cur := by
  apply List.ext_getElem?
  intro k
  rw [List.getElem?_take]
  split_ifs with hk
  · have hold : bm[k]? = prev[k]? := by
      rw [← hprev, List.getElem?_take, if_pos hk]
    rw [hbm k, hold]
    unfold frameXor
    rw [List.getElem?_zipWith, List.getElem?_eq_getElem (show k < cur.length by omega),
      List.getElem?_eq_getElem (show k < prev.length by omega)]
    cases cur[k] <;> cases prev[k] <;> rfl
  · rw [List.getElem?_eq_none (by omega)]

/-- The player goes through the frames: each is on the bitmap when its
record is read, and there is none after the last. -/
def Shows (w h : Nat) : (prev : List Bool) → Stream → List Bool → List (List Bool) → Prop
  | _, s, bm, [] => (nextVideoFrame w h s bm).1 = false
  | prev, s, bm, cur :: film =>
      (nextVideoFrame w h s bm).1 = true
        ∧ (nextVideoFrame w h s bm).2.2.take (w * h) = cur
        ∧ s.bytes = encodeFrame (frameXor cur prev) ++ (nextVideoFrame w h s bm).2.1.bytes
        ∧ Shows w h cur (nextVideoFrame w h s bm).2.1 (nextVideoFrame w h s bm).2.2 film

theorem film_shown {w h : Nat} (hw : 0 < w) (hsmall : w * h + 1 < 2 ^ 28)
    {film : List (List Bool)} (hfilm : ∀ cur ∈ film, cur.length = w * h) {prev : List Bool}
    (hlen : prev.length = w * h) {s : Stream} (hs : s.Flows)
    (hb : s.bytes = encodeFilm prev film) {bm : List Bool} (hbm : bm.take (w * h) = prev) :
    Shows w h prev s bm film := by
  induction film generalizing prev s bm with
  | nil =>
      obtain ⟨hbuf, hrefills⟩ := List.append_eq_nil_iff.mp (show s.buf ++ s.refills.flatten = [] from hb)
      have hnone : s.refills = [] := by
        cases hc : s.refills with
        | nil => rfl
        | cons c cs =>
            rw [hc, List.flatten_cons] at hrefills
            exact absurd (List.append_eq_nil_iff.mp hrefills).1
              (hs c (by rw [hc]; exact List.mem_cons_self))
      show (nextVideoFrame w h s bm).1 = false
      unfold nextVideoFrame videoRefill
      rw [if_pos hbuf, hnone]
      rfl
  | cons cur film ih =>
      have hcur := hfilm cur List.mem_cons_self
      have hdiff : (frameXor cur prev).length = w * h := by
        unfold frameXor
        rw [List.length_zipWith, hcur, hlen, Nat.min_self]
      obtain ⟨hmore, hbytes, hflows, hflip⟩ := nextVideoFrame_spec hw hsmall hdiff hs hb bm
      have hshown := take_flipped hcur hbm hlen hflip
      refine ⟨hmore, hshown, ?_, ?_⟩
      · rw [hbytes]
        exact hb
      · exact ih (fun c hc => hfilm c (List.mem_cons_of_mem _ hc)) hcur hflows hbytes hshown

/-- The film that was encoded is the film that is shown, however the stream
is cut; and no stream at all flips a pixel that is not of the frame. -/
theorem film_played (w h : Nat) (hw : 0 < w ∧ w ≤ maxW) (hh : 0 < h ∧ h ≤ maxH) :
    (∀ film : List (List Bool), (∀ cur ∈ film, cur.length = w * h) →
      ∀ s : Stream, s.Flows → s.bytes = encodeFilm (List.replicate (w * h) false) film →
        Shows w h (List.replicate (w * h) false) s (List.replicate (maxW * maxH) false) film)
    ∧ ∀ pos len, ∀ i ∈ toggled w h pos len, i < w * h := by
  have hpixels : w * h ≤ maxW * maxH := Nat.mul_le_mul hw.2 hh.2
  have hmax : maxW * maxH = 230400 := rfl
  refine ⟨fun film hfilm s hs hb => ?_, fun pos len i hi => toggled_lt hw.1 hi⟩
  refine film_shown hw.1 (by omega) hfilm List.length_replicate hs hb ?_
  rw [List.take_replicate, Nat.min_eq_left hpixels]

/-- A film of two frames, the first byte alone in the buffer. -/
theorem film_played_two :
    Shows 2 1 [false, false] ⟨[2], [[0, 1], [2, 1, 1]]⟩ (List.replicate (maxW * maxH) false)
      [[true, false], [true, true]] := by
  have hbytes : Stream.bytes ⟨[2], [[0, 1], [2, 1, 1]]⟩
      = encodeFilm (List.replicate (2 * 1) false) [[true, false], [true, true]] := by
    have hrun1 : runs (frameXor [true, false] [false, false]) = [0, 1] := by decide
    have hrun2 : runs (frameXor [true, true] [true, false]) = [1, 1] := by decide
    have hfilm : encodeFilm [false, false] [[true, false], [true, true]]
        = encodeFrame (frameXor [true, false] [false, false])
          ++ encodeFrame (frameXor [true, true] [true, false]) := by
      simp only [encodeFilm, List.append_nil]
    refine Eq.trans ?_ hfilm.symm
    unfold encodeFrame
    rw [hrun1, hrun2]
    simp [putVarint_cons, Stream.bytes]
  exact (film_played 2 1 (by decide) (by decide)).1 [[true, false], [true, true]] (by decide)
    ⟨[2], [[0, 1], [2, 1, 1]]⟩ (by simp [Stream.Flows]) hbytes

end Ncmips.Badapple
