/-
Unwrapping takes wrapping back, and takes back nothing else.

A step of the unwrapping is the inverse of a step of the wrapping, in
either order, because the cipher's two directions are
(`decrypt_encrypt`, `encrypt_decrypt`); the steps run backwards, so they
cancel one by one (`foldl_undo`). What remains is that `aes_unwrap`,
which keeps the registers as bytes of `out` and counts in 32 bits, makes
these steps (`unwrapTurn_step`).
-/
import Ncmips.Wpa.KeyWrap
import Ncmips.Wpa.Proofs.Aes

namespace Ncmips.Wpa

open Words

-- ============================================================= registers

@[simp] theorem upper_join (a r : Reg) : upper (join a r) = a := by
  funext k
  simp [upper, join]

@[simp] theorem lower_join (a r : Reg) : lower (join a r) = r := by
  funext k
  simp [lower, join]

@[simp] theorem join_upper_lower (b : Block) : join (upper b) (lower b) = b := by
  apply Block.ext
  intro i
  rw [join, get_ofFn]
  split
  · rfl
  · next h =>
    show b.get ⟨8 + (i.val - 8), _⟩ = b.get i
    congr 1
    apply Fin.ext
    show 8 + (i.val - 8) = i.val
    omega

@[simp] theorem xorReg_xorReg (a b : Reg) : xorReg (xorReg a b) b = a := by
  funext k
  simp [xorReg]

/-- A step backwards. -/
def unwrapStep (dec : Block → Block) {n : Nat} (s : Reg × Regs n) (ji : Nat × Fin n) :
    Reg × Regs n :=
  let b := dec (join (xorReg s.1 (counter (stepNumber ji))) (s.2 ji.2))
  (upper b, Function.update s.2 ji.2 (lower b))

variable {enc dec : Block → Block} {n : Nat}

theorem unwrapStep_wrapStep (h : ∀ b, dec (enc b) = b) (s : Reg × Regs n) (ji : Nat × Fin n) :
    unwrapStep dec (wrapStep enc s ji) ji = s := by
  simp [unwrapStep, wrapStep, h]

theorem wrapStep_unwrapStep (h : ∀ b, enc (dec b) = b) (s : Reg × Regs n) (ji : Nat × Fin n) :
    wrapStep enc (unwrapStep dec s ji) ji = s := by
  simp [unwrapStep, wrapStep, h]

-- ================================================================= bytes

@[simp] theorem regBytes_length (r : Regs n) : (regBytes r).length = 8 * n := List.length_ofFn

theorem regBytes_getD (r : Regs n) (i : Fin n) (k : Fin 8) :
    (regBytes r).getD (8 * i + k) 0 = r i k := by
  have hlt : 8 * i.val + k.val < (regBytes r).length := by
    rw [regBytes_length]
    omega
  rw [List.getD_eq_getElem?_getD, List.getElem?_eq_getElem hlt, Option.getD_some]
  simp only [regBytes, List.getElem_ofFn]
  have hreg : (8 * i.val + k.val) / 8 = i.val := by omega
  have hbyte : (8 * i.val + k.val) % 8 = k.val := by omega
  simp only [hreg, hbyte]

@[simp] theorem regs_regBytes (r : Regs n) : regs n (regBytes r) = r := by
  funext i k
  exact regBytes_getD r i k

theorem regBytes_regs {l : List UInt8} (hl : l.length = 8 * n) : regBytes (regs n l) = l := by
  apply List.ext_getElem
  · rw [regBytes_length, hl]
  · intro x hx hx'
    simp only [regBytes, List.getElem_ofFn, regs]
    rw [show 8 * (x / 8) + x % 8 = x by omega, List.getD_eq_getElem?_getD,
      List.getElem?_eq_getElem hx', Option.getD_some]

-- ============================================================== the steps

/-- The registers that `a` and `out` stand for. -/
def Unwrap.regs (n : Nat) (s : Unwrap) : Reg × Regs n := (s.a, fun i k => s.out (8 * i + k))

/-- The turn of a step. -/
def turnOf (ji : Nat × Fin n) : Nat × Nat := (ji.1, ji.2 + 1)

theorem unwrapTurns_eq (n : Nat) : unwrapTurns n = (wrapSteps n).reverse.map turnOf := by
  have hinner : (List.range' 1 n).reverse = (List.finRange n).reverse.map fun i => i.val + 1 := by
    rw [List.map_reverse]
    congr 1
    apply List.ext_getElem
    · simp
    · intro i hi hi'
      simp [Nat.add_comm]
  unfold unwrapTurns wrapSteps
  rw [List.reverse_flatMap, List.map_flatMap, hinner]
  congr 1
  funext j
  simp [turnOf, Function.comp_def, List.map_reverse]

theorem wrapSteps_pass {ji : Nat × Fin n} (h : ji ∈ wrapSteps n) : ji.1 < 6 := by
  simp only [wrapSteps, List.mem_flatMap, List.mem_range, List.mem_map] at h
  obtain ⟨j, hj, i, _, rfl⟩ := h
  exact hj

/-- Four bytes of the counter are all of it. -/
theorem counter_low {t : Nat} (ht : t < 2 ^ 32) (a : Reg) :
    (fun k : Fin 8 => a k ^^^ (if 4 ≤ k.val then .ofNat (t / 2 ^ (8 * (7 - k.val))) else 0))
      = xorReg a (counter t) := by
  funext k
  simp only [xorReg, counter]
  split
  · rfl
  · next hk =>
    have hbig : 2 ^ 32 ≤ 2 ^ (8 * (7 - k.val)) := Nat.pow_le_pow_right (by decide) (by omega)
    rw [Nat.div_eq_of_lt (by omega)]
    rfl

/-- Eight bytes of `out` written. -/
theorem foldl_reg (out : Nat → UInt8) (r : Reg) (i i' : Nat) (k' : Fin 8) :
    (List.finRange 8).foldl (fun out (k : Fin 8) => Function.update out (8 * i + k) (r k)) out
        (8 * i' + k')
      = if i' = i then r k' else out (8 * i' + k') := by
  split
  · next h =>
    subst h
    exact foldl_update (p := fun k : Fin 8 => 8 * i' + k.val) (v := r) _ (List.mem_finRange k')
      fun y _ hy => congrArg r (Fin.ext (by omega))
  · next h =>
    generalize List.finRange 8 = ks
    induction ks generalizing out with
    | nil => rfl
    | cons k ks ih =>
        rw [List.foldl_cons, ih, Function.update_of_ne]
        omega

/-- A turn of the loop is a step backwards. -/
theorem unwrapTurn_step (rk : List UInt8) {s : Unwrap} (hinv : InvTable s.inv)
    {ji : Nat × Fin n} (hn : 8 * (n + 1) < 2 ^ 32) (hj : ji.1 < 6) :
    (unwrapTurn rk n s (turnOf ji)).regs n = unwrapStep (decrypt rk) (s.regs n) ji
      ∧ (unwrapTurn rk n s (turnOf ji)).inv = aesInvSbox := by
  obtain ⟨j, i⟩ := ji
  have hij : n * j ≤ n * 5 := Nat.mul_le_mul_left _ (by omega)
  have ht : n * j + (i.val + 1) < 2 ^ 32 := by omega
  have hu : u32 (n * j + (i.val + 1)) = n * j + (i.val + 1) := u32_of_lt ht
  have hcur : ∀ k, 8 * (i.val + 1 - 1) + k = 8 * i.val + k := fun k => by omega
  simp only [unwrapTurn, turnOf, hu, counter_low ht, aes128Decrypt_eq hinv, hcur, Unwrap.regs,
    unwrapStep, stepNumber, and_true, Prod.mk.injEq, true_and]
  funext i' k'
  rw [foldl_reg]
  by_cases hi : i' = i
  · rw [hi, Function.update_self, if_pos rfl]
  · rw [Function.update_of_ne hi, if_neg fun h => hi (Fin.ext h)]

/-- All turns. -/
theorem unwrapTurns_steps (rk : List UInt8) (hn : 8 * (n + 1) < 2 ^ 32)
    (steps : List (Nat × Fin n)) (hsteps : ∀ ji ∈ steps, ji.1 < 6) {s : Unwrap}
    (hinv : InvTable s.inv) :
    ((steps.map turnOf).foldl (unwrapTurn rk n) s).regs n
        = steps.foldl (unwrapStep (decrypt rk)) (s.regs n)
      ∧ InvTable ((steps.map turnOf).foldl (unwrapTurn rk n) s).inv := by
  induction steps generalizing s with
  | nil => exact ⟨rfl, hinv⟩
  | cons ji steps ih =>
      obtain ⟨hregs, hfilled⟩ := unwrapTurn_step rk hinv hn (hsteps ji List.mem_cons_self)
      have hrest := ih (fun ji hji => hsteps ji (List.mem_cons_of_mem _ hji))
        (s := unwrapTurn rk n s (turnOf ji)) (Or.inr hfilled)
      rw [hregs] at hrest
      rw [List.map_cons, List.foldl_cons, List.foldl_cons]
      exact hrest

/-- What the function does, in registers. -/
theorem aesUnwrap_eq {inv : UInt8 → UInt8} (hinv : InvTable inv) (kek : Block)
    (inp : List UInt8) (hn : 8 * (n + 1) < 2 ^ 32) :
    let s := (wrapSteps n).reverse.foldl (unwrapStep (decrypt (aes128Key kek)))
      (fun k => inp.getD k 0, regs n (inp.drop 8))
    ∃ inv', InvTable inv' ∧ aesUnwrap inv kek inp n
      = (if s.1 = wrapIv then 0 else -1, regBytes s.2, inv') := by
  intro s
  set s₀ : Unwrap :=
    { a := fun k => inp.getD k 0
      out := fun i => if i < u32 (8 * n) then inp.getD (8 + i) 0 else 0
      inv } with hs₀
  have hstart : s₀.regs n = (fun k : Fin 8 => inp.getD k 0, regs n (inp.drop 8)) := by
    have hu : u32 (8 * n) = 8 * n := u32_of_lt (by omega)
    simp only [Unwrap.regs, hs₀, Prod.mk.injEq, true_and, hu]
    funext i k
    rw [if_pos (by omega)]
    simp [regs]
  obtain ⟨hregs, hinv'⟩ := unwrapTurns_steps (aes128Key kek) hn (wrapSteps n).reverse
    (fun ji hji => wrapSteps_pass (List.mem_reverse.1 hji)) (s := s₀) hinv
  rw [hstart, ← unwrapTurns_eq] at hregs
  rw [← unwrapTurns_eq] at hinv'
  refine ⟨_, hinv', ?_⟩
  have ha : ((unwrapTurns n).foldl (unwrapTurn (aes128Key kek) n) s₀).a = s.1 :=
    congrArg Prod.fst hregs
  have hout : (List.range (8 * n)).map
      ((unwrapTurns n).foldl (unwrapTurn (aes128Key kek) n) s₀).out = regBytes s.2 := by
    have hr : s.2 = fun (i : Fin n) (k : Fin 8) =>
        ((unwrapTurns n).foldl (unwrapTurn (aes128Key kek) n) s₀).out (8 * i + k) :=
      (congrArg Prod.snd hregs).symm
    rw [hr]
    apply List.ext_getElem
    · simp
    · intro x hx hx'
      simp only [List.getElem_map, List.getElem_range, regBytes, List.getElem_ofFn]
      congr 1
      omega
  have hret : (∀ k, s.1 k = 0xa6) ↔ s.1 = wrapIv := by
    constructor
    · intro h
      funext k
      exact h k
    · intro h k
      rw [h]
      rfl
  simp only [aesUnwrap, ← hs₀, ha, hout, hret]

-- ============================================================ wrap, unwrap

theorem keyWrap_eq (enc : Block → Block) {p : List UInt8} (hp : p.length = 8 * n) :
    keyWrap enc p
      = List.ofFn (wrapRegs enc (regs n p)).1 ++ regBytes (wrapRegs enc (regs n p)).2 := by
  obtain rfl : p.length / 8 = n := by omega
  rfl

/-- The integrity register is the first eight bytes. -/
theorem getD_ofFn_append (a : Reg) (r : List UInt8) :
    (fun k : Fin 8 => (List.ofFn a ++ r).getD k 0) = a := by
  funext k
  have hk : k.val < (List.ofFn a).length := by
    rw [List.length_ofFn]
    exact k.isLt
  rw [List.getD_eq_getElem?_getD, List.getElem?_append_left hk, List.getElem?_eq_getElem hk,
    Option.getD_some, List.getElem_ofFn]

theorem ofFn_append_drop {inp : List UInt8} (h : 8 ≤ inp.length) :
    List.ofFn (fun k : Fin 8 => inp.getD k 0) ++ inp.drop 8 = inp := by
  have htake : List.ofFn (fun k : Fin 8 => inp.getD k 0) = inp.take 8 := by
    apply List.ext_getElem
    · rw [List.length_ofFn, List.length_take]
      omega
    · intro i hi hi'
      rw [List.length_take] at hi'
      rw [List.getElem_ofFn, List.getElem_take, List.getD_eq_getElem?_getD,
        List.getElem?_eq_getElem (by omega), Option.getD_some]
  rw [htake, List.take_append_drop]

section

variable {inv : UInt8 → UInt8} (hinv : InvTable inv) (kek : Block) (hn : 8 * (n + 1) < 2 ^ 32)

include hinv hn

/-- Of a wrapping it gives back the key data. -/
theorem aesUnwrap_wrapped {p : List UInt8} (hp : p.length = 8 * n) :
    ∃ inv', InvTable inv'
      ∧ aesUnwrap inv kek (keyWrap (aes128Encrypt (aes128Key kek)) p) n = (0, p, inv') := by
  set enc := aes128Encrypt (aes128Key kek) with henc
  obtain ⟨inv', hinv', hrun⟩ := aesUnwrap_eq hinv kek (keyWrap enc p) hn
  have hundo : (wrapSteps n).reverse.foldl (unwrapStep (decrypt (aes128Key kek)))
      (wrapRegs enc (regs n p)) = (wrapIv, regs n p) :=
    foldl_undo (unwrapStep_wrapStep (decrypt_encrypt _)) _ _
  have hstart : (fun k : Fin 8 => (keyWrap enc p).getD k 0, regs n ((keyWrap enc p).drop 8))
      = wrapRegs enc (regs n p) := by
    rw [keyWrap_eq enc hp, getD_ofFn_append, List.drop_left' List.length_ofFn, regs_regBytes]
  refine ⟨inv', hinv', ?_⟩
  rw [hrun, hstart, hundo, if_pos rfl, regBytes_regs hp]

/-- What it accepts is the wrapping of what it outputs. -/
theorem keyWrap_aesUnwrap {inp : List UInt8} (hinp : inp.length = 8 * (n + 1))
    (hzero : (aesUnwrap inv kek inp n).1 = 0) :
    inp = keyWrap (aes128Encrypt (aes128Key kek)) (aesUnwrap inv kek inp n).2.1 := by
  set enc := aes128Encrypt (aes128Key kek) with henc
  obtain ⟨inv', -, hrun⟩ := aesUnwrap_eq hinv kek inp hn
  set start : Reg × Regs n := (fun k => inp.getD k 0, regs n (inp.drop 8)) with hstart
  set s := (wrapSteps n).reverse.foldl (unwrapStep (decrypt (aes128Key kek))) start with hs
  have hiv : s.1 = wrapIv := by
    rw [hrun] at hzero
    by_contra hne
    simp [hne] at hzero
  have hredo : wrapRegs enc s.2 = start := by
    unfold wrapRegs
    rw [← hiv, hs]
    exact foldl_redo (wrapStep_unwrapStep (encrypt_decrypt _)) _ _
  have hdrop : (inp.drop 8).length = 8 * n := by
    rw [List.length_drop]
    omega
  rw [hrun, keyWrap_eq enc (regBytes_length s.2), regs_regBytes, hredo, hstart]
  show inp = List.ofFn (fun k : Fin 8 => inp.getD k 0) ++ regBytes (regs n (inp.drop 8))
  rw [regBytes_regs hdrop, ofFn_append_drop (by omega)]

end

/-- Key unwrap is the exact inverse of key wrap, for every key and every
number of registers; the input is an object of a 32-bit machine, and the
static table is filled or not. -/
theorem aesUnwrap_inverse (kek : Block) (n : Nat) (hn : 8 * (n + 1) < 2 ^ 32)
    {inv : UInt8 → UInt8} (hinv : InvTable inv) :
    (∀ p : List UInt8, p.length = 8 * n →
      ∃ inv', InvTable inv'
        ∧ aesUnwrap inv kek (keyWrap (aes128Encrypt (aes128Key kek)) p) n = (0, p, inv'))
    ∧ ∀ inp : List UInt8, inp.length = 8 * (n + 1) → (aesUnwrap inv kek inp n).1 = 0 →
        inp = keyWrap (aes128Encrypt (aes128Key kek)) (aesUnwrap inv kek inp n).2.1 :=
  ⟨fun _ hp => aesUnwrap_wrapped hinv kek hn hp,
    fun _ hinp hzero => keyWrap_aesUnwrap hinv kek hn hinp hzero⟩

/-- A wrapped key of two registers, unwrapped before any decryption. -/
theorem aesUnwrap_inverse_two :
    let kek : Block := .ofFn fun i => .ofNat i
    let p : List UInt8 := (List.range 16).map fun i => .ofNat (17 * i)
    ∃ inv', aesUnwrap (fun _ => 0) kek (keyWrap (aes128Encrypt (aes128Key kek)) p) 2
      = (0, p, inv') := by
  intro kek p
  obtain ⟨inv', -, h⟩ := (aesUnwrap_inverse kek 2 (by decide) (Or.inl rfl)).1 p rfl
  exact ⟨inv', h⟩

end Ncmips.Wpa
