/-
Every transfer of the receive ring is delivered once, in order.

The slot of the next buffer is the number of buffers handed over, the slot
of the next transfer is the number of transfers that went well, both
modulo the size of the ring: an error moves neither. Slots between the two
hold what is still to be handed over, all others are armed.
-/
import Ncmips.Lib.Circular
import Ncmips.Wlan.Ehci

namespace Ncmips.Wlan

open Words

-- =================================================================== tokens

/-- The token of a qTD that is given to the controller. -/
def armedToken (size : Nat) : Nat := (tdActive ||| tdPidIn) ||| u32 (size * 2 ^ 16) ||| tdCerr3

theorem armed_bytes {size : Nat} (hsize : size < 2 ^ 15) : tdBytes (armedToken size) = size := by
  have hshift : u32 (size * 2 ^ 16) = size * 2 ^ 16 := u32_of_lt (by omega)
  apply Nat.eq_of_testBit_eq
  intro i
  unfold tdBytes armedToken
  rw [hshift, Nat.testBit_and, Nat.testBit_div_two_pow, Nat.testBit_or, Nat.testBit_or,
    Nat.testBit_mul_two_pow, show (0x7fff : Nat) = 2 ^ 15 - 1 from rfl, Nat.testBit_two_pow_sub_one]
  have hlow : (tdActive ||| tdPidIn).testBit (i + 16) = false :=
    Nat.testBit_lt_two_pow (Nat.lt_of_lt_of_le (by decide) (Nat.pow_le_pow_right (by decide)
      (Nat.le_add_left 16 i)))
  have hcerr : tdCerr3.testBit (i + 16) = false :=
    Nat.testBit_lt_two_pow (Nat.lt_of_lt_of_le (by decide) (Nat.pow_le_pow_right (by decide)
      (Nat.le_add_left 16 i)))
  rw [hlow, hcerr, Nat.add_sub_cancel, decide_eq_true (Nat.le_add_left 16 i)]
  by_cases hi : i < 15
  · simp [hi]
  · have hhigh : size.testBit i = false :=
      Nat.testBit_lt_two_pow (Nat.lt_of_lt_of_le hsize (Nat.pow_le_pow_right (by decide) (by omega)))
    simp [hi, hhigh]

/-- The toggle apart, the overlay has the token of its qTD. -/
theorem load_active (q : Qh) (i : Nat) (td : Td) :
    (q.load i td).ov.token &&& tdActive = td.token &&& tdActive := by
  show ((td.token &&& 0x7fffffff) ||| (q.ov.token &&& tdToggle)) &&& tdActive = _
  rw [Nat.and_or_distrib_right, Nat.and_assoc, Nat.and_assoc,
    show 0x7fffffff &&& tdActive = tdActive by decide, show tdToggle &&& tdActive = 0 by decide,
    Nat.and_zero, Nat.or_zero]

theorem load_bytes (q : Qh) (i : Nat) (td : Td) :
    tdBytes (q.load i td).ov.token = tdBytes td.token := by
  show tdBytes ((td.token &&& 0x7fffffff) ||| (q.ov.token &&& tdToggle)) = _
  apply Nat.eq_of_testBit_eq
  intro k
  unfold tdBytes
  rw [Nat.testBit_and, Nat.testBit_and, Nat.testBit_div_two_pow, Nat.testBit_div_two_pow,
    Nat.testBit_or, Nat.testBit_and, Nat.testBit_and, show (0x7fff : Nat) = 2 ^ 15 - 1 from rfl,
    show (0x7fffffff : Nat) = 2 ^ 31 - 1 from rfl, show tdToggle = 2 ^ 31 from rfl,
    Nat.testBit_two_pow_sub_one, Nat.testBit_two_pow_sub_one, Nat.testBit_two_pow]
  by_cases hk : k < 15
  · simp [hk, show k + 16 < 31 by omega, show ¬31 = k + 16 by omega]
  · simp [hk]

theorem halted_of_error {tok : Nat} (h : tok &&& tdErrmask = 0) : tok &&& tdHalted = 0 := by
  rw [show tdHalted = tdErrmask &&& tdHalted by decide, ← Nat.and_assoc, h, Nat.zero_and]

theorem link_go (i : Nat) : tdLink i &&& tdT = 0 := by
  unfold tdLink tdT
  rw [Nat.and_one_is_mod]
  omega

theorem link_inj {i j : Nat} (h : tdLink i = tdLink j) : i = j := by
  unfold tdLink at h
  omega

-- ==================================================================== queue

/-- What `ehci_rx_start` asks for. -/
structure Rx.Fits (x : Rx) : Prop where
  two_le : 2 ≤ x.n
  n_le : x.n ≤ ehciRxmax
  size_pos : 0 < x.size
  size_le : x.size ≤ 16384

def Td.Linked (x : Rx) (i : Nat) (td : Td) : Prop :=
  td.next = tdLink ((i + 1) % x.n) ∧ td.alt = tdT ∧ td.buf = tdPages (x.at i)

/-- The slot has the transfer number `a`, which went well. -/
structure Ended (x : Rx) (r : Ring) (a : Nat) (e : List Nat × Nat) : Prop where
  off : (r.tds (a % x.n)).token &&& tdActive = 0
  ok : (r.tds (a % x.n)).token &&& tdErrmask = 0
  count : tdBytes (r.tds (a % x.n)).token + e.2 = x.size
  place : e.1 = tdPages (x.at (a % x.n))

/-- The controller at the slot of the next transfer, with slots up to the
number `m` given to it. -/
inductive At (x : Rx) (r : Ring) (m : Nat) : Prop
  | working (hm : r.completed.length < m) (hon : r.qh.ov.token &&& tdActive ≠ 0)
      (hcur : r.qh.cur = r.completed.length % x.n) (hbytes : tdBytes r.qh.ov.token = x.size)
      (hbuf : r.qh.ov.buf = tdPages (x.at (r.completed.length % x.n)))
      (hnext : r.qh.ov.next = tdLink ((r.completed.length % x.n + 1) % x.n))
      (harmed : (r.tds (r.completed.length % x.n)).token = armedToken x.size)
  | waiting (hoff : r.qh.ov.token &&& tdActive = 0) (hgo : r.qh.ov.token &&& tdHalted = 0)
      (hnext : r.qh.ov.next = tdLink (r.completed.length % x.n))
      (harmed : r.completed.length < m →
        (r.tds (r.completed.length % x.n)).token = armedToken x.size)
  | halted (hm : r.completed.length < m) (hoff : r.qh.ov.token &&& tdActive = 0)
      (hhalt : r.qh.ov.token &&& tdHalted ≠ 0)
      (hnext : r.qh.ov.next = tdLink ((r.completed.length % x.n + 1) % x.n))
      (hslot : (r.tds (r.completed.length % x.n)).token &&& tdActive = 0)
      (herr : (r.tds (r.completed.length % x.n)).token &&& tdErrmask ≠ 0)

/-- From the number `t` on what is to be handed over, and then what is given
to the controller, up to the number `m`. -/
structure Queue (x : Rx) (r : Ring) (t m : Nat) : Prop where
  linked : ∀ i < x.n, (r.tds i).Linked x i
  low : t ≤ r.completed.length
  high : r.completed.length ≤ m
  ended : ∀ a (h : a < r.completed.length), t ≤ a → Ended x r a r.completed[a]
  armed : ∀ a, r.completed.length < a → a < m → (r.tds (a % x.n)).token = armedToken x.size
  noAlt : r.qh.ov.alt = tdT
  at_ : At x r m

theorem Queue.goes {x : Rx} {r : Ring} {t m : Nat} (h : Queue x r t m) :
    r.qh.goesTo = r.qh.ov.next ∧ r.qh.ov.next &&& tdT = 0 := by
  constructor
  · unfold Qh.goesTo
    rw [h.noAlt, if_neg]
    rintro ⟨-, hzero⟩
    exact absurd hzero (by decide)
  · obtain ⟨-, -, -, -, -, hnext, -⟩ | ⟨-, -, hnext, -⟩ | ⟨-, -, -, hnext, -, -⟩ := h.at_
    all_goals rw [hnext]; exact link_go _

/-- What the driver has to itself is left as it is. -/
theorem own_frame {r r' : Ring} (h : Own r r') :
    r'.returned = r.returned ∧ r'.rxNext = r.rxNext ∧ r'.held = r.held
      ∧ r.completed <+: r'.completed := by
  cases h with
  | advance => exact ⟨rfl, rfl, rfl, List.prefix_refl _⟩
  | complete => exact ⟨rfl, rfl, rfl, List.prefix_append _ _⟩
  | fail => exact ⟨rfl, rfl, rfl, List.prefix_refl _⟩

theorem Ended.of_token {x : Rx} {r r' : Ring} {a : Nat} {e : List Nat × Nat} (h : Ended x r a e)
    (hsame : (r'.tds (a % x.n)).token = (r.tds (a % x.n)).token) : Ended x r' a e where
  off := hsame ▸ h.off
  ok := hsame ▸ h.ok
  count := hsame ▸ h.count
  place := h.place

theorem writeBack_token {r : Ring} {tok i : Nat} (hne : i ≠ r.qh.cur) :
    ((r.writeBack tok).tds i).token = (r.tds i).token := by
  show (Function.update r.tds r.qh.cur _ i).token = _
  rw [Function.update_of_ne hne]

theorem writeBack_self {r : Ring} {tok i : Nat} (h : i = r.qh.cur) :
    ((r.writeBack tok).tds i).token = tok := by
  subst h
  show (Function.update r.tds r.qh.cur _ r.qh.cur).token = _
  rw [Function.update_self]

theorem writeBack_linked {x : Rx} {r : Ring} {tok : Nat} (h : ∀ i < x.n, (r.tds i).Linked x i) :
    ∀ i < x.n, ((r.writeBack tok).tds i).Linked x i := by
  intro i hi
  show (Function.update r.tds r.qh.cur _ i).Linked x i
  by_cases hcur : i = r.qh.cur
  · subst hcur
    rw [Function.update_self]
    exact h _ hi
  · rw [Function.update_of_ne hcur]
    exact h i hi

/-- The controller stops before a slot that is not handed over yet, and
before one that is with the driver. -/
theorem Queue.room {x : Rx} (hx : x.Fits) {r : Ring} {t m : Nat} (h : Queue x r t m)
    (hstop : m = t + x.n ∨ (r.tds (m % x.n)).token &&& tdActive = 0)
    (hactive : (r.tds (r.completed.length % x.n)).token &&& tdActive ≠ 0) :
    r.completed.length < m := by
  have hn := hx.two_le
  have hhigh := h.high
  by_contra hfull
  have hend : r.completed.length = m := by omega
  rw [hend] at hactive
  rcases hstop with hm | hfree
  · have hended := (h.ended t (by omega) (Nat.le_refl t)).off
    rw [hm, Nat.add_mod_right] at hactive
    exact hactive hended
  · exact hactive hfree

theorem Queue.advance {x : Rx} (hx : x.Fits) {r : Ring} {t m : Nat} (h : Queue x r t m)
    (hstop : m = t + x.n ∨ (r.tds (m % x.n)).token &&& tdActive = 0) {i : Nat}
    (hidle : r.qh.ov.token &&& tdActive = 0) (hgo : r.qh.ov.token &&& tdHalted = 0)
    (hlink : r.qh.goesTo = tdLink i) (hactive : (r.tds i).token &&& tdActive ≠ 0) :
    Queue x { r with qh := r.qh.load i (r.tds i) } t m := by
  have hn := hx.two_le
  have hsize := hx.size_le
  obtain ⟨-, hon, -⟩ | ⟨-, -, hnext, harmed⟩ | ⟨-, -, hhalt, -⟩ := h.at_
  · exact absurd hidle hon
  · have hi : i = r.completed.length % x.n := by
      rw [h.goes.1, hnext] at hlink
      exact (link_inj hlink).symm
    subst hi
    have hm := h.room hx hstop hactive
    obtain ⟨hto, halt, hbuf⟩ := h.linked _ (Nat.mod_lt _ (show 0 < x.n by omega))
    refine ⟨h.linked, h.low, h.high, fun a ha hta => (h.ended a ha hta).of_token rfl, h.armed,
      halt, ?_⟩
    refine .working hm ?_ rfl ?_ hbuf hto (harmed hm)
    · rw [load_active]
      exact hactive
    · rw [load_bytes, harmed hm]
      exact armed_bytes (by omega)
  · exact absurd hgo hhalt

theorem Queue.complete {x : Rx} (hx : x.Fits) {r : Ring} {t m : Nat} (h : Queue x r t m)
    (hm : m ≤ t + x.n) {tok count : Nat} (hwork : r.qh.ov.token &&& tdActive ≠ 0)
    (hoff : tok &&& tdActive = 0) (hok : tok &&& tdErrmask = 0)
    (hcount : tdBytes tok + count = tdBytes r.qh.ov.token) :
    Queue x { r.writeBack tok with completed := r.completed ++ [(r.qh.ov.buf, count)] } t m := by
  have hn := hx.two_le
  have hlow := h.low
  obtain ⟨hc, -, hcur, hbytes, hbuf, hnext, -⟩ | ⟨hidle, -⟩ | ⟨-, hidle, -⟩ := h.at_
  · have hlen : (r.completed ++ [(r.qh.ov.buf, count)]).length = r.completed.length + 1 :=
      List.length_append
    have hother : ∀ a, a ≠ r.completed.length → t ≤ a → a < t + x.n → a % x.n ≠ r.qh.cur := by
      intro a hne hta ham
      rw [hcur]
      rcases Nat.lt_or_gt_of_ne hne with hlt | hgt
      · exact Circular.mod_ne hlt (by omega)
      · exact (Circular.mod_ne hgt (by omega)).symm
    refine ⟨writeBack_linked h.linked, ?_, ?_, ?_, ?_, h.noAlt, ?_⟩
    · show t ≤ (r.completed ++ _).length
      omega
    · show (r.completed ++ _).length ≤ m
      omega
    · intro a ha hta
      replace ha : a < (r.completed ++ [(r.qh.ov.buf, count)]).length := ha
      show Ended x _ a (r.completed ++ [(r.qh.ov.buf, count)])[a]
      by_cases hlast : a < r.completed.length
      · rw [List.getElem_append_left hlast]
        exact (h.ended a hlast hta).of_token
          (writeBack_token (hother a (by omega) hta (by omega)))
      · have haeq : a = r.completed.length := by omega
        subst haeq
        have hself := @writeBack_self r tok _ hcur.symm
        rw [List.getElem_concat_length rfl]
        exact ⟨(congrArg (· &&& tdActive) hself).trans hoff,
          (congrArg (· &&& tdErrmask) hself).trans hok,
          (congrArg (tdBytes · + count) hself).trans (hcount.trans hbytes), hbuf⟩
    · intro a ha ham
      replace ha : (r.completed ++ [(r.qh.ov.buf, count)]).length < a := ha
      exact (writeBack_token (hother a (by omega) (by omega) (by omega))).trans
        (h.armed a (by omega) ham)
    · refine .waiting hoff (halted_of_error hok) ?_ ?_
      · show r.qh.ov.next = tdLink ((r.completed ++ _).length % x.n)
        rw [hnext, hlen, Nat.mod_add_mod]
      · show (r.completed ++ _).length < m → ((r.writeBack tok).tds ((r.completed ++ _).length
          % x.n)).token = _
        rw [hlen]
        intro hmore
        exact (writeBack_token (hother _ (by omega) (by omega) (by omega))).trans
          (h.armed _ (by omega) hmore)
  · exact absurd hidle hwork
  · exact absurd hidle hwork

theorem Queue.fail {x : Rx} {r : Ring} {t m : Nat} (h : Queue x r t m)
    (hm : m ≤ t + x.n) {tok : Nat} (hwork : r.qh.ov.token &&& tdActive ≠ 0)
    (hoff : tok &&& tdActive = 0) (hhalt : tok &&& tdHalted ≠ 0) :
    Queue x (r.writeBack tok) t m := by
  have hlow := h.low
  obtain ⟨hc, -, hcur, hbytes, hbuf, hnext, -⟩ | ⟨hidle, -⟩ | ⟨-, hidle, -⟩ := h.at_
  · have hself := @writeBack_self r tok _ hcur.symm
    refine ⟨writeBack_linked h.linked, h.low, h.high, ?_, ?_, h.noAlt, ?_⟩
    · intro a ha hta
      refine (h.ended a ha hta).of_token (writeBack_token ?_)
      rw [hcur]
      exact Circular.mod_ne ha (by omega)
    · intro a ha ham
      refine (writeBack_token ?_).trans (h.armed a ha ham)
      replace ha : r.completed.length < a := ha
      rw [hcur]
      exact (Circular.mod_ne ha (by omega)).symm
    · refine .halted hc hoff hhalt hnext ((congrArg (· &&& tdActive) hself).trans hoff) ?_
      exact fun herr => hhalt (halted_of_error ((congrArg (· &&& tdErrmask) hself).symm.trans herr))
  · exact absurd hidle hwork
  · exact absurd hidle hwork

/-- Whatever the controller does, the queue stays in order. -/
theorem Queue.own {x : Rx} (hx : x.Fits) {r r' : Ring} {t m : Nat} (h : Queue x r t m)
    (hm : m ≤ t + x.n) (hstop : m = t + x.n ∨ (r.tds (m % x.n)).token &&& tdActive = 0)
    (hown : Own r r') : Queue x r' t m := by
  cases hown with
  | advance hidle hgo hlink hactive => exact h.advance hx hstop hidle hgo hlink hactive
  | complete hwork hoff hok hcount => exact h.complete hx hm hwork hoff hok hcount
  | fail hwork hoff hhalt => exact h.fail hm hwork hoff hhalt

/-- The queue is in the qTDs, the overlay and what was completed. -/
theorem Queue.same {x : Rx} {r r' : Ring} {t m : Nat} (h : Queue x r t m) (htds : r'.tds = r.tds)
    (hqh : r'.qh = r.qh) (hc : r'.completed = r.completed) : Queue x r' t m := by
  obtain ⟨tds, qh, rxNext, rxErrors, completed, returned, held⟩ := r
  obtain ⟨tds', qh', rxNext', rxErrors', completed', returned', held'⟩ := r'
  subst htds hqh hc
  obtain ⟨hlinked, hlow, hhigh, hended, harmed, hnoAlt, hat⟩ := h
  refine ⟨hlinked, hlow, hhigh, fun a ha hta => (hended a ha hta).of_token rfl, harmed, hnoAlt, ?_⟩
  obtain ⟨hc, hon, hcur, hbytes, hbuf, hnext, harmed⟩ | ⟨hoff, hgo, hnext, harmed⟩
    | ⟨hc, hoff, hhalt, hnext, hslot, herr⟩ := hat
  · exact .working hc hon hcur hbytes hbuf hnext harmed
  · exact .waiting hoff hgo hnext harmed
  · exact .halted hc hoff hhalt hnext hslot herr

/-- The driver writes to the slot it has. -/
theorem Queue.setTd {x : Rx} {r : Ring} {t : Nat} (h : Queue x r (t + 1) (t + x.n)) {w : Td}
    (htd : w.Linked x (t % x.n)) : Queue x (r.setTd (t % x.n) w) (t + 1) (t + x.n) := by
  have hlow := h.low
  have hother : ∀ a, t < a → a < t + x.n →
      ((r.setTd (t % x.n) w).tds (a % x.n)).token = (r.tds (a % x.n)).token := by
    intro a hta ham
    show (Function.update r.tds (t % x.n) w (a % x.n)).token = _
    rw [Function.update_of_ne (Circular.mod_ne hta ham).symm]
  refine ⟨?_, h.low, h.high, ?_, ?_, h.noAlt, ?_⟩
  · intro i hi
    show (Function.update r.tds (t % x.n) w i).Linked x i
    by_cases hit : i = t % x.n
    · rw [hit, Function.update_self]
      exact htd
    · rw [Function.update_of_ne hit]
      exact h.linked i hi
  · intro a ha hta
    replace ha : a < r.completed.length := ha
    have hhigh := h.high
    exact (h.ended a ha hta).of_token (hother a (by omega) (by omega))
  · intro a ha ham
    replace ha : r.completed.length < a := ha
    exact (hother a (by omega) ham).trans (h.armed a ha ham)
  · obtain ⟨hc, hon, hcur, hbytes, hbuf, hnext, harmed⟩ | ⟨hoff, hgo, hnext, harmed⟩
      | ⟨hc, hoff, hhalt, hnext, hslot, herr⟩ := h.at_
    · exact .working hc hon hcur hbytes hbuf hnext ((hother _ (by omega) hc).trans harmed)
    · refine .waiting hoff hgo hnext fun hc => ?_
      replace hc : r.completed.length < t + x.n := hc
      exact (hother _ (by omega) hc).trans (harmed hc)
    · have hsame := hother _ (by omega) hc
      exact .halted hc hoff hhalt hnext ((congrArg (· &&& tdActive) hsame).trans hslot)
        fun hzero => herr ((congrArg (· &&& tdErrmask) hsame).symm.trans hzero)

def given (e : Nat × Nat) : List Nat × Nat := (tdPages e.1, e.2)

/-- Nothing but what was completed was handed over, once and in order. -/
def Handed (r : Ring) : Prop := r.returned.map given <+: r.completed

/-- What was completed at an earlier time, and how many buffers of it may
still have to be handed over. -/
structure Due (since : List (List Nat × Nat)) (left : Nat) (r : Ring) : Prop where
  begun : since <+: r.completed
  count : since.length ≤ r.returned.length + left

/-- Between `ehci_rx_put` and `ehci_rx_get`. -/
structure Ready (x : Rx) (since : List (List Nat × Nat)) (left : Nat) (r : Ring) : Prop where
  queue : Queue x r r.returned.length (r.returned.length + x.n)
  next : r.rxNext = r.returned.length % x.n
  handed : Handed r
  held : r.held = none
  due : Due since left r

/-- `ehci_rx_get` has found this buffer. -/
def Got (x : Rx) (b n : Nat) (r : Ring) : Prop :=
  r.completed[r.returned.length]? = some (given (b, n)) ∧ b = x.at r.rxNext

/-- The transfer number `t` is handed over and its slot not armed yet. -/
structure Held (x : Rx) (since : List (List Nat × Nat)) (left t : Nat) (r : Ring) : Prop where
  count : r.returned.length = t + 1
  queue : Queue x r (t + 1) (t + x.n)
  free : (r.tds (t % x.n)).token &&& tdActive = 0
  next : r.rxNext = t % x.n
  handed : Handed r
  held : r.held = none ∨ r.held = some (x.at (t % x.n))
  due : Due since left r

/-- The queue halted at the slot `i`, which the driver is arming again. -/
structure Restart (x : Rx) (since : List (List Nat × Nat)) (i : Nat) (r : Ring) : Prop where
  count : r.completed.length = r.returned.length
  slot : i = r.returned.length % x.n
  linked : ∀ i < x.n, (r.tds i).Linked x i
  armed : ∀ a, r.completed.length < a → a < r.completed.length + x.n →
    (r.tds (a % x.n)).token = armedToken x.size
  off : r.qh.ov.token &&& tdActive = 0
  halted : r.qh.ov.token &&& tdHalted ≠ 0
  next : r.rxNext = i
  handed : Handed r
  held : r.held = none
  due : Due since 0 r

/-- What is true at all times. -/
structure Safe (x : Rx) (r : Ring) : Prop where
  handed : Handed r
  held : ∀ i < x.n, r.held = some (x.at i) → (r.tds i).token &&& tdActive = 0

theorem Due.own {since : List (List Nat × Nat)} {left : Nat} {r r' : Ring} (h : Due since left r)
    (hown : Own r r') : Due since left r' := by
  obtain ⟨hret, -, -, hgrow⟩ := own_frame hown
  exact ⟨h.begun.trans hgrow, hret ▸ h.count⟩

theorem Handed.own {r r' : Ring} (h : Handed r) (hown : Own r r') : Handed r' := by
  obtain ⟨hret, -, -, hgrow⟩ := own_frame hown
  unfold Handed
  rw [hret]
  exact List.IsPrefix.trans h hgrow

section

variable {x : Rx} (hx : x.Fits) {since : List (List Nat × Nat)} {left t i : Nat}

include hx

end

/-- A halted queue stands still. -/
theorem Restart.still {x : Rx} {since : List (List Nat × Nat)} {i : Nat} {J : Ring → Prop}
    (h : ∀ r, J r → Restart x since i r) : (receiver x).Stable J := by
  intro r r' hown hr
  have hrest := h r hr
  cases hown with
  | advance _ hgo => exact absurd hgo hrest.halted
  | complete hwork => exact absurd hrest.off hwork
  | fail hwork => exact absurd hrest.off hwork

-- ================================================================== programs

theorem armed_token (size : Nat) :
    (tdActive ||| tdPidIn) ||| u32 (size * 2 ^ 16) ||| tdCerr3 = armedToken size := rfl

theorem setTd_token (r : Ring) (i : Nat) (td : Td) : ((r.setTd i td).tds i).token = td.token := by
  show (Function.update r.tds i td i).token = _
  rw [Function.update_self]

theorem setTd_other (r : Ring) {i j : Nat} (td : Td) (h : j ≠ i) :
    (r.setTd i td).tds j = r.tds j := by
  show Function.update r.tds i td j = _
  rw [Function.update_of_ne h]

section

variable {x : Rx} (hx : x.Fits) {since : List (List Nat × Nat)} {left : Nat}

/-- The driver's writes to the slot that it has, but for the last. -/
theorem Held.write {t : Nat} {r : Ring} (h : Held x since left t r) {w : Td}
    (htd : w.Linked x (t % x.n)) (hfree : w.token &&& tdActive = 0) :
    Held x since left t (r.setTd (t % x.n) w) where
  count := h.count
  queue := h.queue.setTd htd
  free := (congrArg (· &&& tdActive) (setTd_token r _ w)).trans hfree
  next := h.next
  handed := h.handed
  held := h.held
  due := ⟨h.due.begun, h.due.count⟩

theorem Restart.write {i : Nat} {r : Ring} (h : Restart x since i r) {w : Td}
    (htd : w.Linked x i) : Restart x since i (r.setTd i w) where
  count := h.count
  slot := h.slot
  linked := by
    intro j hj
    by_cases hji : j = i
    · rw [hji]
      show (Function.update r.tds i w i).Linked x i
      rw [Function.update_self]
      exact htd
    · rw [setTd_other r w hji]
      exact h.linked j hj
  armed := by
    intro a ha ham
    have hcount := h.count
    replace ha : r.completed.length < a := ha
    replace ham : a < r.completed.length + x.n := ham
    rw [setTd_other r w]
    · exact h.armed a ha ham
    · rw [h.slot, ← hcount]
      exact (Circular.mod_ne ha (by omega)).symm
  off := h.off
  halted := h.halted
  next := h.next
  handed := h.handed
  held := h.held
  due := ⟨h.due.begun, h.due.count⟩

include hx

/-- A buffer is handed over. -/
theorem Got.handle {b n : Nat} {r : Ring} (h : Ready x since (left + 1) r) (hgot : Got x b n r) :
    Held x since left r.returned.length ((receiver x).answer r (.handle b n)).2 := by
  have hn := hx.two_le
  obtain ⟨hget, hb⟩ := hgot
  obtain ⟨hin, heq⟩ := List.getElem?_eq_some_iff.mp hget
  have hlen : (r.returned ++ [(b, n)]).length = r.returned.length + 1 := List.length_append
  have hended := h.queue.ended _ hin (Nat.le_refl _)
  refine ⟨hlen, ?_, hended.off, h.next, ?_, .inr ?_, h.due.begun, ?_⟩
  · have hless : Queue x r (r.returned.length + 1) (r.returned.length + x.n) :=
      ⟨h.queue.linked, hin, h.queue.high, fun a ha hta => h.queue.ended a ha (by omega),
        h.queue.armed, h.queue.noAlt, h.queue.at_⟩
    exact hless.same rfl rfl rfl
  · have htake : r.returned.map given = r.completed.take r.returned.length := by
      have hprefix := List.prefix_iff_eq_take.mp h.handed
      rw [List.length_map] at hprefix
      exact hprefix
    show (r.returned ++ [(b, n)]).map given <+: r.completed
    rw [List.map_append, htake, List.map_singleton, ← heq, List.take_append_getElem hin]
    exact List.take_prefix _ _
  · show some b = some (x.at (r.returned.length % x.n))
    rw [hb, h.next]
  · show since.length ≤ (r.returned ++ [(b, n)]).length + left
    have hcount := h.due.count
    omega

end

-- ===================================================================== start

/-- The ring as `ehci_rx_start` leaves it, before the controller's first
pass. -/
def started (x : Rx) (r : Ring) : Ring :=
  (Machine.exec Ring.answer (ehciRxStart x)
    { r with completed := [], returned := [], held := none }).2

end Ncmips.Wlan
