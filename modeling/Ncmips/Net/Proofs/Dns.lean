/-
DNS answers.

A name is skipped by its labels up to a root or a pointer, whichever it
ends in, so what is skipped in a well-formed response are its questions
and then its records, one by one. In any bytes at all every step goes
forward, and reads below the message's end only.
-/
import Ncmips.Net.Netstack

namespace Ncmips.Net

open Words Prog

section Reading

variable {answer : Act → UInt8} {ok : Act → Prop} {C : Unit → Prop} {α : Type} {Q : α → Prop}

/-- The word at `i`. -/
def word16 (answer : Act → UInt8) (i : Nat) : Nat :=
  (answer (.read i)).toNat * 2 ^ 8 + (answer (.read (i + 1))).toNat

def word32 (answer : Act → UInt8) (i : Nat) : Nat := word16 answer i * 2 ^ 16 + word16 answer (i + 2)

theorem word16_lt (answer : Act → UInt8) (i : Nat) : word16 answer i < 2 ^ 16 := by
  have ha := (answer (.read i)).toNat_lt
  have hb := (answer (.read (i + 1))).toNat_lt
  unfold word16
  omega

/-- A byte is read, and what comes after it goes on from there. -/
theorem goes_byte {i : Nat} {f : Nat → Rx α} (hok : ok (.read i))
    (h : Goes answer ok (f (answer (.read i)).toNat) C Q) :
    Goes answer ok (byte i >>= f) C Q := by
  have hbyte : Goes answer ok (byte i) C fun b => b = (answer (.read i)).toNat := by
    refine (goes_lift (meets_ask hok rfl : (ask (.read i) : Prog Act UInt8 UInt8).Meets answer ok
      fun b => b = answer (.read i))).bind fun b hb => goes_pure ?_
    rw [hb]
  refine hbyte.bind fun b hb => ?_
  rw [hb]
  exact h

theorem goes_be16 {i : Nat} {f : Nat → Rx α} (hok : ∀ j, i ≤ j → j < i + 2 → ok (.read j))
    (h : Goes answer ok (f (word16 answer i)) C Q) : Goes answer ok (be16 i >>= f) C Q := by
  have hword : Goes answer ok (be16 i) C fun w => w = word16 answer i :=
    goes_byte (hok i (by omega) (by omega))
      (goes_byte (hok (i + 1) (by omega) (by omega)) (goes_pure rfl))
  refine hword.bind fun w hw => ?_
  rw [hw]
  exact h

theorem goes_be32 {i : Nat} {f : Nat → Rx α} (hok : ∀ j, i ≤ j → j < i + 4 → ok (.read j))
    (h : Goes answer ok (f (word32 answer i)) C Q) : Goes answer ok (getBe32 i >>= f) C Q := by
  have hword : Goes answer ok (getBe32 i) C fun w => w = word32 answer i :=
    goes_be16 (fun j hj hj' => hok j hj (by omega))
      (goes_be16 (fun j hj hj' => hok j (by omega) (by omega)) (goes_pure rfl))
  refine hword.bind fun w hw => ?_
  rw [hw]
  exact h

end Reading

-- =============================================================== any message

section Inside

variable {answer : Act → UInt8} {d len : Nat}

/-- Nothing but bytes of the message at `d` is asked for. -/
def InMessage (d len : Nat) : Act → Prop
  | .read i => d ≤ i ∧ i < d + len
  | _ => False

theorem label_top : ∀ b < 256, b &&& 0xc0 ≠ 0xc0 → b < 192 := by decide +kernel

/-- A name is skipped forward, and past the message's end by a label at
most. -/
theorem dnsName_inside {turns p : Nat} (hlen : len < 2 ^ 16) (hp : p < 2 ^ 20)
    (hturns : len - p < turns) :
    Goes answer (InMessage d len) (dnsName d len turns p) (fun _ => False) fun q =>
      p < q ∧ q ≤ max (p + 1) (len + 192) := by
  induction turns generalizing p with
  | zero => omega
  | succ turns ih =>
      unfold dnsName
      split
      · next hin =>
        refine goes_byte ⟨by omega, by omega⟩ ?_
        have hbyte := (answer (.read (d + p))).toNat_lt
        split
        · refine goes_pure ?_
          rw [u32_of_lt (by omega)]
          omega
        · split
          · refine goes_pure ?_
            rw [u32_of_lt (by omega)]
            omega
          · next htop =>
            have hlabel := label_top _ hbyte htop
            rw [u32_of_lt (by omega)]
            refine (ih (by omega) (by omega)).mono (fun _ h => h) fun q hq => ?_
            omega
      · refine goes_pure ?_
        rw [u32_of_lt (by omega)]
        omega

theorem dnsQuestions_inside {turns q p : Nat} (hlen : len < 2 ^ 16)
    (hp : max p (len + 192) + 5 * q < 2 ^ 19) (hturns : len < turns) :
    Goes answer (InMessage d len) (dnsQuestions d len turns q p) (fun _ => False) fun p' =>
      p' ≤ max p (len + 192) + 5 * q := by
  induction q generalizing p with
  | zero => exact goes_pure (by omega)
  | succ q ih =>
      unfold dnsQuestions
      refine (dnsName_inside hlen (by omega) (by omega)).bind fun p' hp' => ?_
      rw [u32_of_lt (by omega)]
      refine (ih (by omega)).mono (fun _ h => h) fun r hr => ?_
      omega

/-- A record is read where it is not past the end. -/
theorem dnsAnswers_inside {turns an p : Nat} (hlen : len < 2 ^ 16) (hp : p < 2 ^ 20)
    (hturns : len < turns) :
    Goes answer (InMessage d len) (dnsAnswers d len turns an p) (fun _ => False) fun _ => True := by
  induction an generalizing p with
  | zero => exact goes_pure trivial
  | succ an ih =>
      unfold dnsAnswers
      rw [u32_of_lt (by omega)]
      split
      · refine (dnsName_inside hlen hp (by omega)).bind fun p' hp' => ?_
        rw [u32_of_lt (by omega)]
        split
        · exact goes_pure trivial
        · refine goes_be16 (fun j hj hj' => ⟨by omega, by omega⟩) ?_
          refine goes_be16 (fun j hj hj' => ⟨by omega, by omega⟩) ?_
          have hrdlen := word16_lt answer (d + p' + 8)
          dsimp only
          rw [u32_of_lt (show p' + 10 + 4 < 2 ^ 32 by omega)]
          split
          · exact goes_be32 (fun j hj hj' => ⟨by omega, by omega⟩) (goes_pure trivial)
          · rw [u32_of_lt (show p' + 10 + word16 answer (d + p' + 8) < 2 ^ 32 by omega)]
            exact ih (by omega)
      · exact goes_pure trivial

theorem dnsRx_inside {turns : Nat} (hlen : len < 2 ^ 16) (hturns : len < turns) (n : Stack) :
    Goes answer (InMessage d len) (dnsRx turns d len n) (fun _ => False) fun _ => True := by
  unfold dnsRx
  split
  · exact goes_pure trivial
  · refine goes_be16 (fun j hj hj' => ⟨by omega, by omega⟩) ?_
    refine goes_byte ⟨by omega, by omega⟩ ?_
    split
    · exact goes_pure trivial
    · refine goes_byte ⟨by omega, by omega⟩ ?_
      split
      · exact goes_pure trivial
      · refine goes_be16 (fun j hj hj' => ⟨by omega, by omega⟩) ?_
        refine goes_be16 (fun j hj hj' => ⟨by omega, by omega⟩) ?_
        have hq := word16_lt answer (d + 4)
        refine (dnsQuestions_inside hlen (by omega) hturns).bind fun p hp => ?_
        refine (dnsAnswers_inside hlen (by omega) hturns).bind fun a _ => ?_
        cases a with
        | none => exact goes_pure trivial
        | some a => exact goes_pure trivial

end Inside

-- ================================================================ a response

/-- A name: its labels, and the pointer it ends in, if not in the root. -/
structure Name where
  labels : List (List UInt8)
  pointer : Option (UInt8 × UInt8) := none

structure Name.Good (m : Name) : Prop where
  labels : ∀ l ∈ m.labels, 0 < l.length ∧ l.length < 64
  pointer : ∀ a b, m.pointer = some (a, b) → 0xc0 ≤ a

def labelBytes (l : List UInt8) : List UInt8 := .ofNat l.length :: l

def Name.ending (m : Name) : List UInt8 :=
  match m.pointer with
  | none => [0]
  | some (a, b) => [a, b]

def Name.bytes (m : Name) : List UInt8 := m.labels.flatMap labelBytes ++ m.ending

structure Question where
  name : Name
  type : Nat
  qclass : Nat

def Question.bytes (q : Question) : List UInt8 :=
  q.name.bytes ++ be16Bytes q.type ++ be16Bytes q.qclass

structure Record where
  name : Name
  type : Nat
  rclass : Nat
  ttl : Nat
  rdata : List UInt8

def Record.bytes (r : Record) : List UInt8 :=
  r.name.bytes ++ (be16Bytes r.type ++ be16Bytes r.rclass ++ be32Bytes r.ttl
    ++ be16Bytes r.rdata.length) ++ r.rdata

/-- An A record holds an address. -/
structure Record.Good (r : Record) : Prop where
  name : r.name.Good
  type : r.type < 2 ^ 16
  rdata : r.rdata.length < 2 ^ 16
  address : r.type = 1 → r.rdata.length = 4

structure Response where
  id : Nat
  flags : UInt8
  rcode : UInt8
  questions : List Question
  answers : List Record
  authorities : Nat
  additional : Nat
  /-- The records of the other sections. -/
  others : List UInt8

def Response.bytes (m : Response) : List UInt8 :=
  be16Bytes m.id ++ [m.flags, m.rcode] ++ be16Bytes m.questions.length
    ++ be16Bytes m.answers.length ++ be16Bytes m.authorities ++ be16Bytes m.additional
    ++ m.questions.flatMap Question.bytes ++ m.answers.flatMap Record.bytes ++ m.others

/-- A response without an error. -/
structure Response.Good (m : Response) : Prop where
  id : m.id < 2 ^ 16
  flags : m.flags &&& 0x80 ≠ 0
  rcode : m.rcode &&& 15 = 0
  questions : m.questions.length < 2 ^ 16 ∧ ∀ q ∈ m.questions, q.name.Good
  answers : m.answers.length < 2 ^ 16 ∧ ∀ r ∈ m.answers, r.Good

/-- The address in an A record. -/
def Record.address (r : Record) : Nat := r.rdata.foldl (fun a b => a * 2 ^ 8 + b.toNat) 0

/-- The first A record of the answers. -/
def Response.address (m : Response) : Option Nat :=
  (m.answers.find? fun r => r.type = 1).map Record.address

section Answer

variable {answer : Act → UInt8} {ok : Act → Prop} {d len : Nat}

/-- The bytes are in the frame from `i` on. -/
def Holds (answer : Act → UInt8) (i : Nat) (bs : List UInt8) : Prop :=
  ∀ k (hk : k < bs.length), answer (.read (i + k)) = bs[k]

theorem holds_append {i : Nat} {as bs : List UInt8} (h : Holds answer i (as ++ bs)) :
    Holds answer i as ∧ Holds answer (i + as.length) bs := by
  constructor
  · intro k hk
    rw [h k (by rw [List.length_append]; omega), List.getElem_append_left hk]
  · intro k hk
    rw [Nat.add_assoc, h (as.length + k) (by rw [List.length_append]; omega),
      List.getElem_append_right (by omega)]
    simp only [Nat.add_sub_cancel_left]

theorem Holds.head {i : Nat} {b : UInt8} {bs : List UInt8} (h : Holds answer i (b :: bs)) :
    answer (.read i) = b := h 0 (Nat.succ_pos _)

theorem Holds.tail {i : Nat} {b : UInt8} {bs : List UInt8} (h : Holds answer i (b :: bs)) :
    Holds answer (i + 1) bs := (@holds_append _ i [b] bs h).2

theorem Holds.word16 {i v : Nat} (h : Holds answer i (be16Bytes v)) (hv : v < 2 ^ 16) :
    word16 answer i = v := by
  unfold Net.word16
  rw [h.head, h.tail.head, UInt8.toNat_ofNat', UInt8.toNat_ofNat']
  omega

theorem pointer_top : ∀ b < 256, 192 ≤ b → b &&& 0xc0 = 0xc0 := by decide +kernel

theorem label_low : ∀ b < 64, b &&& 0xc0 ≠ 0xc0 := by decide

theorem Name.bytes_cons (l : List UInt8) (ls : List (List UInt8)) (e : Option (UInt8 × UInt8)) :
    Name.bytes ⟨l :: ls, e⟩ = labelBytes l ++ Name.bytes ⟨ls, e⟩ := by
  unfold Name.bytes
  rw [List.flatMap_cons, List.append_assoc]
  rfl

theorem Name.bytes_pos (m : Name) : 0 < m.bytes.length := by
  unfold Name.bytes Name.ending
  rw [List.length_append]
  split
  · exact Nat.succ_pos _
  · exact Nat.succ_pos _

/-- A name is skipped: its labels, and a root or a pointer. -/
theorem dnsName_skips {m : Name} (hm : m.Good) {turns p : Nat} (hd : Holds answer (d + p) m.bytes)
    (hend : p + m.bytes.length ≤ len) (hlen : len < 2 ^ 16) (hturns : len - p < turns) :
    Goes answer (fun _ => True) (dnsName d len turns p) (fun _ => False) fun q =>
      q = p + m.bytes.length := by
  obtain ⟨labels, pointer⟩ := m
  induction labels generalizing p turns with
  | nil =>
      cases turns with
      | zero => omega
      | succ turns =>
          have hpos := Name.bytes_pos ⟨[], pointer⟩
          unfold dnsName
          rw [if_pos (by omega)]
          refine goes_byte trivial ?_
          cases pointer with
          | none =>
              have hbyte : answer (.read (d + p)) = 0 := Holds.head hd
              rw [hbyte]
              refine goes_pure ?_
              rw [u32_of_lt (by omega)]
              rfl
          | some ab =>
              obtain ⟨a, b⟩ := ab
              have hbyte : answer (.read (d + p)) = a := Holds.head hd
              have ha : 192 ≤ a.toNat := UInt8.le_iff_toNat_le.mp (hm.pointer a b rfl)
              rw [hbyte, if_neg (by omega), if_pos (pointer_top _ a.toNat_lt ha)]
              refine goes_pure ?_
              rw [u32_of_lt (by omega)]
              rfl
  | cons l labels ih =>
      cases turns with
      | zero => omega
      | succ turns =>
          obtain ⟨hpos, hshort⟩ := hm.labels l List.mem_cons_self
          rw [Name.bytes_cons] at hd hend ⊢
          rw [List.length_append] at hend ⊢
          have hlabel : (labelBytes l).length = l.length + 1 := rfl
          obtain ⟨hfirst, hrest⟩ := holds_append hd
          have hbyte : (answer (.read (d + p))).toNat = l.length := by
            rw [Holds.head hfirst, UInt8.toNat_ofNat']
            exact Nat.mod_eq_of_lt (by omega)
          unfold dnsName
          rw [if_pos (by omega)]
          refine goes_byte trivial ?_
          rw [hbyte, if_neg (by omega), if_neg (label_low _ hshort), u32_of_lt (by omega)]
          have hnext : d + (p + (1 + l.length)) = d + p + (labelBytes l).length := by omega
          rw [← hnext] at hrest
          have hlabels : Name.Good ⟨labels, pointer⟩ :=
            ⟨fun l' hl' => hm.labels l' (List.mem_cons_of_mem _ hl'), hm.pointer⟩
          refine (ih (by omega) hlabels hrest (by omega)).mono (fun _ h => h) fun q hq => ?_
          omega

theorem be16Bytes_length (v : Nat) : (be16Bytes v).length = 2 := rfl

theorem be32Bytes_length (v : Nat) : (be32Bytes v).length = 4 := rfl

theorem Question.bytes_length (q : Question) : q.bytes.length = q.name.bytes.length + 4 := by
  unfold Question.bytes
  rw [List.length_append, List.length_append, be16Bytes_length, be16Bytes_length]

theorem Record.bytes_length (r : Record) :
    r.bytes.length = r.name.bytes.length + 10 + r.rdata.length := by
  unfold Record.bytes
  simp only [List.length_append, be16Bytes_length, be32Bytes_length]

theorem dnsQuestions_skips {qs : List Question} (hqs : ∀ q ∈ qs, q.name.Good) {turns p : Nat}
    (hd : Holds answer (d + p) (qs.flatMap Question.bytes))
    (hend : p + (qs.flatMap Question.bytes).length ≤ len) (hlen : len < 2 ^ 16)
    (hturns : len < turns) :
    Goes answer (fun _ => True) (dnsQuestions d len turns qs.length p) (fun _ => False) fun p' =>
      p' = p + (qs.flatMap Question.bytes).length := by
  induction qs generalizing p with
  | nil => exact goes_pure rfl
  | cons q qs ih =>
      rw [List.flatMap_cons] at hd hend ⊢
      rw [List.length_append] at hend ⊢
      obtain ⟨hfirst, hrest⟩ := holds_append hd
      have hlength := q.bytes_length
      have hname : Holds answer (d + p) q.name.bytes := by
        unfold Question.bytes at hfirst
        rw [List.append_assoc] at hfirst
        exact (holds_append hfirst).1
      rw [List.length_cons]
      unfold dnsQuestions
      refine (dnsName_skips (hqs q List.mem_cons_self) hname (by omega) hlen (by omega)).bind
        fun p' hp' => ?_
      have hnext : u32 (p' + 4) = p + q.bytes.length := by
        rw [u32_of_lt (by omega)]
        omega
      rw [hnext]
      have hoff : d + (p + q.bytes.length) = d + p + q.bytes.length := by omega
      refine (ih (fun q' hq' => hqs q' (List.mem_cons_of_mem _ hq')) (hoff ▸ hrest)
        (by omega)).mono (fun _ h => h) fun r hr => ?_
      omega

/-- Four bytes in the frame, as a word. -/
theorem word32_address {i : Nat} {bs : List UInt8} (h : Holds answer i bs) (hlen : bs.length = 4) :
    word32 answer i = bs.foldl (fun a b => a * 2 ^ 8 + b.toNat) 0 := by
  obtain ⟨a, b, c, e, rfl⟩ : ∃ a b c e, bs = [a, b, c, e] := by
    match bs, hlen with
    | [a, b, c, e], _ => exact ⟨a, b, c, e, rfl⟩
  have ha : answer (.read i) = a := h.head
  have hb : answer (.read (i + 1)) = b := h.tail.head
  have hc : answer (.read (i + 2)) = c := h.tail.tail.head
  have he : answer (.read (i + 3)) = e := h.tail.tail.tail.head
  show (word16 answer i * 2 ^ 16 + word16 answer (i + 2)) = _
  unfold word16
  rw [ha, hb, hc, he]
  simp only [List.foldl_cons, List.foldl_nil]
  omega

/-- An A record takes 15 bytes at least. -/
theorem records_length {rs : List Record} (hrs : ∀ r ∈ rs, r.Good) {a : Nat}
    (ha : (rs.find? fun r => r.type = 1).map Record.address = some a) :
    15 ≤ (rs.flatMap Record.bytes).length := by
  obtain ⟨r, hr, -⟩ := Option.map_eq_some_iff.mp ha
  have hmem := List.mem_of_find?_eq_some hr
  have htype := List.find?_some hr
  rw [decide_eq_true_eq] at htype
  have hrdata := (hrs r hmem).address htype
  have hname := r.name.bytes_pos
  have hlength := r.bytes_length
  obtain ⟨front, back, rfl⟩ := List.append_of_mem hmem
  rw [List.flatMap_append, List.flatMap_cons, List.length_append, List.length_append]
  omega

/-- The records are read up to the first A record. -/
theorem dnsAnswers_finds {rs : List Record} (hrs : ∀ r ∈ rs, r.Good) {turns p : Nat}
    (hd : Holds answer (d + p) (rs.flatMap Record.bytes))
    (hend : p + (rs.flatMap Record.bytes).length ≤ len) (hlen : len < 2 ^ 16)
    (hturns : len < turns) {a : Nat}
    (ha : (rs.find? fun r => r.type = 1).map Record.address = some a) :
    Goes answer (fun _ => True) (dnsAnswers d len turns rs.length p) (fun _ => False) fun r =>
      r = some a := by
  induction rs generalizing p with
  | nil => exact nomatch ha
  | cons r rs ih =>
      have hgood := hrs r List.mem_cons_self
      have hroom := records_length hrs ha
      rw [List.flatMap_cons] at hd hend hroom
      rw [List.length_append] at hend hroom
      obtain ⟨hfirst, hrest⟩ := holds_append hd
      have hlength := r.bytes_length
      unfold Record.bytes at hfirst
      obtain ⟨hfront, hrdata⟩ := holds_append hfirst
      obtain ⟨hname, hfields⟩ := holds_append hfront
      obtain ⟨hfields, hrdlen⟩ := holds_append hfields
      rw [List.append_assoc] at hfields
      have htype := (holds_append hfields).1.word16 hgood.type
      have hrdlen := hrdlen.word16 hgood.rdata
      rw [List.length_cons]
      unfold dnsAnswers
      rw [u32_of_lt (by omega), if_pos (by omega)]
      refine (dnsName_skips hgood.name hname (by omega) hlen (by omega)).bind fun p' hp' => ?_
      rw [u32_of_lt (by omega), if_neg (by omega)]
      have htypeAt : word16 answer (d + p') = r.type := by
        rw [hp', ← htype, ← Nat.add_assoc]
      have hrdlenAt : word16 answer (d + p' + 8) = r.rdata.length := by
        rw [hp', ← hrdlen, ← Nat.add_assoc]
        rfl
      refine goes_be16 (fun _ _ _ => trivial) (goes_be16 (fun _ _ _ => trivial) ?_)
      rw [htypeAt, hrdlenAt]
      dsimp only
      by_cases h1 : r.type = 1
      · have hfour := hgood.address h1
        rw [u32_of_lt (show p' + 10 + 4 < 2 ^ 32 by omega), if_pos ⟨h1, hfour, by omega⟩]
        refine goes_be32 (fun _ _ _ => trivial) (goes_pure ?_)
        rw [List.find?_cons_of_pos (by rw [decide_eq_true_eq]; exact h1)] at ha
        have hat : d + p + (r.name.bytes ++ (be16Bytes r.type ++ be16Bytes r.rclass
            ++ be32Bytes r.ttl ++ be16Bytes r.rdata.length)).length = d + (p' + 10) := by
          simp only [List.length_append, be16Bytes_length, be32Bytes_length]
          omega
        rw [hat] at hrdata
        rw [word32_address hrdata hfour]
        exact ha
      · rw [if_neg fun h => h1 h.1, u32_of_lt (by omega)]
        rw [List.find?_cons_of_neg (by rw [decide_eq_true_eq]; exact h1)] at ha
        have hnext : p' + 10 + r.rdata.length = p + r.bytes.length := by omega
        rw [hnext]
        rw [Nat.add_assoc] at hrest
        exact ih (fun r' hr' => hrs r' (List.mem_cons_of_mem _ hr')) hrest (by omega) ha

theorem and_toNat {a b : UInt8} : a &&& b = 0 ↔ a.toNat &&& b.toNat = 0 := by
  rw [← UInt8.toNat_and, ← UInt8.toNat_inj]
  rfl

/-- The header of a response, and its sections behind it. -/
structure Response.InFrame (m : Response) (answer : Act → UInt8) (d : Nat) : Prop where
  id : word16 answer d = m.id
  flags : answer (.read (d + 2)) = m.flags
  rcode : answer (.read (d + 3)) = m.rcode
  questions : word16 answer (d + 4) = m.questions.length
  answers : word16 answer (d + 6) = m.answers.length
  asked : Holds answer (d + 12) (m.questions.flatMap Question.bytes)
  records : Holds answer (d + (12 + (m.questions.flatMap Question.bytes).length))
    (m.answers.flatMap Record.bytes)

theorem Response.Good.inFrame {m : Response} (hm : m.Good) (hd : Holds answer d m.bytes) :
    m.InFrame answer d := by
  unfold Response.bytes at hd
  obtain ⟨hd, -⟩ := holds_append hd
  obtain ⟨hd, hrecords⟩ := holds_append hd
  obtain ⟨hd, hasked⟩ := holds_append hd
  obtain ⟨hd, -⟩ := holds_append hd
  obtain ⟨hd, -⟩ := holds_append hd
  obtain ⟨hd, han⟩ := holds_append hd
  obtain ⟨hd, hq⟩ := holds_append hd
  obtain ⟨hid, hflags⟩ := holds_append hd
  refine ⟨hid.word16 hm.id, hflags.head, hflags.tail.head, hq.word16 hm.questions.1,
    han.word16 hm.answers.1, hasked, ?_⟩
  rw [List.length_append, ← Nat.add_assoc] at hrecords
  rw [← Nat.add_assoc]
  exact hrecords

theorem Response.bytes_length (m : Response) : m.bytes.length
    = 12 + (m.questions.flatMap Question.bytes).length + (m.answers.flatMap Record.bytes).length
      + m.others.length := by
  unfold Response.bytes
  simp only [List.length_append, be16Bytes_length, List.length_cons, List.length_nil]

theorem dnsRx_answered {m : Response} (hm : m.Good) (hd : Holds answer d m.bytes)
    (hlen : m.bytes.length < 2 ^ 16) {turns : Nat} (hturns : m.bytes.length < turns) {n : Stack}
    (hid : n.dnsId = m.id) {a : Nat} (ha : m.address = some a) :
    Goes answer (fun _ => True) (dnsRx turns d m.bytes.length n) (fun _ => False) fun n' =>
      n' = { n with dnsDone := true, dnsResult := a } := by
  have hin := hm.inFrame hd
  have hlength := m.bytes_length
  unfold dnsRx
  rw [if_neg (by omega)]
  refine goes_be16 (fun _ _ _ => trivial) (goes_byte trivial ?_)
  rw [hin.id, hin.flags, if_neg]
  · refine goes_byte trivial ?_
    rw [hin.rcode, if_neg fun h => h (and_toNat.mp hm.rcode)]
    refine goes_be16 (fun _ _ _ => trivial) (goes_be16 (fun _ _ _ => trivial) ?_)
    rw [hin.questions, hin.answers]
    refine (dnsQuestions_skips hm.questions.2 hin.asked (by omega) hlen hturns).bind
      fun p hp => ?_
    rw [hp]
    refine (dnsAnswers_finds hm.answers.2 hin.records (by omega) hlen hturns ha).bind
      fun r hr => ?_
    rw [hr]
    exact goes_pure rfl
  · rintro (h | h)
    · exact h hid.symm
    · exact hm.flags (and_toNat.mpr h)

/-- The first A record of a response is taken; and in any bytes, of a UDP
packet's size, nothing outside of them is read. -/
theorem dns_answer_read (answer : Act → UInt8) (d : Nat) :
    (∀ (m : Response) (turns : Nat) (n : Stack) (a : Nat), m.Good → Holds answer d m.bytes →
      m.bytes.length < 2 ^ 16 → m.bytes.length < turns → n.dnsId = m.id → m.address = some a →
        outcome answer (dnsRx turns d m.bytes.length n)
          = .ok { n with dnsDone := true, dnsResult := a })
    ∧ ∀ (len turns : Nat) (n : Stack), len < 2 ^ 16 → len < turns →
        Goes answer (InMessage d len) (dnsRx turns d len n) (fun _ => False) fun _ => True := by
  constructor
  · intro m turns n a hm hd hlen hturns hid ha
    have hgoes := (dnsRx_answered hm hd hlen hturns hid ha).outcome
    cases hout : outcome answer (dnsRx turns d m.bytes.length n) with
    | error e =>
        rw [hout] at hgoes
        exact hgoes.elim
    | ok n' =>
        rw [hout] at hgoes
        rw [hgoes]
  · intro len turns n hlen hturns
    exact dnsRx_inside hlen hturns n

end Answer

/-- A frame that is just these bytes. -/
def frameOf (bs : List UInt8) : Act → UInt8
  | .read i => bs.getD i 0
  | _ => 0

theorem holds_frameOf (bs : List UInt8) : Holds (frameOf bs) 0 bs := by
  intro k hk
  show bs.getD (0 + k) 0 = bs[k]
  rw [Nat.zero_add, List.getD_eq_getElem?_getD, List.getElem?_eq_getElem hk]
  rfl

/-- `a` is an alias of `b.a`, whose address is 10.0.0.7. -/
def aliasResponse : Response where
  id := 0x1234
  flags := 0x81
  rcode := 0x80
  questions := [⟨⟨[[0x61]], none⟩, 1, 1⟩]
  answers := [⟨⟨[], some (0xc0, 12)⟩, 5, 1, 60, [1, 0x62, 0xc0, 12]⟩,
    ⟨⟨[[0x62]], some (0xc0, 12)⟩, 1, 1, 60, [10, 0, 0, 7]⟩]
  authorities := 0
  additional := 0
  others := []

theorem aliasResponse_good : aliasResponse.Good := by
  refine ⟨by decide, by decide, by decide, ⟨by decide, fun q hq => ?_⟩, by decide, fun r hr => ?_⟩
  · rw [List.mem_singleton.mp hq]
    exact ⟨by decide, fun a b h => nomatch h⟩
  · rcases List.mem_cons.mp hr with rfl | hr
    · refine ⟨⟨by decide, fun a b h => ?_⟩, by decide, by decide, by decide⟩
      cases h
      decide
    · rw [List.mem_singleton.mp hr]
      refine ⟨⟨by decide, fun a b h => ?_⟩, by decide, by decide, by decide⟩
      cases h
      decide

/-- A station that waits for it. -/
def asking : Stack := { mac := .replicate 6 0, dnsId := 0x1234 }

theorem dns_answer_read_alias :
    outcome (frameOf aliasResponse.bytes) (dnsRx 100 0 aliasResponse.bytes.length asking)
      = .ok { asking with dnsDone := true, dnsResult := 0x0a000007 } :=
  (dns_answer_read (frameOf aliasResponse.bytes) 0).1 aliasResponse 100 asking 0x0a000007
    aliasResponse_good (holds_frameOf _) (by decide) (by decide) rfl (by decide)

end Ncmips.Net
