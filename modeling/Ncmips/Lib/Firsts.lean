/-
The first element of each key, and the loop that collects them: an element
is taken when its key is acceptable and not there yet, until there are
enough.
-/
import Mathlib.Data.List.Basic
import Mathlib.Tactic.Common

namespace Ncmips.Firsts

variable {α β κ : Type} [DecidableEq κ] (key : α → κ)

/-- The first element of each key, in order. -/
def firsts : List α → List α
  | [] => []
  | a :: l => a :: (firsts l).filter fun b => key b ≠ key a

variable (ok : κ → Prop) [DecidablePred ok]

def add (acc : List α) (a : α) : List α :=
  if ok (key a) ∧ key a ∉ acc.map key then acc ++ [a] else acc

def collect (max : Nat) : List α → List α → List α
  | acc, [] => acc
  | acc, a :: l => if max ≤ acc.length then acc else collect max (add key ok acc a) l

variable {key ok} {max : Nat}

theorem collect_full {acc : List α} (h : max ≤ acc.length) (l : List α) :
    collect key ok max acc l = acc := by
  cases l with
  | nil => rfl
  | cons a l => exact if_pos h

theorem collect_cons {acc : List α} (h : acc.length < max) (a : α) (l : List α) :
    collect key ok max acc (a :: l) = collect key ok max (add key ok acc a) l :=
  if_neg (Nat.not_le.2 h)

theorem add_length {acc : List α} (h : acc.length < max) (a : α) :
    (add key ok acc a).length ≤ max := by
  unfold add
  split
  · rw [List.length_append]
    exact h
  · exact Nat.le_of_lt h

/-- Elements with unacceptable keys are passed over. -/
theorem collect_none {l : List α} (h : ∀ a ∈ l, ¬ ok (key a)) (acc : List α) :
    collect key ok max acc l = acc := by
  induction l with
  | nil => rfl
  | cons a l ih =>
      rcases Nat.lt_or_ge acc.length max with hlt | hge
      · have hadd : add key ok acc a = acc := if_neg fun hok => h a List.mem_cons_self hok.1
        rw [collect_cons hlt, hadd, ih fun b hb => h b (List.mem_cons_of_mem a hb)]
      · exact collect_full hge _

theorem mem_add {acc : List α} {a b : α} (h : b ∈ add key ok acc a) : b ∈ acc ∨ b = a := by
  unfold add at h
  split at h
  · rcases List.mem_append.1 h with h | h
    · exact .inl h
    · exact .inr (List.mem_singleton.1 h)
  · exact .inl h

theorem mem_collect {acc l : List α} {b : α} (h : b ∈ collect key ok max acc l) :
    b ∈ acc ∨ b ∈ l := by
  induction l generalizing acc with
  | nil => exact .inl h
  | cons a l ih =>
      rcases Nat.lt_or_ge acc.length max with hlt | hge
      · rw [collect_cons hlt] at h
        rcases ih h with h | h
        · rcases mem_add h with h | rfl
          · exact .inl h
          · exact .inr List.mem_cons_self
        · exact .inr (List.mem_cons_of_mem a h)
      · rw [collect_full hge] at h
        exact .inl h

theorem mem_add_left {acc : List α} {a b : α} (h : b ∈ acc) : b ∈ add key ok acc a := by
  unfold add
  split
  · exact List.mem_append_left _ h
  · exact h

theorem mem_collect_left {acc : List α} {b : α} (h : b ∈ acc) (l : List α) :
    b ∈ collect key ok max acc l := by
  induction l generalizing acc with
  | nil => exact h
  | cons a l ih =>
      rcases Nat.lt_or_ge acc.length max with hlt | hge
      · rw [collect_cons hlt]
        exact ih (mem_add_left h)
      · rwa [collect_full hge]

/-- An acceptable key is there after its element. -/
theorem key_mem_add {a : α} (hok : ok (key a)) (acc : List α) :
    ∃ b ∈ add key ok acc a, key b = key a := by
  unfold add
  by_cases hmem : key a ∈ acc.map key
  · obtain ⟨b, hb, hkey⟩ := List.mem_map.1 hmem
    rw [if_neg fun h => h.2 hmem]
    exact ⟨b, hb, hkey⟩
  · rw [if_pos ⟨hok, hmem⟩]
    exact ⟨a, List.mem_append_right _ List.mem_cons_self, rfl⟩

/-- The loop takes the first element of each acceptable key. -/
theorem collect_firsts (l : List α) {acc : List α} (h : acc.length ≤ max) :
    collect key ok max acc l
      = (acc ++ (firsts key (l.filter fun a => ok (key a))).filter
          fun a => key a ∉ acc.map key).take max := by
  induction l generalizing acc with
  | nil => simp [collect, firsts, List.take_of_length_le h]
  | cons a l ih =>
      rcases Nat.eq_or_lt_of_le h with heq | hlt
      · have hfull : max ≤ acc.length := Nat.le_of_eq heq.symm
        rw [collect_full hfull, List.take_append_of_le_length hfull, ← heq, List.take_length]
      · rw [collect_cons hlt, ih (add_length hlt a)]
        congr 1
        unfold add
        by_cases hok : ok (key a)
        · rw [List.filter_cons_of_pos (by simpa using hok)]
          by_cases hmem : key a ∈ acc.map key
          · -- the key is there
            rw [if_neg fun h => h.2 hmem, firsts, List.filter_cons_of_neg (by simpa using hmem),
              List.filter_filter]
            congr 1
            apply List.filter_congr
            intro b _
            by_cases hb : key b = key a
            · simp only [hb, hmem]
              simp
            · simp [hb]
          · rw [if_pos ⟨hok, hmem⟩, firsts, List.filter_cons_of_pos (by simpa using hmem),
              List.filter_filter, List.append_assoc, List.singleton_append]
            congr 2
            apply List.filter_congr
            intro b _
            simp only [List.map_append, List.map_cons, List.map_nil, List.mem_append,
              List.mem_singleton, not_or, Bool.decide_and]
        · rw [if_neg fun h => hok h.1, List.filter_cons_of_neg (by simpa using hok)]

/-- Both go along with a map that keeps the keys. -/
theorem add_map {f : α → β} {key' : β → κ} (h : ∀ a, key' (f a) = key a) (acc : List α) (a : α) :
    add key' ok (acc.map f) (f a) = (add key ok acc a).map f := by
  have hkeys : (acc.map f).map key' = acc.map key := by
    rw [List.map_map]
    exact List.map_congr_left fun b _ => h b
  unfold add
  rw [hkeys]
  simp only [h]
  split
  · rw [List.map_append, List.map_cons, List.map_nil]
  · rfl

theorem collect_map {f : α → β} {key' : β → κ} (h : ∀ a, key' (f a) = key a) (acc l : List α) :
    collect key' ok max (acc.map f) (l.map f) = (collect key ok max acc l).map f := by
  induction l generalizing acc with
  | nil => rfl
  | cons a l ih =>
      rcases Nat.lt_or_ge acc.length max with hlt | hge
      · rw [List.map_cons, collect_cons (by rwa [List.length_map]), add_map h, collect_cons hlt, ih]
      · rw [collect_full (by rwa [List.length_map]), collect_full hge]

end Ncmips.Firsts
