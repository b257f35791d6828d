/-
Pull-style byte input: a reader is asked for at most `n` bytes and may
give fewer, but gives none only at the end. How it cuts its input is
its own affair; `readFull` asks until it has what it wants, and what it
gets depends on the bytes that are left and on nothing else.
-/
import Mathlib

namespace Ncmips

variable {σ : Type}

/-- A reader over states `σ`. `left` is what it has still to deliver;
the laws are the contract of its `read`. -/
structure Source (σ : Type) where
  read : σ → Nat → List UInt8 × σ
  left : σ → List UInt8
  read_left : ∀ s n, left s = (read s n).1 ++ left (read s n).2
  read_le : ∀ s n, (read s n).1.length ≤ n
  read_pos : ∀ s n, 0 < n → left s ≠ [] → (read s n).1 ≠ []

/-- A buffer in memory delivers as much as it is asked for. -/
def Source.memory : Source (List UInt8) where
  read s n := (s.take n, s.drop n)
  left s := s
  read_left s n := (List.take_append_drop n s).symm
  read_le s n := List.length_take_le n s
  read_pos s n hn hs := by
    cases s with
    | nil => exact absurd rfl hs
    | cons b s =>
        obtain ⟨m, rfl⟩ : ∃ m, n = m + 1 := ⟨n - 1, by omega⟩
        simp

namespace Source

variable (fn : Source σ)

/-- Reads exactly `n` bytes unless the input ends. -/
def readFull (s : σ) (n : Nat) : List UInt8 × σ :=
  if n = 0 then ([], s)
  else
    match fn.read s n with
    | ([], s) => ([], s)
    | (b :: bs, s) =>
        let (rest, s) := readFull s (n - (b :: bs).length)
        (b :: bs ++ rest, s)
termination_by n
decreasing_by simp only [List.length_cons]; omega

theorem readFull_spec (s : σ) (n : Nat) :
    (fn.readFull s n).1 = (fn.left s).take n
      ∧ fn.left (fn.readFull s n).2 = (fn.left s).drop n := by
  induction n using Nat.strong_induction_on generalizing s with
  | _ n ih =>
      unfold readFull
      split
      · next h => subst h; simp
      · next hn =>
        split
        · next s' h =>
          -- nothing came, so nothing was left
          have hleft := fn.read_left s n
          have hnil : fn.left s = [] := by
            by_contra hne
            exact fn.read_pos s n (by omega) hne (by rw [h])
          rw [h, hnil] at hleft
          simp only [List.nil_append] at hleft
          rw [hnil, ← hleft]
          simp
        · next b bs s' h =>
          have hleft := fn.read_left s n
          have hle := fn.read_le s n
          rw [h] at hleft hle
          simp only at hleft hle
          obtain ⟨htake, hdrop⟩ := ih (n - (b :: bs).length) (by simp; omega) s'
          simp only [htake, hdrop, hleft]
          rw [List.take_append, List.drop_append, List.take_of_length_le hle,
            List.drop_eq_nil_of_le hle]
          exact ⟨rfl, rfl⟩

/-- A full read off the front of what is left. -/
theorem readFull_append {s : σ} {a rest : List UInt8} (h : fn.left s = a ++ rest) :
    (fn.readFull s a.length).1 = a ∧ fn.left (fn.readFull s a.length).2 = rest := by
  obtain ⟨htake, hdrop⟩ := fn.readFull_spec s a.length
  rw [htake, hdrop, h]
  simp

end Source

end Ncmips
