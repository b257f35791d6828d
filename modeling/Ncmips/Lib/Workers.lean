/-
Workers on shared state: each has a list of tasks of its own and an
output of its own, and any of them may take its next task at any time.

If different tasks commute on the shared state and what a task puts out
does not depend on the tasks done so far, every complete run ends like
one worker that does all the tasks in order: the same shared state, and
the outputs, joined worker by worker, the same text.
-/
import Mathlib.Logic.Relation
import Mathlib.Data.List.Basic
import Mathlib.Tactic.Common

namespace Workers

variable {τ S β : Type}

structure Pool (τ S β : Type) where
  /-- Tasks left, worker by worker. -/
  todo : List (List τ)
  /-- Outputs, worker by worker. -/
  outs : List (List β)
  shared : S

def Pool.start (chunks : List (List τ)) (s : S) : Pool τ S β :=
  { todo := chunks, outs := chunks.map fun _ => [], shared := s }

def Pool.Done (p : Pool τ S β) : Prop := ∀ ts ∈ p.todo, ts = []

/-- Worker `w` does its next task. -/
inductive Step (task : S → τ → List β × S) : Pool τ S β → Pool τ S β → Prop
  | work {p : Pool τ S β} {w : Nat} {t : τ} {ts : List τ} {out : List β}
      (htodo : p.todo[w]? = some (t :: ts)) (hout : p.outs[w]? = some out) :
      Step task p
        { todo := p.todo.set w ts
          outs := p.outs.set w (out ++ (task p.shared t).1)
          shared := (task p.shared t).2 }

/-- What the theorem needs of the tasks in `all`, on states in `I`. -/
structure Independent (task : S → τ → List β × S) (I : S → Prop) (emit : τ → List β)
    (all : List τ) : Prop where
  nodup : all.Nodup
  keeps : ∀ s t, t ∈ all → I s → I (task s t).2
  emits : ∀ s t, t ∈ all → I s → (task s t).1 = emit t
  comm : ∀ s a b, a ∈ all → b ∈ all → a ≠ b → I s →
    (task (task s a).2 b).2 = (task (task s b).2 a).2

variable {task : S → τ → List β × S} {I : S → Prop} {emit : τ → List β} {all : List τ}

/-- One worker, all tasks. -/
abbrev runAll (task : S → τ → List β × S) (ts : List τ) (s : S) : S :=
  ts.foldl (fun s t => (task s t).2) s

/-- A task done first instead of later. -/
theorem Independent.front (h : Independent task I emit all) (t : τ) (ht : t ∈ all) (post : List τ) :
    ∀ (pre : List τ) (s : S), (∀ a ∈ pre, a ∈ all ∧ a ≠ t) → I s →
      runAll task (pre ++ t :: post) s = runAll task (pre ++ post) (task s t).2 := by
  intro pre
  induction pre with
  | nil => exact fun s _ _ => rfl
  | cons a pre ih =>
      intro s hpre hI
      obtain ⟨ha, hat⟩ := hpre a (List.mem_cons_self ..)
      have hpre' : ∀ b ∈ pre, b ∈ all ∧ b ≠ t := fun b hb => hpre b (List.mem_cons_of_mem _ hb)
      have hrest := ih (task s a).2 hpre' (h.keeps s a ha hI)
      rw [h.comm s a t ha ht hat hI] at hrest
      exact hrest

/-- What stays the same while a pool runs. -/
structure Inv (task : S → τ → List β × S) (I : S → Prop) (emit : τ → List β) (all : List τ)
    (s₀ : S) (p : Pool τ S β) : Prop where
  shared : I p.shared
  sub : p.todo.flatten.Sublist all
  length : p.outs.length = p.todo.length
  text : (List.zipWith (fun out ts => out ++ ts.flatMap emit) p.outs p.todo).flatten
    = all.flatMap emit
  final : runAll task p.todo.flatten p.shared = runAll task all s₀

theorem Inv.start {chunks : List (List τ)} {s : S} (hI : I s) :
    Inv task I emit chunks.flatten s (Pool.start chunks s) where
  shared := hI
  sub := List.Sublist.refl _
  length := by simp [Pool.start]
  text := by
    simp only [Pool.start]
    induction chunks with
    | nil => rfl
    | cons c cs ih =>
        rw [List.map_cons, List.zipWith_cons_cons, List.flatten_cons, ih, List.nil_append,
          List.flatten_cons, List.flatMap_append]
  final := rfl

theorem Inv.step (h : Independent task I emit all) {s₀ : S} {p q : Pool τ S β}
    (hp : Inv task I emit all s₀ p) (hstep : Step task p q) : Inv task I emit all s₀ q := by
  obtain ⟨hI, hsub, hlen, htext, hfinal⟩ := hp
  cases hstep with
  | @work w t ts out htodo hout =>
      -- the tasks before and behind `t`, the outputs before and behind `out`
      obtain ⟨hw, hget⟩ := List.getElem?_eq_some_iff.1 htodo
      obtain ⟨hw', hget'⟩ := List.getElem?_eq_some_iff.1 hout
      obtain ⟨pre, post, htodo', hpre⟩ : ∃ pre post, p.todo = pre ++ (t :: ts) :: post
          ∧ pre.length = w :=
        ⟨p.todo.take w, p.todo.drop (w + 1), by rw [← hget, List.getElem_cons_drop,
          List.take_append_drop], by simp; omega⟩
      obtain ⟨opre, opost, houts', hopre⟩ : ∃ opre opost, p.outs = opre ++ out :: opost
          ∧ opre.length = w :=
        ⟨p.outs.take w, p.outs.drop (w + 1), by rw [← hget', List.getElem_cons_drop,
          List.take_append_drop], by simp; omega⟩
      have hset : p.todo.set w ts = pre ++ ts :: post := by
        rw [htodo', ← hpre, List.set_append_right _ _ (Nat.le_refl _), Nat.sub_self]
        rfl
      have hoset : ∀ o, p.outs.set w o = opre ++ o :: opost := by
        intro o
        rw [houts', ← hopre, List.set_append_right _ _ (Nat.le_refl _), Nat.sub_self]
        rfl
      rw [htodo', List.flatten_append, List.flatten_cons] at hsub hfinal
      have ht : t ∈ all := hsub.subset (by simp)
      have hne : ∀ a ∈ pre.flatten, a ∈ all ∧ a ≠ t := by
        intro a ha
        refine ⟨hsub.subset (List.mem_append_left _ ha), ?_⟩
        rintro rfl
        have hnodup := hsub.nodup h.nodup
        rw [List.nodup_append] at hnodup
        exact hnodup.2.2 a ha a (by simp) rfl
      refine ⟨h.keeps _ t ht hI, ?_, ?_, ?_, ?_⟩
      · rw [hset, List.flatten_append, List.flatten_cons]
        refine List.Sublist.trans ?_ hsub
        exact List.Sublist.append_left (List.sublist_cons_self t (ts ++ post.flatten)) pre.flatten
      · simp only [List.length_set, hlen]
      · rw [← htext, hset, hoset, htodo', houts', h.emits _ t ht hI]
        have hsame : opre.length = pre.length := by omega
        rw [List.zipWith_append hsame, List.zipWith_append hsame]
        simp
      · rw [hset, List.flatten_append, List.flatten_cons, ← hfinal]
        exact (h.front t ht (ts ++ post.flatten) pre.flatten p.shared hne hI).symm

theorem Inv.run (h : Independent task I emit all) {s₀ : S} {p q : Pool τ S β}
    (hp : Inv task I emit all s₀ p) (hrun : Relation.ReflTransGen (Step task) p q) :
    Inv task I emit all s₀ q := by
  induction hrun with
  | refl => exact hp
  | tail _ hstep ih => exact ih.step h hstep

/-- Every complete run of the pool does what one worker does. -/
theorem run_done {chunks : List (List τ)} {s : S}
    (h : Independent task I emit chunks.flatten) (hI : I s) {p : Pool τ S β}
    (hrun : Relation.ReflTransGen (Step task) (Pool.start chunks s) p) (hdone : p.Done) :
    p.outs.flatten = chunks.flatten.flatMap emit
      ∧ p.shared = runAll task chunks.flatten s := by
  obtain ⟨-, -, hlen, htext, hfinal⟩ := (Inv.start hI).run h hrun
  have hempty : p.todo = List.replicate p.outs.length [] := by
    rw [hlen]
    exact List.eq_replicate_of_mem hdone
  rw [hempty] at htext hfinal
  refine ⟨?_, ?_⟩
  · rw [← htext]
    congr 1
    generalize p.outs = outs
    induction outs with
    | nil => rfl
    | cons o os ih =>
        rw [List.length_cons, List.replicate_succ, List.zipWith_cons_cons, ← ih]
        simp
  · rw [← hfinal]
    simp

end Workers
