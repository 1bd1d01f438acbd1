import Mathlib

namespace LsmKv
set_option autoImplicit true

variable {f g : α → Option (Option α)} {x n : α} {l m a b : List α}

/-- The pointers `f` lead from `x` through the places `l`, and end there. The outer `none` is a
place that has no pointer. -/
def Chain (f : α → Option (Option α)) : α → List α → Prop
  | x, [] => f x = some none
  | x, y :: l => f x = some (some y) ∧ Chain f y l

namespace Chain

theorem congr (h : Chain f x l) (hfg : ∀ y ∈ x :: l, g y = f y) : Chain g x l := by
  induction l generalizing x with
  | nil => exact (hfg x List.mem_cons_self).trans h
  | cons y l ih =>
    refine ⟨(hfg x List.mem_cons_self).trans h.1, ih h.2 fun z hz => ?_⟩
    exact hfg z (List.mem_cons_of_mem x hz)

theorem unique (h : Chain f x l) (h' : Chain f x m) : l = m := by
  induction l generalizing x m with
  | nil =>
    cases m with
    | nil => rfl
    | cons z m => exact absurd (h.symm.trans h'.1) (by simp)
  | cons y l ih =>
    cases m with
    | nil => exact absurd (h.1.symm.trans h') (by simp)
    | cons z m =>
      obtain rfl : y = z := by simpa using h.1.symm.trans h'.1
      rw [ih h.2 h'.2]

theorem getLastD (h : Chain f x (a ++ b)) : f (a.getLastD x) = some b.head? := by
  induction a generalizing x with
  | nil =>
    cases b with
    | nil => exact h
    | cons y b => exact h.1
  | cons y a ih =>
    rw [List.getLastD_cons]
    exact ih h.2

/-- A new place that takes over the pointer at the end of a part, and is pointed to from there,
comes behind that part. -/
theorem splice (h : Chain f x (a ++ b)) (hnd : (x :: (a ++ b)).Nodup)
    (hlast : g (a.getLastD x) = some (some n)) (hn : g n = some b.head?)
    (hne : ∀ y ∈ x :: (a ++ b), y ≠ a.getLastD x → g y = f y) : Chain g x (a ++ n :: b) := by
  induction a generalizing x with
  | nil =>
    refine ⟨hlast, ?_⟩
    cases b with
    | nil => exact hn
    | cons y b =>
      refine ⟨hn, h.2.congr fun z hz => hne z (List.mem_cons_of_mem x hz) ?_⟩
      rintro rfl
      exact (List.nodup_cons.1 hnd).1 hz
  | cons y a ih =>
    rw [List.getLastD_cons] at hlast hne
    have hx : x ≠ a.getLastD y := by
      intro hx
      refine (List.nodup_cons.1 hnd).1 ?_
      rw [hx, List.cons_append]
      obtain hnil | hlast := List.mem_cons.1 (List.getLastD_mem_cons (l := a) (a := y))
      · rw [hnil]
        exact List.mem_cons_self
      · exact List.mem_cons_of_mem y (List.mem_append_left b hlast)
    refine ⟨(hne x List.mem_cons_self hx).trans h.1, ?_⟩
    exact ih h.2 (List.nodup_cons.1 hnd).2 hlast fun z hz => hne z (List.mem_cons_of_mem x hz)

end Chain

end LsmKv
