import Mathlib

namespace LsmKv
set_option autoImplicit true

/-- The comparator compares ranks in a linear order. -/
abbrev RanksBy {α β : Type} [LinearOrder β] (cmp : α → α → Ordering) (rank : α → β) : Prop :=
  ∀ a b, cmp a b = compare (rank a) (rank b)

theorem ranksBy_of_iff {α β : Type} [LinearOrder β] {cmp : α → α → Ordering} {rank : α → β}
    (hlt : ∀ a b, cmp a b = .lt ↔ rank a < rank b) (hgt : ∀ a b, cmp a b = .gt ↔ rank b < rank a) :
    RanksBy cmp rank := by
  intro a b
  cases h : cmp a b with
  | lt => exact (compare_lt_iff_lt.2 ((hlt a b).1 h)).symm
  | gt => exact (compare_gt_iff_gt.2 ((hgt a b).1 h)).symm
  | eq =>
    refine (compare_eq_iff_eq.2 (le_antisymm ?_ ?_)).symm
    · exact not_lt.1 fun hba => absurd ((hgt a b).2 hba) (by rw [h]; decide)
    · exact not_lt.1 fun hab => absurd ((hlt a b).2 hab) (by rw [h]; decide)

variable {α : Type} (cmp : α → α → Ordering) [Std.TransCmp cmp]

/-- The order of a comparator. -/
abbrev Comparator.preorder : Preorder α where
  le a b := (cmp a b).isLE = true
  lt a b := cmp a b = .lt
  le_refl a := by
    have h : cmp a a = .eq := Std.ReflCmp.compare_self
    change (cmp a a).isLE = true
    rw [h]
    rfl
  le_trans a b c := Std.TransCmp.isLE_trans
  lt_iff_le_not_ge a b := by
    have h : cmp b a = (cmp a b).swap := Std.OrientedCmp.eq_swap
    rw [h]
    cases cmp a b <;> decide

omit [Std.TransCmp cmp] in
theorem RanksBy.transCmp {β : Type} [LinearOrder β] {rank : α → β} (h : RanksBy cmp rank) :
    Std.TransCmp cmp := by
  have hon : cmp = compareOn rank := by
    funext a b
    exact h a b
  rw [hon]
  infer_instance

/-- The ranks are the classes of elements that the comparator takes to be equal. -/
theorem exists_ranksBy : ∃ (β : Type) (_ : LinearOrder β) (rank : α → β), RanksBy cmp rank := by
  classical
  let := Comparator.preorder cmp
  have hswap : ∀ a b, cmp b a = (cmp a b).swap := fun a b => Std.OrientedCmp.eq_swap
  have : @Std.Total α (· ≤ ·) := ⟨fun a b => by
    change (cmp a b).isLE = true ∨ (cmp b a).isLE = true
    rw [hswap a b]
    cases cmp a b <;> decide⟩
  have hlt : ∀ a b : α, toAntisymmetrization (· ≤ ·) a < toAntisymmetrization (· ≤ ·) b ↔
      cmp a b = .lt :=
    fun a b => toAntisymmetrization_lt_toAntisymmetrization_iff
  refine ⟨Antisymmetrization α (· ≤ ·), inferInstance, toAntisymmetrization (· ≤ ·),
    ranksBy_of_iff (fun a b => (hlt a b).symm) fun a b => ?_⟩
  rw [hlt, hswap a b]
  cases cmp a b <;> decide

end LsmKv
