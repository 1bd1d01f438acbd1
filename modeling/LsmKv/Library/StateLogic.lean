import Mathlib

namespace LsmKv
set_option autoImplicit true

/-- From a state with `I`, the computation ends in one with `I` and returns a value with `Q`. -/
def Ensures (I : σ → Prop) (x : StateM σ α) (Q : α → Prop) : Prop :=
  ∀ s, I s → Q (x.run s).1 ∧ I (x.run s).2

namespace Ensures

variable {I : σ → Prop} {x : StateM σ α} {f : α → StateM σ β} {P Q : α → Prop} {R : β → Prop}

theorem pure (h : Q a) : Ensures I (Pure.pure a) Q := fun _ hs => ⟨h, hs⟩

theorem bind (hx : Ensures I x P) (hf : ∀ a, P a → Ensures I (f a) R) : Ensures I (x >>= f) R := by
  intro s hs
  obtain ⟨hp, hi⟩ := hx s hs
  exact hf _ hp _ hi

theorem map {g : α → β} (hx : Ensures I x P) (hg : ∀ a, P a → R (g a)) : Ensures I (g <$> x) R := by
  intro s hs
  obtain ⟨hp, hi⟩ := hx s hs
  exact ⟨hg _ hp, hi⟩

theorem imp (hx : Ensures I x P) (h : ∀ a, P a → Q a) : Ensures I x Q :=
  fun s hs => ⟨h _ (hx s hs).1, (hx s hs).2⟩

theorem get_bind {f : σ → StateM σ β} (h : ∀ s, I s → Ensures I (f s) R) :
    Ensures I (MonadState.get >>= f) R :=
  fun s hs => h s hs s hs

theorem mapM {l : List γ} {g : γ → StateM σ β} {R : γ → β → Prop}
    (h : ∀ a ∈ l, Ensures I (g a) (R a)) : Ensures I (l.mapM g) (List.Forall₂ R l) := by
  induction l with
  | nil =>
    rw [List.mapM_nil]
    exact Ensures.pure .nil
  | cons a l ih =>
    rw [List.mapM_cons]
    refine (h a List.mem_cons_self).bind fun b hb => ?_
    refine (ih fun c hc => h c (List.mem_cons_of_mem a hc)).bind fun bs hbs => ?_
    exact Ensures.pure (.cons hb hbs)

theorem ite {x y : StateM σ α} {p : Prop} [Decidable p] (hx : p → Ensures I x Q)
    (hy : ¬ p → Ensures I y Q) : Ensures I (if p then x else y) Q := by
  split
  · exact hx ‹_›
  · exact hy ‹_›

end Ensures

end LsmKv
