import Mathlib.Data.List.Sort
import Mathlib.Data.List.Range

namespace LsmKv
set_option autoImplicit true

/-- The lists `f a`, …, `f (b - 1)`, one after the other. -/
def span (f : Nat → List α) (a b : Nat) : List α := (List.range' a (b - a)).flatMap f

variable {f g : Nat → List α}

theorem mem_span : x ∈ span f a b ↔ ∃ n, a ≤ n ∧ n < b ∧ x ∈ f n := by
  rw [span, List.mem_flatMap]
  refine exists_congr fun n => ?_
  rw [List.mem_range'_1, and_assoc]
  constructor
  · rintro ⟨h1, h2, h3⟩
    exact ⟨h1, by omega, h3⟩
  · rintro ⟨h1, h2, h3⟩
    exact ⟨h1, by omega, h3⟩

theorem span_append (hab : a ≤ b) (hbc : b ≤ c) : span f a b ++ span f b c = span f a c := by
  rw [span, span, span, ← List.flatMap_append]
  have hr := @List.range'_append_1 a (b - a) (c - b)
  rw [show a + (b - a) = b by omega, show b - a + (c - b) = c - a by omega] at hr
  rw [hr]

theorem span_eq_nil (h : ∀ n, a ≤ n → n < b → f n = []) : span f a b = [] := by
  refine List.eq_nil_iff_forall_not_mem.2 fun x hx => ?_
  obtain ⟨n, h1, h2, hm⟩ := mem_span.1 hx
  rw [h n h1 h2] at hm
  cases hm

theorem span_congr (h : ∀ n, a ≤ n → n < b → f n = g n) : span f a b = span g a b := by
  rw [span, span]
  refine List.flatMap_congr fun n hn => ?_
  rw [List.mem_range'_1] at hn
  exact h n hn.1 (by omega)

theorem span_le (h : b ≤ a) : span f a b = [] := span_eq_nil fun n h1 h2 => by omega

theorem span_trim (hab : a ≤ b) (hbc : b ≤ c) (h : ∀ n, b ≤ n → n < c → f n = []) :
    span f a c = span f a b := by
  rw [← span_append hab hbc, span_eq_nil h, List.append_nil]

theorem span_singleton (f : Nat → List α) (a : Nat) : span f a (a + 1) = f a := by
  simp [span]

theorem span_split (ha : a ≤ k) (hk : k < b) :
    span f a b = span f a k ++ (f k ++ span f (k + 1) b) := by
  rw [← span_append ha hk.le, ← span_append (Nat.le_succ k) hk, span_singleton]

theorem span_grow (ha : a ≤ k) (hk : k < b) (h : ∀ n, k < n → n < b → f n = []) (l : List α) :
    span (Function.update f k (f k ++ l)) a b = span f a b ++ l := by
  have hnil : span f (k + 1) b = [] := span_eq_nil fun n h1 h2 => h n h1 h2
  have hleft : span (Function.update f k (f k ++ l)) a k = span f a k :=
    span_congr fun n _ hn => Function.update_of_ne hn.ne _ _
  have hright : span (Function.update f k (f k ++ l)) (k + 1) b = span f (k + 1) b :=
    span_congr fun n hn _ => Function.update_of_ne (Nat.lt_of_succ_le hn).ne' _ _
  rw [span_split ha hk, span_split ha hk, hleft, hright, hnil, Function.update_self]
  simp

theorem span_of_sorted {ns : List Nat} (hs : ns.Pairwise (· < ·))
    (hb : ∀ n ∈ ns, a ≤ n ∧ n < b) (hn : ∀ n, a ≤ n → n < b → n ∉ ns → f n = []) :
    ns.flatMap f = span f a b := by
  induction ns generalizing a with
  | nil => exact (span_eq_nil fun n h1 h2 => hn n h1 h2 (by simp)).symm
  | cons k ns ih =>
    obtain ⟨hlt, hs⟩ := List.pairwise_cons.1 hs
    obtain ⟨hak, hkb⟩ := hb k List.mem_cons_self
    have hleft : span f a k = [] := span_eq_nil fun n h1 h2 => by
      refine hn n h1 (h2.trans hkb) fun hm => ?_
      rcases List.mem_cons.1 hm with rfl | hm
      · exact lt_irrefl _ h2
      · exact lt_asymm h2 (hlt n hm)
    have hrest := ih hs (fun n hm => ⟨hlt n hm, (hb n (List.mem_cons_of_mem k hm)).2⟩)
      fun n h1 h2 hm => hn n (by omega) h2 fun hc => by
        rcases List.mem_cons.1 hc with rfl | hc
        · omega
        · exact hm hc
    rw [List.flatMap_cons, hrest, span_split hak hkb, hleft, List.nil_append]

end LsmKv
