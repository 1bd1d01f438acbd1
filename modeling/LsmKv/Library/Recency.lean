import Mathlib

namespace LsmKv
set_option autoImplicit true

variable [DecidableEq α] {k : α} {l r : List α}

/-- `k` becomes the most recent element of a list that has the most recent one first. -/
def toFront (k : α) (l : List α) : List α := k :: l.filter (· ≠ k)

theorem toFront_prefix (h : l <+: r) (k : α) : toFront k l <+: toFront k r :=
  (List.prefix_cons_inj k).2 (h.filter _)

theorem toFront_of_notMem (h : k ∉ l) : toFront k l = k :: l := by
  rw [toFront, List.filter_eq_self.2]
  intro a ha
  exact decide_eq_true fun he => h (he ▸ ha)

theorem filter_toFront_of_pos {p : α → Bool} (h : p k) (l : List α) :
    (toFront k l).filter p = toFront k (l.filter p) := by
  rw [toFront, List.filter_cons_of_pos h, List.filter_comm, toFront]

theorem filter_toFront_of_neg {p : α → Bool} (h : ¬ p k) (l : List α) :
    (toFront k l).filter p = l.filter p := by
  rw [toFront, List.filter_cons_of_neg h, List.filter_filter]
  refine List.filter_congr fun a _ => ?_
  by_cases hak : a = k
  · subst hak
    simp [h]
  · simp [hak]

section Budget
variable {β : Type} {size : β → Nat} {budget : Nat} {a : β} {l : List β}

/-- The longest prefix whose sizes add up to at most the budget. -/
def fitting (size : β → Nat) : Nat → List β → List β
  | _, [] => []
  | budget, a :: l => if size a ≤ budget then a :: fitting size (budget - size a) l else []

/-- What a cache of this budget keeps: the first element stays in any case. -/
def trim (size : β → Nat) (budget : Nat) (l : List β) : List β :=
  match fitting size budget l with
  | [] => l.take 1
  | kept => kept

theorem fitting_eq_self (h : (l.map size).sum ≤ budget) : fitting size budget l = l := by
  induction l generalizing budget with
  | nil => rfl
  | cons a l ih =>
    rw [List.map_cons, List.sum_cons] at h
    rw [fitting, if_pos (by omega), ih (by omega)]

theorem fitting_concat (h : budget < ((l ++ [a]).map size).sum) :
    fitting size budget (l ++ [a]) = fitting size budget l := by
  induction l generalizing budget with
  | nil =>
    rw [List.nil_append, List.map_singleton, List.sum_singleton] at h
    simp only [List.nil_append, fitting, if_neg (not_le.2 h)]
  | cons b l ih =>
    rw [List.cons_append, List.map_cons, List.sum_cons] at h
    rw [List.cons_append, fitting, fitting]
    by_cases hb : size b ≤ budget
    · rw [if_pos hb, if_pos hb, ih (by omega)]
    · rw [if_neg hb, if_neg hb]

theorem trim_eq_self (h : (l.map size).sum ≤ budget) : trim size budget l = l := by
  rw [trim, fitting_eq_self h]
  cases l <;> rfl

theorem trim_singleton (a : β) : trim size budget [a] = [a] := by
  rw [trim, fitting]
  by_cases ha : size a ≤ budget
  · rw [if_pos ha]
    rfl
  · rw [if_neg ha]
    rfl

theorem trim_concat (h : budget < ((l ++ [a]).map size).sum) (hl : l ≠ []) :
    trim size budget (l ++ [a]) = trim size budget l := by
  rw [trim, trim, fitting_concat h]
  obtain ⟨b, rest, rfl⟩ := List.exists_cons_of_ne_nil hl
  rfl

theorem fitting_map {γ : Type} (size : β → Nat) (g : γ → β) (budget : Nat) (l : List γ) :
    (fitting (fun c => size (g c)) budget l).map g = fitting size budget (l.map g) := by
  induction l generalizing budget with
  | nil => rfl
  | cons c l ih =>
    rw [List.map_cons, fitting, fitting]
    by_cases hc : size (g c) ≤ budget
    · rw [if_pos hc, if_pos hc, List.map_cons, ih]
    · rw [if_neg hc, if_neg hc, List.map_nil]

theorem trim_map {γ : Type} (size : β → Nat) (g : γ → β) (budget : Nat) (l : List γ) :
    (trim (fun c => size (g c)) budget l).map g = trim size budget (l.map g) := by
  rw [trim, trim, ← fitting_map]
  cases fitting (fun c => size (g c)) budget l with
  | nil => exact List.map_take
  | cons c kept => rfl

theorem fitting_prefix (size : β → Nat) (budget : Nat) (l : List β) :
    fitting size budget l <+: l := by
  induction l generalizing budget with
  | nil => exact List.nil_prefix
  | cons a l ih =>
    rw [fitting]
    by_cases ha : size a ≤ budget
    · rw [if_pos ha]
      exact (List.prefix_cons_inj a).2 (ih _)
    · rw [if_neg ha]
      exact List.nil_prefix

theorem trim_isPrefix (size : β → Nat) (budget : Nat) (l : List β) : trim size budget l <+: l := by
  have hfit := fitting_prefix size budget l
  rw [trim]
  generalize fitting size budget l = kept at hfit
  cases kept with
  | nil => exact List.take_prefix 1 l
  | cons a kept => exact hfit

end Budget

section Lru
variable {β : Type}

/-- A list of keyed values, the most recently used first, after a hit. -/
def lruTouch (key : α) (l : List (α × β)) : List (α × β) :=
  match l.find? fun e => e.1 = key with
  | none => l
  | some e => e :: l.filter fun e => e.1 ≠ key

/-- After an insertion: a key that is there keeps its value, and a new one displaces those that are
then over the budget, the least recently used first. -/
def lruInsert (size : β → Nat) (budget : Nat) (key : α) (b : β) (l : List (α × β)) : List (α × β) :=
  if l.any fun e => e.1 = key then lruTouch key l
  else trim (fun e => size e.2) budget ((key, b) :: l)

variable {e : α × β} {as bs : List (α × β)}

theorem lruTouch_of_notMem {l : List (α × β)} (h : key ∉ l.map Prod.fst) : lruTouch key l = l := by
  have hnone : l.find? (fun e => e.1 = key) = none := by
    rw [List.find?_eq_none]
    intro e he hk
    exact h (of_decide_eq_true hk ▸ List.mem_map_of_mem he)
  rw [lruTouch, hnone]

theorem lruTouch_of_split (h : ∀ x ∈ as ++ bs, x.1 ≠ e.1) :
    lruTouch e.1 (as ++ e :: bs) = e :: (as ++ bs) := by
  have hfind : (as ++ e :: bs).find? (fun x => x.1 = e.1) = some e := by
    rw [List.find?_eq_some_iff_append]
    refine ⟨by simp, as, bs, rfl, fun x hx => ?_⟩
    simpa using h x (List.mem_append_left bs hx)
  have hfilter : (as ++ e :: bs).filter (fun x => x.1 ≠ e.1) = as ++ bs := by
    rw [List.filter_append, List.filter_cons_of_neg (by simp), ← List.filter_append]
    exact List.filter_eq_self.2 fun x hx => by simpa using h x hx
  rw [lruTouch, hfind]
  exact congrArg (e :: ·) hfilter

end Lru

end LsmKv
