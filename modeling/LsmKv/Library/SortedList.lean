import Mathlib

namespace LsmKv
set_option autoImplicit true

theorem takeWhile_congr {p q : α → Bool} {l : List α} (h : ∀ a ∈ l, p a = q a) :
    l.takeWhile p = l.takeWhile q := by
  induction l with
  | nil => rfl
  | cons a l ih =>
    rw [List.takeWhile_cons, List.takeWhile_cons, h a List.mem_cons_self,
      ih fun b hb => h b (List.mem_cons_of_mem a hb)]

section Ascending
variable {α β : Type} [LinearOrder β] (f : α → β)

/-- A run: a list whose entries have strictly increasing positions. -/
def Ascending (l : List α) : Prop := l.Pairwise fun a b => f a < f b

/-- What a cursor has left after a seek to `t`. -/
def seekTo (t : β) (l : List α) : List α := l.dropWhile fun a => decide (f a < t)

/-- Insertion before the first entry that is not smaller. -/
def insertRun (a : α) (l : List α) : List α :=
  l.takeWhile (fun b => decide (f b < f a)) ++ a :: l.dropWhile fun b => decide (f b < f a)

variable {f}

theorem Ascending.nil : Ascending f [] := List.Pairwise.nil

theorem ascending_cons : Ascending f (a :: l) ↔ (∀ b ∈ l, f a < f b) ∧ Ascending f l :=
  List.pairwise_cons

theorem ascending_append : Ascending f (l ++ m) ↔
    Ascending f l ∧ Ascending f m ∧ ∀ a ∈ l, ∀ b ∈ m, f a < f b :=
  List.pairwise_append

theorem Ascending.sublist (h : Ascending f l) (hs : List.Sublist m l) : Ascending f m :=
  List.Pairwise.sublist hs h

theorem Ascending.filter (h : Ascending f l) (p : α → Bool) : Ascending f (l.filter p) :=
  h.sublist List.filter_sublist

theorem Ascending.nodup (h : Ascending f l) : l.Nodup :=
  List.Pairwise.imp (fun hab he => by subst he; exact lt_irrefl _ hab) h

theorem Ascending.inj (h : Ascending f l) (ha : a ∈ l) (hb : b ∈ l) (he : f a = f b) : a = b := by
  induction l with
  | nil => cases ha
  | cons c l ih =>
    obtain ⟨hc, hl⟩ := ascending_cons.1 h
    rcases List.mem_cons.1 ha with rfl | ha' <;> rcases List.mem_cons.1 hb with rfl | hb'
    · rfl
    · exact absurd (hc b hb') (by rw [he]; exact lt_irrefl _)
    · exact absurd (hc a ha') (by rw [he]; exact lt_irrefl _)
    · exact ih hl ha' hb'

theorem seekTo_eq_filter (h : l.Pairwise fun a b => f a ≤ f b) (t : β) :
    seekTo f t l = l.filter fun a => decide (t ≤ f a) := by
  induction l with
  | nil => rfl
  | cons a l ih =>
    obtain ⟨ha, hl⟩ := List.pairwise_cons.1 h
    by_cases hat : f a < t
    · rw [seekTo, List.dropWhile_cons_of_pos (by simpa using hat), List.filter_cons_of_neg
        (by simpa using hat)]
      exact ih hl
    · rw [seekTo, List.dropWhile_cons_of_neg (by simpa using hat), List.filter_cons_of_pos
        (by simpa using hat)]
      congr 1
      symm
      rw [List.filter_eq_self]
      intro b hb
      simpa using (not_lt.1 hat).trans (ha b hb)

theorem Ascending.seekTo_eq_filter (h : Ascending f l) (t : β) :
    seekTo f t l = l.filter fun a => decide (t ≤ f a) :=
  LsmKv.seekTo_eq_filter (h.imp fun hab => hab.le) t

theorem Ascending.mem_seekTo (h : Ascending f l) : a ∈ seekTo f t l ↔ a ∈ l ∧ t ≤ f a := by
  rw [h.seekTo_eq_filter, List.mem_filter, decide_eq_true_iff]

theorem Ascending.seekTo (h : Ascending f l) (t : β) : Ascending f (seekTo f t l) :=
  h.sublist (List.dropWhile_sublist _)

theorem seekTo_suffix (t : β) (l : List α) : seekTo f t l <:+ l := List.dropWhile_suffix _

theorem seekTo_eq_drop (t : β) (l : List α) :
    seekTo f t l = l.drop (l.takeWhile fun a => decide (f a < t)).length := by
  induction l with
  | nil => rfl
  | cons a l ih =>
    rw [seekTo, List.dropWhile_cons, List.takeWhile_cons]
    split
    · exact ih
    · rfl

theorem seekTo_append_of_lt (h : ∀ a ∈ l, f a < t) (m : List α) :
    seekTo f t (l ++ m) = seekTo f t m :=
  List.dropWhile_append_of_pos fun a ha => decide_eq_true (h a ha)

theorem seekTo_append_of_ne_nil (h : seekTo f t l ≠ []) (m : List α) :
    seekTo f t (l ++ m) = seekTo f t l ++ m := by
  have he : (List.dropWhile (fun a => decide (f a < t)) l).isEmpty = false :=
    List.isEmpty_eq_false_iff.2 h
  rw [seekTo, List.dropWhile_append, he]
  rfl

theorem seekTo_eq_nil_of_lt (h : ∀ a ∈ l, f a < t) : seekTo f t l = [] := by
  rw [← List.append_nil l, seekTo_append_of_lt h]
  rfl

theorem Ascending.seekTo_cons (h : Ascending f l) (hs : LsmKv.seekTo f t l = a :: m) :
    a ∈ l ∧ t ≤ f a ∧ ∀ b ∈ l, t ≤ f b → f a ≤ f b := by
  have ha : a ∈ LsmKv.seekTo f t l := by rw [hs]; exact List.mem_cons_self
  obtain ⟨hal, hat⟩ := h.mem_seekTo.1 ha
  refine ⟨hal, hat, ?_⟩
  intro b hb hbt
  have hb' := h.mem_seekTo.2 ⟨hb, hbt⟩
  have hasc := h.seekTo t
  rw [hs] at hb' hasc
  rcases List.mem_cons.1 hb' with rfl | hm
  · exact le_refl _
  · exact ((ascending_cons.1 hasc).1 b hm).le

theorem mem_insertRun : b ∈ insertRun f a l ↔ b = a ∨ b ∈ l := by
  have h : b ∈ l ↔ b ∈ l.takeWhile (fun b => decide (f b < f a)) ∨
      b ∈ l.dropWhile (fun b => decide (f b < f a)) := by
    rw [← List.mem_append, List.takeWhile_append_dropWhile]
  rw [insertRun, List.mem_append, List.mem_cons, h]
  tauto

theorem Ascending.insertRun (h : Ascending f l) (hne : ∀ b ∈ l, f b ≠ f a) :
    Ascending f (insertRun f a l) := by
  have hapart : Ascending f (l.takeWhile (fun b => decide (f b < f a)) ++
      l.dropWhile (fun b => decide (f b < f a))) := by rwa [List.takeWhile_append_dropWhile]
  obtain ⟨ht, hd, htd⟩ := ascending_append.1 hapart
  have hlt : ∀ b ∈ l.takeWhile (fun b => decide (f b < f a)), f b < f a := by
    intro b hb
    simpa using List.mem_takeWhile_imp hb
  have hgt : ∀ b ∈ l.dropWhile (fun b => decide (f b < f a)), f a < f b := by
    intro b hb
    have hb' := h.mem_seekTo.1 hb
    exact lt_of_le_of_ne hb'.2 (hne b hb'.1).symm
  refine ascending_append.2 ⟨ht, ascending_cons.2 ⟨hgt, hd⟩, ?_⟩
  intro b hb c hc
  rcases List.mem_cons.1 hc with rfl | hc
  · exact hlt b hb
  · exact htd b hb c hc

theorem Ascending.ext (hl : Ascending f l) (hm : Ascending f m) (h : ∀ a, a ∈ l ↔ a ∈ m) :
    l = m := by
  have hp : l.Perm m := (List.perm_ext_iff_of_nodup hl.nodup hm.nodup).2 h
  exact hp.eq_of_pairwise (fun a b _ _ hab hba => absurd hab (not_lt_of_gt hba)) hl hm

/-- Entries with equal positions may follow one another. -/
def Sorted (f : α → β) (l : List α) : Prop := l.Pairwise fun a b => f a ≤ f b

theorem sorted_cons : Sorted f (a :: l) ↔ (∀ b ∈ l, f a ≤ f b) ∧ Sorted f l := List.pairwise_cons

theorem Sorted.sublist (h : Sorted f l) (hs : List.Sublist m l) : Sorted f m :=
  List.Pairwise.sublist hs h

theorem Ascending.sorted (h : Ascending f l) : Sorted f l := h.imp le_of_lt

theorem Sorted.seekTo_eq_filter (h : Sorted f l) (t : β) :
    LsmKv.seekTo f t l = l.filter fun a => decide (t ≤ f a) :=
  LsmKv.seekTo_eq_filter h t

end Ascending

section LowerBound

/-- Binary search for the first index in `[lo, hi)` where `p` fails. -/
def lowerBound (p : Nat → Bool) (lo hi : Nat) : Nat :=
  if lo < hi then
    let mid := lo + (hi - lo) / 2
    if p mid then lowerBound p (mid + 1) hi else lowerBound p lo mid
  else lo
termination_by hi - lo

theorem lowerBound_spec (hm : ∀ i j, i ≤ j → j < hi → p j = true → p i = true) (hl : lo ≤ hi) :
    lo ≤ lowerBound p lo hi ∧ lowerBound p lo hi ≤ hi ∧
      (∀ i, lo ≤ i → i < lowerBound p lo hi → p i = true) ∧
      (∀ i, lowerBound p lo hi ≤ i → i < hi → p i = false) := by
  induction lo, hi using lowerBound.induct (p := p) with
  | case1 lo hi hlt mid hp ih =>
    have hmid : mid < hi := by show lo + (hi - lo) / 2 < hi; omega
    have hlo : lo ≤ mid := Nat.le_add_right _ _
    obtain ⟨h1, h2, h3, h4⟩ := ih hm (by omega)
    rw [lowerBound, if_pos hlt]
    simp only [show p (lo + (hi - lo) / 2) = true from hp, if_true]
    refine ⟨(Nat.le_succ_of_le hlo).trans h1, h2, ?_, h4⟩
    intro i hi1 hi2
    by_cases hc : i ≤ mid
    · exact hm i mid hc hmid hp
    · exact h3 i (by omega) hi2
  | case2 lo hi hlt mid hp ih =>
    have hmid : mid < hi := by show lo + (hi - lo) / 2 < hi; omega
    have hlo : lo ≤ mid := Nat.le_add_right _ _
    obtain ⟨h1, h2, h3, h4⟩ := ih (fun i j hij hj => hm i j hij (by omega)) hlo
    rw [lowerBound, if_pos hlt]
    have hpf : p (lo + (hi - lo) / 2) = false := by simpa using hp
    simp only [hpf, Bool.false_eq_true, if_false]
    refine ⟨h1, h2.trans hmid.le, h3, ?_⟩
    intro i hi1 hi2
    by_cases hc : i < mid
    · exact h4 i hi1 hc
    · by_contra hpi
      have hpi' : p i = true := by simpa using hpi
      exact hp (hm mid i (by omega) hi2 hpi')
  | case3 lo hi hlt =>
    rw [lowerBound, if_neg hlt]
    exact ⟨le_refl _, hl, fun i h1 h2 => absurd h2 (by omega), fun i h1 h2 => absurd h2 (by omega)⟩

variable {α : Type} {l : List α} {p : α → Bool}

/-- The first entry of a list where `p` fails, found by binary search. -/
def lowerBoundOf (p : α → Bool) (l : List α) : Nat :=
  lowerBound (fun i => (l[i]?.map p).getD false) 0 l.length

/-- On a list that `p` splits, the search skips exactly the entries with `p`. -/
theorem lowerBoundOf_eq (h : l.Pairwise fun a b => p b = true → p a = true) :
    lowerBoundOf p l = (l.takeWhile p).length := by
  have hmono : ∀ i j, i ≤ j → j < l.length → (l[j]?.map p).getD false = true →
      (l[i]?.map p).getD false = true := by
    intro i j hij hj hp
    rw [List.getElem?_eq_getElem hj, Option.map_some, Option.getD_some] at hp
    rw [List.getElem?_eq_getElem (by omega), Option.map_some, Option.getD_some]
    rcases Nat.lt_or_eq_of_le hij with hlt | rfl
    · exact List.pairwise_iff_getElem.1 h i j (by omega) hj hlt hp
    · exact hp
  obtain ⟨_, hle, hbefore, hafter⟩ := lowerBound_spec hmono (Nat.zero_le _)
  change lowerBoundOf p l ≤ l.length at hle
  have htake : ∀ a ∈ l.take (lowerBoundOf p l), p a = true := by
    intro a ha
    obtain ⟨i, hi, rfl⟩ := List.mem_iff_getElem.1 ha
    have hi' : i < lowerBoundOf p l := by
      rw [List.length_take] at hi
      omega
    have hp := hbefore i (Nat.zero_le _) hi'
    rwa [List.getElem?_eq_getElem (by omega), Option.map_some, Option.getD_some,
      ← List.getElem_take (h := hi)] at hp
  have hdrop : (l.drop (lowerBoundOf p l)).takeWhile p = [] := by
    by_cases hlt : lowerBoundOf p l < l.length
    · rw [List.drop_eq_getElem_cons hlt]
      refine List.takeWhile_cons_of_neg ?_
      have hp := hafter (lowerBoundOf p l) (le_refl _) hlt
      rw [List.getElem?_eq_getElem hlt, Option.map_some, Option.getD_some] at hp
      simp [hp]
    · rw [List.drop_of_length_le (Nat.not_lt.1 hlt)]
      rfl
  have hl : l.takeWhile p = l.take (lowerBoundOf p l) := by
    conv_lhs => rw [← List.take_append_drop (lowerBoundOf p l) l,
      List.takeWhile_append_of_pos htake, hdrop, List.append_nil]
  rw [hl, List.length_take, Nat.min_eq_left hle]

end LowerBound

end LsmKv
