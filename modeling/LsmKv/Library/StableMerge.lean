import LsmKv.Library.SortedList

namespace LsmKv
set_option autoImplicit true

variable {α β : Type} [LinearOrder β] {f : α → β} {l m : List α} {ls : List (List α)}

/-- The runs, one after the other, stably sorted by position. -/
def mergeRuns (f : α → β) (ls : List (List α)) : List α :=
  ls.flatten.mergeSort fun a b => decide (f a ≤ f b)

theorem mergeRuns_perm (f : α → β) (ls : List (List α)) : (mergeRuns f ls).Perm ls.flatten :=
  List.mergeSort_perm _ _

theorem mem_mergeRuns : a ∈ mergeRuns f ls ↔ ∃ l ∈ ls, a ∈ l := by
  rw [(mergeRuns_perm f ls).mem_iff, List.mem_flatten]

theorem sorted_mergeRuns (f : α → β) (ls : List (List α)) : Sorted f (mergeRuns f ls) := by
  have h : (mergeRuns f ls).Pairwise fun a b => decide (f a ≤ f b) = true := by
    apply List.pairwise_mergeSort
    · intro a b c hab hbc
      rw [decide_eq_true_iff] at hab hbc ⊢
      exact hab.trans hbc
    · intro a b
      rw [Bool.or_eq_true, decide_eq_true_iff, decide_eq_true_iff]
      exact le_total _ _
  exact h.imp fun hab => of_decide_eq_true hab

/-- Stability: the entries at one position keep the order they had. -/
theorem filter_mergeRuns (f : α → β) (ls : List (List α)) (k : β) :
    (mergeRuns f ls).filter (fun a => decide (f a = k)) =
      ls.flatten.filter fun a => decide (f a = k) := by
  have hsub : List.Sublist (ls.flatten.filter fun a => decide (f a = k)) (mergeRuns f ls) := by
    apply List.sublist_mergeSort
    · intro a b c hab hbc
      rw [decide_eq_true_iff] at hab hbc ⊢
      exact hab.trans hbc
    · intro a b
      rw [Bool.or_eq_true, decide_eq_true_iff, decide_eq_true_iff]
      exact le_total _ _
    · rw [List.pairwise_filter]
      refine List.pairwise_of_forall fun a b ha hb => ?_
      rw [decide_eq_true_iff] at ha hb ⊢
      exact (ha.trans hb.symm).le
    · exact List.filter_sublist
  have hsub' := hsub.filter fun a => decide (f a = k)
  rw [List.filter_filter] at hsub'
  simp only [Bool.and_self] at hsub'
  exact (hsub'.eq_of_length ((mergeRuns_perm f ls).filter _).length_eq.symm).symm

/-- A sorted list is known by the entries at each position. -/
theorem Sorted.ext (hl : Sorted f l) (hm : Sorted f m)
    (h : ∀ k, l.filter (fun a => decide (f a = k)) = m.filter fun a => decide (f a = k)) :
    l = m := by
  have hmem : ∀ {a : α}, a ∈ l ↔ a ∈ m := by
    intro a
    have hf := congrArg (a ∈ ·) (h (f a))
    simpa [List.mem_filter] using hf
  induction l generalizing m with
  | nil =>
    cases m with
    | nil => rfl
    | cons b m => exact absurd (hmem.2 List.mem_cons_self) List.not_mem_nil
  | cons a l ih =>
    cases m with
    | nil => exact absurd (hmem.1 List.mem_cons_self) List.not_mem_nil
    | cons b m =>
      have hab : f a = f b := by
        apply le_antisymm
        · rcases List.mem_cons.1 (hmem.2 (List.mem_cons_self : b ∈ b :: m)) with rfl | hb
          · exact le_refl _
          · exact (sorted_cons.1 hl).1 b hb
        · rcases List.mem_cons.1 (hmem.1 (List.mem_cons_self : a ∈ a :: l)) with rfl | ha
          · exact le_refl _
          · exact (sorted_cons.1 hm).1 a ha
      have hhead := h (f a)
      rw [List.filter_cons_of_pos (by simp), List.filter_cons_of_pos (by simp [hab])] at hhead
      obtain ⟨rfl, _⟩ := List.cons.inj hhead
      have htail : ∀ k, l.filter (fun x => decide (f x = k)) =
          m.filter fun x => decide (f x = k) := by
        intro k
        have hk := h k
        rw [List.filter_cons, List.filter_cons] at hk
        split at hk
        · exact (List.cons.inj hk).2
        · exact hk
      refine congrArg (a :: ·) (ih (sorted_cons.1 hl).2 (sorted_cons.1 hm).2 htail ?_)
      intro x
      have hf := congrArg (x ∈ ·) (htail (f x))
      simpa [List.mem_filter] using hf

/-- The merge starts with the smallest head, the first of them on a tie. -/
theorem mergeRuns_cons (hs : ∀ l ∈ ls, Sorted f l) (hr : ls[r]? = some (e :: m))
    (hmin : ∀ i a l, ls[i]? = some (a :: l) → f e < f a ∨ f e = f a ∧ r ≤ i) :
    mergeRuns f ls = e :: mergeRuns f (ls.set r m) := by
  have hlt : r < ls.length := (List.getElem?_eq_some_iff.1 hr).1
  have hget : ls[r] = e :: m := (List.getElem?_eq_some_iff.1 hr).2
  have hle : ∀ i l, ls[i]? = some l → ∀ a ∈ l, f e < f a ∨ f e ≤ f a ∧ r ≤ i := by
    intro i l hi a ha
    cases l with
    | nil => cases ha
    | cons b l =>
      have hba : f b ≤ f a := by
        rcases List.mem_cons.1 ha with rfl | ha
        · exact le_refl _
        · exact (sorted_cons.1 (hs _ (List.mem_of_getElem? hi))).1 a ha
      rcases hmin i b l hi with hlt | ⟨heq, hri⟩
      · exact .inl (lt_of_lt_of_le hlt hba)
      · exact .inr ⟨heq.trans_le hba, hri⟩
  have hsplit : ls = ls.take r ++ (e :: m) :: ls.drop (r + 1) := by
    rw [← hget, List.cons_getElem_drop_succ, List.take_append_drop]
  have hset : ls.set r m = ls.take r ++ m :: ls.drop (r + 1) := by
    rw [List.set_eq_take_append_cons_drop, if_pos hlt]
  -- the runs before `r` lie strictly after `e`
  have hbefore : ∀ a ∈ (ls.take r).flatten, f e < f a := by
    intro a ha
    obtain ⟨l, hl, hal⟩ := List.mem_flatten.1 ha
    obtain ⟨i, hi, rfl⟩ := List.mem_iff_getElem.1 hl
    have hir : i < r := lt_of_lt_of_le hi (by simp)
    have hil : ls[i]? = some (ls.take r)[i] := by
      rw [List.getElem_take, List.getElem?_eq_getElem]
    rcases hle i _ hil a hal with h | ⟨_, h⟩
    · exact h
    · omega
  apply (sorted_mergeRuns f ls).ext
  · refine sorted_cons.2 ⟨fun a ha => ?_, sorted_mergeRuns f _⟩
    obtain ⟨l, hl, hal⟩ := mem_mergeRuns.1 ha
    have hmem : ∃ l' ∈ ls, a ∈ l' := by
      rcases List.mem_or_eq_of_mem_set hl with hl | rfl
      · exact ⟨l, hl, hal⟩
      · exact ⟨e :: l, List.mem_of_getElem? hr, List.mem_cons_of_mem e hal⟩
    obtain ⟨l', hl', hal'⟩ := hmem
    obtain ⟨i, hi, rfl⟩ := List.mem_iff_getElem.1 hl'
    rcases hle i _ (List.getElem?_eq_getElem hi) a hal' with h | ⟨h, _⟩
    · exact h.le
    · exact h
  · intro k
    rw [filter_mergeRuns, List.filter_cons, filter_mergeRuns, hset]
    have hflat : ls.flatten = (ls.take r).flatten ++ (e :: (m ++ (ls.drop (r + 1)).flatten)) := by
      conv_lhs => rw [hsplit]
      simp
    rw [hflat, List.flatten_append, List.flatten_cons, List.filter_append, List.filter_append,
      List.filter_cons]
    split
    · rename_i hk
      have hnil : (ls.take r).flatten.filter (fun a => decide (f a = k)) = [] := by
        rw [List.filter_eq_nil_iff]
        intro a ha
        have := hbefore a ha
        rw [decide_eq_true_iff] at hk ⊢
        rw [← hk]
        exact this.ne'
      rw [hnil, List.nil_append, List.nil_append]
    · rfl

theorem mergeRuns_seekTo (hs : ∀ l ∈ ls, Sorted f l) (t : β) :
    mergeRuns f (ls.map (seekTo f t)) = seekTo f t (mergeRuns f ls) := by
  have hflat : (ls.map (seekTo f t)).flatten = ls.flatten.filter fun a => decide (t ≤ f a) := by
    induction ls with
    | nil => rfl
    | cons l ls ih =>
      rw [List.map_cons, List.flatten_cons, List.flatten_cons, List.filter_append,
        ih fun m hm => hs m (List.mem_cons_of_mem l hm),
        (hs l List.mem_cons_self).seekTo_eq_filter]
  rw [(sorted_mergeRuns f ls).seekTo_eq_filter]
  apply (sorted_mergeRuns f _).ext ((sorted_mergeRuns f ls).sublist List.filter_sublist)
  intro k
  rw [filter_mergeRuns, hflat, List.filter_comm, ← filter_mergeRuns, List.filter_comm]

end LsmKv
