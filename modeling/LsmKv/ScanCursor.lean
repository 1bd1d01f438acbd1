import LsmKv.MergeCursor

namespace LsmKv
set_option autoImplicit true

open Versioned

/-- What is left once all versions of `k` at the front are skipped. -/
def skipKey (k : Bytes) (l : List Rec) : List Rec := l.dropWhile fun r => r.userKey == k

theorem length_skipKey_le (k : Bytes) (l : List Rec) : (skipKey k l).length ≤ l.length :=
  (List.dropWhile_suffix _).length_le

/-- The entries from the next live key on, as a reader at `s` sees a sorted list. -/
def advanceList (s : Nat) : List Rec → List Rec
  | [] => []
  | r :: l =>
    if s < r.seq then advanceList s l
    else if r.isDeletion then advanceList s (skipKey r.userKey l)
    else r :: l
termination_by l => l.length
decreasing_by
  · simp
  · have := length_skipKey_le r.userKey l
    simp
    omega

theorem length_advanceList_le (s : Nat) (l : List Rec) : (advanceList s l).length ≤ l.length := by
  induction l using advanceList.induct s with
  | case1 => simp [advanceList]
  | case2 r l h ih =>
    rw [advanceList, if_pos h]
    simp only [List.length_cons]
    omega
  | case3 r l h hd ih =>
    have := length_skipKey_le r.userKey l
    rw [advanceList, if_neg h, if_pos hd]
    simp only [List.length_cons]
    omega
  | case4 r l h hd => rw [advanceList, if_neg h, if_neg hd]

/-- The rows a reader at `s` is shown. -/
def scanList (s : Nat) (l : List Rec) : List (Bytes × Bytes) :=
  match _h : advanceList s l with
  | [] => []
  | r :: rest => (r.userKey, r.2) :: scanList s (skipKey r.userKey rest)
termination_by l.length
decreasing_by
  have h1 := length_advanceList_le s l
  have h2 := length_skipKey_le r.userKey rest
  rw [_h] at h1
  simp only [List.length_cons] at h1
  omega

theorem advanceList_idem (s : Nat) (l : List Rec) :
    advanceList s (advanceList s l) = advanceList s l := by
  induction l using advanceList.induct s with
  | case1 => simp [advanceList]
  | case2 r l h ih => rw [advanceList, if_pos h]; exact ih
  | case3 r l h hd ih => rw [advanceList, if_neg h, if_pos hd]; exact ih
  | case4 r l h hd => rw [advanceList, if_neg h, if_neg hd, advanceList, if_neg h, if_neg hd]

theorem scanList_nil (h : advanceList s l = []) : scanList s l = [] := by
  rw [scanList]
  split
  · rfl
  · rename_i r rest he
    rw [h] at he
    cases he

theorem scanList_cons (h : advanceList s l = r :: rest) :
    scanList s l = (r.userKey, r.2) :: scanList s (skipKey r.userKey rest) := by
  rw [scanList]
  split
  · rename_i he
    rw [h] at he
    cases he
  · rename_i r' rest' he
    rw [h, List.cons.injEq] at he
    rw [← he.1, ← he.2]

theorem scanList_advanceList (s : Nat) (l : List Rec) :
    scanList s (advanceList s l) = scanList s l := by
  cases ha : advanceList s l with
  | nil => rw [scanList_nil ha, scanList_nil (by rw [← ha, advanceList_idem, ha])]
  | cons r rest => rw [scanList_cons ha, scanList_cons (by rw [← ha, advanceList_idem, ha])]

section Meaning

/-- A list in the order of internal keys, made of well-formed versions. -/
structure SortedRecs (l : List Rec) : Prop where
  sorted : l.Pairwise fun a b => a.pos ≤ b.pos
  ok : ∀ r ∈ l, r.Ok
  distinct : Distinct {r | r ∈ l}

/-- A reader at `s` gets the value `v` for `k`. -/
def Shown (U : Set Rec) (s : Nat) (k v : Bytes) : Prop := ∃ r, Live U k s r ∧ r.2 = v

variable {l : List Rec}

theorem SortedRecs.sublist (h : SortedRecs l) (hs : List.Sublist m l) : SortedRecs m :=
  ⟨h.sorted.sublist hs, fun r hr => h.ok r (hs.subset hr), h.distinct.mono fun _ hr => hs.subset hr⟩

theorem SortedRecs.tail (h : SortedRecs (r :: l)) : SortedRecs l :=
  h.sublist (List.sublist_cons_self r l)

theorem userKey_le_of_pos_le {a b : Rec} (h : a.pos ≤ b.pos) : a.userKey ≤ b.userKey := by
  by_contra hc
  exact absurd (Rec.pos_lt_of_userKey_lt (not_le.1 hc)) (not_lt_of_ge h)

/-- The versions of a key are contiguous: once skipped, none is left, and the rest is larger. -/
theorem SortedRecs.mem_skipKey (h : SortedRecs (r :: l)) :
    x ∈ skipKey r.userKey l ↔ x ∈ l ∧ r.userKey < x.userKey := by
  have hmono : l.Pairwise fun a b => a.userKey ≤ b.userKey :=
    h.tail.sorted.imp fun hab => userKey_le_of_pos_le hab
  have hge : ∀ a ∈ l, r.userKey ≤ a.userKey :=
    fun a ha => userKey_le_of_pos_le ((List.pairwise_cons.1 h.sorted).1 a ha)
  clear h
  induction l with
  | nil => simp [skipKey]
  | cons a l ih =>
    obtain ⟨hal, hl⟩ := List.pairwise_cons.1 hmono
    by_cases hk : a.userKey = r.userKey
    · rw [skipKey, List.dropWhile_cons_of_pos (by simpa using hk), List.mem_cons]
      refine (ih hl fun b hb => hge b (List.mem_cons_of_mem a hb)).trans ?_
      constructor
      · exact fun ⟨h1, h2⟩ => ⟨.inr h1, h2⟩
      · rintro ⟨rfl | h1, h2⟩
        · exact absurd h2 (by rw [hk]; exact lt_irrefl _)
        · exact ⟨h1, h2⟩
    · rw [skipKey, List.dropWhile_cons_of_neg (by simpa using hk)]
      have hlt : r.userKey < a.userKey :=
        lt_of_le_of_ne (hge a List.mem_cons_self) fun he => hk he.symm
      refine ⟨fun hx => ⟨hx, ?_⟩, fun hx => hx.1⟩
      rcases List.mem_cons.1 hx with rfl | hx
      · exact hlt
      · exact lt_of_lt_of_le hlt (hal x hx)

theorem SortedRecs.skipKey (h : SortedRecs (r :: l)) : SortedRecs (LsmKv.skipKey r.userKey l) :=
  h.tail.sublist (List.dropWhile_sublist _)

theorem SortedRecs.newest_head (h : SortedRecs (r :: l)) (hs : r.seq ≤ s) :
    Newest {x | x ∈ r :: l} r.userKey s r := by
  refine ⟨List.mem_cons_self, rfl, hs, fun y hy hk _ => ?_⟩
  rcases List.mem_cons.1 hy with rfl | hy
  · exact le_refl _
  · exact Rec.seq_le_of_pos_le (h.ok r List.mem_cons_self) (h.ok y (List.mem_cons_of_mem r hy))
      hk.symm ((List.pairwise_cons.1 h.sorted).1 y hy)

theorem newest_cons_of_lt (hs : s < r.seq) :
    Newest {x | x ∈ r :: l} k s y ↔ Newest {x | x ∈ l} k s y := by
  constructor
  · intro h
    refine ⟨(List.mem_cons.1 h.mem).resolve_left ?_, h.key_eq, h.seq_le,
      fun z hz => h.max z (List.mem_cons_of_mem r hz)⟩
    rintro rfl
    exact absurd h.seq_le (not_le_of_gt hs)
  · intro h
    refine ⟨List.mem_cons_of_mem r h.mem, h.key_eq, h.seq_le, fun z hz hk hzs => ?_⟩
    rcases List.mem_cons.1 hz with rfl | hz
    · exact absurd hzs (not_le_of_gt hs)
    · exact h.max z hz hk hzs

theorem SortedRecs.newest_skipKey (h : SortedRecs (r :: l)) (hk : k ≠ r.userKey) :
    Newest {x | x ∈ r :: l} k s y ↔ Newest {x | x ∈ LsmKv.skipKey r.userKey l} k s y := by
  have hmem : ∀ z : Rec, z.userKey = k → (z ∈ r :: l ↔ z ∈ LsmKv.skipKey r.userKey l) := by
    intro z hz
    rw [h.mem_skipKey, List.mem_cons]
    constructor
    · rintro (rfl | hm)
      · exact absurd hz.symm hk
      · have hle := userKey_le_of_pos_le ((List.pairwise_cons.1 h.sorted).1 z hm)
        exact ⟨hm, lt_of_le_of_ne hle fun he => hk (hz.symm.trans he.symm)⟩
    · exact fun hm => .inr hm.1
  constructor
  · intro hn
    exact ⟨(hmem y hn.key_eq).1 hn.mem, hn.key_eq, hn.seq_le,
      fun z hz hzk => hn.max z ((hmem z hzk).2 hz) hzk⟩
  · intro hn
    exact ⟨(hmem y hn.key_eq).2 hn.mem, hn.key_eq, hn.seq_le,
      fun z hz hzk => hn.max z ((hmem z hzk).1 hz) hzk⟩

theorem SortedRecs.not_shown_skipKey (h : SortedRecs (r :: l)) :
    ¬ Shown {x | x ∈ LsmKv.skipKey r.userKey l} s r.userKey v := by
  rintro ⟨x, ⟨hn, _⟩, _⟩
  have := (h.mem_skipKey.1 hn.mem).2
  rw [show x.userKey = r.userKey from hn.key_eq] at this
  exact lt_irrefl _ this

theorem SortedRecs.shown_cons (h : SortedRecs (r :: l)) (hs : r.seq ≤ s) :
    Shown {x | x ∈ r :: l} s k v ↔
      (r.isDeletion = false ∧ k = r.userKey ∧ v = r.2) ∨
        Shown {x | x ∈ LsmKv.skipKey r.userKey l} s k v := by
  by_cases hk : k = r.userKey
  · subst hk
    have hnot := h.not_shown_skipKey (s := s) (v := v)
    have hn := h.newest_head hs
    constructor
    · rintro ⟨x, ⟨hx, hdx⟩, rfl⟩
      have he := hx.unique h.distinct hn
      subst he
      exact .inl ⟨hdx, rfl, rfl⟩
    · rintro (⟨hd, _, rfl⟩ | hc)
      · exact ⟨r, ⟨hn, hd⟩, rfl⟩
      · exact absurd hc hnot
  · simp only [Shown, Live, h.newest_skipKey hk, hk, false_and, and_false, false_or]

theorem advanceList_shown (h : SortedRecs l) :
    Shown {x | x ∈ l} s k v ↔ Shown {x | x ∈ advanceList s l} s k v := by
  induction l using advanceList.induct s with
  | case1 => simp [advanceList]
  | case2 r l hlt ih =>
    rw [advanceList, if_pos hlt, ← ih h.tail]
    simp only [Shown, Live, newest_cons_of_lt hlt]
  | case3 r l hlt hd ih =>
    rw [advanceList, if_neg hlt, if_pos hd, ← ih h.skipKey, h.shown_cons (not_lt.1 hlt)]
    simp [hd]
  | case4 r l hlt hd => rw [advanceList, if_neg hlt, if_neg hd]

theorem advanceList_suffix (s : Nat) (l : List Rec) : advanceList s l <:+ l := by
  induction l using advanceList.induct s with
  | case1 => simp [advanceList]
  | case2 r l h ih => rw [advanceList, if_pos h]; exact ih.trans (List.suffix_cons r l)
  | case3 r l h hd ih =>
    rw [advanceList, if_neg h, if_pos hd]
    exact (ih.trans (List.dropWhile_suffix _)).trans (List.suffix_cons r l)
  | case4 r l h hd => rw [advanceList, if_neg h, if_neg hd]

theorem advanceList_head (h : advanceList s l = r :: rest) :
    r.seq ≤ s ∧ r.isDeletion = false := by
  induction l using advanceList.induct s with
  | case1 => simp [advanceList] at h
  | case2 a l hlt ih => rw [advanceList, if_pos hlt] at h; exact ih h
  | case3 a l hlt hd ih => rw [advanceList, if_neg hlt, if_pos hd] at h; exact ih h
  | case4 a l hlt hd =>
    rw [advanceList, if_neg hlt, if_neg hd, List.cons.injEq] at h
    rw [← h.1]
    exact ⟨not_lt.1 hlt, by simpa using hd⟩

theorem mem_scanList (h : SortedRecs l) :
    (k, v) ∈ scanList s l ↔ Shown {x | x ∈ l} s k v := by
  induction hn : l.length using Nat.strongRecOn generalizing l with
  | ind n ih =>
    rw [advanceList_shown h]
    cases ha : advanceList s l with
    | nil =>
      rw [scanList_nil ha]
      simp only [List.not_mem_nil, false_iff]
      rintro ⟨x, ⟨hx, _⟩, _⟩
      cases hx.mem
    | cons r rest =>
      have hsub : SortedRecs (r :: rest) := h.sublist (ha ▸ (advanceList_suffix s l).sublist)
      have hlen : (skipKey r.userKey rest).length < n := by
        have h1 := length_advanceList_le s l
        have h2 := length_skipKey_le r.userKey rest
        rw [ha, List.length_cons] at h1
        omega
      obtain ⟨hrs, hrd⟩ := advanceList_head ha
      rw [scanList_cons ha, List.mem_cons, hsub.shown_cons hrs, ih _ hlen hsub.skipKey rfl]
      simp [hrd]

theorem scanList_pairwise (h : SortedRecs l) : (scanList s l).Pairwise fun a b => a.1 < b.1 := by
  induction hn : l.length using Nat.strongRecOn generalizing l with
  | ind n ih =>
    cases ha : advanceList s l with
    | nil => rw [scanList_nil ha]; exact .nil
    | cons r rest =>
      have hsub : SortedRecs (r :: rest) := h.sublist (ha ▸ (advanceList_suffix s l).sublist)
      have hlen : (skipKey r.userKey rest).length < n := by
        have h1 := length_advanceList_le s l
        have h2 := length_skipKey_le r.userKey rest
        rw [ha, List.length_cons] at h1
        omega
      rw [scanList_cons ha]
      refine List.pairwise_cons.2 ⟨fun b hb => ?_, ih _ hlen hsub.skipKey rfl⟩
      obtain ⟨x, ⟨hx, _⟩, _⟩ := (mem_scanList hsub.skipKey).1 (show (b.1, b.2) ∈ _ from hb)
      have := (hsub.mem_skipKey.1 hx.mem).2
      rwa [show x.userKey = b.1 from hx.key_eq] at this

theorem lookupKey_le_iff {r : Rec} (hr : r.Ok) (hs : s ≤ kMaxSequenceNumber) :
    sortKey (lookupKey t s) ≤ r.pos ↔ t < r.userKey ∨ t = r.userKey ∧ r.seq ≤ s := by
  constructor
  · intro h
    rcases lt_or_eq_of_le (Rec.userKey_le_of_lookupKey_le h) with hlt | heq
    · exact .inl hlt
    · exact .inr ⟨heq, (Rec.lookupKey_le_pos hr hs heq.symm).1 h⟩
  · rintro (hlt | ⟨heq, hle⟩)
    · rw [Rec.pos, ← not_lt, sortKey_lt_iff, lookupKey, extractUserKey_encode, not_or]
      exact ⟨not_lt_of_gt hlt, fun hc => absurd (hc.1 ▸ hlt) (lt_irrefl _)⟩
    · exact (Rec.lookupKey_le_pos hr hs heq.symm).2 hle

/-- A scan from `t` on shows the rows of the full scan from `t` on. -/
theorem scanList_seekTo (h : SortedRecs l) (hs : s ≤ kMaxSequenceNumber) (t : Bytes) :
    scanList s (seekTo Rec.pos (sortKey (lookupKey t s)) l) =
      (scanList s l).filter fun row => decide (t ≤ row.1) := by
  have hsub := h.sublist (seekTo_suffix (f := Rec.pos) (sortKey (lookupKey t s)) l).sublist
  have hmem : ∀ x : Rec, x.seq ≤ s → t ≤ x.userKey →
      (x ∈ seekTo Rec.pos (sortKey (lookupKey t s)) l ↔ x ∈ l) := by
    intro x hxs htx
    rw [seekTo_eq_filter h.sorted, List.mem_filter, decide_eq_true_iff]
    refine ⟨fun hx => hx.1, fun hx => ⟨hx, (lookupKey_le_iff (h.ok x hx) hs).2 ?_⟩⟩
    exact (lt_or_eq_of_le htx).imp_right fun he => ⟨he, hxs⟩
  have hshown : ∀ k v, Shown {x | x ∈ seekTo Rec.pos (sortKey (lookupKey t s)) l} s k v ↔
      Shown {x | x ∈ l} s k v ∧ t ≤ k := by
    intro k v
    constructor
    · rintro ⟨x, ⟨hn, hd⟩, rfl⟩
      have htk : t ≤ k := by
        have hx : x ∈ seekTo Rec.pos (sortKey (lookupKey t s)) l := hn.mem
        rw [seekTo_eq_filter h.sorted, List.mem_filter, decide_eq_true_iff] at hx
        rw [← show x.userKey = k from hn.key_eq]
        exact Rec.userKey_le_of_lookupKey_le hx.2
      refine ⟨⟨x, ⟨⟨(seekTo_suffix _ l).subset hn.mem, hn.key_eq, hn.seq_le, ?_⟩, hd⟩, rfl⟩, htk⟩
      intro y hy hk hys
      exact hn.max y ((hmem y hys (by rw [show y.userKey = k from hk]; exact htk)).2 hy) hk hys
    · rintro ⟨⟨x, ⟨hn, hd⟩, rfl⟩, htk⟩
      have hx := (hmem x hn.seq_le (by rw [show x.userKey = k from hn.key_eq]; exact htk)).2 hn.mem
      refine ⟨x, ⟨⟨hx, hn.key_eq, hn.seq_le, ?_⟩, hd⟩, rfl⟩
      exact fun y hy => hn.max y ((seekTo_suffix _ l).subset hy)
  refine Ascending.ext (f := Prod.fst) (scanList_pairwise hsub)
    ((scanList_pairwise h).sublist List.filter_sublist) fun row => ?_
  obtain ⟨k, v⟩ := row
  rw [mem_scanList hsub, hshown, List.mem_filter, mem_scanList h, decide_eq_true_iff]

end Meaning

namespace DBIter

variable {T : Table → Prop} {M : Nat → MemTable} {it : DBIter}

/-- The inner merge has `l` left, and the iterator shows its first entry. -/
structure Rest (T : Table → Prop) (M : Nat → MemTable) (it : DBIter) (l : List Rec) : Prop where
  inner : it.inner.Rest (Iter.Stands T M) l
  shows : match l with
    | [] => it.valid = false
    | r :: _ => it.valid = true ∧ it.key = r.userKey ∧ it.value = r.2

/-- The same sources at the same read point. -/
def Same (it it' : DBIter) : Prop :=
  it'.seq = it.seq ∧ it'.inner.children.map Iter.source = it.inner.children.map Iter.source

theorem skipLoop_ensures (hT : TablesOk T) {m : MergingIterator Iter}
    (h : m.Rest (Iter.Stands T M) l)
    (hf : l.length ≤ fuel) (k : Bytes) :
    Ensures (Store.Serves T M) (skipLoop k fuel m) fun r =>
      r.children.map Iter.source = m.children.map Iter.source ∧ 
        r.Rest (Iter.Stands T M) (skipKey k l) := by
  induction fuel generalizing m l with
  | zero =>
    obtain rfl := List.length_eq_zero_iff.1 (Nat.le_zero.1 hf)
    exact Ensures.pure ⟨rfl, h⟩
  | succ fuel ih =>
    rw [skipLoop]
    cases l with
    | nil =>
      have hv : m.valid = false := by simpa using h.valid_iff (Iter.walks hT)
      rw [if_neg (by simp [hv])]
      exact Ensures.pure ⟨rfl, h⟩
    | cons e l =>
      have hv : m.valid = true := by simpa using h.valid_iff (Iter.walks hT)
      have hk : extractUserKey m.key = e.userKey := by rw [(h.head (Iter.walks hT)).1]; rfl
      by_cases he : e.userKey = k
      · rw [if_pos ⟨hv, hk.trans he⟩, skipKey, List.dropWhile_cons_of_pos (by simpa using he)]
        refine (h.next (Iter.walks hT)).bind fun r ⟨h1, h2⟩ => ?_
        exact (ih h2 (Nat.le_of_succ_le_succ hf)).imp fun r' ⟨h3, h4⟩ => ⟨h3.trans h1, h4⟩
      · rw [if_neg (fun hc => he (hk.symm.trans hc.2)), skipKey,
          List.dropWhile_cons_of_neg (by simpa using he)]
        exact Ensures.pure ⟨rfl, h⟩

theorem skipRestOfCurrentKey_ensures (hT : TablesOk T) (h : it.inner.Rest (Iter.Stands T M) l) :
    Ensures (Store.Serves T M) it.skipRestOfCurrentKey fun r =>
      it.Same r ∧ r.key = it.key ∧ r.inner.Rest (Iter.Stands T M) (skipKey it.key l) := by
  refine Ensures.get_bind fun s hs => ?_
  refine (skipLoop_ensures hT h (h.length_le_bound hs) it.key).bind fun m ⟨h1, h2⟩ => ?_
  exact Ensures.pure ⟨⟨rfl, h1⟩, rfl, h2⟩

theorem advanceLoop_ensures (hT : TablesOk T) (h : it.inner.Rest (Iter.Stands T M) l)
    (hf : l.length < fuel) :
    Ensures (Store.Serves T M) (advanceLoop fuel it) fun r =>
      it.Same r ∧ r.Rest T M (advanceList it.seq l) := by
  induction fuel generalizing it l with
  | zero => omega
  | succ fuel ih =>
    rw [advanceLoop]
    cases l with
    | nil =>
      have hv : it.inner.valid = false := by simpa using h.valid_iff (Iter.walks hT)
      simp only [hv, Bool.not_false, if_true]
      rw [advanceList]
      exact Ensures.pure ⟨⟨rfl, rfl⟩, h, rfl⟩
    | cons e l =>
      have hv : it.inner.valid = true := by simpa using h.valid_iff (Iter.walks hT)
      simp only [hv, Bool.not_true, Bool.false_eq_true, if_false, (h.head (Iter.walks hT)).1,
        (h.head (Iter.walks hT)).2]
      rw [advanceList]
      refine Ensures.ite (fun hlt => ?_) fun hlt => ?_
      · rw [if_pos (show it.seq < e.seq from hlt)]
        refine (h.next (Iter.walks hT)).bind fun m hm => ?_
        obtain ⟨h1, h2⟩ := hm
        have hrec := @ih { it with inner := m } l h2 (Nat.lt_of_succ_lt_succ hf)
        exact hrec.imp fun r hr => ⟨⟨hr.1.1, hr.1.2.trans h1⟩, hr.2⟩
      · rw [if_neg (show ¬ it.seq < e.seq from hlt)]
        refine Ensures.ite (fun hd => ?_) fun hd => ?_
        · have hd' : e.isDeletion = true := by rw [Rec.isDeletion, hd]; rfl
          rw [if_pos hd']
          have hskip := @skipRestOfCurrentKey_ensures T M
            { it with key := extractUserKey e.1 } (e :: l) hT h
          refine hskip.bind fun r hr => ?_
          obtain ⟨⟨h1, h1'⟩, _, h2⟩ := hr
          have hk : skipKey (extractUserKey e.1) (e :: l) = skipKey e.userKey l := by
            rw [skipKey, List.dropWhile_cons_of_pos (by simp [Rec.userKey])]
            rfl
          simp only [hk] at h2
          have hlen := length_skipKey_le e.userKey l
          have hrec := ih h2 (by simp only [List.length_cons] at hf; omega)
          rw [h1] at hrec
          exact hrec.imp fun r' hr' => ⟨⟨hr'.1.1.trans h1, hr'.1.2.trans h1'⟩, hr'.2⟩
        · have hd' : ¬ e.isDeletion = true := by
            rw [Rec.isDeletion, beq_iff_eq]
            exact hd
          rw [if_neg hd']
          exact Ensures.pure ⟨⟨rfl, rfl⟩, h, rfl, rfl, rfl⟩

theorem advanceToNextLiveKey_ensures (hT : TablesOk T) (h : it.inner.Rest (Iter.Stands T M) l) :
    Ensures (Store.Serves T M) it.advanceToNextLiveKey fun r =>
      it.Same r ∧ r.Rest T M (advanceList it.seq l) :=
  Ensures.get_bind fun _ hs =>
    advanceLoop_ensures hT h (Nat.lt_succ_of_le (h.length_le_bound hs))

theorem Same.trans {a b c : DBIter} (h : a.Same b) (h' : b.Same c) : a.Same c :=
  ⟨h'.1.trans h.1, h'.2.trans h.2⟩

theorem rest_seekToFirst (hT : TablesOk T) (hg : ∀ c ∈ it.inner.children, c.source.Good T M)
    (hr : ∀ c ∈ it.inner.children, c.Ready) :
    Ensures (Store.Serves T M) it.seekToFirst fun r =>
      it.Same r ∧ r.Rest T M (advanceList it.seq (it.inner.all M)) := by
  have hseek := MergingIterator.rest_seekToFirst (Iter.walks hT) fun c hc => ⟨hg c hc, hr c hc⟩
  refine hseek.bind fun m hm => ?_
  have h := @advanceToNextLiveKey_ensures T M { it with inner := m } _ hT hm.2
  exact h.imp fun r hr => ⟨⟨hr.1.1, hr.1.2.trans hm.1⟩, hr.2⟩

theorem rest_seek (hT : TablesOk T) (hg : ∀ c ∈ it.inner.children, c.source.Good T M)
    (hr : ∀ c ∈ it.inner.children, c.Ready)
    (ht : target.length + 8 < 2 ^ 32) :
    Ensures (Store.Serves T M) (it.seek target) fun r =>
      it.Same r ∧ r.Rest T M (advanceList it.seq
        (seekTo Rec.pos (sortKey (lookupKey target it.seq)) (it.inner.all M))) := by
  have ht' : (lookupKey target it.seq).length < 2 ^ 32 := by simpa [lookupKey] using ht
  have hseek := MergingIterator.rest_seek (Iter.walks hT) (fun c hc => ⟨hg c hc, hr c hc⟩) ht'
  refine hseek.bind fun m hm => ?_
  have h := @advanceToNextLiveKey_ensures T M { it with inner := m } _ hT hm.2
  exact h.imp fun r hr => ⟨⟨hr.1.1, hr.1.2.trans hm.1⟩, hr.2⟩

theorem Rest.next (hT : TablesOk T) (h : it.Rest T M (r :: l)) :
    Ensures (Store.Serves T M) it.next fun it' =>
      it.Same it' ∧ it'.Rest T M (advanceList it.seq (skipKey r.userKey l)) := by
  obtain ⟨_, hk, _⟩ := h.shows
  refine (skipRestOfCurrentKey_ensures hT h.inner).bind fun it₁ ⟨h1, _, h2⟩ => ?_
  have hskip : skipKey it.key (r :: l) = skipKey r.userKey l := by
    rw [hk, skipKey, List.dropWhile_cons_of_pos (by simp)]
    rfl
  rw [hskip] at h2
  have ha := advanceToNextLiveKey_ensures hT h2
  rw [h1.1] at ha
  exact ha.imp fun it₂ ⟨h3, h4⟩ => ⟨h1.trans h3, h4⟩

/-- The client's loop: read the row, call `Next`, until the iterator is no longer valid. -/
def drain : Nat → DBIter → StoreM (List (Bytes × Bytes))
  | 0, _ => pure []
  | fuel + 1, it =>
    if it.valid then do
      let it' ← it.next
      let rows ← drain fuel it'
      pure ((it.key, it.value) :: rows)
    else pure []

theorem drain_ensures (hT : TablesOk T) (h : it.Rest T M l) (ha : advanceList it.seq l = l)
    (hf : l.length < fuel) :
    Ensures (Store.Serves T M) (drain fuel it) (· = scanList it.seq l) := by
  induction fuel generalizing it l with
  | zero => omega
  | succ fuel ih =>
    rw [drain]
    cases l with
    | nil =>
      have hv : it.valid = false := h.shows
      rw [scanList_nil ha]
      simp only [hv, Bool.false_eq_true, if_false]
      exact Ensures.pure rfl
    | cons r l =>
      obtain ⟨hv, hk, hval⟩ := h.shows
      rw [scanList_cons ha]
      simp only [hv, if_true, hk, hval]
      refine (h.next hT).bind fun it' ⟨h1, h2⟩ => ?_
      have hlen := length_skipKey_le r.userKey l
      have hlen' := length_advanceList_le it.seq (skipKey r.userKey l)
      have hrec := ih h2 (by rw [h1.1, advanceList_idem])
        (by simp only [List.length_cons] at hf; omega)
      rw [h1.1, scanList_advanceList] at hrec
      exact hrec.bind fun rows hrows => Ensures.pure (by rw [hrows])

end DBIter

end LsmKv
