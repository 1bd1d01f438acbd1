import LsmKv.Capture

namespace LsmKv
set_option autoImplicit true

open Versioned

variable {T T' : Table → Prop} {M M' : Nat → MemTable} {p : Nat}

/-- `l'` is what is left of `l` for a reader at `p`: records after `p` may have come in between, but
not where nothing was left. -/
structure Grown (p : Nat) (l l' : List Rec) : Prop where
  sub : ∀ x ∈ l, x ∈ l'
  new : ∀ x ∈ l', x ∈ l ∨ p < x.seq
  nil : l = [] → l' = []

theorem Grown.refl (p : Nat) (l : List Rec) : Grown p l l := ⟨fun _ => id, fun _ => .inl, id⟩

theorem Grown.agree (h : Grown p l l') : AgreeAt p {x | x ∈ l'} {x | x ∈ l} := by
  have hset : {x | x ∈ l'} = {x | x ∈ l' ∧ p < x.seq} ∪ {x | x ∈ l} := by
    ext x
    simp only [Set.mem_ofPred_eq, Set.mem_union]
    refine ⟨fun hx => ?_, fun hx => hx.elim And.left (h.sub x)⟩
    exact (h.new x hx).elim .inr fun hlt => .inl ⟨hx, hlt⟩
  rw [hset]
  exact agreeAt_union_later fun x hx => hx.2

theorem Grown.scanList (h : Grown p l l') (hl : SortedRecs l) (hl' : SortedRecs l') :
    scanList p l' = scanList p l := by
  refine Ascending.ext (f := Prod.fst) (scanList_pairwise hl') (scanList_pairwise hl) fun row => ?_
  obtain ⟨k, v⟩ := row
  rw [mem_scanList hl', mem_scanList hl]
  exact h.agree.shown

theorem Grown.append (h : Grown p l l') (h' : Grown p m m') : Grown p (l ++ m) (l' ++ m') := by
  refine ⟨fun x hx => ?_, fun x hx => ?_, fun hnil => ?_⟩
  · exact List.mem_append.2 ((List.mem_append.1 hx).imp (h.sub x) (h'.sub x))
  · rcases List.mem_append.1 hx with hx | hx
    · exact (h.new x hx).imp_left (List.mem_append_left m)
    · exact (h'.new x hx).imp_left (List.mem_append_right l)
  · obtain ⟨hl, hm⟩ := List.append_eq_nil_iff.1 hnil
    rw [h.nil hl, h'.nil hm]
    rfl

theorem Grown.perm (h : Grown p l l') (hl : m.Perm l) (hl' : m'.Perm l') : Grown p m m' where
  sub x hx := hl'.mem_iff.2 (h.sub x (hl.mem_iff.1 hx))
  new x hx := (h.new x (hl'.mem_iff.1 hx)).imp_left hl.mem_iff.2
  nil hm := (h.nil (hm ▸ hl).nil_eq.symm ▸ hl').eq_nil

theorem Grown.mergeRuns (h : List.Forall₂ (Grown p) ls ls') :
    Grown p (mergeRuns Rec.pos ls) (mergeRuns Rec.pos ls') := by
  refine Grown.perm ?_ (mergeRuns_perm _ _) (mergeRuns_perm _ _)
  induction h with
  | nil => exact .refl p []
  | cons hd _ ih => exact hd.append ih

namespace MemTable

/-- An insert leaves the node `e` where it is, before or after the new one. -/
theorem add_split {t : MemTable} (hasc : Ascending Rec.pos t.recs)
    (hne : ∀ x ∈ t.recs, x.pos ≠ (Rec.encode k s ty v).pos)
    (hfit : k.length + v.length + 16 < 2 ^ 32) (ht : t.entries = pre ++ e :: post) (he : e ∉ pre) :
    ∃ pre' post', (t.add s ty k v).entries = pre' ++ e :: post' ∧ e ∉ pre' ∧
      (∀ x ∈ ({ entries := post } : MemTable).recs, x ∈ ({ entries := post' } : MemTable).recs) ∧
      ∀ x ∈ ({ entries := post' } : MemTable).recs,
        x ∈ ({ entries := post } : MemTable).recs ∨ x = Rec.encode k s ty v := by
  obtain ⟨entry, hr, hadd⟩ := t.entries_add s ty hfit
  set q : Bytes → Bool := fun e => decide (Rec.pos (decodeEntryKey e, decodeEntryValue e) <
    Rec.pos (Rec.encode k s ty v)) with hq
  have hmem : ∀ x ∈ t.entries, (decodeEntryKey x, decodeEntryValue x) ∈ t.recs := fun x hx =>
    List.mem_map_of_mem hx
  have hsplit : ∀ l : List Bytes, l = l.takeWhile q ++ l.dropWhile q := fun l =>
    (List.takeWhile_append_dropWhile ..).symm
  cases hqe : q e with
  | true =>
    -- all nodes up to `e` are smaller than the new one, which comes after `e`
    have hpre : ∀ x ∈ pre, q x = true := by
      intro x hx
      rw [recs, ht, List.map_append] at hasc
      have hlt := (ascending_append.1 hasc).2.2 _ (List.mem_map_of_mem hx) _
        (List.mem_map_of_mem List.mem_cons_self)
      exact decide_eq_true (hlt.trans (of_decide_eq_true hqe))
    refine ⟨pre, post.takeWhile q ++ entry :: post.dropWhile q, ?_, he, fun x hx => ?_,
      fun x hx => ?_⟩
    · rw [hadd, ht, List.takeWhile_append_of_pos hpre, List.dropWhile_append_of_pos hpre,
        List.takeWhile_cons_of_pos hqe, List.dropWhile_cons_of_pos hqe]
      simp
    · rw [recs, hsplit post] at hx
      simp only [recs, List.map_append, List.map_cons, List.mem_append, List.mem_cons] at hx ⊢
      tauto
    · rw [recs, hsplit post]
      simp only [recs, List.map_append, List.map_cons, List.mem_append, List.mem_cons, hr] at hx ⊢
      tauto
  | false =>
    have hold : entry ≠ e := by
      rintro rfl
      exact hne _ (hmem entry (by simp [ht])) (congrArg Rec.pos hr)
    refine ⟨pre.takeWhile q ++ entry :: pre.dropWhile q, post, ?_, ?_, fun _ => id, fun _ => .inl⟩
    · have htake : (pre ++ e :: post).takeWhile q = pre.takeWhile q := by
        rw [List.takeWhile_append, List.takeWhile_cons_of_neg (by simp [hqe]), List.append_nil]
        split
        · rename_i hlen
          exact ((List.takeWhile_prefix q).eq_of_length hlen).symm
        · rfl
      have hdrop : (pre ++ e :: post).dropWhile q = pre.dropWhile q ++ e :: post := by
        rw [List.dropWhile_append, List.dropWhile_cons_of_neg (by simp [hqe])]
        split
        · rename_i hnil
          rw [List.isEmpty_iff.1 hnil]
          rfl
        · rfl
      rw [hadd, ht, htake, hdrop]
      simp
    · rw [hsplit pre] at he
      simp only [List.mem_append, List.mem_cons, not_or] at he ⊢
      exact ⟨he.1, hold.symm, he.2⟩

end MemTable

/-- What an iterator over a memtable has left after an insert of a later record. -/
theorem MemTableIterator.Rest.add {it : MemTableIterator} {mem : Nat} (h : it.Rest M l)
    (hasc : Ascending Rec.pos (M it.mem).recs)
    (hne : ∀ x ∈ (M mem).recs, x.pos ≠ (Rec.encode k s ty v).pos)
    (hfit : k.length + v.length + 16 < 2 ^ 32) (hp : p < (Rec.encode k s ty v).seq) :
    ∃ l', it.Rest (Function.update M mem ((M mem).add s ty k v)) l' ∧ Grown p l l' := by
  by_cases hm : it.mem = mem
  · cases hn : it.node with
    | none =>
      rw [MemTableIterator.Rest, hn] at h
      refine ⟨[], ?_, h ▸ .refl p []⟩
      rw [MemTableIterator.Rest, hn]
    | some e =>
      rw [MemTableIterator.Rest, hn] at h
      obtain ⟨pre, post, hent, he, rfl⟩ := h
      rw [hm] at hasc hent
      obtain ⟨pre', post', hent', he', hsub, hnew⟩ := MemTable.add_split hasc hne hfit hent he
      refine ⟨({ entries := e :: post' } : MemTable).recs, ?_, fun x hx => ?_, fun x hx => ?_,
        fun hnil => (by cases hnil)⟩
      · rw [MemTableIterator.Rest, hn, hm, Function.update_self]
        exact ⟨pre', post', hent', he', rfl⟩
      · exact List.mem_cons.2 ((List.mem_cons.1 hx).imp_right (hsub x))
      · rcases List.mem_cons.1 hx with hx | hx
        · exact .inl (List.mem_cons.2 (.inl hx))
        · rcases hnew x hx with hx | rfl
          · exact .inl (List.mem_cons_of_mem _ hx)
          · exact .inr hp
  · refine ⟨l, ?_, .refl p l⟩
    rw [MemTableIterator.Rest, Function.update_of_ne hm]
    exact h

theorem Iter.Stands.add {it : Iter} {mem : Nat} (h : it.Stands T M l)
    (hne : ∀ x ∈ (M mem).recs, x.pos ≠ (Rec.encode k s ty v).pos)
    (hfit : k.length + v.length + 16 < 2 ^ 32) (hp : p < (Rec.encode k s ty v).seq) :
    ∃ l', it.Rest (Function.update M mem ((M mem).add s ty k v)) l' ∧ Grown p l l' := by
  cases it with
  | mem it => exact MemTableIterator.Rest.add h.2 h.1 hne hfit hp
  | table it => exact ⟨l, h.2, .refl p l⟩
  | level it => exact ⟨l, h.2, .refl p l⟩

theorem MergingIterator.Rest.mem_all {it : MergingIterator Iter} (h : it.Rest (Iter.Stands T M) l)
    (hx : x ∈ l) : x ∈ it.all M := by
  obtain ⟨ls, hls, rfl⟩ := h.lists
  rw [(mergeRuns_perm _ _).mem_iff] at hx
  rw [MergingIterator.all, (mergeRuns_perm _ _).mem_iff]
  clear h
  generalize it.children = cs at hls
  induction hls with
  | nil => cases hx
  | cons hd _ ih =>
    rw [List.flatten_cons, List.mem_append] at hx
    rw [List.map_cons, List.map_cons, List.flatten_cons, List.mem_append]
    exact hx.imp (fun hx => hd.2.suffix.subset hx) ih

theorem Iter.stands_grown {cs : List Iter} (h : List.Forall₂ (Iter.Stands T M) cs ls)
    (hgood : ∀ i ∈ cs, i.source.Good T' M')
    (hgrow : ∀ i l, Iter.Stands T M i l → ∃ l', i.Rest M' l' ∧ Grown p l l') :
    ∃ ls', List.Forall₂ (Iter.Stands T' M') cs ls' ∧ List.Forall₂ (Grown p) ls ls' := by
  induction h with
  | nil => exact ⟨[], .nil, .nil⟩
  | @cons i l cs ls hd _ ih =>
    obtain ⟨l', hl', hg⟩ := hgrow i l hd
    obtain ⟨ls', hls', hgs⟩ := ih fun j hj => hgood j (List.mem_cons_of_mem i hj)
    exact ⟨l' :: ls', .cons ⟨hgood i List.mem_cons_self, hl'⟩ hls', .cons hg hgs⟩

theorem Grown.eq_or_cons {it : MergingIterator Iter} (hT : TablesOk T) (hT' : TablesOk T')
    (h : it.Rest (Iter.Stands T M) l) (h' : it.Rest (Iter.Stands T' M') l') (hg : Grown p l l') :
    l = [] ∧ l' = [] ∨ ∃ e m m', l = e :: m ∧ l' = e :: m' := by
  cases l with
  | nil => exact .inl ⟨rfl, hg.nil rfl⟩
  | cons e m =>
    cases l' with
    | nil => cases hg.sub e List.mem_cons_self
    | cons e' m' =>
      obtain ⟨hk, hv⟩ := h.head (Iter.walks hT)
      obtain ⟨hk', hv'⟩ := h'.head (Iter.walks hT')
      have he : e' = e := Prod.ext (hk'.symm.trans hk) (hv'.symm.trans hv)
      exact .inr ⟨e, m, m', rfl, he ▸ rfl⟩

namespace Db.Capture

variable {c : Capture} {it : DBIter}

theorem Standing.sortedRecs (h : c.Ok T M) (hs : c.Standing T M it l) : SortedRecs l := by
  have hsub : ∀ x ∈ l, x ∈ (c.runs M).flatten := fun x hx =>
    mem_all.1 (hs.iterates.all_eq ▸ hs.rest.inner.mem_all hx)
  obtain ⟨ls, _, rfl⟩ := hs.rest.inner.lists
  exact ⟨sorted_mergeRuns _ _, fun x hx => h.rec_ok (hsub x hx), h.distinct.mono hsub⟩

/-- An iterator that stands on a row goes on standing on it, with the same rows to come, while
records after its point are inserted and tables are opened. -/
theorem Standing.grow (h : c.Ok T M) (h' : c.Ok T' M') (hs : c.Standing T M it l)
    (hgrow : ∀ i l, Iter.Stands T M i l → ∃ l', i.Rest M' l' ∧ Grown c.seq l l') :
    ∃ l', c.Standing T' M' it l' ∧ scanList c.seq l' = scanList c.seq l := by
  have hi : c.Iterates T' M' it := ⟨hs.iterates.seq, hs.iterates.sources, hs.iterates.ready⟩
  obtain ⟨ls, hls, hl⟩ := hs.rest.inner.lists
  obtain ⟨ls', hls', hgs⟩ := Iter.stands_grown hls (hi.good h') hgrow
  have hg : Grown c.seq l (mergeRuns Rec.pos ls') := hl ▸ .mergeRuns hgs
  have hinner : it.inner.Rest (Iter.Stands T' M') (mergeRuns Rec.pos ls') :=
    ⟨⟨ls', hls', rfl⟩, hs.rest.inner.members, hs.rest.inner.nodup, hs.rest.inner.heap⟩
  have hst : c.Standing T' M' it (mergeRuns Rec.pos ls') := by
    have hshows := hs.rest.shows
    have hlive := hs.live
    rcases hg.eq_or_cons h.tables h'.tables hs.rest.inner hinner with ⟨rfl, hnil⟩
      | ⟨e, m, m', rfl, he⟩
    · rw [hnil] at hinner ⊢
      exact ⟨hi, ⟨hinner, hshows⟩, hlive⟩
    · rw [he] at hinner ⊢
      refine ⟨hi, ⟨hinner, hshows⟩, ?_⟩
      obtain ⟨hle, hdel⟩ := advanceList_head hlive
      rw [advanceList, if_neg (not_lt.2 hle), if_neg (by simp [hdel])]
  exact ⟨_, hst, hg.scanList (hs.sortedRecs h) (hst.sortedRecs h')⟩

end Db.Capture

end LsmKv
