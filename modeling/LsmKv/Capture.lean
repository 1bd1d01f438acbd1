import LsmKv.Db

namespace LsmKv.Db.Capture
set_option autoImplicit true

open Versioned

variable {T : Table → Prop} {M : Nat → MemTable} {c : Capture} {k : Bytes}

/-- The runs a read goes through, newest first. -/
def runs (M : Nat → MemTable) (c : Capture) : List (List Rec) :=
  (M c.mem).recs :: (c.imm.toList.map fun imm => (M imm).recs) ++ c.version.runs

/-- Everything a read can find. -/
def content (M : Nat → MemTable) (c : Capture) : Set Rec := {r | r ∈ (c.runs M).flatten}

/-- The sources of a read are in order. -/
structure Ok (T : Table → Prop) (M : Nat → MemTable) (c : Capture) : Prop where
  tables : TablesOk T
  opened : ∀ t, c.version.tables t → T t
  version : c.version.Ok
  runs : RunsOk (c.runs M)
  distinct : Distinct (c.content M)
  seq : c.seq ≤ kMaxSequenceNumber

theorem get_ensures (h : c.Ok T M) (hk : k.length + 8 < 2 ^ 32) :
    Ensures (Store.Serves T M) (c.get k) (· = answerOf (firstFound (c.runs M) k c.seq)) := by
  refine Ensures.get_bind fun s hs => ?_
  have hm : (s.mems c.mem).get k c.seq = (findVersion (M c.mem).recs k c.seq).map Rec.answer := by
    rw [hs.1, MemTable.get_eq _ hk]
  have hi : (c.imm.bind fun imm => (s.mems imm).get k c.seq) =
      (firstFound (c.imm.toList.map fun imm => (M imm).recs) k c.seq).map Rec.answer := by
    cases c.imm with
    | none => rfl
    | some imm =>
      rw [hs.1]
      show (M imm).get k c.seq = _
      rw [MemTable.get_eq _ hk]
      cases hf : findVersion (M imm).recs k c.seq <;> simp [firstFound, hf]
  rw [hm, hi, Capture.runs, List.cons_append, firstFound_cons, firstFound_append]
  cases findVersion (M c.mem).recs k c.seq with
  | some x => exact Ensures.pure rfl
  | none =>
    cases firstFound (c.imm.toList.map fun imm => (M imm).recs) k c.seq with
    | some x => exact Ensures.pure rfl
    | none =>
      refine (Version.get_ensures h.tables h.opened h.version k c.seq).bind fun r hr => ?_
      subst hr
      cases firstFound c.version.runs k c.seq with
      | some x => exact Ensures.pure rfl
      | none => exact Ensures.pure rfl

theorem Ok.get_reads (h : c.Ok T M) (hk : k.length + 8 < 2 ^ 32) :
    Ensures (Store.Serves T M) (c.get k) (Reads (c.content M) k c.seq) :=
  (get_ensures h hk).imp fun _ hr => hr ▸ h.runs.reads h.distinct h.seq

theorem Ok.run_get (h : c.Ok T M) (hs : s.Serves T M) (hk : k.length + 8 < 2 ^ 32) :
    Reads (c.content M) k c.seq ((c.get k).run s).1 ∧ ((c.get k).run s).2.Serves T M :=
  h.get_reads hk s hs

theorem source_recs_children (M : Nat → MemTable) (c : Capture) :
    (c.children.map fun i => i.source.recs M) =
      (M c.mem).recs :: (c.imm.toList.map fun imm => (M imm).recs) ++
        (c.version.levels 0).map FileMetaData.recs ++
        ((List.range' 1 (kNumLevels - 1)).filter fun l => !(c.version.levels l).isEmpty).map
          fun l => levelRecs (c.version.levels l) := by
  simp only [children, List.map_append, List.map_cons, List.map_map, Function.comp_def,
    Iter.source, Source.recs]
  rfl

theorem flatten_filter_map (f : Nat → List α) (p : Nat → Bool) (ls : List Nat)
    (hp : ∀ l ∈ ls, p l = false → f l = []) :
    ((ls.filter p).map f).flatten = (ls.map f).flatten := by
  induction ls with
  | nil => rfl
  | cons l ls ih =>
    have ih' := ih fun m hm => hp m (List.mem_cons_of_mem l hm)
    cases h : p l with
    | true => rw [List.filter_cons_of_pos h, List.map_cons, List.map_cons, List.flatten_cons,
        List.flatten_cons, ih']
    | false =>
      rw [List.filter_cons_of_neg (by simp [h]), List.map_cons, List.flatten_cons,
        hp l List.mem_cons_self h, List.nil_append, ih']

/-- The merge goes over the same records as the lookups. -/
theorem flatten_children (M : Nat → MemTable) (c : Capture) :
    (c.children.map fun i => i.source.recs M).flatten = (c.runs M).flatten := by
  have hempty : ∀ l ∈ List.range' 1 (kNumLevels - 1), (!(c.version.levels l).isEmpty) = false →
      levelRecs (c.version.levels l) = [] := by
    intro l _ h
    have hn : c.version.levels l = [] := by simpa using h
    rw [hn]
    rfl
  rw [source_recs_children, Capture.runs, Version.runs, List.flatten_append,
    flatten_filter_map _ _ _ hempty, ← List.append_assoc, ← List.flatten_append]

theorem mem_all : r ∈ c.newIterator.inner.all M ↔ r ∈ (c.runs M).flatten := by
  rw [← flatten_children, MergingIterator.all, List.map_map, (mergeRuns_perm Rec.pos _).mem_iff]
  rfl

theorem Ok.children_good (h : c.Ok T M) : ∀ i ∈ c.children, i.source.Good T M := by
  have hmem : ∀ id, (M id).recs ∈ c.runs M → (Source.mem id).Good T M :=
    fun id hm => h.runs.ascending _ hm
  intro i hi
  simp only [children, List.mem_append, List.mem_cons, List.mem_map] at hi
  rcases hi with ((rfl | ⟨imm, hm, rfl⟩) | ⟨f, hf, rfl⟩) | ⟨l, hl, rfl⟩
  · exact hmem c.mem (by simp [Capture.runs])
  · refine hmem imm ?_
    simp only [Capture.runs, List.cons_append, List.mem_cons, List.mem_append, List.mem_map]
    exact .inr (.inl ⟨imm, hm, rfl⟩)
  · exact ⟨h.opened _ ⟨0, f, hf, rfl⟩, (h.version.level0 f hf).good⟩
  · have hpos := (List.mem_range'_1.1 (List.mem_filter.1 hl).1).1
    exact ⟨fun f hf => h.opened _ ⟨l, f, hf, rfl⟩, h.version.deeper l hpos⟩

theorem children_ready (c : Capture) : ∀ i ∈ c.children, i.Ready := by
  intro i hi
  simp only [children, List.mem_append, List.mem_cons, List.mem_map] at hi
  rcases hi with ((rfl | ⟨imm, _, rfl⟩) | ⟨f, _, rfl⟩) | ⟨l, _, rfl⟩
  · exact ⟨rfl, fun _ he => nomatch he⟩
  · exact ⟨rfl, fun _ he => nomatch he⟩
  · exact ⟨rfl, fun _ he => nomatch he⟩
  · exact ⟨rfl, fun lit he => by cases he; rfl⟩

theorem Ok.rec_ok (h : c.Ok T M) (hr : r ∈ (c.runs M).flatten) : r.Ok := by
  obtain ⟨l, hl, hrl⟩ := List.mem_flatten.1 hr
  exact h.runs.ok l hl r hrl

theorem eq_of_pos_eq {U : Set Rec} (hd : Distinct U) (ha : a ∈ U) (hb : b ∈ U)
    (h : Rec.pos a = Rec.pos b) : a = b := by
  obtain ⟨hk, ht⟩ := sortKey_eq_iff.1 h
  refine hd a ha b hb hk ?_
  show extractTag a.1 >>> 8 = extractTag b.1 >>> 8
  rw [ht]

theorem Ok.sortedRecs (h : c.Ok T M) : SortedRecs (c.newIterator.inner.all M) where
  sorted := sorted_mergeRuns _ _
  ok := fun _ hr => h.rec_ok (mem_all.1 hr)
  distinct := h.distinct.mono fun _ hr => mem_all.1 hr

/-- The rows a scan of the sources should enumerate. -/
def rows (M : Nat → MemTable) (c : Capture) : List (Bytes × Bytes) :=
  scanList c.seq (c.newIterator.inner.all M)

theorem Ok.mem_rows (h : c.Ok T M) : (k, v) ∈ c.rows M ↔ Shown (c.content M) c.seq k v := by
  have hset : {x | x ∈ c.newIterator.inner.all M} = c.content M :=
    Set.ext fun _ => mem_all
  rw [rows, mem_scanList h.sortedRecs, hset]

theorem Ok.rows_sorted (h : c.Ok T M) : (c.rows M).Pairwise fun a b => a.1 < b.1 :=
  scanList_pairwise h.sortedRecs

/-- An iterator over the sources, wherever it stands. -/
structure Iterates (T : Table → Prop) (M : Nat → MemTable) (c : Capture) (it : DBIter) : Prop where
  seq : it.seq = c.seq
  sources : it.inner.children.map Iter.source = c.children.map Iter.source
  ready : ∀ i ∈ it.inner.children, i.Ready

theorem iterates_new (c : Capture) : c.Iterates T M c.newIterator := ⟨rfl, rfl, children_ready c⟩

theorem Iterates.good {it : DBIter} (hi : c.Iterates T M it) (h : c.Ok T M) :
    ∀ i ∈ it.inner.children, i.source.Good T M :=
  MergingIterator.good_of_sources hi.sources h.children_good

theorem Iterates.all_eq {it : DBIter} (hi : c.Iterates T M it) :
    it.inner.all M = c.newIterator.inner.all M :=
  MergingIterator.all_eq hi.sources

theorem Iterates.of_same {it it' : DBIter} (hi : c.Iterates T M it) (hs : it.Same it')
    (hr : it'.Rest T M l) : c.Iterates T M it' :=
  ⟨hs.1.trans hi.seq, hs.2.trans hi.sources, hr.inner.iter_ready⟩

theorem Ok.seekToFirst (h : c.Ok T M) {it : DBIter} (hi : c.Iterates T M it) :
    Ensures (Store.Serves T M) it.seekToFirst fun r => c.Iterates T M r ∧
      r.Rest T M (advanceList c.seq (c.newIterator.inner.all M)) := by
  have hseek := DBIter.rest_seekToFirst h.tables (hi.good h) hi.ready
  rw [hi.all_eq, hi.seq] at hseek
  exact hseek.imp fun _ ⟨hs, hr⟩ => ⟨hi.of_same hs hr, hr⟩

theorem Ok.seek (h : c.Ok T M) {it : DBIter} (hi : c.Iterates T M it)
    (ht : target.length + 8 < 2 ^ 32) :
    Ensures (Store.Serves T M) (it.seek target) fun r => c.Iterates T M r ∧
      r.Rest T M (advanceList c.seq (LsmKv.seekTo Rec.pos (sortKey (lookupKey target c.seq))
        (c.newIterator.inner.all M))) := by
  have hseek := DBIter.rest_seek h.tables (hi.good h) hi.ready ht
  rw [hi.all_eq, hi.seq] at hseek
  exact hseek.imp fun _ ⟨hs, hr⟩ => ⟨hi.of_same hs hr, hr⟩

/-- The iterator stands at the first of `l`, having come there by a move. -/
structure Standing (T : Table → Prop) (M : Nat → MemTable) (c : Capture) (it : DBIter)
    (l : List Rec) :
    Prop where
  iterates : c.Iterates T M it
  rest : it.Rest T M l
  live : advanceList c.seq l = l

theorem Standing.next (h : c.Ok T M) {it : DBIter} (hs : c.Standing T M it (r :: l)) :
    Ensures (Store.Serves T M) it.next fun it' =>
      c.Standing T M it' (advanceList c.seq (skipKey r.userKey l)) := by
  have hn := hs.rest.next h.tables
  rw [hs.iterates.seq] at hn
  exact hn.imp fun it' ⟨hsame, hr⟩ => ⟨hs.iterates.of_same hsame hr, hr, advanceList_idem _ _⟩

theorem Standing.drain (h : c.Ok T M) {it : DBIter} (hs : c.Standing T M it l)
    (hf : l.length < fuel) :
    Ensures (Store.Serves T M) (it.drain fuel) (· = scanList c.seq l) := by
  have hd := DBIter.drain_ensures (M := M) h.tables hs.rest (by rw [hs.iterates.seq, hs.live]) hf
  rwa [hs.iterates.seq] at hd

theorem Ok.standing_seekToFirst (h : c.Ok T M) {it : DBIter} (hi : c.Iterates T M it) :
    Ensures (Store.Serves T M) it.seekToFirst fun r =>
      ∃ l, c.Standing T M r l ∧ scanList c.seq l = c.rows M :=
  (h.seekToFirst hi).imp fun _ hr =>
    ⟨_, ⟨hr.1, hr.2, advanceList_idem _ _⟩, scanList_advanceList _ _⟩

theorem Ok.standing_seek (h : c.Ok T M) {it : DBIter} (hi : c.Iterates T M it)
    (ht : target.length + 8 < 2 ^ 32) :
    Ensures (Store.Serves T M) (it.seek target) fun r =>
      ∃ l, c.Standing T M r l ∧
        scanList c.seq l = (c.rows M).filter fun row => decide (target ≤ row.1) := by
  refine (h.seek hi ht).imp fun _ hr => ⟨_, ⟨hr.1, hr.2, advanceList_idem _ _⟩, ?_⟩
  rw [scanList_advanceList, scanList_seekTo h.sortedRecs h.seq]
  rfl

end LsmKv.Db.Capture
