import LsmKv.Walks

namespace LsmKv
set_option autoImplicit true

variable {T : Table → Prop} {M : Nat → MemTable}

/-- What an iterator runs over. -/
inductive Source where
  | mem (id : Nat)
  | table (t : Table)
  | level (files : List FileMetaData)

namespace Source

def recs (M : Nat → MemTable) : Source → List Rec
  | mem id => (M id).recs
  | table t => t.recs
  | level files => levelRecs files

/-- The source holds a run, and the tables it reads are among `T`. -/
def Good (T : Table → Prop) (M : Nat → MemTable) : Source → Prop
  | mem id => Ascending Rec.pos (M id).recs
  | table t => T t ∧ t.Good
  | level files => (∀ f ∈ files, T f.table) ∧ LevelOk files

theorem Good.ascending {src : Source} (h : src.Good T M) : Ascending Rec.pos (src.recs M) := by
  cases src with
  | mem id => exact h
  | table t => exact h.2.ascending
  | level files => exact h.2.ascending

end Source

namespace Iter

variable {it : Iter}

def source : Iter → Source
  | mem it => .mem it.mem
  | table it => .table it.table
  | level it => .level it.files

/-- The iterator has the entries `l` of its source left. -/
def Rest (M : Nat → MemTable) : Iter → List Rec → Prop
  | mem it, l => it.Rest M l
  | table it, l => it.Rest l
  | level it, l => it.Rest l

theorem rest_seekToFirst (hT : TablesOk T) (h : it.source.Good T M) (hs : it.status = .ok)
    (hl : ∀ lit, it = .level lit → lit.status = .ok) :
    Ensures (Store.Serves T M) it.seekToFirst fun r =>
      r.source = it.source ∧ r.Rest M (it.source.recs M) := by
  cases it with
  | mem it => exact (MemTableIterator.rest_seekToFirst h).map fun r ⟨h1, h2⟩ =>
      ⟨congrArg Source.mem h1, h2⟩
  | table it => exact (TableIterator.rest_seekToFirst hT h.1 h.2 hs).map fun r ⟨h1, h2⟩ =>
      ⟨congrArg Source.table h1, h2⟩
  | level it =>
    exact (LevelIterator.rest_seekToFirst hT h.1 h.2.sorted (hl it rfl)).map
      fun r ⟨h1, h2⟩ => ⟨congrArg Source.level h1, h2⟩

theorem rest_seek (hT : TablesOk T) (h : it.source.Good T M) (hs : it.status = .ok)
    (hl : ∀ lit, it = .level lit → lit.status = .ok) (ht : target.length < 2 ^ 32) :
    Ensures (Store.Serves T M) (it.seek target) fun r =>
      r.source = it.source ∧ r.Rest M (seekTo Rec.pos (sortKey target) (it.source.recs M)) := by
  cases it with
  | mem it => exact (MemTableIterator.rest_seek h ht).map fun r ⟨h1, h2⟩ =>
      ⟨congrArg Source.mem h1, h2⟩
  | table it => exact (TableIterator.rest_seek hT h.1 h.2 hs target).map fun r ⟨h1, h2⟩ =>
      ⟨congrArg Source.table h1, h2⟩
  | level it =>
    exact (LevelIterator.rest_seek hT h.1 h.2.sorted (hl it rfl) target).map
      fun r ⟨h1, h2⟩ => ⟨congrArg Source.level h1, h2⟩

theorem Rest.next (h : it.Rest M l) (hT : TablesOk T) (hg : it.source.Good T M) :
    Ensures (Store.Serves T M) it.next fun r => r.source = it.source ∧ r.Rest M l.tail := by
  cases it with
  | mem it => exact (MemTableIterator.Rest.next h hg).map fun r ⟨h1, h2⟩ =>
      ⟨congrArg Source.mem h1, h2⟩
  | table it => exact (TableIterator.Rest.next h hT hg.1).map fun r ⟨h1, h2⟩ =>
      ⟨congrArg Source.table h1, h2⟩
  | level it => exact (LevelIterator.Rest.next h hT hg.1 hg.2.sorted.good).map fun r ⟨h1, h2⟩ =>
      ⟨congrArg Source.level h1, h2⟩

theorem Rest.valid_iff (h : it.Rest M l) : it.valid = true ↔ l ≠ [] := by
  cases it with
  | mem it => exact MemTableIterator.Rest.valid_iff h
  | table it => exact TableIterator.Rest.valid_iff h
  | level it => exact LevelIterator.Rest.valid_iff h

theorem Rest.head (h : it.Rest M (e :: l)) : it.key = e.1 ∧ it.value = e.2 := by
  cases it with
  | mem it => exact MemTableIterator.Rest.head h
  | table it => exact TableIterator.Rest.head h
  | level it => exact LevelIterator.Rest.head h

theorem Rest.status (h : it.Rest M l) : it.status = .ok := by
  cases it with
  | mem it => rfl
  | table it => exact TableIterator.Rest.ok h
  | level it => exact LevelIterator.Rest.getStatus h

/-- Nothing has failed in the iterator so far. -/
def Ready (it : Iter) : Prop := it.status = .ok ∧ ∀ lit, it = .level lit → lit.status = .ok

theorem Rest.ready (h : it.Rest M l) : it.Ready := by
  refine ⟨h.status, ?_⟩
  rintro lit rfl
  exact LevelIterator.Rest.ok h

theorem Rest.suffix (h : it.Rest M l) : l <:+ it.source.recs M := by
  cases it with
  | mem it => exact MemTableIterator.Rest.suffix h
  | table it => exact TableIterator.Rest.suffix h
  | level it => exact LevelIterator.Rest.suffix h

end Iter

theorem Table.Blocks.length_le {t : Table} {gs : List (List Rec)} (h : t.Blocks interval gs) :
    gs.flatten.length ≤ (t.index.map IndexEntry.size).sum := by
  have hf := h.index
  have hsize : ∀ e b, t.readFile e = .ok b → b.length ≤ e.size := by
    intro e b hb
    rw [Table.readFile] at hb
    split at hb
    · cases hb
    · split at hb
      · cases hb
      · cases hb
        rw [List.length_take]
        exact Nat.min_le_left _ _
  clear h
  generalize t.index = index at hf
  induction hf with
  | nil => simp
  | cons hd _ ih =>
    have h1 := hsize _ _ hd.1
    have h2 := length_le_blockBytes interval
    simp only [List.flatten_cons, List.length_append, List.map_cons, List.sum_cons]
    exact Nat.add_le_add ((h2 _).trans h1) ih

theorem Table.Good.length_le {t : Table} (h : t.Good) :
    t.recs.length ≤ (t.index.map IndexEntry.size).sum := by
  obtain ⟨_, _, hb, _⟩ := h
  rw [hb.recs]
  exact hb.length_le

theorem Iter.length_le_bound {it : Iter} (h : it.source.Good T M) (hs : Store.Serves T M s) :
    (it.source.recs M).length ≤ it.bound s := by
  cases it with
  | mem it =>
    rw [Iter.bound, hs.1]
    exact (List.length_map ..).le
  | table it => exact h.2.length_le
  | level it =>
    have hok := h.2.file
    rw [Iter.bound, Iter.source, Source.recs, levelRecs, List.length_flatMap]
    exact List.sum_le_sum fun f hf => (hok f hf).good.length_le

/-- The iterator is over a sound source and stands on the first entry of `l`. -/
def Iter.Stands (T : Table → Prop) (M : Nat → MemTable) (it : Iter) (l : List Rec) : Prop :=
  it.source.Good T M ∧ it.Rest M l

theorem Iter.walks (hT : TablesOk T) : Walks (Store.Serves T M) (fun t => t.length < 2 ^ 32)
    Iter.source (Source.recs M) (fun it => it.source.Good T M ∧ it.Ready) (Iter.Stands T M) where
  sorted h := h.1.ascending.sorted
  ready h := ⟨h.1, h.2.ready⟩
  left h := (h.1.ascending.sublist h.2.suffix.sublist).sorted
  valid_iff h := h.2.valid_iff
  head h := h.2.head
  status h := h.2.status
  seekToFirst := by
    intro c h
    refine (Iter.rest_seekToFirst hT h.1 h.2.1 h.2.2).imp fun d hd => ?_
    exact ⟨hd.1, by rw [hd.1]; exact h.1, hd.2⟩
  seek := by
    intro c target h ht
    refine (Iter.rest_seek hT h.1 h.2.1 h.2.2 ht).imp fun d hd => ?_
    exact ⟨hd.1, by rw [hd.1]; exact h.1, hd.2⟩
  next := by
    intro c e l h
    refine (h.2.next hT h.1).imp fun d hd => ?_
    exact ⟨hd.1, by rw [hd.1]; exact h.1, hd.2⟩

namespace MergingIterator

section Merge
variable {ι X : Type} [Iterator ι] [Inhabited ι] {I : Store → Prop} {A : Bytes → Prop}
  {source : ι → X} {recs : X → List Rec} {Q : ι → Prop} {R : ι → List Rec → Prop}
  {it : MergingIterator ι} {ls : List (List Rec)}

/-- The order of the heap: current key, then child index. -/
def rank (children : List ι) (i : Nat) : (Bytes ×ₗ ℕᵒᵈ) ×ₗ Nat :=
  toLex (sortKey (Iterator.key (children.getD i default)), i)

theorem greater_eq (children : List ι) (a b : Nat) :
    greater children a b = decide (rank children b < rank children a) := by
  rw [greater, Bool.eq_iff_iff, decide_eq_true_iff, rank, rank, Prod.Lex.toLex_lt_toLex]
  generalize Iterator.key (children.getD a default) = x
  generalize Iterator.key (children.getD b default) = y
  rcases lt_trichotomy (sortKey x) (sortKey y) with h | h | h
  · rw [compareInternalKey_lt.2 h]
    simp [h.not_gt, h.ne']
  · rw [compareInternalKey_eq.2 h]
    simp [h]
  · rw [compareInternalKey_gt.2 h]
    simp [h]

/-- The merge has the entries `l` of its children left. -/
structure Rest (R : ι → List Rec → Prop) (it : MergingIterator ι) (l : List Rec) : Prop where
  lists : ∃ ls, List.Forall₂ R it.children ls ∧ l = mergeRuns Rec.pos ls
  members : ∀ i, i ∈ it.heap ↔ i < it.children.length ∧ Iterator.valid (it.child i) = true
  nodup : it.heap.Nodup
  heap : HeapFrom (rank it.children) 0 it.heap

theorem rest_buildHeap {children : List ι} (hls : List.Forall₂ R children ls) :
    Rest R (buildHeap children) (mergeRuns Rec.pos ls) := by
  obtain ⟨hheap, hperm⟩ := buildHeap_spec (greater_eq children)
    ((List.range children.length).filter fun i => Iterator.valid (children.getD i default))
  refine ⟨⟨ls, hls, rfl⟩, fun i => ?_, ?_, hheap⟩
  · rw [buildHeap, hperm.mem_iff, List.mem_filter, List.mem_range]
    rfl
  · exact hperm.nodup_iff.2 (List.nodup_range.filter _)

omit [Iterator ι] in
theorem forall₂_getElem? {children : List ι} (h : List.Forall₂ R children ls)
    (hi : i < children.length) : ∃ l, ls[i]? = some l ∧ R (children.getD i default) l := by
  obtain ⟨hlen, hget⟩ := List.forall₂_iff_get.1 h
  have hi' : i < ls.length := hlen ▸ hi
  refine ⟨ls[i], List.getElem?_eq_getElem hi', ?_⟩
  rw [List.getD_eq_getElem _ _ hi]
  exact hget i hi hi'

omit [Iterator ι] [Inhabited ι] in
theorem forall₂_set {children : List ι} (h : List.Forall₂ R children ls) (hc : R c m) (r : Nat) :
    List.Forall₂ R (children.set r c) (ls.set r m) := by
  induction h generalizing r with
  | nil => exact .nil
  | cons hd htl ih =>
    cases r with
    | zero => exact .cons hc htl
    | succ r => exact .cons hd (ih r)

theorem Rest.valid_iff (h : it.Rest R l) (hw : Walks I A source recs Q R) :
    it.valid = true ↔ l ≠ [] := by
  obtain ⟨ls, hls, rfl⟩ := h.lists
  rw [valid, Bool.not_eq_true', List.isEmpty_eq_false_iff]
  constructor
  · intro hne
    obtain ⟨i, hi⟩ := List.exists_mem_of_ne_nil _ hne
    obtain ⟨hlt, hv⟩ := (h.members i).1 hi
    obtain ⟨m, hm, hr⟩ := forall₂_getElem? hls hlt
    obtain ⟨x, hx⟩ := List.exists_mem_of_ne_nil _ ((hw.valid_iff hr).1 hv)
    exact List.ne_nil_of_mem (mem_mergeRuns.2 ⟨m, List.mem_of_getElem? hm, hx⟩)
  · intro hne
    obtain ⟨x, hx⟩ := List.exists_mem_of_ne_nil _ hne
    obtain ⟨m, hm, hxm⟩ := mem_mergeRuns.1 hx
    obtain ⟨i, hi, rfl⟩ := List.mem_iff_getElem.1 hm
    have hlt : i < it.children.length := hls.length_eq ▸ hi
    obtain ⟨m', hm', hr⟩ := forall₂_getElem? hls hlt
    rw [List.getElem?_eq_getElem hi, Option.some.injEq] at hm'
    subst hm'
    have hv := (hw.valid_iff hr).2 (List.ne_nil_of_mem hxm)
    exact List.ne_nil_of_mem ((h.members i).2 ⟨hlt, hv⟩)

theorem sorted_of_forall₂ (hw : Walks I A source recs Q R) {children : List ι}
    (h : List.Forall₂ R children ls) : ∀ l ∈ ls, Sorted Rec.pos l := by
  intro l hl
  obtain ⟨i, hi, rfl⟩ := List.mem_iff_getElem.1 hl
  obtain ⟨m, hm, hr⟩ := forall₂_getElem? h (h.length_eq ▸ hi)
  rw [List.getElem?_eq_getElem hi, Option.some.injEq] at hm
  subst hm
  exact hw.left hr

/-- The child at the root stands on the next entry of the merge. -/
theorem Rest.root (h : it.Rest R (e :: l)) (hw : Walks I A source recs Q R) :
    ∃ ls r t m, List.Forall₂ R it.children ls ∧ l = mergeRuns Rec.pos (ls.set r m) ∧
      it.heap = r :: t ∧ r < it.children.length ∧ R (it.child r) (e :: m) := by
  have hv := (h.valid_iff hw).2 (List.cons_ne_nil e l)
  obtain ⟨ls, hls, hmerge⟩ := h.lists
  rw [valid, Bool.not_eq_true', List.isEmpty_eq_false_iff] at hv
  obtain ⟨r, t, hheap⟩ := List.exists_cons_of_ne_nil hv
  obtain ⟨hrl, hrv⟩ := (h.members r).1 (by rw [hheap]; exact List.mem_cons_self)
  obtain ⟨lr, hlr, hrest⟩ := forall₂_getElem? hls hrl
  obtain ⟨x, m, rfl⟩ := List.exists_cons_of_ne_nil ((hw.valid_iff hrest).1 hrv)
  -- the root is the first of the children with the smallest current key
  have hmin : ∀ i a l, ls[i]? = some (a :: l) → x.pos < a.pos ∨ x.pos = a.pos ∧ r ≤ i := by
    intro i a l hi
    have hil : i < it.children.length := hls.length_eq ▸ (List.getElem?_eq_some_iff.1 hi).1
    obtain ⟨l', hl', hr⟩ := forall₂_getElem? hls hil
    rw [hi, Option.some.injEq] at hl'
    subst hl'
    have hmem : i ∈ it.heap := (h.members i).2 ⟨hil, (hw.valid_iff hr).2 (List.cons_ne_nil a l)⟩
    have hle := h.heap.root_le (by rw [hheap]; rfl) hmem
    rw [rank, rank, (hw.head hrest).1, (hw.head hr).1, Prod.Lex.toLex_le_toLex] at hle
    exact hle
  rw [mergeRuns_cons (sorted_of_forall₂ hw hls) hlr hmin] at hmerge
  obtain ⟨rfl, hl⟩ := List.cons.inj hmerge
  exact ⟨ls, r, t, m, hls, hl, hheap, hrl, hrest⟩

theorem Rest.head (h : it.Rest R (e :: l)) (hw : Walks I A source recs Q R) :
    it.key = e.1 ∧ it.value = e.2 := by
  obtain ⟨_, r, t, m, _, _, hheap, _, hr⟩ := h.root hw
  rw [key, value, top, hheap]
  exact hw.head hr

theorem Rest.mem (h : it.Rest R l) (hc : c ∈ it.children) : ∃ m, R c m := by
  obtain ⟨ls, hls, _⟩ := h.lists
  obtain ⟨i, hi, rfl⟩ := List.mem_iff_getElem.1 hc
  obtain ⟨m, _, hr⟩ := forall₂_getElem? hls hi
  rw [List.getD_eq_getElem _ _ hi] at hr
  exact ⟨m, hr⟩

theorem Rest.status (h : it.Rest R l) (hw : Walks I A source recs Q R) : it.status = .ok := by
  have hnone : it.children.find? (fun c => !(Iterator.status c).isOk) = none := by
    rw [List.find?_eq_none]
    intro c hc
    obtain ⟨m, hr⟩ := h.mem hc
    simp [hw.status hr]
  rw [MergingIterator.status, hnone]

theorem popRoot_perm (r : Nat) (t : List Nat) : (popRoot (r :: t)).Perm t := by
  rw [popRoot, List.set_cons_zero]
  cases t using List.reverseRecOn with
  | nil => exact .refl _
  | append_singleton t x =>
    have hl : (r :: (t ++ [x])).getLastD 0 = x := by
      rw [← List.cons_append, List.getLastD_concat]
    rw [hl, ← List.cons_append, List.dropLast_concat]
    exact (List.perm_append_singleton x t).symm

theorem popRoot_getElem? {r : Nat} {t : List Nat} (hi : 0 < i)
    (h : (popRoot (r :: t))[i]? = some x) :
    t[i - 1]? = some x := by
  obtain ⟨n, rfl⟩ : ∃ n, i = n + 1 := ⟨i - 1, by omega⟩
  rw [popRoot, List.set_cons_zero, List.getElem?_dropLast] at h
  split at h
  · simpa using h
  · cases h

theorem heapFrom_one_of_set {children : List ι} {r : Nat} {t a : List Nat} {c : ι}
    (h : HeapFrom (rank children) 0 (r :: t)) (hr : r ∉ t)
    (ha : ∀ i x, 0 < i → a[i]? = some x → t[i - 1]? = some x) :
    HeapFrom (rank (children.set r c)) 1 a := by
  intro i j x y hij hlo hx hy
  have hj : 0 < j := by rcases hij with rfl | rfl <;> omega
  have hx' := ha i x hlo hx
  have hy' := ha j y hj hy
  have hsame : ∀ z, z ∈ t → rank (children.set r c) z = rank children z := by
    intro z hz
    have hne : r ≠ z := fun he => hr (he ▸ hz)
    rw [rank, rank, List.getD_eq_getElem?_getD, List.getD_eq_getElem?_getD,
      List.getElem?_set_ne hne]
  rw [hsame x (List.mem_of_getElem? hx'), hsame y (List.mem_of_getElem? hy')]
  refine h i j x y hij (Nat.zero_le _) ?_ ?_
  · rw [show i = (i - 1) + 1 by omega, List.getElem?_cons_succ]
    exact hx'
  · rw [show j = (j - 1) + 1 by omega, List.getElem?_cons_succ]
    exact hy'

/-- `Next` consumes the head of the merge. -/
theorem Rest.next (h : it.Rest R (e :: l)) (hw : Walks I A source recs Q R) :
    Ensures I it.next fun r =>
      r.children.map source = it.children.map source ∧ r.Rest R l := by
  obtain ⟨ls, r, t, m, hls, rfl, hheap, hrl, hrest⟩ := h.root hw
  have hnodup := h.nodup
  rw [hheap, List.nodup_cons] at hnodup
  rw [MergingIterator.next, hheap, List.headD_cons]
  refine (hw.next hrest).bind fun c ⟨hsrc, hc⟩ => Ensures.pure ?_
  have hsources : (it.children.set r c).map source = it.children.map source := by
    rw [List.map_set, hsrc, child, List.getD_eq_getElem _ _ hrl]
    exact List.ext_getElem (by simp) fun i h1 h2 => by
      by_cases hi : r = i
      · subst hi; simp
      · simp [hi]
  have hheap0 : HeapFrom (rank it.children) 0 (r :: t) := hheap ▸ h.heap
  set a := if Iterator.valid c then r :: t else popRoot (r :: t) with ha
  have hbelow : HeapFrom (rank (it.children.set r c)) 1 a := by
    refine heapFrom_one_of_set hheap0 hnodup.1 fun i x hi hx => ?_
    rw [ha] at hx
    split at hx
    · rwa [show i = (i - 1) + 1 by omega, List.getElem?_cons_succ] at hx
    · exact popRoot_getElem? hi hx
  obtain ⟨hh, hp⟩ := siftDown_spec (greater_eq (it.children.set r c)) hbelow
  refine ⟨hsources, ⟨_, forall₂_set hls hc r, rfl⟩, ?_, ?_, hh⟩
  · intro i
    show i ∈ siftDown (greater (it.children.set r c)) a 0 ↔ _
    rw [hp.mem_iff, List.length_set, child, List.getD_eq_getElem?_getD]
    have hother : ∀ i, i ≠ r →
        (i ∈ t ↔ i < it.children.length ∧ Iterator.valid (it.child i) = true) := by
      intro i hne
      rw [← h.members i, hheap, List.mem_cons]
      simp [hne]
    by_cases hi : i = r
    · subst hi
      rw [List.getElem?_set_self hrl, Option.getD_some, ha]
      by_cases hv : Iterator.valid c = true
      · simp [hv, hrl]
      · have hp' := (popRoot_perm i t).mem_iff (a := i)
        simp only [hv, Bool.false_eq_true, if_false, hp', and_false, iff_false]
        exact hnodup.1
    · rw [List.getElem?_set_ne (Ne.symm hi), ← List.getD_eq_getElem?_getD]
      rw [show it.children.getD i default = it.child i from rfl, ← hother i hi, ha]
      split
      · simp [hi]
      · exact (popRoot_perm r t).mem_iff
  · refine hp.nodup_iff.2 ?_
    rw [ha]
    split
    · exact List.nodup_cons.2 hnodup
    · exact (popRoot_perm r t).nodup_iff.2 hnodup.2

omit [Iterator ι] [Inhabited ι] in
theorem forall₂_sources {cs ds : List ι} {F : X → List Rec}
    (h : List.Forall₂ (fun c d => source d = source c ∧ R d (F (source c))) cs ds) :
    ds.map source = cs.map source ∧
      List.Forall₂ R ds ((cs.map source).map F) := by
  induction h with
  | nil => exact ⟨rfl, .nil⟩
  | cons hd _ ih =>
    exact ⟨by rw [List.map_cons, List.map_cons, ih.1, hd.1], .cons hd.2 ih.2⟩

theorem rest_mapM {move : ι → StoreM ι} {F : X → List Rec}
    (h : ∀ c ∈ it.children, Ensures I (move c) fun d => source d = source c ∧ R d (F (source c))) :
    Ensures I (buildHeap <$> it.children.mapM move) fun r =>
      r.children.map source = it.children.map source ∧
        r.Rest R (mergeRuns Rec.pos ((it.children.map source).map F)) := by
  refine (Ensures.mapM h).map fun ds hds => ?_
  obtain ⟨hsrc, hls⟩ := forall₂_sources hds
  exact ⟨hsrc, rest_buildHeap hls⟩

theorem rest_seekToFirst (hw : Walks I A source recs Q R) (hc : ∀ c ∈ it.children, Q c) :
    Ensures I it.seekToFirst fun r => r.children.map source = it.children.map source ∧
      r.Rest R (mergeRuns Rec.pos ((it.children.map source).map recs)) :=
  rest_mapM fun c hm => hw.seekToFirst (hc c hm)

theorem rest_seek (hw : Walks I A source recs Q R) (hc : ∀ c ∈ it.children, Q c)
    (ht : A target) :
    Ensures I (it.seek target) fun r => r.children.map source = it.children.map source ∧
      r.Rest R (seekTo Rec.pos (sortKey target)
        (mergeRuns Rec.pos ((it.children.map source).map recs))) := by
  have hs : ∀ l ∈ (it.children.map source).map recs, Sorted Rec.pos l := by
    intro l hl
    rw [List.map_map] at hl
    obtain ⟨c, hm, rfl⟩ := List.mem_map.1 hl
    exact hw.sorted (hc c hm)
  rw [← mergeRuns_seekTo hs, List.map_map]
  exact rest_mapM fun c hm => hw.seek (hc c hm) ht

instance : Iterator (MergingIterator ι) where
  valid := valid
  key := key
  value := value
  status := status
  seekToFirst := seekToFirst
  seek := fun target it => it.seek target
  next := next

/-- The merge has `l` left, or was not positioned yet. -/
def Stands (Q : ι → Prop) (R : ι → List Rec → Prop) (it : MergingIterator ι) (l : List Rec) :
    Prop :=
  (∀ c ∈ it.children, Q c ∧ Iterator.status c = .ok) ∧ (it.Rest R l ∨ it.heap = [] ∧ l = [])

theorem Rest.stands (h : it.Rest R l) (hw : Walks I A source recs Q R) : it.Stands Q R l := by
  refine ⟨fun c hc => ?_, .inl h⟩
  obtain ⟨m, hm⟩ := h.mem hc
  exact ⟨hw.ready hm, hw.status hm⟩

/-- A merge of cursors over sorted sequences is a cursor over their stable merge. -/
theorem walks (hw : Walks I A source recs Q R) :
    Walks I A (fun it : MergingIterator ι => it.children.map source)
      (fun xs => mergeRuns Rec.pos (xs.map recs))
      (fun it => ∀ c ∈ it.children, Q c ∧ Iterator.status c = .ok) (Stands Q R) where
  sorted _ := sorted_mergeRuns _ _
  ready h := h.1
  left := by
    rintro it l ⟨_, h | ⟨_, rfl⟩⟩
    · obtain ⟨ls, _, rfl⟩ := h.lists
      exact sorted_mergeRuns _ _
    · exact .nil
  valid_iff := by
    rintro it l ⟨_, h | ⟨hheap, rfl⟩⟩
    · exact h.valid_iff hw
    · have hv : Iterator.valid it = false := by
        show it.valid = false
        rw [valid, hheap]
        rfl
      simpa using hv
  head := by
    rintro it e l ⟨_, h | ⟨_, he⟩⟩
    · exact h.head hw
    · cases he
  status := by
    rintro it l ⟨hc, _⟩
    have hnone : it.children.find? (fun c => !(Iterator.status c).isOk) = none := by
      rw [List.find?_eq_none]
      intro c hm
      simp [(hc c hm).2]
    show it.status = .ok
    rw [MergingIterator.status, hnone]
  seekToFirst := by
    intro it h
    refine (rest_seekToFirst hw fun c hc => (h c hc).1).imp fun r hr => ?_
    exact ⟨hr.1, hr.2.stands hw⟩
  seek := by
    intro it target h ht
    refine (rest_seek hw (fun c hc => (h c hc).1) ht).imp fun r hr => ?_
    exact ⟨hr.1, hr.2.stands hw⟩
  next := by
    rintro it e l ⟨_, h | ⟨_, he⟩⟩
    · exact (h.next hw).imp fun r hr => ⟨hr.1, hr.2.stands hw⟩
    · cases he

/-- From wherever earlier calls left it, the merge yields the entries of its children stably
sorted, or those from the target of a seek on. -/
theorem merge_stable {entries : ι → List Rec} (hw : Walks I A entries id Q R) (cs : List ι)
    (hcs : ∀ c ∈ cs, Q c ∧ Iterator.status c = .ok) (as : List CursorCall)
    (ha : ∀ target, .seek target ∈ as → A target) (k : Nat) :
    Ensures I
        (Iterator.calls ({ children := cs } : MergingIterator ι)
          (as ++ .seekToFirst :: List.replicate k .next))
        (fun it => Iterator.shown it = (mergeRuns Rec.pos (cs.map entries))[k]?) ∧
      ∀ target, A target → Ensures I
        (Iterator.calls ({ children := cs } : MergingIterator ι)
          (as ++ .seek target :: List.replicate k .next))
        (fun it => Iterator.shown it = ((mergeRuns Rec.pos (cs.map entries)).filter
          fun e => compareInternalKey e.1 target != .lt)[k]?) := by
  have hnew : Stands Q R ({ children := cs } : MergingIterator ι) [] := ⟨hcs, .inr ⟨rfl, rfl⟩⟩
  have hfirst := (walks hw).shown_seekToFirst hnew as ha k
  have hseek := (walks hw).shown_seek hnew as ha
  simp only [List.map_id] at hfirst hseek
  exact ⟨hfirst.imp fun it h => h.1, fun target ht => (hseek target ht k).imp fun it h => h.1⟩

end Merge

variable {it : MergingIterator Iter}

theorem Rest.iter_ready (h : it.Rest (Iter.Stands T M) l) : ∀ c ∈ it.children, c.Ready := by
  intro c hc
  obtain ⟨m, hr⟩ := h.mem hc
  exact hr.2.ready

/-- All entries of the sources, in the order of the merge. -/
def all (M : Nat → MemTable) (it : MergingIterator Iter) : List Rec :=
  mergeRuns Rec.pos ((it.children.map Iter.source).map (Source.recs M))

theorem all_eq {it' : MergingIterator Iter}
    (h : it.children.map Iter.source = it'.children.map Iter.source) : it.all M = it'.all M := by
  rw [all, all, h]

theorem good_of_sources {cs ds : List Iter} (h : ds.map Iter.source = cs.map Iter.source)
    (hg : ∀ c ∈ cs, c.source.Good T M) : ∀ c ∈ ds, c.source.Good T M := by
  intro c hc
  have hm : c.source ∈ cs.map Iter.source := h ▸ List.mem_map_of_mem hc
  obtain ⟨d, hd, he⟩ := List.mem_map.1 hm
  exact he ▸ hg d hd

theorem Rest.length_le_bound (h : it.Rest (Iter.Stands T M) l) (hs : Store.Serves T M s) :
    l.length ≤ it.bound s := by
  obtain ⟨ls, hls, rfl⟩ := h.lists
  rw [(mergeRuns_perm _ _).length_eq, bound]
  clear h
  generalize it.children = cs at hls
  induction hls with
  | nil => simp
  | cons hd _ ih =>
    simp only [List.flatten_cons, List.length_append, List.map_cons, List.sum_cons]
    exact Nat.add_le_add (hd.2.suffix.length_le.trans (Iter.length_le_bound hd.1 hs)) ih

end MergingIterator

/-- The cursor over a vector of entries. -/
structure VectorIterator where
  entries : List Rec := []
  index : Nat := 0
deriving Inhabited

instance : Iterator VectorIterator where
  valid := fun it => decide (it.index < it.entries.length)
  key := fun it => (it.entries.getD it.index default).1
  value := fun it => (it.entries.getD it.index default).2
  status := fun _ => .ok
  seekToFirst := fun it => pure { it with index := 0 }
  seek := fun target it => pure { it with
    index := (it.entries.takeWhile fun e => compareInternalKey e.1 target == .lt).length }
  next := fun it => pure { it with index := it.index + 1 }

theorem VectorIterator.walks : Walks (fun _ => True) (fun _ => True) VectorIterator.entries id
    (fun it => Sorted Rec.pos it.entries)
    (fun it l => Sorted Rec.pos it.entries ∧ l = it.entries.drop it.index) where
  sorted h := h
  ready h := h.1
  left h := h.2 ▸ h.1.sublist (List.drop_sublist _ _)
  valid_iff := by
    rintro it l ⟨_, rfl⟩
    show decide (it.index < it.entries.length) = true ↔ _
    rw [decide_eq_true_iff, ne_eq, List.drop_eq_nil_iff, not_le]
  head := by
    rintro it e l ⟨_, h⟩
    have hget : it.entries[it.index]? = some e := by
      rw [← List.head?_drop, ← h]
      rfl
    simp [Iterator.key, Iterator.value, hget]
  status _ := rfl
  seekToFirst h := Ensures.pure ⟨rfl, h, rfl⟩
  seek := by
    intro it target h _
    have hp : (fun e : Rec => compareInternalKey e.1 target == .lt) =
        fun e => decide (e.pos < sortKey target) := by
      funext e
      rw [Bool.eq_iff_iff, beq_iff_eq, decide_eq_true_iff, compareInternalKey_lt]
      rfl
    refine Ensures.pure ⟨rfl, h, ?_⟩
    rw [hp]
    exact seekTo_eq_drop _ _
  next := by
    rintro it e l ⟨hs, h⟩
    refine Ensures.pure ⟨rfl, hs, ?_⟩
    rw [← List.drop_drop, ← h]
    rfl

/-- Two children share a key: the first child's entry comes first. -/
theorem merge_stable_tie :
    let a := Rec.encode [97] 1 .kValue [1]
    let b := Rec.encode [97] 1 .kValue [2]
    Iterator.shown ((Iterator.calls
      ({ children := [{ entries := [a] }, { entries := [b] }] } : MergingIterator VectorIterator)
      [.seekToFirst, .next]).run {}).1 = some b := by
  intro a b
  have hcs : ∀ c ∈ ([{ entries := [a] }, { entries := [b] }] : List VectorIterator),
      Sorted Rec.pos c.entries ∧ Iterator.status c = .ok := by
    intro c hc
    rcases List.mem_pair.1 hc with rfl | rfl
    · exact ⟨List.pairwise_singleton _ _, rfl⟩
    · exact ⟨List.pairwise_singleton _ _, rfl⟩
  have h := (MergingIterator.merge_stable VectorIterator.walks _ hcs [] (by simp) 1).1 {} trivial
  have hm : mergeRuns Rec.pos [[a], [b]] = [a, b] :=
    List.mergeSort_of_pairwise (List.pairwise_pair.2 (by decide))
  rw [List.map_cons, List.map_cons, List.map_nil, hm] at h
  exact h.1

end LsmKv
