import LsmKv.Iterators
import LsmKv.TableCursor

namespace LsmKv
set_option autoImplicit true

variable {T : Table → Prop} {M : Nat → MemTable}

namespace MemTable

theorem seek_recs (t : MemTable) {target : Bytes} (h : target.length < 2 ^ 32) :
    (t.seek target).map (fun e => (decodeEntryKey e, decodeEntryValue e)) =
      seekTo Rec.pos (sortKey target) t.recs := by
  have hp : ∀ e, (compareEntry e (putLengthPrefixed target ++ putFixed32 0) == .lt) =
      decide (Rec.pos (decodeEntryKey e, decodeEntryValue e) < sortKey target) :=
    fun e => compareEntry_lt e h _
  simp only [seek, seekTo, recs, List.dropWhile_map, Function.comp_def, hp]

end MemTable

namespace MemTableIterator

variable {it : MemTableIterator}

/-- The records from the iterator's node on, in the memtable as `M` has it now. -/
def Rest (M : Nat → MemTable) (it : MemTableIterator) (l : List Rec) : Prop :=
  match it.node with
  | none => l = []
  | some e => ∃ pre post, (M it.mem).entries = pre ++ e :: post ∧ e ∉ pre ∧
      l = ({ entries := e :: post } : MemTable).recs

theorem rest_of_suffix (hs : (M it.mem).entries = pre ++ post)
    (ha : Ascending Rec.pos (M it.mem).recs) :
    Rest M { it with node := post.head? } ({ entries := post } : MemTable).recs := by
  cases post with
  | nil => exact rfl
  | cons e post =>
    refine ⟨pre, post, hs, ?_, rfl⟩
    intro he
    rw [MemTable.recs, hs, List.map_append] at ha
    have hlt := (ascending_append.1 ha).2.2 _ (List.mem_map_of_mem he) _
      (List.mem_map_of_mem List.mem_cons_self)
    exact lt_irrefl _ hlt

theorem rest_seekToFirst (ha : Ascending Rec.pos (M it.mem).recs) :
    Ensures (Store.Serves T M) it.seekToFirst fun r =>
      r.mem = it.mem ∧ r.Rest M (M it.mem).recs := by
  refine Ensures.get_bind fun s hs => Ensures.pure ⟨rfl, ?_⟩
  rw [hs.1]
  exact rest_of_suffix (List.nil_append _).symm ha

theorem rest_seek (ha : Ascending Rec.pos (M it.mem).recs) (ht : target.length < 2 ^ 32) :
    Ensures (Store.Serves T M) (it.seek target) fun r =>
      r.mem = it.mem ∧ r.Rest M (seekTo Rec.pos (sortKey target) (M it.mem).recs) := by
  refine Ensures.get_bind fun s hs => Ensures.pure ⟨rfl, ?_⟩
  rw [hs.1, ← MemTable.seek_recs _ ht]
  obtain ⟨pre, hpre⟩ : ∃ pre, (M it.mem).entries = pre ++ (M it.mem).seek target := by
    obtain ⟨pre, hpre⟩ := List.dropWhile_suffix (l := (M it.mem).entries)
      fun e => MemTable.compareEntry e (putLengthPrefixed target ++ putFixed32 0) == .lt
    exact ⟨pre, hpre.symm⟩
  exact rest_of_suffix hpre ha

theorem Rest.next (h : it.Rest M l) (ha : Ascending Rec.pos (M it.mem).recs) :
    Ensures (Store.Serves T M) it.next fun r => r.mem = it.mem ∧ r.Rest M l.tail := by
  refine Ensures.get_bind fun s hs => ?_
  rw [hs.1]
  cases hn : it.node with
  | none =>
    rw [Rest, hn] at h
    subst h
    refine Ensures.pure ⟨rfl, ?_⟩
    rw [Rest, hn]
    rfl
  | some e =>
    rw [Rest, hn] at h
    obtain ⟨pre, post, hent, hne, rfl⟩ := h
    have hdrop : ((M it.mem).entries.dropWhile (· != e)).tail = post := by
      rw [hent, List.dropWhile_append_of_pos (fun x hx => by
        rw [bne_iff_ne]
        rintro rfl
        exact hne hx), List.dropWhile_cons_of_neg (by simp)]
      rfl
    simp only [hdrop]
    refine Ensures.pure ⟨rfl, ?_⟩
    have hs : (M it.mem).entries = (pre ++ [e]) ++ post := by rw [hent]; simp
    exact rest_of_suffix hs ha

theorem Rest.valid_iff (h : it.Rest M l) : it.valid = true ↔ l ≠ [] := by
  rw [valid]
  cases hn : it.node with
  | none =>
    rw [Rest, hn] at h
    simp [h]
  | some e =>
    rw [Rest, hn] at h
    obtain ⟨_, _, _, _, rfl⟩ := h
    simp [MemTable.recs]

theorem Rest.head (h : it.Rest M (e :: l)) : it.key = e.1 ∧ it.value = e.2 := by
  cases hn : it.node with
  | none =>
    rw [Rest, hn] at h
    cases h
  | some x =>
    rw [Rest, hn] at h
    obtain ⟨_, _, _, _, he⟩ := h
    rw [MemTable.recs, List.map_cons, List.cons.injEq] at he
    rw [key, value, hn, he.1]
    exact ⟨rfl, rfl⟩

theorem Rest.suffix (h : it.Rest M l) : l <:+ (M it.mem).recs := by
  cases hn : it.node with
  | none =>
    rw [Rest, hn] at h
    rw [h]
    exact List.nil_suffix
  | some x =>
    rw [Rest, hn] at h
    obtain ⟨pre, post, hent, _, rfl⟩ := h
    rw [MemTable.recs, MemTable.recs, hent, List.map_append]
    exact List.suffix_append _ _

end MemTableIterator

/-- The metadata of a file says what its table holds. -/
structure FileMetaData.Ok (f : FileMetaData) : Prop where
  good : f.table.Good
  number : f.table.number = f.number
  smallest : f.smallest = firstKeyOf f.table.recs
  largest : f.largest = lastKeyOf f.table.recs

def FileMetaData.recs (f : FileMetaData) : List Rec := f.table.recs

/-- A level below L0: non-empty files with disjoint key ranges, in order. -/
structure LevelOk (fs : List FileMetaData) : Prop where
  file : ∀ f ∈ fs, f.Ok
  ne_nil : ∀ f ∈ fs, f.recs ≠ []
  disjoint : fs.Pairwise fun f g => ∀ a ∈ f.recs, ∀ b ∈ g.recs, a.userKey < b.userKey

def levelRecs (fs : List FileMetaData) : List Rec := fs.flatMap FileMetaData.recs

theorem Rec.pos_lt_of_userKey_lt {a b : Rec} (h : a.userKey < b.userKey) : a.pos < b.pos := by
  rw [Rec.pos, Rec.pos, sortKey_lt_iff]
  exact .inl h

theorem LevelOk.tail (h : LevelOk (f :: fs)) : LevelOk fs :=
  ⟨fun x hx => h.file x (List.mem_cons_of_mem f hx),
    fun x hx => h.ne_nil x (List.mem_cons_of_mem f hx), (List.pairwise_cons.1 h.disjoint).2⟩

/-- What a cursor over a level needs of its files: they can be read, hold entries and know their
largest key, and all entries of one file come before those of the next. -/
structure LevelSorted (fs : List FileMetaData) : Prop where
  good : ∀ f ∈ fs, f.table.Good
  largest : ∀ f ∈ fs, f.largest = lastKeyOf f.table.recs
  ne_nil : ∀ f ∈ fs, f.recs ≠ []
  disjoint : fs.Pairwise fun f g => ∀ a ∈ f.recs, ∀ b ∈ g.recs, compareInternalKey a.1 b.1 = .lt

theorem LevelOk.sorted (h : LevelOk fs) : LevelSorted fs where
  good := fun f hf => (h.file f hf).good
  largest := fun f hf => (h.file f hf).largest
  ne_nil := h.ne_nil
  disjoint := h.disjoint.imp fun hab a ha b hb =>
    (compareInternalKey_lt ..).2 (Rec.pos_lt_of_userKey_lt (hab a ha b hb))

theorem LevelSorted.tail (h : LevelSorted (f :: fs)) : LevelSorted fs :=
  ⟨fun x hx => h.good x (List.mem_cons_of_mem f hx),
    fun x hx => h.largest x (List.mem_cons_of_mem f hx),
    fun x hx => h.ne_nil x (List.mem_cons_of_mem f hx), (List.pairwise_cons.1 h.disjoint).2⟩

theorem LevelSorted.ascending (h : LevelSorted fs) : Ascending Rec.pos (levelRecs fs) := by
  induction fs with
  | nil => exact .nil
  | cons f fs ih =>
    rw [levelRecs, List.flatMap_cons]
    refine ascending_append.2 ⟨(h.good f List.mem_cons_self).ascending, ih h.tail, ?_⟩
    intro a ha b hb
    obtain ⟨g, hg, hbg⟩ := List.mem_flatMap.1 hb
    exact (compareInternalKey_lt ..).1 ((List.pairwise_cons.1 h.disjoint).1 g hg a ha b hbg)

theorem LevelOk.ascending (h : LevelOk fs) : Ascending Rec.pos (levelRecs fs) := h.sorted.ascending

theorem LevelSorted.pos_le_largest (h : LevelSorted fs) (hf : f ∈ fs) (ha : a ∈ f.recs) :
    a.pos ≤ sortKey f.largest := by
  rw [h.largest f hf]
  exact pos_le_lastKeyOf (h.good f hf).ascending ha

theorem LevelSorted.largest_mem (h : LevelSorted fs) (hf : f ∈ fs) :
    ∃ a ∈ f.recs, a.1 = f.largest := by
  rw [h.largest f hf]
  exact exists_pos_lastKeyOf (h.ne_nil f hf)

theorem FileMetaData.Ok.largest_mem {f : FileMetaData} (h : f.Ok) (hne : f.recs ≠ []) :
    ∃ a ∈ f.recs, a.1 = f.largest := by
  rw [h.largest]
  exact exists_pos_lastKeyOf hne

theorem FileMetaData.Ok.smallest_mem {f : FileMetaData} (h : f.Ok) (hne : f.recs ≠ []) :
    ∃ y ∈ f.recs, y.1 = f.smallest := by
  cases hr : f.recs with
  | nil => exact absurd hr hne
  | cons y l =>
    refine ⟨y, List.mem_cons_self, ?_⟩
    rw [h.smallest, show f.table.recs = y :: l from hr]
    rfl

theorem LevelOk.smallest_sorted (h : LevelOk fs) :
    fs.Pairwise fun f g => compareInternalKey f.smallest g.smallest = .lt := by
  refine List.Pairwise.imp_of_mem (fun {f g} hf hg hfg => ?_) h.disjoint
  obtain ⟨a, ha, hae⟩ := (h.file f hf).smallest_mem (h.ne_nil f hf)
  obtain ⟨b, hb, hbe⟩ := (h.file g hg).smallest_mem (h.ne_nil g hg)
  rw [← hae, ← hbe, compareInternalKey_lt]
  exact Rec.pos_lt_of_userKey_lt (hfg a ha b hb)

theorem LevelOk.pairwise_largest (h : LevelOk fs) {p : Bytes → Bool}
    (hp : ∀ a b : Rec, a.userKey < b.userKey → p b.1 = true → p a.1 = true) :
    fs.Pairwise fun f g => p g.largest = true → p f.largest = true := by
  refine List.Pairwise.imp_of_mem ?_ h.disjoint
  intro f g hf hg hfg hpg
  obtain ⟨a, ha, hae⟩ := (h.file f hf).largest_mem (h.ne_nil f hf)
  obtain ⟨b, hb, hbe⟩ := (h.file g hg).largest_mem (h.ne_nil g hg)
  rw [← hbe] at hpg
  rw [← hae]
  exact hp a b (hfg a ha b hb) hpg

namespace LevelIterator

variable {it : LevelIterator}

/-- The iterator has the entries `l` of its files left. -/
structure Rest (it : LevelIterator) (l : List Rec) : Prop where
  ok : it.status = .ok
  at_list : match it.iter with
    | none => l = []
    | some t => ∃ pre f post m, it.files = pre ++ f :: post ∧ it.index = pre.length ∧
        t.table = f.table ∧ t.Rest m ∧ m ≠ [] ∧ l = m ++ levelRecs post

theorem skipEmptyFilesForward_ensures (hT : TablesOk T) (hf : ∀ f ∈ it.files, T f.table)
    (hok : ∀ f ∈ it.files, f.table.Good) (hs : it.status = .ok) (hi : it.iter = some t)
    (hfiles : it.files = pre ++ f :: post) (hidx : it.index = pre.length) (ht : t.table = f.table)
    (hr : t.Rest m) :
    Ensures (Store.Serves T M) (it.skipEmptyFilesForward post) fun r =>
      r.files = it.files ∧ r.Rest (m ++ levelRecs post) := by
  induction post generalizing it pre f t m with
  | nil =>
    rw [skipEmptyFilesForward]
    simp only [hi]
    cases m with
    | nil =>
      have hv : t.valid = false := by simpa using hr.valid_iff
      simp only [hv, hr.ok, Bool.false_eq_true, if_false, Status.isOk_ok, Bool.not_true]
      exact Ensures.pure ⟨rfl, hs, rfl⟩
    | cons e m =>
      have hv : t.valid = true := by simpa using hr.valid_iff
      simp only [hv, if_true]
      refine Ensures.pure ⟨rfl, hs, ?_⟩
      simp only [hi]
      exact ⟨pre, f, [], e :: m, hfiles, hidx, ht, hr, by simp, rfl⟩
  | cons g post ih =>
    rw [skipEmptyFilesForward]
    simp only [hi]
    cases m with
    | nil =>
      have hv : t.valid = false := by simpa using hr.valid_iff
      have hg : g ∈ it.files := by rw [hfiles]; simp
      simp only [hv, hr.ok, Bool.false_eq_true, if_false, Status.isOk_ok, Bool.not_true]
      have hseek := @TableIterator.rest_seekToFirst T M { table := g.table } hT (hf g hg)
        (hok g hg) rfl
      refine hseek.bind fun t' ⟨ht', hr'⟩ => ?_
      have hrec := @ih { it with index := it.index + 1, iter := some t' } t' (pre ++ [f]) g
        g.table.recs hf hok hs rfl (by simp [hfiles]) (by simp [hidx]) ht' hr'
      refine hrec.imp fun r ⟨h1, h2⟩ => ⟨h1, ?_⟩
      rw [levelRecs, List.flatMap_cons]
      exact h2
    | cons e m =>
      have hv : t.valid = true := by simpa using hr.valid_iff
      simp only [hv, if_true]
      refine Ensures.pure ⟨rfl, hs, ?_⟩
      simp only [hi]
      exact ⟨pre, f, g :: post, e :: m, hfiles, hidx, ht, hr, by simp, rfl⟩

theorem openAt_ensures (start : TableIterator → StoreM TableIterator) (hT : TablesOk T)
    (hf : ∀ f ∈ it.files, T f.table)
    (hok : ∀ f ∈ it.files, f.table.Good) (hs : it.status = .ok)
    (hfiles : it.files = pre ++ f :: post)
    (hstart : Ensures (Store.Serves T M) (start { table := f.table }) fun t =>
      t.table = f.table ∧ t.Rest m) :
    Ensures (Store.Serves T M) (it.openAt pre.length start) fun r =>
      r.files = it.files ∧ r.Rest (m ++ levelRecs post) := by
  have hget : it.files[pre.length]? = some f := by simp [hfiles]
  have hdrop : it.files.drop (pre.length + 1) = post := by
    rw [hfiles, ← List.drop_drop, List.drop_left' rfl]
    rfl
  simp only [openAt, hget, hdrop]
  refine hstart.bind fun t ⟨ht, hr⟩ => ?_
  have hskip := @skipEmptyFilesForward_ensures T M
    { it with index := pre.length, iter := some t } t pre f post m hT hf hok hs rfl hfiles rfl ht hr
  exact hskip

theorem rest_seekToFirst (hT : TablesOk T) (hf : ∀ f ∈ it.files, T f.table)
    (hok : LevelSorted it.files) (hs : it.status = .ok) :
    Ensures (Store.Serves T M) it.seekToFirst fun r =>
      r.files = it.files ∧ r.Rest (levelRecs it.files) := by
  rw [seekToFirst]
  cases hfiles : it.files with
  | nil =>
    simp only [openAt, hfiles, List.getElem?_nil]
    exact Ensures.pure ⟨rfl, hs, rfl⟩
  | cons f fs =>
    have hm : f ∈ it.files := by rw [hfiles]; exact List.mem_cons_self
    have hfs : it.files = [] ++ f :: fs := hfiles
    have h := openAt_ensures (M := M) TableIterator.seekToFirst hT hf hok.good hs hfs
      (TableIterator.rest_seekToFirst hT (hf f hm) (hok.good f hm) rfl)
    rw [hfiles] at h
    exact h

theorem rest_seek (hT : TablesOk T) (hf : ∀ f ∈ it.files, T f.table) (hok : LevelSorted it.files)
    (hs : it.status = .ok) (target : Bytes) :
    Ensures (Store.Serves T M) (it.seek target) fun r =>
      r.files = it.files ∧ r.Rest (seekTo Rec.pos (sortKey target) (levelRecs it.files)) := by
  set p : FileMetaData → Bool := fun f => compareInternalKey f.largest target == .lt with hp
  have hpair : it.files.Pairwise fun f g => p g = true → p f = true := by
    refine hok.disjoint.imp_of_mem fun {f g} hfm hgm hfg hpg => ?_
    obtain ⟨a, ha, hae⟩ := hok.largest_mem hfm
    obtain ⟨b, hb, hbe⟩ := hok.largest_mem hgm
    have hab := hfg a ha b hb
    rw [hae, hbe, compareInternalKey_lt] at hab
    rw [hp, beq_iff_eq, compareInternalKey_lt] at hpg ⊢
    exact hab.trans hpg
  have hsplit : it.files = it.files.takeWhile p ++ it.files.dropWhile p :=
    (List.takeWhile_append_dropWhile ..).symm
  have hbefore : ∀ a ∈ levelRecs (it.files.takeWhile p), a.pos < sortKey target := by
    intro a ha
    obtain ⟨f, hfm, haf⟩ := List.mem_flatMap.1 ha
    have hpf : p f = true := List.mem_takeWhile_imp hfm
    rw [hp, beq_iff_eq, compareInternalKey_lt] at hpf
    exact lt_of_le_of_lt (hok.pos_le_largest ((List.takeWhile_prefix p).subset hfm) haf) hpf
  have hrecs : levelRecs it.files =
      levelRecs (it.files.takeWhile p) ++ levelRecs (it.files.dropWhile p) := by
    rw [levelRecs, levelRecs, levelRecs, ← List.flatMap_append, ← hsplit]
  rw [seek, ← hp, lowerBoundOf_eq hpair, hrecs, seekTo_append_of_lt hbefore]
  cases hd : it.files.dropWhile p with
  | nil =>
    have hlen : it.files[(it.files.takeWhile p).length]? = none := by
      rw [List.getElem?_eq_none_iff]
      have := congrArg List.length hsplit
      rw [hd, List.append_nil] at this
      omega
    simp only [openAt, hlen]
    exact Ensures.pure ⟨rfl, hs, rfl⟩
  | cons f post =>
    rw [hd] at hsplit
    have hm : f ∈ it.files := by rw [hsplit]; simp
    have hstart := @TableIterator.rest_seek T M { table := f.table } hT (hf f hm)
      (hok.good f hm) rfl target
    have h := openAt_ensures (TableIterator.seek · target) hT hf hok.good hs hsplit hstart
    refine h.imp fun r ⟨h1, h2⟩ => ⟨h1, ?_⟩
    have hne : seekTo Rec.pos (sortKey target) f.recs ≠ [] := by
      have hpf : ¬ p f = true := by
        have hne : it.files.dropWhile p ≠ [] := by rw [hd]; simp
        have hnot := List.head_dropWhile_not p hne
        simp only [hd, List.head_cons] at hnot
        simp [hnot]
      rw [hp, beq_iff_eq, compareInternalKey_lt, not_lt] at hpf
      obtain ⟨a, ha, hae⟩ := hok.largest_mem hm
      intro hnil
      have : a ∈ seekTo Rec.pos (sortKey target) f.recs :=
        (hok.good f hm).ascending.mem_seekTo.2 ⟨ha, by rw [Rec.pos, hae]; exact hpf⟩
      rw [hnil] at this
      cases this
    rw [levelRecs, List.flatMap_cons, seekTo_append_of_ne_nil hne]
    exact h2

theorem Rest.next (h : it.Rest l) (hT : TablesOk T) (hf : ∀ f ∈ it.files, T f.table)
    (hok : ∀ f ∈ it.files, f.table.Good) :
    Ensures (Store.Serves T M) it.next fun r => r.files = it.files ∧ r.Rest l.tail := by
  have hat := h.at_list
  rw [LevelIterator.next]
  cases hi : it.iter with
  | none =>
    simp only [hi] at hat ⊢
    subst hat
    exact Ensures.pure ⟨rfl, h⟩
  | some t =>
    simp only [hi] at hat ⊢
    obtain ⟨pre, f, post, m, hfiles, hidx, ht, hr, hne, rfl⟩ := hat
    have hm : f ∈ it.files := by rw [hfiles]; simp
    have hrest : it.rest = post := by
      rw [rest, hfiles, hidx, ← List.drop_drop, List.drop_left' rfl]
      rfl
    refine (hr.next hT (ht ▸ hf f hm)).bind fun t' ⟨ht', hr'⟩ => ?_
    rw [hrest]
    have hskip := @skipEmptyFilesForward_ensures T M { it with iter := some t' } t' pre f post
      m.tail hT hf hok h.ok rfl hfiles hidx (ht'.trans ht) hr'
    refine hskip.imp fun r ⟨h1, h2⟩ => ⟨h1, ?_⟩
    cases m with
    | nil => exact absurd rfl hne
    | cons e m => exact h2

theorem Rest.valid_iff (h : it.Rest l) : it.valid = true ↔ l ≠ [] := by
  have hat := h.at_list
  rw [valid]
  cases hi : it.iter with
  | none =>
    simp only [hi] at hat
    simp [hat]
  | some t =>
    simp only [hi] at hat
    obtain ⟨_, _, _, m, _, _, _, hr, hne, rfl⟩ := hat
    simp only [hr.valid_iff, ne_eq, List.append_eq_nil_iff, not_and]
    exact ⟨fun _ hc => absurd hc hne, fun _ => hne⟩

theorem Rest.head (h : it.Rest (e :: l)) : it.key = e.1 ∧ it.value = e.2 := by
  have hat := h.at_list
  cases hi : it.iter with
  | none =>
    simp only [hi] at hat
    cases hat
  | some t =>
    simp only [hi] at hat
    obtain ⟨_, _, _, m, _, _, _, hr, hne, hl⟩ := hat
    cases m with
    | nil => exact absurd rfl hne
    | cons a m =>
      rw [List.cons_append, List.cons.injEq] at hl
      rw [key, value, hi, hl.1]
      exact hr.head

theorem Rest.getStatus (h : it.Rest l) : it.getStatus = .ok := by
  have hat := h.at_list
  rw [LevelIterator.getStatus, h.ok]
  simp only [Status.isOk_ok, Bool.not_true, Bool.false_eq_true, if_false]
  cases hi : it.iter with
  | none => rfl
  | some t =>
    simp only [hi] at hat
    obtain ⟨_, _, _, m, _, _, _, hr, _⟩ := hat
    exact hr.ok

theorem Rest.suffix (h : it.Rest l) : l <:+ levelRecs it.files := by
  have hat := h.at_list
  cases hi : it.iter with
  | none =>
    simp only [hi] at hat
    rw [hat]
    exact List.nil_suffix
  | some t =>
    simp only [hi] at hat
    obtain ⟨pre, f, post, m, hfiles, _, ht, hr, _, rfl⟩ := hat
    obtain ⟨u, hu⟩ := hr.suffix
    rw [ht] at hu
    refine ⟨levelRecs pre ++ u, ?_⟩
    rw [levelRecs, levelRecs, levelRecs, hfiles, List.flatMap_append, List.flatMap_cons,
      FileMetaData.recs, ← hu]
    simp

end LevelIterator

end LsmKv
