import LsmKv.ScanCursor

namespace LsmKv
set_option autoImplicit true

open Versioned

variable {T : Table → Prop} {M : Nat → MemTable} {k : Bytes} {s : Nat}

/-- The lookup of a read: the first run that has a version of the key decides. -/
def firstFound (runs : List (List Rec)) (k : Bytes) (s : Nat) : Option Rec :=
  runs.findSome? fun l => findVersion l k s

theorem firstFound_cons (l : List Rec) (runs : List (List Rec)) (k : Bytes) (s : Nat) :
    firstFound (l :: runs) k s = (findVersion l k s).or (firstFound runs k s) := by
  rw [firstFound, List.findSome?_cons]
  cases findVersion l k s <;> rfl

theorem firstFound_append (runs runs' : List (List Rec)) (k : Bytes) (s : Nat) :
    firstFound (runs ++ runs') k s = (firstFound runs k s).or (firstFound runs' k s) :=
  List.findSome?_append

/-- Runs from newest to oldest. -/
structure RunsOk (runs : List (List Rec)) : Prop where
  ascending : ∀ l ∈ runs, Ascending Rec.pos l
  ok : ∀ l ∈ runs, ∀ r ∈ l, r.Ok
  shadows : runs.Pairwise fun l m => Shadows {r | r ∈ l} {r | r ∈ m}

theorem RunsOk.tail (h : RunsOk (l :: runs)) : RunsOk runs :=
  ⟨fun m hm => h.ascending m (List.mem_cons_of_mem l hm),
    fun m hm => h.ok m (List.mem_cons_of_mem l hm), (List.pairwise_cons.1 h.shadows).2⟩

theorem setOf_mem_flatten_cons (l : List Rec) (runs : List (List Rec)) :
    {r | r ∈ (l :: runs).flatten} = {r | r ∈ l} ∪ {r | r ∈ runs.flatten} := by
  ext r
  simp

theorem RunsOk.shadows_flatten (h : RunsOk (l :: runs)) :
    Shadows {r | r ∈ l} {r | r ∈ runs.flatten} := by
  intro x hx y hy hk
  obtain ⟨m, hm, hym⟩ := List.mem_flatten.1 hy
  exact (List.pairwise_cons.1 h.shadows).1 m hm x hx y hym hk

theorem RunsOk.newest (h : RunsOk runs) (hs : s ≤ kMaxSequenceNumber)
    (hf : firstFound runs k s = some x) : Newest {r | r ∈ runs.flatten} k s x := by
  induction runs with
  | nil => cases hf
  | cons l runs ih =>
    rw [setOf_mem_flatten_cons]
    have hasc := h.ascending l List.mem_cons_self
    have hok := h.ok l List.mem_cons_self
    rw [firstFound, List.findSome?_cons] at hf
    cases hv : findVersion l k s with
    | some y =>
      rw [hv] at hf
      cases hf
      exact (findVersion_newest hasc hok hs hv).union_left h.shadows_flatten
    | none =>
      rw [hv] at hf
      exact (newest_union_right (findVersion_none hasc hok hs hv)).2 (ih h.tail hf)

theorem RunsOk.not_seen (h : RunsOk runs) (hs : s ≤ kMaxSequenceNumber)
    (hf : firstFound runs k s = none) : ∀ r ∈ runs.flatten, r.userKey = k → ¬ r.seq ≤ s := by
  intro r hr
  obtain ⟨l, hl, hrl⟩ := List.mem_flatten.1 hr
  have hv : findVersion l k s = none := by
    rw [firstFound, List.findSome?_eq_none_iff] at hf
    exact hf l hl
  exact findVersion_none (h.ascending l hl) (h.ok l hl) hs hv r hrl

/-- What a read returns for the version it found. -/
def answerOf (o : Option Rec) : Except Status Bytes :=
  match o with
  | some r => r.answer
  | none => .error .notFound

/-- What a read at `s` should return: the value of the newest version, unless it deletes. -/
def Reads (U : Set Rec) (k : Bytes) (s : Nat) (res : Except Status Bytes) : Prop :=
  (∃ v, res = .ok v ∧ Shown U s k v) ∨ (res = .error .notFound ∧ ∀ v, ¬ Shown U s k v)

theorem RunsOk.reads (h : RunsOk runs) (hd : Distinct {r | r ∈ runs.flatten})
    (hs : s ≤ kMaxSequenceNumber) :
    Reads {r | r ∈ runs.flatten} k s (answerOf (firstFound runs k s)) := by
  cases hf : firstFound runs k s with
  | none =>
    refine .inr ⟨rfl, ?_⟩
    rintro v ⟨r, ⟨hn, _⟩, _⟩
    exact h.not_seen hs hf r hn.mem hn.key_eq hn.seq_le
  | some x =>
    have hn := h.newest hs hf
    rw [answerOf, Rec.answer]
    cases hx : x.isDeletion with
    | true =>
      refine .inr ⟨rfl, ?_⟩
      rintro v ⟨r, ⟨hr, hrd⟩, _⟩
      rw [hr.unique hd hn, Rec.dead_def, hx] at hrd
      cases hrd
    | false => exact .inl ⟨x.2, rfl, x, ⟨hn, hx⟩, rfl⟩

theorem Reads.unique (hd : Distinct U) (h : Reads U k s a) (h' : Reads U k s b) : a = b := by
  rcases h with ⟨v, rfl, x, hx, rfl⟩ | ⟨rfl, hn⟩
    <;> rcases h' with ⟨w, rfl, y, hy, rfl⟩ | ⟨rfl, hn'⟩
  · rw [hx.unique hd hy]
  · exact absurd ⟨x, hx, rfl⟩ (hn' _)
  · exact absurd ⟨y, hy, rfl⟩ (hn _)
  · rfl

theorem AgreeAt.shown (h : AgreeAt s U U') : Shown U s k v ↔ Shown U' s k v :=
  exists_congr fun x => and_congr_left' (h k x)

theorem AgreeAt.reads (h : AgreeAt s U U') : Reads U k s a ↔ Reads U' k s a := by
  simp only [Reads, h.shown]

theorem Agree.reads (h : Agree S U U') (hs : S ≤ s) : Reads U k s a ↔ Reads U' k s a :=
  AgreeAt.reads (h s hs)

theorem findVersion_eq_none (h : ∀ r ∈ l, r.userKey ≠ k) : findVersion l k s = none := by
  cases hv : findVersion l k s with
  | none => rfl
  | some r =>
    obtain ⟨hm, hk⟩ := findVersion_mem hv
    exact absurd hk (h r hm)

theorem firstKey_le {l : List Rec} (h : Ascending Rec.pos l) (ha : a ∈ l) :
    extractUserKey (firstKeyOf l) ≤ a.userKey := by
  cases l with
  | nil => cases ha
  | cons e l =>
    refine userKey_le_of_pos_le (a := e) ?_
    rcases List.mem_cons.1 ha with rfl | ha
    · exact le_refl _
    · exact ((ascending_cons.1 h).1 a ha).le

theorem le_lastKey {l : List Rec} (h : Ascending Rec.pos l) (ha : a ∈ l) :
    a.userKey ≤ extractUserKey (lastKeyOf l) := by
  obtain ⟨e, he, hk⟩ := exists_pos_lastKeyOf (List.ne_nil_of_mem ha)
  rw [← hk]
  refine userKey_le_of_pos_le (b := e) ?_
  rw [Rec.pos, Rec.pos, hk]
  exact pos_le_lastKeyOf h ha

namespace Version

theorem probe_ensures {f : FileMetaData} (hT : TablesOk T) (ht : T f.table) (hf : f.Ok)
    (k : Bytes) (s : Nat) : Ensures (Store.Serves T M) (probe f k s)
      (· = (findVersion f.recs k s).map Rec.answer) := by
  rw [probe]
  refine Ensures.ite (fun hout => Ensures.pure ?_) fun _ => hf.good.get_ensures hT ht k s
  rw [findVersion_eq_none, Option.map_none]
  intro r hr hk
  rw [hf.smallest, hf.largest] at hout
  rcases hout with h | h
  · exact absurd (firstKey_le hf.good.ascending hr) (not_le_of_gt (hk ▸ h))
  · exact absurd (le_lastKey hf.good.ascending hr) (not_le_of_gt (hk ▸ h))

theorem getLevel0_ensures (hT : TablesOk T) {fs : List FileMetaData} (ht : ∀ f ∈ fs, T f.table)
    (hf : ∀ f ∈ fs, f.Ok) (k : Bytes) (s : Nat) :
    Ensures (Store.Serves T M) (getLevel0 k s fs)
      (· = (firstFound (fs.map FileMetaData.recs) k s).map Rec.answer) := by
  induction fs with
  | nil => exact Ensures.pure rfl
  | cons f fs ih =>
    rw [getLevel0, List.map_cons, firstFound, List.findSome?_cons]
    refine (probe_ensures hT (ht f List.mem_cons_self) (hf f List.mem_cons_self) k s).bind
      fun r hr => ?_
    subst hr
    cases hv : findVersion f.recs k s with
    | some x => exact Ensures.pure rfl
    | none =>
      exact ih (fun g hg => ht g (List.mem_cons_of_mem f hg))
        (fun g hg => hf g (List.mem_cons_of_mem f hg))

theorem getLevel_ensures (hT : TablesOk T) {fs : List FileMetaData} (ht : ∀ f ∈ fs, T f.table)
    (hf : LevelOk fs) (k : Bytes) (s : Nat) :
    Ensures (Store.Serves T M) (getLevel fs k s)
      (· = (findVersion (levelRecs fs) k s).map Rec.answer) := by
  set p : FileMetaData → Bool := fun f => decide (extractUserKey f.largest < k) with hp
  have hpair : fs.Pairwise fun f g => p g = true → p f = true := by
    refine hf.pairwise_largest (p := fun b => decide (extractUserKey b < k)) fun a b hab hb => ?_
    rw [decide_eq_true_iff] at hb ⊢
    exact lt_trans hab hb
  have hdrop : fs.drop (lowerBoundOf p fs) = fs.dropWhile p := by
    rw [lowerBoundOf_eq hpair]
    conv_lhs => rw [← List.takeWhile_append_dropWhile (p := p) (l := fs)]
    rw [List.drop_left']
    rw [List.takeWhile_append_dropWhile]
  have hbefore : ∀ f ∈ fs.takeWhile p, ∀ a ∈ f.recs, a.userKey < k := by
    intro f hm a ha
    have hpf : p f = true := List.mem_takeWhile_imp hm
    rw [hp, decide_eq_true_iff] at hpf
    have hfok := hf.file f ((List.takeWhile_prefix p).subset hm)
    rw [hfok.largest] at hpf
    exact lt_of_le_of_lt (le_lastKey hfok.good.ascending ha) hpf
  have hsplit : fs.takeWhile p ++ fs.dropWhile p = fs := List.takeWhile_append_dropWhile ..
  rw [getLevel, hdrop]
  cases hd : fs.dropWhile p with
  | nil =>
    refine Ensures.pure ?_
    rw [hd, List.append_nil] at hsplit
    rw [findVersion_eq_none, Option.map_none]
    intro r hr hk
    obtain ⟨f, hm, hrf⟩ := List.mem_flatMap.1 hr
    have hlt := hbefore f (hsplit.symm ▸ hm) r hrf
    exact absurd hlt (by rw [hk]; exact lt_irrefl _)
  | cons f post =>
    have hm : f ∈ fs := by
      have : f ∈ fs.dropWhile p := by rw [hd]; exact List.mem_cons_self
      exact (List.dropWhile_suffix p).subset this
    refine (probe_ensures hT (ht f hm) (hf.file f hm) k s).imp fun r hr => ?_
    subst hr
    congr 1
    -- the other files hold no version of the key
    have hpf : k ≤ extractUserKey f.largest := by
      have hne : fs.dropWhile p ≠ [] := by rw [hd]; simp
      have hnot := List.head_dropWhile_not p hne
      simp only [hd, List.head_cons] at hnot
      rw [hp, decide_eq_false_iff_not, not_lt] at hnot
      exact hnot
    have hafter : ∀ a ∈ levelRecs post, k < a.userKey := by
      intro a ha
      obtain ⟨g, hg, hag⟩ := List.mem_flatMap.1 ha
      have hdis := hf.disjoint
      rw [← hsplit, hd, List.pairwise_append] at hdis
      obtain ⟨b, hb, hbk⟩ := (hf.file f hm).largest_mem (hf.ne_nil f hm)
      have hlt := (List.pairwise_cons.1 hdis.2.1).1 g hg b hb a hag
      rw [← hbk] at hpf
      exact lt_of_le_of_lt hpf hlt
    have hrecs : levelRecs fs = levelRecs (fs.takeWhile p) ++ (f.recs ++ levelRecs post) := by
      conv_lhs => rw [← hsplit, hd]
      simp [levelRecs]
    have hpre : ∀ a ∈ levelRecs (fs.takeWhile p), a.pos < sortKey (lookupKey k s) := by
      intro a ha
      obtain ⟨g, hg, hag⟩ := List.mem_flatMap.1 ha
      rw [Rec.pos, sortKey_lt_iff, lookupKey, extractUserKey_encode]
      exact .inl (hbefore g hg a hag)
    rw [findVersion, findVersion, hrecs, seekTo_append_of_lt hpre]
    by_cases hne : seekTo Rec.pos (sortKey (lookupKey k s)) f.recs = []
    · rw [hne]
      have hall : ∀ a ∈ f.recs, a.pos < sortKey (lookupKey k s) := by
        intro a ha
        by_contra hc
        have := (hf.file f hm).good.ascending.mem_seekTo.2 ⟨ha, not_lt.1 hc⟩
        rw [show seekTo Rec.pos (sortKey (lookupKey k s)) f.table.recs = [] from hne] at this
        cases this
      rw [seekTo_append_of_lt hall]
      cases hs : seekTo Rec.pos (sortKey (lookupKey k s)) (levelRecs post) with
      | nil => rfl
      | cons a l =>
        have ha : a ∈ levelRecs post := (seekTo_suffix _ _).subset (hs ▸ List.mem_cons_self)
        simp only [if_neg (hafter a ha).ne']
    · rw [seekTo_append_of_ne_nil hne]
      cases hs : seekTo Rec.pos (sortKey (lookupKey k s)) f.recs with
      | nil => exact absurd hs hne
      | cons a l => rfl

/-- The runs a lookup goes through below the memtables. -/
def runs (v : Version) : List (List Rec) :=
  (v.levels 0).map FileMetaData.recs ++
    (List.range' 1 (kNumLevels - 1)).map fun l => levelRecs (v.levels l)

/-- Every file is what its metadata says, and the levels below L0 are sorted. -/
structure Ok (v : Version) : Prop where
  level0 : ∀ f ∈ v.levels 0, f.Ok
  deeper : ∀ l, 0 < l → LevelOk (v.levels l)
  empty : ∀ l, kNumLevels ≤ l → v.levels l = []

def tables (v : Version) (t : Table) : Prop := ∃ l, ∃ f ∈ v.levels l, f.table = t

theorem getDeeper_ensures {v : Version} (hT : TablesOk T) (ht : ∀ t, v.tables t → T t) (hv : v.Ok)
    (ls : List Nat) (hl : ∀ l ∈ ls, 0 < l) (k : Bytes) (s : Nat) :
    Ensures (Store.Serves T M) (v.getDeeper k s ls)
      (· = (firstFound (ls.map fun l => levelRecs (v.levels l)) k s).map Rec.answer) := by
  induction ls with
  | nil => exact Ensures.pure rfl
  | cons l ls ih =>
    rw [getDeeper, List.map_cons, firstFound, List.findSome?_cons]
    refine (getLevel_ensures hT (fun f hf => ht _ ⟨l, f, hf, rfl⟩)
      (hv.deeper l (hl l List.mem_cons_self)) k s).bind fun r hr => ?_
    subst hr
    cases hv : findVersion (levelRecs (v.levels l)) k s with
    | some x => exact Ensures.pure rfl
    | none => exact ih fun m hm => hl m (List.mem_cons_of_mem l hm)

theorem get_ensures {v : Version} (hT : TablesOk T) (ht : ∀ t, v.tables t → T t) (hv : v.Ok)
    (k : Bytes) (s : Nat) :
    Ensures (Store.Serves T M) (v.get k s) (· = (firstFound v.runs k s).map Rec.answer) := by
  refine (getLevel0_ensures hT (fun f hf => ht _ ⟨0, f, hf, rfl⟩) hv.level0 k s).bind
    fun r hr => ?_
  subst hr
  rw [runs, firstFound_append]
  cases h0 : firstFound ((v.levels 0).map FileMetaData.recs) k s with
  | some x => exact Ensures.pure rfl
  | none =>
    exact getDeeper_ensures hT ht hv (List.range' 1 (kNumLevels - 1))
      (fun l hl => (List.mem_range'_1.1 hl).1) k s

end Version

end LsmKv
