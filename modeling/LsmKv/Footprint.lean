import LsmKv.JobSteps

namespace LsmKv
set_option autoImplicit true

/-! An iterator reads blocks of its own tables only, wherever it stands and whatever has become of
the memtables: moving it leaves the memtables and the tables' blocks as they are. -/

section Uses
variable {T : Table → Prop} {M : Nat → MemTable}

theorem Table.Good.read {t : Table} (h : t.Good) (he : e ∈ t.index) :
    ∃ v, t.readFile e = .ok v := by
  obtain ⟨_, _, hb, _⟩ := h
  obtain ⟨i, hi, rfl⟩ := List.mem_iff_getElem.1 he
  have hlen := hb.index.length_eq
  exact ⟨_, (hb.index.get hi (hlen ▸ hi)).1⟩

theorem Table.Good.readBlock {t : Table} (h : t.Good) (hT : TablesOk T) (ht : T t)
    (he : e ∈ t.index) :
    Ensures (Store.Serves T M) (t.readBlock e) fun _ => True := by
  obtain ⟨v, hv⟩ := h.read he
  exact (Table.readBlock_ensures hT ht he hv).imp fun _ _ => trivial

namespace TableIterator

variable {it : TableIterator}

theorem loadBlocks_table (hT : TablesOk T) (hg : ∀ t, T t → t.Good) (ht : T it.table)
    (hes : ∀ e ∈ es, e ∈ it.table.index) :
    Ensures (Store.Serves T M) (it.loadBlocks target es) fun it' => it'.table = it.table := by
  induction es generalizing it target with
  | nil => exact Ensures.pure rfl
  | cons e es ih =>
    have he := hes e List.mem_cons_self
    rw [loadBlocks]
    refine ((hg _ ht).readBlock hT ht he).bind fun r _ => ?_
    cases r with
    | error status => exact Ensures.pure rfl
    | ok contents =>
      refine Ensures.ite (fun _ => Ensures.pure rfl) fun _ => ?_
      refine Ensures.ite (fun _ => Ensures.pure rfl) fun _ => ?_
      refine Ensures.ite (fun _ => Ensures.pure rfl) fun _ => ?_
      exact ih ht fun e' he' => hes e' (List.mem_cons_of_mem e he')

theorem loadBlock_table (hT : TablesOk T) (hg : ∀ t, T t → t.Good) (ht : T it.table) :
    Ensures (Store.Serves T M) (it.loadBlock target) fun it' => it'.table = it.table := by
  refine Ensures.ite (fun _ => ?_) fun _ => Ensures.pure rfl
  exact loadBlocks_table hT hg ht fun e he => List.mem_of_mem_drop he

theorem seekToFirst_table (hT : TablesOk T) (hg : ∀ t, T t → t.Good) (ht : T it.table) :
    Ensures (Store.Serves T M) it.seekToFirst fun it' => it'.table = it.table :=
  loadBlock_table hT hg ht

theorem seek_table (hT : TablesOk T) (hg : ∀ t, T t → t.Good) (ht : T it.table) (target : Bytes) :
    Ensures (Store.Serves T M) (it.seek target) fun it' => it'.table = it.table :=
  loadBlock_table hT hg ht

theorem next_table (hT : TablesOk T) (hg : ∀ t, T t → t.Good) (ht : T it.table) :
    Ensures (Store.Serves T M) it.next fun it' => it'.table = it.table := by
  refine Ensures.ite (fun _ => Ensures.pure rfl) fun _ => ?_
  refine Ensures.ite (fun _ => Ensures.pure rfl) fun _ => ?_
  refine Ensures.ite (fun _ => Ensures.pure rfl) fun _ => ?_
  exact loadBlock_table hT hg ht

end TableIterator

namespace LevelIterator

structure Uses (T : Table → Prop) (it : LevelIterator) : Prop where
  files : ∀ f ∈ it.files, T f.table
  iter : ∀ t, it.iter = some t → T t.table

variable {it : LevelIterator}

theorem skipEmptyFilesForward_uses (hT : TablesOk T) (hg : ∀ t, T t → t.Good) (h : it.Uses T)
    (hfs : ∀ f ∈ fs, T f.table) :
    Ensures (Store.Serves T M) (it.skipEmptyFilesForward fs) (Uses T) := by
  induction fs generalizing it with
  | nil =>
    rw [skipEmptyFilesForward]
    split
    · exact Ensures.pure h
    · refine Ensures.ite (fun _ => Ensures.pure h) fun _ => ?_
      refine Ensures.ite (fun _ => Ensures.pure ⟨h.files, h.iter⟩) fun _ => ?_
      exact Ensures.pure ⟨h.files, fun _ ht => (by cases ht)⟩
  | cons f fs ih =>
    rw [skipEmptyFilesForward]
    split
    · exact Ensures.pure h
    · refine Ensures.ite (fun _ => Ensures.pure h) fun _ => ?_
      refine Ensures.ite (fun _ => Ensures.pure ⟨h.files, h.iter⟩) fun _ => ?_
      have hf := hfs f List.mem_cons_self
      refine (TableIterator.seekToFirst_table hT hg hf).bind fun t ht => ?_
      refine ih ⟨h.files, fun t' ht' => ?_⟩ fun f' hf' => hfs f' (List.mem_cons_of_mem f hf')
      cases ht'
      exact ht ▸ hf

theorem openAt_uses (hT : TablesOk T) (hg : ∀ t, T t → t.Good) (h : it.Uses T)
    {start : TableIterator → StoreM TableIterator}
    (hstart : ∀ t : TableIterator, T t.table →
      Ensures (Store.Serves T M) (start t) fun t' => t'.table = t.table) :
    Ensures (Store.Serves T M) (it.openAt i start) (Uses T) := by
  rw [openAt]
  split
  · exact Ensures.pure ⟨h.files, fun _ ht => (by cases ht)⟩
  · rename_i f hf
    have ht := h.files f (List.mem_of_getElem? hf)
    refine (hstart { table := f.table } ht).bind fun t he => ?_
    refine skipEmptyFilesForward_uses hT hg ⟨h.files, fun t' ht' => ?_⟩
      fun f' hf' => h.files f' (List.mem_of_mem_drop hf')
    cases ht'
    exact he ▸ ht

theorem next_uses (hT : TablesOk T) (hg : ∀ t, T t → t.Good) (h : it.Uses T) :
    Ensures (Store.Serves T M) it.next (Uses T) := by
  rw [next]
  split
  · exact Ensures.pure h
  · rename_i t hit
    have ht := h.iter t hit
    refine (TableIterator.next_table hT hg ht).bind fun t' he => ?_
    refine skipEmptyFilesForward_uses hT hg ⟨h.files, fun t'' ht'' => ?_⟩
      fun f' hf' => h.files f' (List.mem_of_mem_drop hf')
    cases ht''
    exact he ▸ ht

end LevelIterator

namespace Iter

def Uses (T : Table → Prop) : Iter → Prop
  | mem _ => True
  | table it => T it.table
  | level it => it.Uses T

variable {it : Iter}

theorem seekToFirst_uses (hT : TablesOk T) (hg : ∀ t, T t → t.Good) (h : it.Uses T) :
    Ensures (Store.Serves T M) it.seekToFirst (Uses T) := by
  cases it with
  | mem it =>
    have hread : Ensures (Store.Serves T M) it.seekToFirst fun _ => True :=
      Ensures.get_bind fun _ _ => Ensures.pure trivial
    exact hread.map fun _ _ => trivial
  | table it =>
    have ht : T it.table := h
    exact (TableIterator.seekToFirst_table hT hg ht).map fun _ he => (congrArg T he).mpr ht
  | level it =>
    exact (LevelIterator.openAt_uses hT hg h fun _ => TableIterator.seekToFirst_table hT hg).map
      fun _ hu => hu

theorem seek_uses (hT : TablesOk T) (hg : ∀ t, T t → t.Good) (h : it.Uses T) (target : Bytes) :
    Ensures (Store.Serves T M) (it.seek target) (Uses T) := by
  cases it with
  | mem it =>
    have hread : Ensures (Store.Serves T M) (it.seek target) fun _ => True :=
      Ensures.get_bind fun _ _ => Ensures.pure trivial
    exact hread.map fun _ _ => trivial
  | table it =>
    have ht : T it.table := h
    exact (TableIterator.seek_table hT hg ht target).map fun _ he => (congrArg T he).mpr ht
  | level it =>
    exact (LevelIterator.openAt_uses hT hg h fun _ ht =>
      TableIterator.seek_table hT hg ht target).map fun _ hu => hu

theorem next_uses (hT : TablesOk T) (hg : ∀ t, T t → t.Good) (h : it.Uses T) :
    Ensures (Store.Serves T M) it.next (Uses T) := by
  cases it with
  | mem it =>
    have hread : Ensures (Store.Serves T M) it.next fun _ => True := by
      refine Ensures.get_bind fun _ _ => ?_
      split
      · exact Ensures.pure trivial
      · exact Ensures.pure trivial
    exact hread.map fun _ _ => trivial
  | table it =>
    have ht : T it.table := h
    exact (TableIterator.next_table hT hg ht).map fun _ he => (congrArg T he).mpr ht
  | level it => exact (LevelIterator.next_uses hT hg h).map fun _ hu => hu

end Iter

namespace MergingIterator

def Uses (T : Table → Prop) (it : MergingIterator Iter) : Prop := ∀ c ∈ it.children, c.Uses T

variable {it : MergingIterator Iter}

theorem mapM_uses {move : Iter → StoreM Iter} (h : it.Uses T)
    (hm : ∀ c : Iter, c.Uses T → Ensures (Store.Serves T M) (move c) (Iter.Uses T)) :
    Ensures (Store.Serves T M) (buildHeap <$> it.children.mapM move) (Uses T) := by
  refine (Ensures.mapM fun c hc => hm c (h c hc)).map fun cs hcs c hc => ?_
  obtain ⟨i, hi, rfl⟩ := List.mem_iff_getElem.1 hc
  have hlen := hcs.length_eq
  exact hcs.get (hlen ▸ hi) hi

theorem child_uses (h : it.Uses T) (i : Nat) : (it.child i).Uses T := by
  rw [child, List.getD_eq_getElem?_getD]
  cases hc : it.children[i]? with
  | none => trivial
  | some c => exact h c (List.mem_of_getElem? hc)

theorem next_uses (hT : TablesOk T) (hg : ∀ t, T t → t.Good) (h : it.Uses T) :
    Ensures (Store.Serves T M) it.next (Uses T) := by
  refine Ensures.bind (Iter.next_uses hT hg (child_uses h _)) fun c hc => Ensures.pure ?_
  intro c' hc'
  rcases List.mem_or_eq_of_mem_set hc' with hm | rfl
  · exact h c' hm
  · exact hc

end MergingIterator

namespace DBIter

def Uses (T : Table → Prop) (it : DBIter) : Prop := it.inner.Uses T

variable {it : DBIter}

theorem skipLoop_uses (hT : TablesOk T) (hg : ∀ t, T t → t.Good) {m : MergingIterator Iter}
    (h : m.Uses T) : Ensures (Store.Serves T M) (skipLoop k fuel m) (MergingIterator.Uses T) := by
  induction fuel generalizing m with
  | zero => exact Ensures.pure h
  | succ fuel ih =>
    refine Ensures.ite (fun _ => ?_) fun _ => Ensures.pure h
    exact (MergingIterator.next_uses hT hg h).bind fun m' hm' => ih hm'

theorem skipRestOfCurrentKey_uses (hT : TablesOk T) (hg : ∀ t, T t → t.Good) (h : it.Uses T) :
    Ensures (Store.Serves T M) it.skipRestOfCurrentKey (Uses T) :=
  Ensures.get_bind fun _ _ => (skipLoop_uses hT hg h).bind fun _ hm => Ensures.pure hm

theorem advanceLoop_uses (hT : TablesOk T) (hg : ∀ t, T t → t.Good) (h : it.Uses T) :
    Ensures (Store.Serves T M) (advanceLoop fuel it) (Uses T) := by
  induction fuel generalizing it with
  | zero => exact Ensures.pure h
  | succ fuel ih =>
    refine Ensures.ite (fun _ => Ensures.pure h) fun _ => ?_
    refine Ensures.ite (fun _ => ?_) fun _ => ?_
    · exact (MergingIterator.next_uses hT hg h).bind fun m hm => ih hm
    · refine Ensures.ite (fun _ => ?_) fun _ => Ensures.pure h
      have hkey : Uses T { it with key := extractUserKey it.inner.key } := h
      exact (skipRestOfCurrentKey_uses hT hg hkey).bind fun it' hit' => ih hit'

theorem advanceToNextLiveKey_uses (hT : TablesOk T) (hg : ∀ t, T t → t.Good) (h : it.Uses T) :
    Ensures (Store.Serves T M) it.advanceToNextLiveKey (Uses T) :=
  Ensures.get_bind fun _ _ => advanceLoop_uses hT hg h

theorem seekToFirst_uses (hT : TablesOk T) (hg : ∀ t, T t → t.Good) (h : it.Uses T) :
    Ensures (Store.Serves T M) it.seekToFirst (Uses T) :=
  (MergingIterator.mapM_uses h fun _ => Iter.seekToFirst_uses hT hg).bind fun _ hm =>
    advanceToNextLiveKey_uses hT hg hm

theorem seek_uses (hT : TablesOk T) (hg : ∀ t, T t → t.Good) (h : it.Uses T) (target : Bytes) :
    Ensures (Store.Serves T M) (it.seek target) (Uses T) :=
  (MergingIterator.mapM_uses h fun _ hc => Iter.seek_uses hT hg hc _).bind fun _ hm =>
    advanceToNextLiveKey_uses hT hg hm

theorem next_uses (hT : TablesOk T) (hg : ∀ t, T t → t.Good) (h : it.Uses T) :
    Ensures (Store.Serves T M) it.next (Uses T) :=
  (skipRestOfCurrentKey_uses hT hg h).bind fun _ hit => advanceToNextLiveKey_uses hT hg hit

end DBIter

theorem Iter.Uses.mono {it : Iter} (h : it.Uses T) (hTT : ∀ t, T t → T' t) : it.Uses T' := by
  cases it with
  | mem it => trivial
  | table it => exact hTT _ h
  | level it => exact ⟨fun f hf => hTT _ (h.files f hf), fun t ht => hTT _ (h.iter t ht)⟩

theorem DBIter.Uses.mono {it : DBIter} (h : it.Uses T) (hTT : ∀ t, T t → T' t) : it.Uses T' :=
  fun c hc => (h c hc).mono hTT

theorem Db.Capture.newIterator_uses {c : Db.Capture} (h : ∀ t, c.version.tables t → T t) :
    c.newIterator.Uses T := by
  intro i hi
  have hfile : ∀ l, ∀ f ∈ c.version.levels l, T f.table := fun l f hf => h _ ⟨l, f, hf, rfl⟩
  rcases List.mem_append.1 hi with hi | hi
  · rcases List.mem_append.1 hi with hi | hi
    · rcases List.mem_cons.1 hi with rfl | hi
      · trivial
      · obtain ⟨_, _, rfl⟩ := List.mem_map.1 hi
        trivial
    · obtain ⟨f, hf, rfl⟩ := List.mem_map.1 hi
      exact hfile 0 f hf
  · obtain ⟨l, _, rfl⟩ := List.mem_map.1 hi
    exact ⟨hfile l, fun _ ht => (nomatch ht)⟩

end Uses

/-- A step of a client's iterator. -/
def Act.scans : Act → Prop
  | newIterator _ _ => True
  | seekToFirst _ => True
  | seek _ _ => True
  | next _ => True
  | _ => False

/-- What a step of an open process can only add to. Its iterators change only under `p`. -/
structure Onward (p : Prop) (s s' : Sys) : Prop where
  running : s.mode = .running → s'.mode = .running
  next_le : s.db.nextFileNumber ≤ s'.db.nextFileNumber
  last_le : s.db.lastSequence ≤ s'.db.lastSequence
  opened : s.opened <+: s'.opened
  hist : s.hist <+: s'.hist
  scans : ¬ p → s'.scans = s.scans

theorem Db.beginCompaction_db {db db' : Db} (h : db.beginCompaction level = some (db', c)) :
    c.level = level ∧ ∃ pointer, db' = { db with compactPointer := pointer } := by
  rw [beginCompaction] at h
  dsimp only at h
  split at h <;> cases h
  exact ⟨rfl, _, rfl⟩

namespace Onward

variable {p : Prop} {s s' s'' : Sys}

theorem of_eq (hm : s'.mode = s.mode) (hn : s'.db.nextFileNumber = s.db.nextFileNumber)
    (hl : s'.db.lastSequence = s.db.lastSequence) (ho : s'.opened = s.opened)
    (hh : s'.hist = s.hist) (hs : s'.scans = s.scans) : Onward p s s' :=
  ⟨fun h => hm.trans h, hn.ge, hl.ge, ho ▸ List.prefix_rfl, hh ▸ List.prefix_rfl, fun _ => hs⟩

theorem refl (s : Sys) : Onward p s s := .of_eq rfl rfl rfl rfl rfl rfl

theorem trans (h : Onward p s s') (h' : Onward p s' s'') : Onward p s s'' :=
  ⟨fun hm => h'.running (h.running hm), h.next_le.trans h'.next_le, h.last_le.trans h'.last_le,
    h.opened.trans h'.opened, h.hist.trans h'.hist, fun hp => (h'.scans hp).trans (h.scans hp)⟩

theorem scan (hm : s'.mode = s.mode) (hn : s'.db.nextFileNumber = s.db.nextFileNumber)
    (hl : s'.db.lastSequence = s.db.lastSequence) (ho : s'.opened = s.opened)
    (hh : s'.hist = s.hist) (hp : p) : Onward p s s' :=
  ⟨fun h => hm.trans h, hn.ge, hl.ge, ho ▸ List.prefix_rfl, hh ▸ List.prefix_rfl,
    fun h => absurd hp h⟩

theorem draw (hm : s'.mode = s.mode) (hn : s'.db.nextFileNumber = s.db.nextFileNumber + 1)
    (hl : s'.db.lastSequence = s.db.lastSequence) (ho : s'.opened = s.opened)
    (hh : s'.hist = s.hist) (hs : s'.scans = s.scans) : Onward p s s' :=
  ⟨fun h => hm.trans h, by omega, hl.ge, ho ▸ List.prefix_rfl, hh ▸ List.prefix_rfl, fun _ => hs⟩

theorem fail (h : Onward p s s') (status : Status) : Onward p s (s'.fail status) := by
  refine h.trans ?_
  rw [Sys.fail]
  split
  · rename_i hm
    refine ⟨fun hr => ?_, le_rfl, le_rfl, List.prefix_rfl, List.prefix_rfl, fun _ => rfl⟩
    rw [hr] at hm
    cases hm
  · exact .of_eq rfl rfl rfl rfl rfl rfl

theorem commitVersion (h : Onward p s s') (v : Version) : Onward p s (s'.commitVersion v).1 := by
  refine h.trans ?_
  rw [Sys.commitVersion]
  split
  · exact .refl s'
  · exact .of_eq rfl rfl rfl rfl rfl rfl

theorem phaseStep (hs : s.phaseStep order phase = some (t, next)) : Onward p s t := by
  cases phase with
  | flushOpen n b =>
    rw [Sys.phaseStep] at hs
    split at hs <;> cases hs
    · exact .fail (.refl s) _
    · exact ⟨id, le_rfl, le_rfl, List.prefix_append _ _, List.prefix_rfl, fun _ => rfl⟩
  | flushInstall f =>
    rw [Sys.phaseStep] at hs
    split at hs
    · obtain ⟨rfl, _⟩ := Prod.ext_iff.1 (Option.some.inj hs)
      refine .commitVersion ?_ _
      exact .of_eq rfl rfl rfl rfl rfl rfl
    · cases hs
  | compactMerge c =>
    simp only [Sys.phaseStep] at hs
    generalize c.merge.run s.store = p at hs
    obtain ⟨⟨recs, status⟩, store⟩ := p
    dsimp only at hs
    split at hs <;> cases hs
    · exact .of_eq rfl rfl rfl rfl rfl rfl
    · refine .fail ?_ _
      exact .of_eq rfl rfl rfl rfl rfl rfl
  | compactNext c todo outputs =>
    cases todo with
    | nil =>
      rw [Sys.phaseStep] at hs
      split at hs
      · obtain ⟨rfl, _⟩ := Prod.ext_iff.1 (Option.some.inj hs)
        exact .commitVersion (.refl s) _
      · cases hs
    | cons b todo =>
      rw [Sys.phaseStep] at hs
      split at hs <;> cases hs
      exact .draw rfl rfl rfl rfl rfl rfl
  | compactOpen c n b todo outputs =>
    rw [Sys.phaseStep] at hs
    split at hs <;> cases hs
    · exact .fail (.refl s) _
    · exact ⟨id, le_rfl, le_rfl, List.prefix_append _ _, List.prefix_rfl, fun _ => rfl⟩
  | commitWait v =>
    rw [Sys.phaseStep] at hs
    split at hs <;> cases hs
    exact .of_eq rfl rfl rfl rfl rfl rfl
  | cleanup v l p =>
    rw [Sys.phaseStep] at hs
    split at hs <;> cases hs
    exact .refl s
  | commitDone =>
    rw [Sys.phaseStep] at hs
    split at hs <;> cases hs
    exact .of_eq rfl rfl rfl rfl rfl rfl
  | logOpened n =>
    cases hs
    exact .of_eq rfl rfl rfl rfl rfl rfl
  | recovered =>
    cases hs
    exact ⟨fun _ => rfl, le_rfl, le_rfl, List.prefix_rfl, List.prefix_rfl, fun _ => rfl⟩

theorem failPhase (hs : s.failPhase io phase = some t) : Onward p s t := by
  rw [Sys.failPhase.eq_def] at hs
  split at hs
  · cases hs
    refine .fail ?_ _
    exact .of_eq rfl rfl rfl rfl rfl rfl
  · cases hs
    refine .fail ?_ _
    exact .of_eq rfl rfl rfl rfl rfl rfl
  · split at hs <;> cases hs
    refine .fail ?_ _
    exact .of_eq rfl rfl rfl rfl rfl rfl
  · split at hs <;> cases hs
    exact .fail (.refl s) _
  · split at hs <;> cases hs
    exact .fail (.refl s) _
  · cases hs

theorem step (hs : LsmKv.step s a = some s') (ha : a.internal) : Onward a.scans s s' := by
  cases a with
  | write id entries sync =>
    obtain ⟨_, _, _, rfl⟩ := Sys.write_cases hs
    exact .of_eq rfl rfl rfl rfl rfl rfl
  | rotate byFlush =>
    obtain ⟨_, _, _, _, _, rfl⟩ := Sys.rotate_cases hs
    exact .draw rfl rfl rfl rfl rfl rfl
  | rotateIo n =>
    obtain ⟨_, _, _, _, _, rfl⟩ := Sys.rotateIo_cases hs
    exact .of_eq rfl rfl rfl rfl rfl rfl
  | rotateSwap =>
    obtain ⟨_, _, _, _, rfl⟩ := Sys.rotateSwap_cases hs
    exact .of_eq rfl rfl rfl rfl rfl rfl
  | begin elapsed =>
    obtain ⟨_, _, _, _, _, _, ⟨_, rfl⟩ | ⟨_, rfl⟩⟩ := Sys.begin_cases hs
    · exact .of_eq rfl rfl rfl rfl rfl rfl
    · exact ⟨id, le_rfl, Nat.le_add_right _ _, List.prefix_rfl, List.prefix_rfl, fun _ => rfl⟩
  | append n =>
    obtain ⟨_, _, _, ⟨_, _, rfl⟩ | rfl⟩ := Sys.append_cases hs
    · exact .of_eq rfl rfl rfl rfl rfl rfl
    · exact ⟨id, le_rfl, le_rfl, List.prefix_rfl, List.prefix_append _ _, fun _ => rfl⟩
  | syncLog =>
    obtain ⟨_, _, _, _, rfl⟩ := Sys.syncLog_cases hs
    exact .of_eq rfl rfl rfl rfl rfl rfl
  | insert =>
    obtain ⟨_, _, _, _, _, _, _, rfl⟩ := Sys.insert_cases hs
    exact .of_eq rfl rfl rfl rfl rfl rfl
  | finish =>
    obtain ⟨_, _, _, _, _, _, _, rfl⟩ := Sys.finish_cases hs
    exact .of_eq rfl rfl rfl rfl rfl rfl
  | getSnapshot =>
    obtain ⟨_, _, rfl⟩ := Sys.getSnapshot_cases hs
    exact .of_eq rfl rfl rfl rfl rfl rfl
  | releaseSnapshot handle =>
    obtain ⟨_, _, rfl⟩ := Sys.releaseSnapshot_cases hs
    exact .of_eq rfl rfl rfl rfl rfl rfl
  | getBegin id key snapshot =>
    obtain ⟨_, _, _, _, _, rfl⟩ := Sys.getBegin_cases hs
    exact .of_eq rfl rfl rfl rfl rfl rfl
  | getEnd id =>
    obtain ⟨_, _, _, rfl⟩ := Sys.getEnd_cases hs
    exact .of_eq rfl rfl rfl rfl rfl rfl
  | newIterator id snapshot =>
    obtain ⟨_, _, _, _, rfl⟩ := Sys.newIterator_cases hs
    exact .scan rfl rfl rfl rfl rfl trivial
  | seekToFirst id =>
    have hmove : s.moveScan id true DBIter.seekToFirst = some s' := hs
    obtain ⟨_, _, _, rfl⟩ := Sys.moveScan_cases hmove
    exact .scan rfl rfl rfl rfl rfl trivial
  | seek id target =>
    have hmove : s.moveScan id true (DBIter.seek · target) = some s' := hs
    obtain ⟨_, _, _, rfl⟩ := Sys.moveScan_cases hmove
    exact .scan rfl rfl rfl rfl rfl trivial
  | next id =>
    obtain ⟨_, _, _, _, hmove⟩ := Sys.next_cases hs
    obtain ⟨_, _, _, rfl⟩ := Sys.moveScan_cases hmove
    exact .scan rfl rfl rfl rfl rfl trivial
  | startFlush =>
    obtain ⟨_, _, _, rfl⟩ := Sys.startFlush_cases hs
    exact .draw rfl rfl rfl rfl rfl rfl
  | startCompaction level =>
    obtain ⟨_, _, _, db, c, hb, rfl⟩ := Sys.startCompaction_cases hs
    obtain ⟨_, pointer, rfl⟩ := Db.beginCompaction_db hb
    exact .of_eq rfl rfl rfl rfl rfl rfl
  | startLog =>
    obtain ⟨_, _, _, rfl⟩ := Sys.startLog_cases hs
    exact .draw rfl rfl rfl rfl rfl rfl
  | job i n order =>
    obtain ⟨j, _, ⟨_, t, next, hp, rfl⟩ | ⟨_, _, _, rfl⟩⟩ := Sys.jobStep_cases hs
    · exact (Onward.phaseStep hp).trans (.of_eq rfl rfl rfl rfl rfl rfl)
    · exact .of_eq rfl rfl rfl rfl rfl rfl
  | failAppend n =>
    obtain ⟨_, _, _, _, rfl⟩ := Sys.failAppend_cases hs
    exact .of_eq rfl rfl rfl rfl rfl rfl
  | failSync =>
    obtain ⟨_, _, _, _, _, rfl⟩ := Sys.failSync_cases hs
    exact .of_eq rfl rfl rfl rfl rfl rfl
  | failRotate n =>
    obtain ⟨_, _, _, _, rfl⟩ := Sys.failRotate_cases hs
    exact .of_eq rfl rfl rfl rfl rfl rfl
  | failJob i n =>
    obtain ⟨j, fs, t, _, _, _, _, ht, rfl⟩ := Sys.failJob_cases hs
    have hfs : Onward False s { s with fs := fs } := .of_eq rfl rfl rfl rfl rfl rfl
    exact (hfs.trans (Onward.failPhase ht)).trans (.of_eq rfl rfl rfl rfl rfl rfl)
  | kill => cases ha
  | recover options path => cases ha
  | powerLoss keep cut => cases ha
  | powerLossData cut => cases ha

end Onward

/-- The iterators of clients read tables that the process has open. -/
structure ScansOk (s : Sys) : Prop where
  idle : s.mode ≠ .running → s.scans = []
  uses : ∀ c ∈ s.scans, c.it.Uses (· ∈ s.opened)

namespace ScansOk

variable {σ : Prop} {gh : Ghost} {s s' : Sys} {id : Nat}

theorem onward (h : ScansOk s) (ho : Onward False s s') : ScansOk s' := by
  have hscans := ho.scans not_false
  refine ⟨fun hm => ?_, fun c hc => ?_⟩
  · rw [hscans]
    exact h.idle fun hr => hm (ho.running hr)
  · rw [hscans] at hc
    exact (h.uses c hc).mono fun t ht => ho.opened.subset ht

theorem newIterator (h : ScansOk s) (hS : Sound σ gh s) (hs : s.newIterator id snapshot = some s') :
    ScansOk s' := by
  obtain ⟨sn, _, hm, _, rfl⟩ := Sys.newIterator_cases hs
  refine ⟨fun hr => absurd hm hr, fun c hc => ?_⟩
  rcases List.mem_append.1 hc with hc | hc
  · exact h.uses c hc
  · obtain rfl := List.mem_singleton.1 hc
    refine Db.Capture.newIterator_uses fun t ht => ?_
    obtain ⟨l, f, hf, rfl⟩ := ht
    exact (hS.tables.live l f hf).1

theorem moveScan (h : ScansOk s) (hS : Sound σ gh s) {f : DBIter → StoreM DBIter}
    (hf : ∀ it, DBIter.Uses (· ∈ s.opened) it →
      Ensures (Store.Serves (· ∈ s.opened) s.store.mems) (f it) (DBIter.Uses (· ∈ s.opened)))
    (hs : s.moveScan id fresh f = some s') :
    s'.store.Serves (· ∈ s.opened) s.store.mems ∧ ScansOk s' := by
  obtain ⟨scan, hscan, _, rfl⟩ := Sys.moveScan_cases hs
  obtain ⟨huses, hserves⟩ := hf scan.it (h.uses scan hscan) s.store hS.tables.serves
  refine ⟨hserves, fun hm => ?_, fun c hc => ?_⟩
  · rw [h.idle hm] at hscan
    cases hscan
  · obtain ⟨c', hc', rfl⟩ := List.mem_map.1 hc
    by_cases he : (c'.id == id) = true
    · rw [if_pos he]
      exact huses
    · rw [if_neg he]
      exact h.uses c' hc'

theorem moves (h : ScansOk s) (hS : Sound σ gh s) (hs : LsmKv.step s a = some s')
    (hm : a.movesScan) :
    s'.store.Serves (· ∈ s.opened) s.store.mems ∧ ScansOk s' := by
  have hT := hS.tables.tablesOk
  have hg := hS.tables.good
  cases a with
  | seekToFirst id => exact h.moveScan hS (fun _ => DBIter.seekToFirst_uses hT hg) hs
  | seek id target => exact h.moveScan hS (fun _ hu => DBIter.seek_uses hT hg hu target) hs
  | next id =>
    obtain ⟨_, _, _, _, hmove⟩ := Sys.next_cases hs
    exact h.moveScan hS (fun _ => DBIter.next_uses hT hg) hmove
  | _ => cases hm

theorem step (h : ScansOk s) (hS : Sound σ gh s) (hs : LsmKv.step s a = some s') (ha : a.internal) :
    ScansOk s' := by
  have ho := Onward.step hs ha
  cases a with
  | newIterator id snapshot => exact h.newIterator hS hs
  | seekToFirst id => exact (h.moves hS hs trivial).2
  | seek id target => exact (h.moves hS hs trivial).2
  | next id => exact (h.moves hS hs trivial).2
  | _ => exact h.onward ho

end ScansOk

end LsmKv
