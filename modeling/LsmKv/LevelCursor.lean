import LsmKv.MergeCursor

namespace LsmKv
set_option autoImplicit true

variable {T : Table → Prop} {M : Nat → MemTable}

instance : Iterator LevelIterator where
  valid := LevelIterator.valid
  key := LevelIterator.key
  value := LevelIterator.value
  status := LevelIterator.getStatus
  seekToFirst := LevelIterator.seekToFirst
  seek := fun target it => it.seek target
  next := LevelIterator.next

instance : Inhabited TableIterator := ⟨{ table := ⟨"", [], 0, false, [], []⟩ }⟩

theorem LevelIterator.walks (hT : TablesOk T) :
    Walks (Store.Serves T M) (fun _ => True) LevelIterator.files levelRecs
      (fun it => (∀ f ∈ it.files, T f.table) ∧ LevelSorted it.files ∧ it.status = .ok)
      (fun it l => (∀ f ∈ it.files, T f.table) ∧ LevelSorted it.files ∧ it.Rest l) where
  sorted h := h.2.1.ascending.sorted
  ready h := ⟨h.1, h.2.1, h.2.2.ok⟩
  left h := (h.2.1.ascending.sublist h.2.2.suffix.sublist).sorted
  valid_iff h := h.2.2.valid_iff
  head h := h.2.2.head
  status h := h.2.2.getStatus
  seekToFirst := by
    intro it h
    refine (rest_seekToFirst hT h.1 h.2.1 h.2.2).imp fun r hr => ?_
    exact ⟨hr.1, by rw [hr.1]; exact ⟨h.1, h.2.1, hr.2⟩⟩
  seek := by
    intro it target h _
    refine (rest_seek hT h.1 h.2.1 h.2.2 target).imp fun r hr => ?_
    exact ⟨hr.1, by rw [hr.1]; exact ⟨h.1, h.2.1, hr.2⟩⟩
  next := by
    intro it e l h
    refine (h.2.2.next hT h.1 h.2.1.good).imp fun r hr => ?_
    exact ⟨hr.1, by rw [hr.1]; exact ⟨h.1, h.2.1, hr.2⟩⟩

theorem mergeRuns_levelRecs {files : List FileMetaData} (h : LevelSorted files) :
    mergeRuns Rec.pos (files.map FileMetaData.recs) = levelRecs files := by
  rw [mergeRuns, levelRecs, ← List.flatMap_def]
  refine List.mergeSort_of_pairwise (h.ascending.imp fun hab => ?_)
  exact decide_eq_true hab.le

/-- A cursor for each file of a level. -/
def fileIterators (files : List FileMetaData) : MergingIterator TableIterator :=
  { children := files.map fun f => { table := f.table } }

/-- After any calls the level iterator shows what a merge over its files shows: the first entry
that the calls leave of the files' entries. -/
theorem level_eq_merge (hT : TablesOk T) {files : List FileMetaData}
    (hf : ∀ f ∈ files, T f.table) (hs : LevelSorted files) (as : List CursorCall)
    (hst : Store.Serves T M st) (hst' : Store.Serves T M st') :
    let level := ((Iterator.calls ({ files } : LevelIterator) as).run st).1
    let merge := ((Iterator.calls (fileIterators files) as).run st').1
    Iterator.shown level = Iterator.shown merge ∧
      Iterator.shown level = (as.foldl (CursorCall.move (levelRecs files)) []).head? := by
  have hlw := LevelIterator.walks (M := M) hT
  have hmw := MergingIterator.walks (TableIterator.walks (M := M) hT)
  have hready : ∀ c ∈ (fileIterators files).children,
      (T c.table ∧ c.table.Good ∧ c.status = .ok) ∧ Iterator.status c = .ok := by
    intro c hc
    obtain ⟨f, hm, rfl⟩ := List.mem_map.1 hc
    exact ⟨⟨hf f hm, hs.good f hm, rfl⟩, rfl⟩
  have hrecs : mergeRuns Rec.pos (((fileIterators files).children.map TableIterator.table).map
      Table.recs) = levelRecs files := by
    rw [← mergeRuns_levelRecs hs, fileIterators, List.map_map, List.map_map]
    rfl
  have hlevel :=
    (hlw.moves (c := { files }) (l := []) ⟨hf, hs, rfl, rfl⟩ as fun _ _ => trivial) st hst
  have hmerge := (hmw.moves (c := fileIterators files) (l := []) ⟨hready, .inr ⟨rfl, rfl⟩⟩ as
    fun _ _ => trivial) st' hst'
  rw [hrecs] at hmerge
  have hshown := hlw.shown hlevel.1.2
  exact ⟨hshown.trans (hmw.shown hmerge.1.2).symm, hshown⟩

/-- A level of two files, and a `Seek` for a version behind all of the first. -/
theorem level_eq_merge_twoFiles : ∃ f g : FileMetaData,
    f.recs = threeRecs.take 2 ∧ g.recs = threeRecs.drop 2 ∧
    (let calls : List CursorCall :=
      [.seekToFirst, .next, .seek (encodeInternalKey [97] 0 .kValue)]
    let level := ((Iterator.calls ({ files := [f, g] } : LevelIterator) calls).run {}).1
    let merge := ((Iterator.calls (fileIterators [f, g]) calls).run {}).1
    Iterator.shown level = Iterator.shown merge ∧
      Iterator.shown level = some (Rec.encode [98] 2 .kDeletion [])) := by
  have hfits : TableFits {} (threeRecs.take 2) ∧ TableFits {} (threeRecs.drop 2) :=
    ⟨tableFits_of_file (by decide +kernel), tableFits_of_file (by decide +kernel)⟩
  obtain ⟨t, -, hn, hg, hr⟩ := openFile_good "000001.sst" 1 {} hfits.1
    (ascending_threeRecs.sublist (List.take_sublist 2 _))
  obtain ⟨t', -, hn', hg', hr'⟩ := openFile_good "000002.sst" 2 {} hfits.2
    (ascending_threeRecs.sublist (List.drop_sublist 2 _))
  have hT : TablesOk (· ∈ [t, t']) := tablesOk_of_good (by simp [hg, hg']) (by simp [hn, hn'])
  let file (t : Table) : FileMetaData := ⟨t.number, 0, firstKeyOf t.recs, lastKeyOf t.recs, t⟩
  have hs : LevelSorted [file t, file t'] := by
    refine ⟨by simp [file, hg, hg'], by simp [file], ?_, List.pairwise_pair.2 ?_⟩
    · simp [file, FileMetaData.recs, hr, hr', threeRecs]
    · change ∀ a ∈ t.recs, ∀ b ∈ t'.recs, _
      rw [hr, hr']
      decide
  have hst : Store.Serves (· ∈ [t, t']) (fun _ => {}) {} := ⟨rfl, fun _ h => (by cases h), rfl⟩
  have hlevel : levelRecs [file t, file t'] = threeRecs := by
    simp only [levelRecs, file, List.flatMap_cons, List.flatMap_nil, FileMetaData.recs, hr, hr']
    rfl
  have h := level_eq_merge hT (by simp [file]) hs
    [.seekToFirst, .next, .seek (encodeInternalKey [97] 0 .kValue)] hst hst
  refine ⟨file t, file t', hr, hr', h.1, h.2.trans ?_⟩
  rw [hlevel]
  decide

end LsmKv
