import LsmKv.Restart

namespace LsmKv
set_option autoImplicit true

open Versioned

variable {σ : Prop} {gh : Ghost} {s : Sys}

/-- The records that a flush which starts now would pass to `Add`, and those that a compaction which
merges now would, table by table. -/
def Sys.adds (s : Sys) : List (List Rec) :=
  (s.db.imm.toList.map fun imm => keepFrom false s.db.smallestSnapshot {}
    (s.store.mems imm).recs) ++ s.jobs.flatMap fun j =>
      match j.phase with
      | .compactMerge c => compactAdds s.db.options c.bottomMost c.smallestSnapshot {} []
          (c.merge.run s.store).1.1
      | _ => []

/-- The records are in the order that the assertion in `Add` asks for. -/
def AddOrder (es : List Rec) : Prop := es.Pairwise fun x y => compareInternalKey x.1 y.1 = .lt

theorem AddOrder.of_ascending {es : List Rec} (h : Ascending Rec.pos es) : AddOrder es :=
  h.imp fun hxy => compareInternalKey_lt.2 hxy

theorem Sys.startFlush_adds {s' : Sys} (h : s.startFlush = some s') :
    ∃ es ∈ s.adds, ∃ number, s'.jobs = s.jobs ++
      [⟨writeTable number (built s.db.options es).file,
        .flushOpen number (built s.db.options es)⟩] := by
  rw [startFlush] at h
  cases hi : s.db.imm with
  | none =>
    rw [hi] at h
    cases h
  | some imm =>
    simp only [hi, Option.bind_eq_bind, Option.bind_some] at h
    split at h
    · cases h
      refine ⟨keepFrom false s.db.smallestSnapshot {} (s.store.mems imm).recs, ?_,
        s.db.nextFileNumber, ?_⟩
      · exact List.mem_append_left _ (by simp [hi])
      · simp only [flushLoop_eq, built]
    · cases h

theorem Sys.compactMerge_adds {t : Sys} {j : Job} {c : Compaction}
    (h : s.phaseStep order (.compactMerge c) = some (t, some j))
    (hj : ⟨[], .compactMerge c⟩ ∈ s.jobs) :
    ∃ outs : List (List Rec), (∀ es ∈ outs, es ∈ s.adds) ∧
      j = ⟨[], .compactNext c (outs.map (built s.db.options)) []⟩ := by
  have hmem : ∀ es ∈ compactAdds s.db.options c.bottomMost c.smallestSnapshot {} []
      (c.merge.run s.store).1.1, es ∈ s.adds := fun es hes =>
    List.mem_append_right _ (List.mem_flatMap.2 ⟨_, hj, hes⟩)
  simp only [phaseStep] at h
  generalize c.merge.run s.store = p at h hmem
  obtain ⟨⟨recs, status⟩, store⟩ := p
  have he := compactLoop_adds s.db.options c.bottomMost c.smallestSnapshot {} [] recs
  rw [openBuilder_nil] at he
  simp only [he] at h
  split at h
  · cases h
    exact ⟨_, hmem, rfl⟩
  · cases h

namespace Sound

theorem compact_adds (h : Sound σ gh s) {c : Compaction} (hcp : Compacting σ gh.floor s c)
    (hes : es ∈ compactAdds s.db.options c.bottomMost c.smallestSnapshot {} []
      (c.merge.run s.store).1.1) :
    Ascending Rec.pos es := by
  have hlay := h.layered fun ho => by simp [hcp.running] at ho
  have hd := hlay.inputs_distinct h.logged.seqAsc hcp.picked
  have hin : ∀ f ∈ c.inputs, f.table ∈ s.opened := fun f hf => by
    rcases hcp.picked.mem_inputs hf with hl | hl
    · exact (h.tables.live _ f hl).1
    · exact (h.tables.live _ f hl).1
  have hres := ((Compaction.merge_ensures h.tables.tablesOk hin
    fun f hf => h.tables.good _ (hin f hf)) s.store h.tables.serves).1
  rw [hres] at hes
  have hkept := hcp.picked.kept_ascending hlay.wf hd hcp.floor_le c.bottomMost
  have hflat := flatten_compactAdds s.db.options c.bottomMost c.smallestSnapshot {} [] c.merged
  rw [List.nil_append] at hflat
  exact (hflat ▸ hkept).sublist (List.sublist_flatten_of_mem hes)

theorem adds (h : Sound σ gh s) (hes : es ∈ s.adds) : Ascending Rec.pos es := by
  rcases List.mem_append.1 hes with hes | hes
  · obtain ⟨imm, hi, rfl⟩ := List.mem_map.1 hes
    exact (h.imm_asc (Option.mem_toList.1 hi)).sublist (keepFrom_sublist _ _ _ _)
  · obtain ⟨j, hj, hes⟩ := List.mem_flatMap.1 hes
    rcases h.jobs with ⟨hnil, _⟩ | ⟨j', hone, hok⟩
    · rw [hnil] at hj
      cases hj
    · rw [hone, List.mem_singleton] at hj
      subst hj
      cases hok with
      | compactMerge hc hcp => exact h.compact_adds hcp hes
      | _ => cases hes

end Sound

/-- While no job starts beside another one, everything that goes to `Add` is in order, and so is
what every table holds, after any number of crashes. -/
theorem adds_ascending (h : Run (fun s a s' => Crashes s a s' ∧ (a.startsJob → s.jobs = [])) {} s)
    (hm : s.mode ≠ .closed) :
    (∀ es ∈ s.adds, AddOrder es) ∧ ∀ t ∈ s.opened, AddOrder t.recs := by
  have hrun : Run (Orderly False) {} s := h.mono fun s a s' hp => hp.1.orderly hp.2
  obtain ⟨gh, m, logs, hS, _⟩ := (Good.run hrun).sound hm
  exact ⟨fun es hes => .of_ascending (hS.adds hes),
    fun t ht => .of_ascending (hS.tables.good t ht).ascending⟩

theorem Run.of_alone (h : runActs Orderly.check {} as = some s) :
    Run (fun s a s' => Crashes s a s' ∧ (a.startsJob → s.jobs = [])) {} s := by
  refine Run.of_checks (fun s a s' hc hs hsh => ?_) h
  obtain ⟨ha, hc⟩ := (Bool.and_eq_true _ _).mp hc
  exact ⟨.of_check hc hs hsh, Act.alone_of_check ha⟩

set_option synthInstance.maxSize 2000 in
/-- A compaction of the two tables that were written from one log, beside a memtable to flush. -/
theorem adds_ascending_reopened : ∃ s,
    runActs Orderly.check {} (sampleActs ++ rotateActs ++ [.startCompaction 0]) = some s ∧
    s.adds.map (List.map Rec.seq) = [[4], [3]] ∧ (∀ es ∈ s.adds, AddOrder es) ∧
    ∀ t ∈ s.opened, AddOrder t.recs := by
  obtain ⟨s, hs, hm, ha⟩ : ∃ s,
      runActs Orderly.check {} (sampleActs ++ rotateActs ++ [.startCompaction 0]) = some s ∧
      s.mode ≠ .closed ∧ s.adds.map (List.map Rec.seq) = [[4], [3]] := by
    decide +kernel
  exact ⟨s, hs, ha, adds_ascending (Run.of_alone hs) hm⟩

section TwoFlushes

/-- Two client threads, without a background thread, flush the same memtable; the second install
finds the first one's table in level 0, and the snapshot taken before the write keeps both copies of
its record. -/
def twoFlushActs : List Act :=
  .recover { l0CompactionTrigger := 2, backgroundCompaction := false } "db" ::
    .startLog :: jobActs 8 ++ .job 0 0 [.manifest, .log 1] :: jobActs 1 ++
    .getSnapshot :: putActs [97] [1] ++ rotateActs ++ [.startFlush, .startFlush] ++
    List.replicate 10 (.job 1 0 []) ++ .job 1 0 [.manifest, .sst 4, .log 2, .log 1] ::
    List.replicate 2 (.job 1 0 []) ++ jobActs 10 ++ .job 0 0 [.manifest, .sst 3, .sst 4, .log 2] ::
    jobActs 1 ++ [.startCompaction 0]

set_option synthInstance.maxSize 2000 in
theorem twoFlushActs_adds : ∃ s, runActs Crashes.check {} twoFlushActs = some s ∧
    s.mode ≠ .closed ∧ ∃ es ∈ s.adds, ∃ x ∈ es, es = [x, x] := by
  decide +kernel

theorem adds_not_ascending :
    ¬ ∀ s, Run Crashes {} s → s.mode ≠ .closed → ∀ es ∈ s.adds, AddOrder es := by
  intro h
  obtain ⟨s, hs, hm, es, hes, x, _, rfl⟩ := twoFlushActs_adds
  have hrun : Run Crashes {} s := Run.of_checks (fun _ _ _ => Crashes.of_check) hs
  have hlt := (List.pairwise_cons.1 (h s hrun hm _ hes)).1 x List.mem_cons_self
  exact absurd (compareInternalKey_lt.1 hlt) (lt_irrefl _)

end TwoFlushes

end LsmKv
