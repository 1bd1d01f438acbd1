import LsmKv.Ordering

namespace LsmKv
set_option autoImplicit true

variable {σ : Prop} {gh : Ghost} {s s' t : Sys} {next : Option Job}

/-- The state without what jobs work on: what is left is the queue and the leader, and what the
clients hold and have seen. -/
def Sys.front (s : Sys) : Sys :=
  { s with
    fs := .empty
    mode := .closed
    failed := none
    db := {
      options := s.db.options
      mem := s.db.mem
      snapshots := s.db.snapshots
      lastSequence := s.db.lastSequence }
    store := {}
    jobs := []
    opened := [] }

/-- A flush, a compaction or `Recover` starts, goes on or fails. -/
def Act.ofJob : Act → Prop
  | startFlush => True
  | startCompaction _ => True
  | startLog => True
  | job _ _ _ => True
  | failJob _ _ => True
  | _ => False

namespace Sys

theorem front_fail (s : Sys) (status : Status) : (s.fail status).front = s.front := by
  rw [fail]
  split <;> rfl

theorem front_commitVersion (s : Sys) (v : Version) : (s.commitVersion v).1.front = s.front := by
  rw [commitVersion]
  split <;> rfl

theorem front_phaseStep (hs : s.phaseStep order phase = some (t, next)) : t.front = s.front := by
  cases phase with
  | flushOpen n b =>
    rw [phaseStep] at hs
    split at hs <;> cases hs
    · exact front_fail s _
    · rfl
  | flushInstall f =>
    rw [phaseStep] at hs
    split at hs
    · obtain ⟨rfl, _⟩ := Prod.ext_iff.1 (Option.some.inj hs)
      exact front_commitVersion _ _
    · cases hs
  | compactMerge c =>
    simp only [phaseStep] at hs
    generalize c.merge.run s.store = p at hs
    obtain ⟨⟨recs, status⟩, store⟩ := p
    dsimp only at hs
    split at hs <;> cases hs
    · rfl
    · exact front_fail _ _
  | compactNext c todo outputs =>
    cases todo with
    | nil =>
      rw [phaseStep] at hs
      split at hs
      · obtain ⟨rfl, _⟩ := Prod.ext_iff.1 (Option.some.inj hs)
        exact front_commitVersion s _
      · cases hs
    | cons b todo =>
      rw [phaseStep] at hs
      split at hs <;> cases hs
      rfl
  | compactOpen c n b todo outputs =>
    rw [phaseStep] at hs
    split at hs <;> cases hs
    · exact front_fail s _
    · rfl
  | commitWait v =>
    rw [phaseStep] at hs
    split at hs <;> cases hs
    rfl
  | cleanup v l p =>
    rw [phaseStep] at hs
    split at hs <;> cases hs
    rfl
  | commitDone =>
    rw [phaseStep] at hs
    split at hs <;> cases hs
    rfl
  | logOpened n =>
    cases hs
    rfl
  | recovered =>
    cases hs
    rfl

theorem front_failPhase (hs : s.failPhase io phase = some t) : t.front = s.front := by
  obtain ⟨db, ⟨c, rfl⟩, what, ht⟩ := failPhase_cases hs
  rw [ht, front_fail]
  rfl

/-- A job leaves the rest of the state as it is. -/
theorem front_job (hs : LsmKv.step s a = some s') (ha : a.ofJob) : s'.front = s.front := by
  cases a with
  | startFlush =>
    obtain ⟨_, _, _, rfl⟩ := startFlush_cases hs
    rfl
  | startCompaction level =>
    obtain ⟨_, _, _, db, c, hb, rfl⟩ := startCompaction_cases hs
    obtain ⟨_, pointer, rfl⟩ := Db.beginCompaction_db hb
    rfl
  | startLog =>
    obtain ⟨_, _, _, rfl⟩ := startLog_cases hs
    rfl
  | job i n order =>
    obtain ⟨j, _, ⟨_, t, next, hp, rfl⟩ | ⟨_, _, _, rfl⟩⟩ := jobStep_cases hs
    · have ht : t.front = s.front := front_phaseStep hp
      exact ht
    · rfl
  | failJob i n =>
    obtain ⟨j, fs, t, _, _, _, _, ht, rfl⟩ := failJob_cases hs
    have ht : t.front = Sys.front { s with fs := fs } := front_failPhase ht
    exact ht
  | _ => cases ha

theorem kept_job {α : Type} (hs : LsmKv.step s a = some s') (ha : a.ofJob) (f : Sys → α)
    (hf : ∀ s, f s.front = f s) : f s' = f s := by
  rw [← hf s', ← hf s, front_job hs ha]

theorem mems_fail (s : Sys) (status : Status) : (s.fail status).store.mems = s.store.mems := by
  rw [fail]
  split <;> rfl

theorem mems_phaseStep (hs : s.phaseStep order phase = some (t, next))
    (hm : ∀ c, phase = .compactMerge c → (c.merge.run s.store).2.mems = s.store.mems) :
    t.store.mems = s.store.mems := by
  cases phase with
  | flushOpen n b =>
    rw [phaseStep] at hs
    split at hs <;> cases hs
    · exact mems_fail s _
    · rfl
  | flushInstall f =>
    rw [phaseStep] at hs
    split at hs
    · obtain ⟨rfl, _⟩ := Prod.ext_iff.1 (Option.some.inj hs)
      rw [commitVersion]
      split <;> rfl
    · cases hs
  | compactMerge c =>
    have hmems := hm c rfl
    simp only [phaseStep] at hs
    generalize c.merge.run s.store = p at hs hmems
    obtain ⟨⟨recs, status⟩, store⟩ := p
    dsimp only at hs
    split at hs <;> cases hs
    · exact hmems
    · rw [mems_fail]
      exact hmems
  | compactNext c todo outputs =>
    cases todo with
    | nil =>
      rw [phaseStep] at hs
      split at hs
      · obtain ⟨rfl, _⟩ := Prod.ext_iff.1 (Option.some.inj hs)
        rw [commitVersion]
        split <;> rfl
      · cases hs
    | cons b todo =>
      rw [phaseStep] at hs
      split at hs <;> cases hs
      rfl
  | compactOpen c n b todo outputs =>
    rw [phaseStep] at hs
    split at hs <;> cases hs
    · exact mems_fail s _
    · rfl
  | commitWait v =>
    rw [phaseStep] at hs
    split at hs <;> cases hs
    rfl
  | cleanup v l p =>
    rw [phaseStep] at hs
    split at hs <;> cases hs
    rfl
  | commitDone =>
    rw [phaseStep] at hs
    split at hs <;> cases hs
    rfl
  | logOpened n =>
    cases hs
    rfl
  | recovered =>
    cases hs
    rfl

end Sys

theorem Sys.recover_cases (hs : s.recover options path = some s') :
    s.mode = .closed ∧ ((∃ status, s' = { s with failed := some status }) ∨
      ∃ m es, loadManifest options path s.fs = .ok m ∧
        replayLogs path s.fs (liveLogs s.fs m.logNumber) = .ok es ∧
        s' = s.recovering options path m es) := by
  rw [recover] at hs
  split at hs
  · rename_i hm
    refine ⟨hm, ?_⟩
    split at hs
    · exact .inl ⟨_, (Option.some.inj hs).symm⟩
    · rename_i m hload
      split at hs
      · exact .inl ⟨_, (Option.some.inj hs).symm⟩
      · rename_i es hes
        exact .inr ⟨m, es, hload, hes, (Option.some.inj hs).symm⟩
  · cases hs

/-- A client takes or gives back a snapshot, or calls `Get`. -/
def Act.ofReader : Act → Prop
  | getSnapshot => True
  | releaseSnapshot _ => True
  | getBegin _ _ _ => True
  | getEnd _ => True
  | _ => False

/-- What the readers hold and have seen. -/
structure SameReaders (s s' : Sys) : Prop where
  snapshots : s'.db.snapshots = s.db.snapshots
  gets : s'.gets = s.gets
  answers : s'.answers = s.answers
  nextHandle : s'.nextHandle = s.nextHandle

/-- The groups that were finished. -/
structure SameDone (s s' : Sys) : Prop where
  done : s'.done = s.done
  acked : s'.acked = s.acked

/-- Only calls of readers change what readers hold, and only the end of a group what is finished. -/
theorem Sys.step_kept (hs : LsmKv.step s a = some s') (ha : a.internal) :
    (¬ a.ofReader → SameReaders s s') ∧ (a ≠ .finish → SameDone s s') := by
  have hjob : a.ofJob → SameReaders s s' ∧ SameDone s s' := fun hj =>
    ⟨⟨kept_job hs hj (·.db.snapshots) fun _ => rfl, kept_job hs hj gets fun _ => rfl,
      kept_job hs hj answers fun _ => rfl, kept_job hs hj nextHandle fun _ => rfl⟩,
      kept_job hs hj done fun _ => rfl, kept_job hs hj acked fun _ => rfl⟩
  have hjob' := fun hj => And.intro (fun _ : ¬ a.ofReader => (hjob hj).1)
    (fun _ : a ≠ .finish => (hjob hj).2)
  cases a with
  | write id entries sync =>
    obtain ⟨_, _, _, rfl⟩ := write_cases hs
    exact ⟨fun _ => ⟨rfl, rfl, rfl, rfl⟩, fun _ => ⟨rfl, rfl⟩⟩
  | rotate byFlush =>
    obtain ⟨_, _, _, _, _, rfl⟩ := rotate_cases hs
    exact ⟨fun _ => ⟨rfl, rfl, rfl, rfl⟩, fun _ => ⟨rfl, rfl⟩⟩
  | rotateIo n =>
    obtain ⟨_, _, _, _, _, rfl⟩ := rotateIo_cases hs
    exact ⟨fun _ => ⟨rfl, rfl, rfl, rfl⟩, fun _ => ⟨rfl, rfl⟩⟩
  | rotateSwap =>
    obtain ⟨_, _, _, _, rfl⟩ := rotateSwap_cases hs
    exact ⟨fun _ => ⟨rfl, rfl, rfl, rfl⟩, fun _ => ⟨rfl, rfl⟩⟩
  | begin elapsed =>
    obtain ⟨_, _, _, _, _, _, ⟨_, rfl⟩ | ⟨_, rfl⟩⟩ := begin_cases hs
    · exact ⟨fun _ => ⟨rfl, rfl, rfl, rfl⟩, fun _ => ⟨rfl, rfl⟩⟩
    · exact ⟨fun _ => ⟨rfl, rfl, rfl, rfl⟩, fun _ => ⟨rfl, rfl⟩⟩
  | append n =>
    obtain ⟨_, _, _, ⟨_, _, rfl⟩ | rfl⟩ := append_cases hs
    · exact ⟨fun _ => ⟨rfl, rfl, rfl, rfl⟩, fun _ => ⟨rfl, rfl⟩⟩
    · exact ⟨fun _ => ⟨rfl, rfl, rfl, rfl⟩, fun _ => ⟨rfl, rfl⟩⟩
  | syncLog =>
    obtain ⟨_, _, _, _, rfl⟩ := syncLog_cases hs
    exact ⟨fun _ => ⟨rfl, rfl, rfl, rfl⟩, fun _ => ⟨rfl, rfl⟩⟩
  | insert =>
    obtain ⟨_, _, _, _, _, _, _, rfl⟩ := insert_cases hs
    exact ⟨fun _ => ⟨rfl, rfl, rfl, rfl⟩, fun _ => ⟨rfl, rfl⟩⟩
  | finish =>
    obtain ⟨_, _, _, _, _, _, _, rfl⟩ := finish_cases hs
    exact ⟨fun _ => ⟨rfl, rfl, rfl, rfl⟩, fun hne => absurd rfl hne⟩
  | getSnapshot =>
    obtain ⟨_, _, rfl⟩ := getSnapshot_cases hs
    exact ⟨fun hr => absurd trivial hr, fun _ => ⟨rfl, rfl⟩⟩
  | releaseSnapshot handle =>
    obtain ⟨_, _, rfl⟩ := releaseSnapshot_cases hs
    exact ⟨fun hr => absurd trivial hr, fun _ => ⟨rfl, rfl⟩⟩
  | getBegin id key snapshot =>
    obtain ⟨_, _, _, _, _, rfl⟩ := getBegin_cases hs
    exact ⟨fun hr => absurd trivial hr, fun _ => ⟨rfl, rfl⟩⟩
  | getEnd id =>
    obtain ⟨_, _, _, rfl⟩ := getEnd_cases hs
    exact ⟨fun hr => absurd trivial hr, fun _ => ⟨rfl, rfl⟩⟩
  | newIterator id snapshot =>
    obtain ⟨_, _, _, _, rfl⟩ := newIterator_cases hs
    exact ⟨fun _ => ⟨rfl, rfl, rfl, rfl⟩, fun _ => ⟨rfl, rfl⟩⟩
  | seekToFirst id =>
    have hmove : s.moveScan id true DBIter.seekToFirst = some s' := hs
    obtain ⟨_, _, _, rfl⟩ := moveScan_cases hmove
    exact ⟨fun _ => ⟨rfl, rfl, rfl, rfl⟩, fun _ => ⟨rfl, rfl⟩⟩
  | seek id target =>
    have hmove : s.moveScan id true (DBIter.seek · target) = some s' := hs
    obtain ⟨_, _, _, rfl⟩ := moveScan_cases hmove
    exact ⟨fun _ => ⟨rfl, rfl, rfl, rfl⟩, fun _ => ⟨rfl, rfl⟩⟩
  | next id =>
    obtain ⟨_, _, _, _, hmove⟩ := next_cases hs
    obtain ⟨_, _, _, rfl⟩ := moveScan_cases hmove
    exact ⟨fun _ => ⟨rfl, rfl, rfl, rfl⟩, fun _ => ⟨rfl, rfl⟩⟩
  | failAppend n =>
    obtain ⟨_, _, _, _, rfl⟩ := failAppend_cases hs
    exact ⟨fun _ => ⟨rfl, rfl, rfl, rfl⟩, fun _ => ⟨rfl, rfl⟩⟩
  | failSync =>
    obtain ⟨_, _, _, _, _, rfl⟩ := failSync_cases hs
    exact ⟨fun _ => ⟨rfl, rfl, rfl, rfl⟩, fun _ => ⟨rfl, rfl⟩⟩
  | failRotate n =>
    obtain ⟨_, _, _, _, rfl⟩ := failRotate_cases hs
    exact ⟨fun _ => ⟨rfl, rfl, rfl, rfl⟩, fun _ => ⟨rfl, rfl⟩⟩
  | startFlush => exact hjob' trivial
  | startCompaction level => exact hjob' trivial
  | startLog => exact hjob' trivial
  | job i n order => exact hjob' trivial
  | failJob i n => exact hjob' trivial
  | kill => cases ha
  | recover options path => cases ha
  | powerLoss keep cut => cases ha
  | powerLossData cut => cases ha

theorem Sound.merge_mems (h : Sound σ gh s) {c : Compaction} (hcp : Compacting σ gh.floor s c) :
    (c.merge.run s.store).2.mems = s.store.mems := by
  have hin : ∀ f ∈ c.inputs, f.table ∈ s.opened := fun f hf => by
    rcases hcp.picked.mem_inputs hf with hl | hl
    · exact (h.tables.live _ f hl).1
    · exact (h.tables.live _ f hl).1
  exact ((Compaction.merge_ensures h.tables.tablesOk hin
    fun f hf => h.tables.good _ (hin f hf)) s.store h.tables.serves).2.mems

theorem Sound.mems_job (h : Sound σ gh s) (hs : LsmKv.step s a = some s') (ha : a.ofJob) :
    s'.store.mems = s.store.mems := by
  cases a with
  | startFlush =>
    obtain ⟨_, _, _, rfl⟩ := Sys.startFlush_cases hs
    rfl
  | startCompaction level =>
    obtain ⟨_, _, _, db, c, hb, rfl⟩ := Sys.startCompaction_cases hs
    rfl
  | startLog =>
    obtain ⟨_, _, _, rfl⟩ := Sys.startLog_cases hs
    rfl
  | job i n order =>
    obtain ⟨j, hj, ⟨_, t, next, hp, rfl⟩ | ⟨_, _, _, rfl⟩⟩ := Sys.jobStep_cases hs
    · suffices hm : t.store.mems = s.store.mems from hm
      refine Sys.mems_phaseStep hp fun c hc => ?_
      obtain ⟨_, hone⟩ := h.jobs_index hj
      obtain ⟨io, phase⟩ := j
      subst hc
      cases h.job_ok hone with
      | compactMerge _ hcp => exact h.merge_mems hcp
    · rfl
  | failJob i n =>
    obtain ⟨j, fs, t, _, _, _, _, ht, rfl⟩ := Sys.failJob_cases hs
    obtain ⟨db, _, what, hfail⟩ := Sys.failPhase_cases ht
    rw [hfail]
    exact Sys.mems_fail _ _
  | _ => cases ha

end LsmKv
