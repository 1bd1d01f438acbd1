import LsmKv.Machine

namespace LsmKv
set_option autoImplicit true

open Wal (Group)

namespace Sys

variable {s s' : Sys} {id : Nat}

theorem unlocked_iff : s.unlocked = true ↔ s.mode ≠ .closed ∧ s.rotating = none := by
  simp [unlocked]

theorem write_cases (h : s.write id entries sync = some s') :
    s.mode = .running ∧ s.rotating = none ∧ entries ≠ [] ∧ s' = { s with
      writers := s.writers ++ [⟨id, entries, sync⟩]
      calls := s.calls ++ [⟨id, entries, sync⟩] } := by
  rw [write] at h
  split at h
  · rename_i hg
    exact ⟨hg.1, (unlocked_iff.1 hg.2.1).2, hg.2.2, (Option.some.inj h).symm⟩
  · cases h

theorem rotate_cases (h : s.rotate byFlush = some s') :
    s.mode = .running ∧ s.rotating = none ∧ s.db.bgError.isOk = true ∧ s.db.imm = none ∧
      (byFlush = true ∨ s.lead = none ∧ s.writers ≠ []) ∧ s' = { s with
        db := { s.db with nextFileNumber := s.db.nextFileNumber + 1 }
        rotating := some ⟨s.db.nextFileNumber, byFlush, openLog s.fs s.db.nextFileNumber⟩ } := by
  rw [rotate, Option.ite_none_right_eq_some] at h
  obtain ⟨⟨h1, h2, h3, h4, h5⟩, h⟩ := h
  refine ⟨h1, (unlocked_iff.1 h2).2, h3, h4, ?_, (Option.some.inj h).symm⟩
  split at h5
  · exact .inl ‹_›
  · simpa using Or.inr h5

theorem rotateIo_cases (h : s.rotateIo n = some s') :
    ∃ r fs io, s.rotating = some r ∧ ioStep n s.fs r.io = some (fs, io) ∧
      s' = { s with fs := fs, rotating := some { r with io := io } } := by
  simp only [rotateIo, Option.bind_eq_bind, Option.bind_eq_some_iff] at h
  obtain ⟨r, hr, ⟨fs, io⟩, hio, h⟩ := h
  exact ⟨r, fs, io, hr, hio, (Option.some.inj h).symm⟩

theorem failRotate_cases (h : s.failRotate n = some s') :
    ∃ r fs, s.rotating = some r ∧ failIo n s.fs r.io = some fs ∧
      s' = { s with
        fs := fs
        rotating := none
        writers := s.writers.drop (if r.byFlush then [] else s.writers.take 1).length
        returned := s.returned ++
          (if r.byFlush then [] else s.writers.take 1).map fun w => (w, false) } := by
  simp only [failRotate, Option.bind_eq_bind, Option.bind_eq_some_iff] at h
  obtain ⟨r, hr, fs, hio, h⟩ := h
  exact ⟨r, fs, hr, hio, (Option.some.inj h).symm⟩

theorem rotateSwap_cases (h : s.rotateSwap = some s') :
    ∃ r, s.rotating = some r ∧ r.io = [] ∧ (∀ ld, s.lead = some ld → ld.betweenWrites = true) ∧
      s' = { s with
        db := { s.db with
          immLogNumber := s.db.logNumber
          logNumber := r.number
          imm := some s.db.mem
          mem := s.nextMem }
        nextMem := s.nextMem + 1
        rotating := none } := by
  simp only [rotateSwap, Option.bind_eq_bind, Option.bind_eq_some_iff] at h
  obtain ⟨r, hr, h⟩ := h
  split at h
  · rename_i hg
    exact ⟨r, hr, by simpa using hg.1, hg.2, (Option.some.inj h).symm⟩
  · cases h

theorem begin_cases (h : s.begin elapsed = some s') :
    s.mode = .running ∧ s.rotating = none ∧ s.lead = none ∧ ∃ w ws, s.writers = w :: ws ∧
      ((s.db.bgError.isOk = false ∧
          s' = { s with writers := ws, returned := s.returned ++ [(w, false)] }) ∨
        s.db.bgError.isOk = true ∧ s' = { s with
          db := { s.db with
            lastSequence := s.db.lastSequence + (Writer.buildBatchGroup (w :: ws)).2.count }
          lead := some {
            base := s.db.lastSequence + 1
            batch := (Writer.buildBatchGroup (w :: ws)).2
            members := (Writer.buildBatchGroup (w :: ws)).1
            unwritten := Wal.record (s.db.lastSequence + 1) (Writer.buildBatchGroup (w :: ws)).2
            unsynced := s.db.shouldSyncNow w.sync elapsed
            uninserted := (Writer.buildBatchGroup (w :: ws)).2.forEach.1
            seq := s.db.lastSequence + 1 }
          batches := s.batches ++
            batchesFrom (s.db.lastSequence + 1) (Writer.buildBatchGroup (w :: ws)).1 }) := by
  rw [begin] at h
  split at h
  · cases h
  · rename_i w ws hw
    split at h
    · rename_i hg
      refine ⟨hg.1, (unlocked_iff.1 hg.2.1).2, by simpa using hg.2.2, w, ws, hw, ?_⟩
      split at h
      · rename_i hok
        exact .inr ⟨hok, (Option.some.inj h).symm⟩
      · rename_i hok
        exact .inl ⟨by simpa using hok, (Option.some.inj h).symm⟩
    · cases h

theorem append_cases (h : s.append n = some s') :
    ∃ ld, s.lead = some ld ∧ ld.unwritten ≠ [] ∧
      ((0 < n ∧ n < ld.unwritten.length ∧ s' = { s with
          fs := s.fs.append (.log s.db.logNumber) (ld.unwritten.take n)
          lead := some { ld with unwritten := ld.unwritten.drop n } }) ∨
        s' = { s with
          fs := s.fs.append (.log s.db.logNumber) ld.unwritten
          lead := some { ld with unwritten := [] }
          hist := s.hist ++ [ld.group] }) := by
  simp only [append, Option.bind_eq_bind, Option.bind_eq_some_iff] at h
  obtain ⟨ld, hld, h⟩ := h
  split at h
  · cases h
  · rename_i hne
    split at h
    · rename_i hn
      exact ⟨ld, hld, hne, .inl ⟨hn.1, hn.2, (Option.some.inj h).symm⟩⟩
    · exact ⟨ld, hld, hne, .inr (Option.some.inj h).symm⟩

theorem syncLog_cases (h : s.syncLog = some s') :
    ∃ ld, s.lead = some ld ∧ ld.unwritten = [] ∧ ld.unsynced = true ∧ s' = { s with
      fs := s.fs.fsync (.log s.db.logNumber)
      lead := some { ld with unsynced := false }
      safe := s.hist.length } := by
  simp only [syncLog, Option.bind_eq_bind, Option.bind_eq_some_iff] at h
  obtain ⟨ld, hld, h⟩ := h
  split at h
  · rename_i hg
    exact ⟨ld, hld, hg.1, hg.2, (Option.some.inj h).symm⟩
  · cases h

theorem insert_cases (h : s.insert = some s') :
    ∃ ld e rest, s.lead = some ld ∧ ld.uninserted = e :: rest ∧ ld.unwritten = [] ∧
      ld.unsynced = false ∧ s' = { s with
        store := { s.store with
          mems := Function.update s.store.mems s.db.mem
            ((s.store.mems s.db.mem).add ld.seq e.type e.key e.value) }
        lead := some { ld with uninserted := rest, seq := ld.seq + 1 } } := by
  simp only [insert, Option.bind_eq_bind, Option.bind_eq_some_iff] at h
  obtain ⟨ld, hld, h⟩ := h
  split at h
  · cases h
  · rename_i e rest hu
    split at h
    · rename_i hg
      exact ⟨ld, e, rest, hld, hu, hg.1, hg.2, (Option.some.inj h).symm⟩
    · cases h

theorem finish_cases (h : s.finish = some s') :
    ∃ ld, s.lead = some ld ∧ s.mode ≠ .closed ∧ s.rotating = none ∧ ld.unwritten = [] ∧
      ld.unsynced = false ∧ ld.uninserted = [] ∧ s' = { s with
        writers := s.writers.drop ld.members.length
        lead := none
        done := s.hist
        acked := s.acked ++ [ld.group]
        returned := s.returned ++ ld.members.map fun w => (w, true) } := by
  simp only [finish, Option.bind_eq_bind, Option.bind_eq_some_iff] at h
  obtain ⟨ld, hld, h⟩ := h
  split at h
  · rename_i hg
    obtain ⟨hm, hr⟩ := unlocked_iff.1 hg.1
    exact ⟨ld, hld, hm, hr, hg.2.1, hg.2.2.1, hg.2.2.2, (Option.some.inj h).symm⟩
  · cases h

theorem failAppend_cases (h : s.failAppend n = some s') :
    ∃ ld, s.lead = some ld ∧ s.rotating = none ∧ n < ld.unwritten.length ∧
      s' = s.failLead ld (s.fs.append (.log s.db.logNumber) (ld.unwritten.take n)) "write" := by
  simp only [failAppend, Option.bind_eq_bind, Option.bind_eq_some_iff] at h
  obtain ⟨ld, hld, h⟩ := h
  split at h
  · rename_i hg
    exact ⟨ld, hld, (unlocked_iff.1 hg.1).2, hg.2, (Option.some.inj h).symm⟩
  · cases h

theorem failSync_cases (h : s.failSync = some s') :
    ∃ ld, s.lead = some ld ∧ s.rotating = none ∧ ld.unwritten = [] ∧ ld.unsynced = true ∧
      s' = s.failLead ld s.fs "fsync" := by
  simp only [failSync, Option.bind_eq_bind, Option.bind_eq_some_iff] at h
  obtain ⟨ld, hld, h⟩ := h
  split at h
  · rename_i hg
    exact ⟨ld, hld, (unlocked_iff.1 hg.1).2, hg.2.1, hg.2.2, (Option.some.inj h).symm⟩
  · cases h

theorem getSnapshot_cases (h : s.getSnapshot = some s') :
    s.mode = .running ∧ s.rotating = none ∧ s' = { s with
      db := { s.db with snapshots := s.db.snapshots ++ [⟨s.nextHandle, s.db.lastSequence⟩] }
      nextHandle := s.nextHandle + 1 } := by
  rw [getSnapshot] at h
  split at h
  · rename_i hg
    exact ⟨hg.1, (unlocked_iff.1 hg.2).2, (Option.some.inj h).symm⟩
  · cases h

theorem releaseSnapshot_cases (h : s.releaseSnapshot handle = some s') :
    s.mode = .running ∧ s.rotating = none ∧ s' = { s with db := { s.db with
      snapshots := s.db.snapshots.filter fun sn => sn.handle != handle } } := by
  rw [releaseSnapshot] at h
  split at h
  · rename_i hg
    exact ⟨hg.1, (unlocked_iff.1 hg.2).2, (Option.some.inj h).symm⟩
  · cases h

theorem readPoint_mem (h : s.readPoint snapshot = some sn) :
    ∀ x, sn = some x → x ∈ s.db.snapshots := by
  rintro x rfl
  cases snapshot with
  | none => cases h
  | some handle =>
    simp only [readPoint, Option.map_eq_some_iff, Option.some.injEq] at h
    obtain ⟨_, hf, rfl⟩ := h
    exact List.mem_of_find?_eq_some hf

theorem getBegin_cases (h : s.getBegin id key snapshot = some s') :
    ∃ sn, s.readPoint snapshot = some sn ∧ s.mode = .running ∧ s.rotating = none ∧
      (∀ c ∈ s.gets, c.id ≠ id) ∧
      s' = { s with gets := s.gets ++ [⟨id, key, sn, s.db.capture sn, s.acked⟩] } := by
  simp only [getBegin, Option.bind_eq_bind, Option.bind_eq_some_iff] at h
  obtain ⟨sn, hsn, h⟩ := h
  split at h
  · rename_i hg
    refine ⟨sn, hsn, hg.1, (unlocked_iff.1 hg.2.1).2, ?_, (Option.some.inj h).symm⟩
    simpa using hg.2.2
  · cases h

theorem getEnd_cases (h : s.getEnd id = some s') :
    ∃ call ∈ s.gets, call.id = id ∧ s' = { s with
      store := ((call.capture.get call.key).run s.store).2
      gets := s.gets.filter fun c => c.id != id
      answers := s.answers ++ [⟨call, ((call.capture.get call.key).run s.store).1⟩] } := by
  simp only [getEnd, Option.bind_eq_bind, Option.bind_eq_some_iff] at h
  obtain ⟨call, hc, h⟩ := h
  exact ⟨call, List.mem_of_find?_eq_some hc, by simpa using List.find?_some hc,
    (Option.some.inj h).symm⟩

theorem newIterator_cases (h : s.newIterator id snapshot = some s') :
    ∃ sn, s.readPoint snapshot = some sn ∧ s.mode = .running ∧ s.rotating = none ∧
      s' = { s with scans := s.scans ++ [⟨id, sn, (s.db.capture sn).newIterator, []⟩] } := by
  simp only [newIterator, Option.bind_eq_bind, Option.bind_eq_some_iff] at h
  obtain ⟨sn, hsn, h⟩ := h
  split at h
  · rename_i hg
    exact ⟨sn, hsn, hg.1, (unlocked_iff.1 hg.2.1).2, (Option.some.inj h).symm⟩
  · cases h

theorem moveScan_cases (h : s.moveScan id fresh f = some s') :
    ∃ scan ∈ s.scans, scan.id = id ∧ s' = { s with
      store := ((f scan.it).run s.store).2
      scans := s.scans.map fun c => if c.id == id then { c with
        it := ((f scan.it).run s.store).1
        rows := (if fresh then [] else scan.rows) ++
          (if ((f scan.it).run s.store).1.valid then
            [(((f scan.it).run s.store).1.key, ((f scan.it).run s.store).1.value)] else []) }
        else c } := by
  simp only [moveScan, Option.bind_eq_bind, Option.bind_eq_some_iff] at h
  obtain ⟨scan, hc, h⟩ := h
  exact ⟨scan, List.mem_of_find?_eq_some hc, by simpa using List.find?_some hc,
    (Option.some.inj h).symm⟩

theorem next_cases (h : s.next id = some s') :
    ∃ scan ∈ s.scans, s.scans.find? (fun c => c.id == id) = some scan ∧ scan.it.valid = true ∧
      s.moveScan id false DBIter.next = some s' := by
  simp only [next, Option.bind_eq_bind, Option.bind_eq_some_iff] at h
  obtain ⟨scan, hc, h⟩ := h
  split at h
  · rename_i hv
    exact ⟨scan, List.mem_of_find?_eq_some hc, hc, hv, h⟩
  · cases h

theorem mayStart_iff : s.mayStart = true ↔ s.mode ≠ .closed ∧ s.rotating = none ∧
    s.db.bgError.isOk = true ∧ (s.jobs = [] ∨ s.db.options.backgroundCompaction = false) := by
  simp [mayStart, unlocked_iff, and_assoc]

theorem startFlush_cases (h : s.startFlush = some s') :
    ∃ imm, s.db.imm = some imm ∧ s.mayStart = true ∧ s' = { s with
      db := { s.db with nextFileNumber := s.db.nextFileNumber + 1 }
      jobs := s.jobs ++ [⟨writeTable s.db.nextFileNumber (flushLoop s.db.smallestSnapshot {}
          (TableBuilder.new s.db.options) (s.store.mems imm).recs).finish.file,
        .flushOpen s.db.nextFileNumber (flushLoop s.db.smallestSnapshot {}
          (TableBuilder.new s.db.options) (s.store.mems imm).recs).finish⟩] } := by
  simp only [startFlush, Option.bind_eq_bind, Option.bind_eq_some_iff] at h
  obtain ⟨imm, hi, h⟩ := h
  split at h
  · rename_i hg
    exact ⟨imm, hi, hg, (Option.some.inj h).symm⟩
  · cases h

theorem startCompaction_cases (h : s.startCompaction level = some s') :
    s.mode = .running ∧ s.mayStart = true ∧ level + 1 < kNumLevels ∧
      ∃ db c, s.db.beginCompaction level = some (db, c) ∧
        s' = { s with db := db, jobs := s.jobs ++ [⟨[], .compactMerge c⟩] } := by
  rw [startCompaction] at h
  split at h
  · rename_i hg
    simp only [Option.bind_eq_bind, Option.bind_eq_some_iff] at h
    obtain ⟨⟨db, c⟩, hb, h⟩ := h
    exact ⟨hg.1, hg.2.1, hg.2.2, db, c, hb, (Option.some.inj h).symm⟩
  · cases h

theorem startLog_cases (h : s.startLog = some s') :
    s.mode = .opening ∧ s.jobs = [] ∧ s.db.imm = none ∧ s' = { s with
      db := { s.db with nextFileNumber := s.db.nextFileNumber + 1 }
      jobs := [⟨openLog s.fs s.db.nextFileNumber, .logOpened s.db.nextFileNumber⟩] } := by
  rw [startLog] at h
  split at h
  · rename_i hg
    exact ⟨hg.1, by simpa using hg.2.1, hg.2.2, (Option.some.inj h).symm⟩
  · cases h

theorem jobStep_cases (h : s.jobStep i n order = some s') :
    ∃ j, s.jobs[i]? = some j ∧
      ((j.io = [] ∧ ∃ t next, s.phaseStep order j.phase = some (t, next) ∧
          s' = { t with jobs := setJob t.jobs i next }) ∨
        ∃ fs io, ioStep n s.fs j.io = some (fs, io) ∧
          s' = { s with fs := fs, jobs := s.jobs.set i { j with io := io } }) := by
  simp only [jobStep, Option.bind_eq_bind, Option.bind_eq_some_iff] at h
  obtain ⟨j, hj, h⟩ := h
  refine ⟨j, hj, ?_⟩
  split at h
  · rename_i hio
    obtain ⟨⟨t, next⟩, hp, h⟩ := Option.bind_eq_some_iff.1 h
    exact .inl ⟨by simpa using hio, t, next, hp, (Option.some.inj h).symm⟩
  · obtain ⟨⟨fs, io⟩, hp, h⟩ := Option.bind_eq_some_iff.1 h
    exact .inr ⟨fs, io, hp, (Option.some.inj h).symm⟩

theorem failJob_cases (h : s.failJob i n = some s') :
    ∃ j fs t, s.jobs[i]? = some j ∧ s.mode ≠ .closed ∧ s.rotating = none ∧
      failCall n s.fs j.io = some fs ∧
      { s with fs := fs }.failPhase j.io j.phase = some t ∧
      s' = { t with jobs := t.jobs.eraseIdx i } := by
  simp only [failJob, Option.bind_eq_bind, Option.bind_eq_some_iff] at h
  obtain ⟨j, hj, h⟩ := h
  split at h
  · rename_i hg
    obtain ⟨fs, hfs, h⟩ := Option.bind_eq_some_iff.1 h
    obtain ⟨t, ht, h⟩ := Option.bind_eq_some_iff.1 h
    obtain ⟨hm, hr⟩ := unlocked_iff.1 hg
    exact ⟨j, fs, t, hj, hm, hr, hfs, ht, (Option.some.inj h).symm⟩
  · cases h

end Sys

end LsmKv
