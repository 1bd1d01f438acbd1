import LsmKv.Queue

namespace LsmKv
set_option autoImplicit true

variable {s s' t : Sys} {fs fs' : DbFs} {io io' : List Io} {name : FileName}

theorem Io.stat_run (op : Io) (fs : DbFs) (h : name ∉ op.names) :
    (op.run fs).stat name = fs.stat name := by
  cases op with
  | openFile n trunc => exact fs.stat_openFile_ne n trunc (by simpa [names] using h)
  | append n bytes => exact (fs.stat_append n bytes name).trans (if_neg (by simpa [names] using h))
  | fsync n => exact (fs.stat_fsync n name).trans (if_neg (by simpa [names] using h))
  | rename old new =>
    simp only [names, List.mem_cons, List.not_mem_nil, or_false, not_or] at h
    exact fs.stat_rename_ne h.2 h.1
  | syncDir => rfl
  | unlink n => exact (fs.stat_unlink n name).trans (if_neg (by simpa [names] using h))

theorem stat_ioStep (h : ioStep n fs io = some (fs', io')) (hn : ∀ op ∈ io, name ∉ op.names) :
    fs'.stat name = fs.stat name := by
  rcases ioStep_cases h with ⟨op, rfl, rfl⟩ | ⟨nm, bytes, rest, rfl, _, _, rfl, _⟩
  · exact op.stat_run fs (hn op List.mem_cons_self)
  · exact (Io.append nm (bytes.take n)).stat_run fs (hn (.append nm bytes) List.mem_cons_self)

theorem stat_failIo (h : Sys.failIo n fs io = some fs') (hn : ∀ op ∈ io, name ∉ op.names) :
    fs'.stat name = fs.stat name := by
  cases io with
  | nil => cases h
  | cons op rest =>
    cases op with
    | append nm bytes =>
      rw [Sys.failIo] at h
      split at h <;> cases h
      exact (Io.append nm (bytes.take n)).stat_run fs (hn (.append nm bytes) List.mem_cons_self)
    | unlink nm => cases h
    | _ =>
      cases h
      rfl

theorem stat_failCall (h : Sys.failCall n fs io = some fs') (hn : ∀ op ∈ io, name ∉ op.names) :
    fs'.stat name = fs.stat name := by
  rw [Sys.failCall] at h
  split at h
  · cases h
    rfl
  · exact stat_failIo h hn

theorem stat_abandon (number : Nat) (fs : DbFs) (io : List Io) (hn : name ≠ .sst number) :
    (Sys.abandon number fs io).stat name = fs.stat name := by
  rw [Sys.abandon.eq_def]
  split
  · rfl
  · rfl
  · rw [Fs.stat_unlink, if_neg hn]

namespace Sys

theorem stat_failPhase (hs : s.failPhase io phase = some t) (hn : phase.table ≠ some name) :
    t.fs.stat name = s.fs.stat name := by
  rw [failPhase.eq_def] at hs
  split at hs
  · cases hs
    rw [fail_fs]
    exact stat_abandon _ _ _ fun he => hn (congrArg some he.symm)
  · cases hs
    rw [fail_fs]
    exact stat_abandon _ _ _ fun he => hn (congrArg some he.symm)
  · split at hs <;> cases hs
    rw [fail_fs]
  · split at hs <;> cases hs
    rw [fail_fs]
  · split at hs <;> cases hs
    rw [fail_fs]
  · cases hs

/-- The files that a step may write to or delete. -/
def touches (s : Sys) : Act → FileName → Prop
  | .append _, name => name = .log s.db.logNumber
  | .failAppend _, name => name = .log s.db.logNumber
  | .syncLog, name => name = .log s.db.logNumber
  | .rotateIo _, name => ∃ r, s.rotating = some r ∧ ∃ op ∈ r.io, name ∈ op.names
  | .failRotate _, name => ∃ r, s.rotating = some r ∧ ∃ op ∈ r.io, name ∈ op.names
  | .job i _ _, name => ∃ j, s.jobs[i]? = some j ∧ ∃ op ∈ j.io, name ∈ op.names
  | .failJob i _, name => ∃ j, s.jobs[i]? = some j ∧
      (j.phase.table = some name ∨ ∃ op ∈ j.io, name ∈ op.names)
  | _, _ => False

/-- Every other file stays as it is. -/
theorem stat_step (hs : LsmKv.step s a = some s') (ha : a.internal) (hn : ¬ s.touches a name) :
    s'.fs.stat name = s.fs.stat name := by
  cases a with
  | write id entries sync =>
    obtain ⟨_, _, _, rfl⟩ := write_cases hs
    rfl
  | rotate byFlush =>
    obtain ⟨_, _, _, _, _, rfl⟩ := rotate_cases hs
    rfl
  | rotateIo n =>
    obtain ⟨r, _, _, hr, hio, rfl⟩ := rotateIo_cases hs
    exact stat_ioStep hio fun op hop hmem => hn ⟨r, hr, op, hop, hmem⟩
  | rotateSwap =>
    obtain ⟨_, _, _, _, rfl⟩ := rotateSwap_cases hs
    rfl
  | begin elapsed =>
    obtain ⟨_, _, _, _, _, _, ⟨_, rfl⟩ | ⟨_, rfl⟩⟩ := begin_cases hs <;> rfl
  | append n =>
    obtain ⟨_, _, _, ⟨_, _, rfl⟩ | rfl⟩ := append_cases hs
    · exact (Fs.stat_append _ _ _ _).trans (if_neg hn)
    · exact (Fs.stat_append _ _ _ _).trans (if_neg hn)
  | syncLog =>
    obtain ⟨_, _, _, _, rfl⟩ := syncLog_cases hs
    exact (Fs.stat_fsync _ _ _).trans (if_neg hn)
  | insert =>
    obtain ⟨_, _, _, _, _, _, _, rfl⟩ := insert_cases hs
    rfl
  | finish =>
    obtain ⟨_, _, _, _, _, _, _, rfl⟩ := finish_cases hs
    rfl
  | getSnapshot =>
    obtain ⟨_, _, rfl⟩ := getSnapshot_cases hs
    rfl
  | releaseSnapshot handle =>
    obtain ⟨_, _, rfl⟩ := releaseSnapshot_cases hs
    rfl
  | getBegin id key snapshot =>
    obtain ⟨_, _, _, _, _, rfl⟩ := getBegin_cases hs
    rfl
  | getEnd id =>
    obtain ⟨_, _, _, rfl⟩ := getEnd_cases hs
    rfl
  | newIterator id snapshot =>
    obtain ⟨_, _, _, _, rfl⟩ := newIterator_cases hs
    rfl
  | seekToFirst id =>
    have hmove : s.moveScan id true DBIter.seekToFirst = some s' := hs
    obtain ⟨_, _, _, rfl⟩ := moveScan_cases hmove
    rfl
  | seek id target =>
    have hmove : s.moveScan id true (DBIter.seek · target) = some s' := hs
    obtain ⟨_, _, _, rfl⟩ := moveScan_cases hmove
    rfl
  | next id =>
    obtain ⟨_, _, _, _, hmove⟩ := next_cases hs
    obtain ⟨_, _, _, rfl⟩ := moveScan_cases hmove
    rfl
  | startFlush =>
    obtain ⟨_, _, _, rfl⟩ := startFlush_cases hs
    rfl
  | startCompaction level =>
    obtain ⟨_, _, _, _, _, _, rfl⟩ := startCompaction_cases hs
    rfl
  | startLog =>
    obtain ⟨_, _, _, rfl⟩ := startLog_cases hs
    rfl
  | job i n order =>
    obtain ⟨j, hj, ⟨_, t, next, hp, rfl⟩ | ⟨_, _, hio, rfl⟩⟩ := jobStep_cases hs
    · show t.fs.stat name = _
      rw [(phaseStep_keeps hp).1]
    · exact stat_ioStep hio fun op hop hmem => hn ⟨j, hj, op, hop, hmem⟩
  | failAppend n =>
    obtain ⟨_, _, _, _, rfl⟩ := failAppend_cases hs
    exact (Fs.stat_append _ _ _ _).trans (if_neg hn)
  | failSync =>
    obtain ⟨_, _, _, _, _, rfl⟩ := failSync_cases hs
    rfl
  | failRotate n =>
    obtain ⟨r, _, hr, hio, rfl⟩ := failRotate_cases hs
    exact stat_failIo hio fun op hop hmem => hn ⟨r, hr, op, hop, hmem⟩
  | failJob i n =>
    obtain ⟨j, fs, t, hj, _, _, hcall, ht, rfl⟩ := failJob_cases hs
    have hphase : t.fs.stat name = fs.stat name := stat_failPhase ht fun he => hn ⟨j, hj, .inl he⟩
    exact hphase.trans (stat_failCall hcall fun op hop hmem => hn ⟨j, hj, .inr ⟨op, hop, hmem⟩⟩)
  | kill => cases ha
  | recover options path => cases ha
  | powerLoss keep cut => cases ha
  | powerLossData cut => cases ha

end Sys

end LsmKv
