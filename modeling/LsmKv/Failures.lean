import LsmKv.JobEffects

namespace LsmKv
set_option autoImplicit true

open Versioned
open Wal (Group)

variable {s s' t : Sys}

/-- An error has stopped the writes of the process. -/
def Halted (s : Sys) : Prop := s.db.bgError.isOk = false

namespace Halted

theorem phaseStep (h : Halted s) (hs : s.phaseStep order phase = some (t, next)) : Halted t := by
  rcases (Sys.phaseStep_keeps hs).2 with he | ⟨-, -, he⟩
  · exact (congrArg Status.isOk he).trans h
  · exact he

theorem job (h : Halted s) (hs : LsmKv.step s a = some s') (ha : a.ofJob) : Halted s' := by
  cases a with
  | startFlush =>
    obtain ⟨_, _, hmay, _⟩ := Sys.startFlush_cases hs
    cases h.symm.trans (Sys.mayStart_iff.1 hmay).2.2.1
  | startCompaction level =>
    obtain ⟨_, hmay, _⟩ := Sys.startCompaction_cases hs
    cases h.symm.trans (Sys.mayStart_iff.1 hmay).2.2.1
  | startLog =>
    obtain ⟨_, _, _, rfl⟩ := Sys.startLog_cases hs
    exact h
  | job i n order =>
    obtain ⟨j, _, ⟨_, t, next, hp, rfl⟩ | ⟨_, _, _, rfl⟩⟩ := Sys.jobStep_cases hs
    · have ht : Halted t := h.phaseStep hp
      exact ht
    · exact h
  | failJob i n =>
    obtain ⟨j, fs, t, _, _, _, _, ht, rfl⟩ := Sys.failJob_cases hs
    obtain ⟨db, ⟨c, rfl⟩, what, ht⟩ := Sys.failPhase_cases ht
    have hdb : Halted t := by
      rw [ht]
      have hst : (Status.ioError what).isOk = false := rfl
      obtain ⟨_, he | he⟩ :=
        Sys.fail_keeps { s with fs := t.fs, db := { s.db with committing := c } } hst
      · exact (congrArg Status.isOk he).trans h
      · exact he
    exact hdb
  | _ => cases ha

end Halted

/-- No write is under way and none can begin; `s₀` is where the error was met. -/
structure Stopped (s₀ s : Sys) : Prop where
  halted : Halted s
  lead : s.lead = none
  done : s.done = s₀.done
  hist : s.hist = s₀.hist
  acked : s.acked = s₀.acked
  returned : ∃ ws : List Writer, s.returned = s₀.returned ++ ws.map fun w => (w, false)

namespace Stopped

variable {s₀ : Sys}

theorem of_eq (h : Stopped s₀ s) (ws : List Writer) (hb : s'.db.bgError = s.db.bgError)
    (hl : s'.lead = s.lead) (hd : s'.done = s.done) (hh : s'.hist = s.hist)
    (ha : s'.acked = s.acked)
    (hr : s'.returned = s.returned ++ ws.map fun w => (w, false)) : Stopped s₀ s' where
  halted := by rw [Halted, hb]; exact h.halted
  lead := hl.trans h.lead
  done := hd.trans h.done
  hist := hh.trans h.hist
  acked := ha.trans h.acked
  returned := by
    obtain ⟨ws₀, hws⟩ := h.returned
    exact ⟨ws₀ ++ ws, by rw [hr, hws, List.map_append, List.append_assoc]⟩

theorem keep (h : Stopped s₀ s) (hb : s'.db.bgError = s.db.bgError) (hl : s'.lead = s.lead)
    (hd : s'.done = s.done) (hh : s'.hist = s.hist) (ha : s'.acked = s.acked)
    (hr : s'.returned = s.returned) : Stopped s₀ s' :=
  h.of_eq [] hb hl hd hh ha (by simp [hr])

theorem step (h : Stopped s₀ s) (hs : LsmKv.step s a = some s') (ha : a.internal) :
    Stopped s₀ s' := by
  have hlead : ∀ {ld}, s.lead ≠ some ld := fun hl => by cases h.lead.symm.trans hl
  have hjob : a.ofJob → Stopped s₀ s' := fun hj => {
    halted := h.halted.job hs hj
    lead := (Sys.kept_job hs hj Sys.lead fun _ => rfl).trans h.lead
    done := (Sys.kept_job hs hj Sys.done fun _ => rfl).trans h.done
    hist := (Sys.kept_job hs hj Sys.hist fun _ => rfl).trans h.hist
    acked := (Sys.kept_job hs hj Sys.acked fun _ => rfl).trans h.acked
    returned := by
      rw [Sys.kept_job hs hj Sys.returned fun _ => rfl]
      exact h.returned }
  have hread : ¬ a.ofWriter → ¬ a.ofJob → Stopped s₀ s' := fun hw hj =>
    h.keep (Sys.kept_read hs ha hw hj (·.db.bgError) fun _ => rfl)
      (Sys.kept_read hs ha hw hj Sys.lead fun _ => rfl)
      (Sys.kept_read hs ha hw hj Sys.done fun _ => rfl)
      (Sys.kept_read hs ha hw hj Sys.hist fun _ => rfl)
      (Sys.kept_read hs ha hw hj Sys.acked fun _ => rfl)
      (Sys.kept_read hs ha hw hj Sys.returned fun _ => rfl)
  cases a with
  | write id entries sync =>
    obtain ⟨_, _, _, rfl⟩ := Sys.write_cases hs
    exact h.keep rfl rfl rfl rfl rfl rfl
  | rotate byFlush =>
    obtain ⟨_, _, hok, _⟩ := Sys.rotate_cases hs
    cases h.halted.symm.trans hok
  | rotateIo n =>
    obtain ⟨_, _, _, _, _, rfl⟩ := Sys.rotateIo_cases hs
    exact h.keep rfl rfl rfl rfl rfl rfl
  | rotateSwap =>
    obtain ⟨_, _, _, _, rfl⟩ := Sys.rotateSwap_cases hs
    exact h.keep rfl rfl rfl rfl rfl rfl
  | begin elapsed =>
    obtain ⟨_, _, _, w, ws, _, ⟨_, rfl⟩ | ⟨hok, _⟩⟩ := Sys.begin_cases hs
    · exact h.of_eq [w] rfl rfl rfl rfl rfl rfl
    · cases h.halted.symm.trans hok
  | append n => exact absurd (Sys.append_cases hs).choose_spec.1 hlead
  | syncLog => exact absurd (Sys.syncLog_cases hs).choose_spec.1 hlead
  | insert =>
    obtain ⟨_, _, _, hl, _⟩ := Sys.insert_cases hs
    exact absurd hl hlead
  | finish => exact absurd (Sys.finish_cases hs).choose_spec.1 hlead
  | failAppend n => exact absurd (Sys.failAppend_cases hs).choose_spec.1 hlead
  | failSync => exact absurd (Sys.failSync_cases hs).choose_spec.1 hlead
  | failRotate n =>
    obtain ⟨r, _, _, _, rfl⟩ := Sys.failRotate_cases hs
    exact h.of_eq (if r.byFlush then [] else s.writers.take 1) rfl rfl rfl rfl rfl rfl
  | startFlush => exact hjob trivial
  | startCompaction level => exact hjob trivial
  | startLog => exact hjob trivial
  | job i n order => exact hjob trivial
  | failJob i n => exact hjob trivial
  | kill => cases ha
  | recover options path => cases ha
  | powerLoss keep cut => cases ha
  | powerLossData cut => cases ha
  | _ => exact hread not_false not_false

theorem run {P : Sys → Act → Sys → Prop} (h : Stopped s₀ s)
    (h' : Run (fun s a s' => P s a s' ∧ a.internal) s t) : Stopped s₀ t :=
  h'.induct h fun _ _ _ hst hs hp => hst.step hs hp.2

end Stopped

/-- A log that is there was there before, with the same bytes. -/
def LogsOf (s₀ s : Sys) : Prop :=
  ∀ n bytes, s.fs.read (.log n) = some bytes → s₀.fs.read (.log n) = some bytes

theorem LogsOf.refl (s : Sys) : LogsOf s s := fun _ _ h => h

theorem LogsOf.trans (h : LogsOf s s') (h' : LogsOf s' t) : LogsOf s t :=
  fun n bytes hr => h n bytes (h' n bytes hr)

theorem LogsOf.of_stat (h : ∀ n, s'.fs.stat (.log n) = s.fs.stat (.log n)) : LogsOf s s' := by
  intro n bytes hr
  rwa [Fs.read_eq_stat, h n, ← Fs.read_eq_stat] at hr

theorem JobEffect.logsOf (h : JobEffect s m s'.fs) (hm : s.mode ≠ .opening) : LogsOf s s' := by
  cases h with
  | same h => exact .of_stat fun n => h _ FileName.noConfusion
  | table _ _ h => exact .of_stat fun n => h _ FileName.noConfusion
  | renamed _ _ _ _ _ _ h => exact .of_stat fun n => h _ (by simp [IsManifest])
  | unlinkTable _ h =>
    intro n bytes hr
    rwa [h, Fs.read_unlink, if_neg FileName.noConfusion] at hr
  | unlinkLog _ _ h =>
    intro n bytes hr
    rw [h, Fs.read_unlink] at hr
    split at hr
    · cases hr
    · exact hr
  | log ho _ => exact absurd ho hm

namespace Stopped

/-- Once the writes have stopped nothing is added to a log, and no log is opened. -/
theorem logs_step {s₀ : Sys} (h : Stopped s₀ s) (hr : s.rotating = none) (hg : Good σ s)
    (hs : LsmKv.step s a = some s') (ha : a.internal) : s'.rotating = none ∧ LogsOf s s' := by
  have hrot : ∀ {r}, s.rotating ≠ some r := fun he => by cases hr.symm.trans he
  have hlead : ∀ {ld}, s.lead ≠ some ld := fun he => by cases h.lead.symm.trans he
  have hjob : a.ofJob → s'.rotating = none ∧ LogsOf s s' := by
    intro hj
    refine ⟨(Sys.kept_job hs hj Sys.rotating fun _ => rfl).trans hr, ?_⟩
    cases hg with
    | opened hS hD hC =>
      refine (hD.effect hS hs hj).logsOf fun ho => ?_
      cases h.halted.symm.trans (hS.opening ho).2.2.2.2.2
    | closed hi _ hc =>
      rw [hi.step_eq_none ha hc] at hs
      cases hs
  have hread : ¬ a.ofWriter → ¬ a.ofJob → s'.rotating = none ∧ LogsOf s s' := fun hw hj =>
    ⟨(Sys.kept_read hs ha hw hj Sys.rotating fun _ => rfl).trans hr,
      .of_stat fun n => by rw [Sys.kept_read hs ha hw hj Sys.fs fun _ => rfl]⟩
  cases a with
  | write id entries sync =>
    obtain ⟨_, _, _, rfl⟩ := Sys.write_cases hs
    exact ⟨hr, .refl s⟩
  | rotate byFlush =>
    obtain ⟨_, _, hok, _⟩ := Sys.rotate_cases hs
    cases h.halted.symm.trans hok
  | rotateIo n => exact absurd (Sys.rotateIo_cases hs).choose_spec.choose_spec.choose_spec.1 hrot
  | rotateSwap => exact absurd (Sys.rotateSwap_cases hs).choose_spec.1 hrot
  | begin elapsed =>
    obtain ⟨_, _, _, w, ws, _, ⟨_, rfl⟩ | ⟨hok, _⟩⟩ := Sys.begin_cases hs
    · exact ⟨hr, .refl s⟩
    · cases h.halted.symm.trans hok
  | append n => exact absurd (Sys.append_cases hs).choose_spec.1 hlead
  | syncLog => exact absurd (Sys.syncLog_cases hs).choose_spec.1 hlead
  | insert =>
    obtain ⟨_, _, _, hl, _⟩ := Sys.insert_cases hs
    exact absurd hl hlead
  | finish => exact absurd (Sys.finish_cases hs).choose_spec.1 hlead
  | failAppend n => exact absurd (Sys.failAppend_cases hs).choose_spec.1 hlead
  | failSync => exact absurd (Sys.failSync_cases hs).choose_spec.1 hlead
  | failRotate n =>
    obtain ⟨r, _, he, _⟩ := Sys.failRotate_cases hs
    exact absurd he hrot
  | startFlush => exact hjob trivial
  | startCompaction level => exact hjob trivial
  | startLog => exact hjob trivial
  | job i n order => exact hjob trivial
  | failJob i n => exact hjob trivial
  | kill => cases ha
  | recover options path => cases ha
  | powerLoss keep cut => cases ha
  | powerLossData cut => cases ha
  | _ => exact hread not_false not_false

theorem logs_run {s₀ : Sys} (h : Stopped s₀ s) (hr : s.rotating = none) (hrun : Run Steady {} s)
    (h' : Run (fun s a s' => Steady s a s' ∧ a.internal) s t) : LogsOf s t := by
  refine (h'.induct (I := fun t => Run Steady {} t ∧ Stopped s₀ t ∧ t.rotating = none ∧ LogsOf s t)
    ⟨hrun, h, hr, .refl s⟩ ?_).2.2.2
  rintro u a u' ⟨hu, hst, hru, hlogs⟩ hs ⟨hp, ha⟩
  obtain ⟨hru', hlogs'⟩ := hst.logs_step hru (Good.run hu.steady.1) hs ha
  exact ⟨hu.step hs hp, hst.step hs ha, hru', hlogs.trans hlogs'⟩

end Stopped

theorem Good.of_lead (h : Good σ s) (hl : s.lead = some ld) :
    ∃ gh, Sound σ gh s ∧ s.mode = .running := by
  cases h with
  | @opened gh _ _ hS _ _ =>
    refine ⟨gh, hS, ?_⟩
    cases hm : s.mode with
    | closed => exact absurd hm hS.is_open
    | opening => cases hl.symm.trans (hS.opening hm).1
    | running => rfl
  | closed hi _ _ => cases hl.symm.trans hi.lead

/-- After a crash, and any number of further ones, the database reads from the groups that were
complete in a log. -/
theorem Run.reopened_reads {u : Sys} {k : Bytes} (h : Run Steady {} t)
    (hu : Run (fun s a s' => Steady s a s' ∧ a.unattended) t.kill u) (hm : u.mode = .running)
    (hk : k.length + 8 < 2 ^ 32) :
    (((u.db.capture none).get k).run u.store).1 = answerFor (mapOfGroups t.hist k) := by
  have hkill : Quiet t.hist t.kill := ⟨rfl, rfl, rfl⟩
  have hq := hkill.run hu
  have hrun : Run Steady {} u :=
    (Run.step h rfl (.kill t)).trans (hu.mono fun _ _ _ hd => hd.1)
  obtain ⟨gh, _, _, hS, _⟩ := (Good.run hrun.steady.1).sound (by simp [hm])
  rw [hS.get_done hm (Sys.visible_of_idle hq.lead) hk, hq.done]

/-- The log record of the leader is not written, or not synced. -/
def Act.failsLog : Act → Prop
  | failAppend _ => True
  | failSync => True
  | _ => False

theorem Stopped.of_failsLog (hs : LsmKv.step s a = some s') (ha : a.failsLog) :
    Stopped s' s' ∧ s'.done = s.done ∧ s'.hist = s.hist ∧ s'.acked = s.acked ∧
      s'.rotating = none ∧ ∃ ld, s.lead = some ld ∧ (ld.unwritten ≠ [] ∨ ld.unsynced = true) := by
  cases a with
  | failAppend n =>
    obtain ⟨ld, hl, hr, hn, rfl⟩ := Sys.failAppend_cases hs
    refine ⟨⟨rfl, rfl, rfl, rfl, rfl, [], by simp⟩, rfl, rfl, rfl, hr, ld, hl, .inl ?_⟩
    exact List.ne_nil_of_length_pos (by omega)
  | failSync =>
    obtain ⟨ld, hl, hr, _, hu, rfl⟩ := Sys.failSync_cases hs
    exact ⟨⟨rfl, rfl, rfl, rfl, rfl, [], by simp⟩, rfl, rfl, rfl, hr, ld, hl, .inr hu⟩
  | _ => cases ha

/-- A write whose log append or log sync fails stops all writes. In the same process no later
call returns OK, nothing more reaches a log, and every read answers as it did before the failure,
from the finished groups. After a crash the database reads from these and, at most, the whole
group that failed. -/
theorem failed_write_contained (h : Run Steady {} s) (hs : step s a = some s') (ha : a.failsLog)
    (hp : Steady s a s') (h' : Run (fun s a s' => Steady s a s' ∧ a.internal) s' t)
    (hm : t.mode = .running) :
    t.acked = s.acked ∧
    (∃ ws : List Writer, t.returned = s'.returned ++ ws.map fun w => (w, false)) ∧
    (∀ n bytes, t.fs.read (.log n) = some bytes → s'.fs.read (.log n) = some bytes) ∧
    (∀ k : Bytes, k.length + 8 < 2 ^ 32 →
      (((t.db.capture none).get k).run t.store).1 = (((s.db.capture none).get k).run s.store).1 ∧
      (((t.db.capture none).get k).run t.store).1 = answerFor (mapOfGroups s.done k)) ∧
    ∃ ld, s.lead = some ld ∧ (t.hist = s.done ∨ t.hist = s.done ++ [ld.group]) ∧
      ∀ u, Run (fun s a s' => Steady s a s' ∧ a.unattended) t.kill u → u.mode = .running →
        ∀ k : Bytes, k.length + 8 < 2 ^ 32 →
          (((u.db.capture none).get k).run u.store).1 = answerFor (mapOfGroups t.hist k) := by
  obtain ⟨hst, hdone, hhist, hacked, hrot, ld, hl, hfails⟩ := Stopped.of_failsLog hs ha
  have ht := hst.run h'
  have hrun' := h.step hs hp
  have hrun : Run Steady {} t := hrun'.trans (h'.mono fun _ _ _ hd => hd.1)
  obtain ⟨gh, hS, hms⟩ := (Good.run h.steady.1).of_lead hl
  have hok := hS.logged.leadOk ld hl
  have hseq : ld.seq = ld.base := hfails.elim (fun hw => (hok.waiting hw).1) hok.unsynced
  have hread : ∀ k : Bytes, k.length + 8 < 2 ^ 32 →
      (((t.db.capture none).get k).run t.store).1 = answerFor (mapOfGroups s.done k) := by
    intro k hk
    obtain ⟨gh, _, _, hS, _⟩ := (Good.run hrun.steady.1).sound (by simp [hm])
    rw [hS.get_done hm (Sys.visible_of_idle ht.lead) hk, ht.done, hdone]
  refine ⟨ht.acked.trans hacked, ht.returned, hst.logs_run hrot hrun' h', ?_, ld, hl,
    ?_, ?_⟩
  · intro k hk
    refine ⟨(hread k hk).trans ?_, hread k hk⟩
    refine (hS.get_done hms ?_ hk).symm
    simp [Sys.visible, hl, Lead.inserted, hseq]
  · rw [ht.hist, hhist]
    by_cases hw : ld.unwritten = []
    · exact .inr (hok.logged hw)
    · exact .inl (hok.waiting hw).2
  · exact fun u hu hmu k hk => hrun.reopened_reads hu hmu hk

section Sample

/-- `Open` after the crash, with the log that took the record whose sync failed. -/
def salvageActs : List Act :=
  reopenActs [.manifest, .sst 2, .log 1] [.manifest, .log 3, .sst 2, .log 1]

set_option synthInstance.maxSize 2000 in
/-- The sync of the second put fails; a later put returns the error, and reads find the first value.
A crash brings the second one to light. -/
theorem failed_write_contained_sample : ∃ s s' t u,
    runActs Steady.check {} (openActs ++ putActs [97] [1] ++
      [.write 0 [⟨.kValue, [97], [2]⟩] true, .begin false, .append 0]) = some s ∧
    step s .failSync = some s' ∧
    runActs (fun s a => Steady.check s a && a.goesOn) s'
      [.write 0 [⟨.kValue, [97], [3]⟩] true, .begin false] = some t ∧
    t.returned.map Prod.snd = [true, false, false] ∧
    (∀ bytes, t.fs.read (.log 1) = some bytes → s'.fs.read (.log 1) = some bytes) ∧
    (((t.db.capture none).get [97]).run t.store).1 = .ok [1] ∧
    runActs (fun s a => Steady.check s a && a.isUnattended) t.kill salvageActs = some u ∧
    (((u.db.capture none).get [97]).run u.store).1 = .ok [2] := by
  obtain ⟨s, hs, s', hf, hc, t, ht, hm, hret, hdone, hhist, u, hu, hmu⟩ : ∃ s,
      runActs Steady.check {} (openActs ++ putActs [97] [1] ++
        [.write 0 [⟨.kValue, [97], [2]⟩] true, .begin false, .append 0]) = some s ∧
      ∃ s', step s .failSync = some s' ∧ Steady.check s .failSync = true ∧
      ∃ t, runActs (fun s a => Steady.check s a && a.goesOn) s'
        [.write 0 [⟨.kValue, [97], [3]⟩] true, .begin false] = some t ∧
      t.mode = .running ∧ t.returned.map Prod.snd = [true, false, false] ∧
      mapOfGroups s.done [97] = some [1] ∧ mapOfGroups t.hist [97] = some [2] ∧
      ∃ u, runActs (fun s a => Steady.check s a && a.isUnattended) t.kill salvageActs = some u ∧
      u.mode = .running := by
    decide +kernel
  have hrun := Run.of_steady .refl hs
  have hp : Steady s .failSync s' := .of_check hc hf hrun.shallow
  have hrun' := hrun.step hf hp
  have h' := Run.of_steady_with (fun _ => Act.goesOn_spec) hrun' ht
  obtain ⟨-, -, hlogs, hreads, ld, -, -, hcrash⟩ := failed_write_contained hrun hf trivial hp
    (h'.mono fun _ _ _ hd => ⟨hd.1, hd.2.1⟩) hm
  have hruns := hrun'.trans (h'.mono fun _ _ _ hd => hd.1)
  have hrest := Run.of_steady_with (fun _ => Act.unattended_of_check)
    (Run.step hruns rfl (.kill t)) hu
  have hread := (hreads [97] (by decide)).2
  have hreopened := hcrash u hrest hmu [97] (by decide)
  rw [hdone] at hread
  rw [hhist] at hreopened
  exact ⟨s, s', t, u, hs, hf, ht, hret, hlogs 1, hread, hu, hreopened⟩

end Sample

end LsmKv
