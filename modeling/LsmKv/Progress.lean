import LsmKv.Durability
import LsmKv.Refinement

namespace LsmKv
set_option autoImplicit true

open Versioned
open Wal (Group)

namespace Sys

variable {s s' : Sys} {ld : Lead} {id : Nat} {key : Bytes} {next : Option Job}

theorem unlocked_of_running (hm : s.mode = .running) (hr : s.rotating = none) :
    s.unlocked = true := unlocked_iff.2 ⟨by simp [hm], hr⟩

theorem write_eq (hm : s.mode = .running) (hr : s.rotating = none) (he : entries ≠ []) :
    s.write id entries sync = some { s with
      writers := s.writers ++ [⟨id, entries, sync⟩]
      calls := s.calls ++ [⟨id, entries, sync⟩] } :=
  if_pos ⟨hm, unlocked_of_running hm hr, he⟩

theorem begin_eq (elapsed : Bool) (hm : s.mode = .running) (hr : s.rotating = none)
    (hl : s.lead = none) (hb : s.db.bgError.isOk = true) (hw : s.writers = [w]) :
    s.begin elapsed = some { s with
      db := { s.db with lastSequence := s.db.lastSequence + w.batch.count }
      lead := some {
        base := s.db.lastSequence + 1
        batch := w.batch
        members := [w]
        unwritten := Wal.record (s.db.lastSequence + 1) w.batch
        unsynced := s.db.shouldSyncNow w.sync elapsed
        uninserted := w.batch.forEach.1
        seq := s.db.lastSequence + 1 }
      batches := s.batches ++ [⟨s.db.lastSequence + 1, w.entries⟩] } := by
  have hg : Writer.buildBatchGroup [w] = ([w], w.batch) := by
    have ha : ({} : WriteBatch).append w.batch = w.batch :=
      WriteBatch.append_ofEntries [] w.entries
    simp only [Writer.buildBatchGroup, Writer.growGroup, ha]
  simp only [begin, hw, hg]
  rw [if_pos ⟨hm, unlocked_of_running hm hr, by simp [hl]⟩, if_pos hb]
  rfl

theorem append_eq (hl : s.lead = some ld) (hu : ld.unwritten ≠ []) :
    s.append 0 = some { s with
      fs := s.fs.append (.log s.db.logNumber) ld.unwritten
      lead := some { ld with unwritten := [] }
      hist := s.hist ++ [ld.group] } := by
  simp [append, hl, hu]

theorem syncLog_eq (hl : s.lead = some ld) (hu : ld.unwritten = []) (hy : ld.unsynced = true) :
    s.syncLog = some { s with
      fs := s.fs.fsync (.log s.db.logNumber)
      lead := some { ld with unsynced := false }
      safe := s.hist.length } := by
  simp [syncLog, hl, hu, hy]

theorem insert_eq (hl : s.lead = some ld) (hu : ld.unwritten = []) (hy : ld.unsynced = false)
    (he : ld.uninserted = e :: rest) :
    s.insert = some { s with
      store := { s.store with
        mems := Function.update s.store.mems s.db.mem
          ((s.store.mems s.db.mem).add ld.seq e.type e.key e.value) }
      lead := some { ld with uninserted := rest, seq := ld.seq + 1 } } := by
  simp [insert, hl, hu, hy, he]

theorem finish_eq (hm : s.mode = .running) (hr : s.rotating = none) (hl : s.lead = some ld)
    (hu : ld.unwritten = []) (hy : ld.unsynced = false) (he : ld.uninserted = []) :
    s.finish = some { s with
      writers := s.writers.drop ld.members.length
      lead := none
      done := s.hist
      acked := s.acked ++ [ld.group]
      returned := s.returned ++ ld.members.map fun w => (w, true) } := by
  simp [finish, hl, hu, hy, he, unlocked_of_running hm hr]

theorem startFlush_eq (hi : s.db.imm = some imm) (hs : s.mayStart = true) :
    s.startFlush = some { s with
      db := { s.db with nextFileNumber := s.db.nextFileNumber + 1 }
      jobs := s.jobs ++ [⟨writeTable s.db.nextFileNumber (tableFile s.db.options
          (keepFrom false s.db.smallestSnapshot {} (s.store.mems imm).recs)),
        .flushOpen s.db.nextFileNumber (built s.db.options
          (keepFrom false s.db.smallestSnapshot {} (s.store.mems imm).recs))⟩] } := by
  simp [startFlush, hi, hs, flushLoop_finish, built_file]

theorem startLog_eq (hm : s.mode = .opening) (hj : s.jobs = []) (hi : s.db.imm = none) :
    s.startLog = some { s with
      db := { s.db with nextFileNumber := s.db.nextFileNumber + 1 }
      jobs := [⟨openLog s.fs s.db.nextFileNumber, .logOpened s.db.nextFileNumber⟩] } := by
  simp [startLog, hm, hj, hi]

theorem ioStep_eq (op : Io) (rest : List Io) : ioStep 0 s.fs (op :: rest) =
    some (op.run s.fs, rest) := by
  cases op <;> simp [ioStep, Io.run]

theorem jobIo_eq (hj : s.jobs = [⟨op :: rest, phase⟩]) :
    s.jobStep 0 0 order = some { s with fs := op.run s.fs, jobs := [⟨rest, phase⟩] } := by
  simp [jobStep, hj, ioStep_eq]

theorem jobPhase_eq (hj : s.jobs = [⟨[], phase⟩])
    (hp : s.phaseStep order phase = some (s', next)) :
    s.jobStep 0 0 order = some { s' with jobs := setJob s'.jobs 0 next } := by
  simp [jobStep, hj, hp]

end Sys

variable {σ : Prop} {s s' t : Sys} {a : Act} {e : BatchEntry}

/-- A step of the leader between its two sections under `mu_`, or its second one. -/
def Act.ofLeader : Act → Prop
  | append _ => True
  | syncLog => True
  | insert => True
  | finish => True
  | _ => False

/-- A system call fails. -/
def Act.fails : Act → Prop
  | failAppend _ => True
  | failSync => True
  | failRotate _ => True
  | failJob _ _ => True
  | _ => False

/-- A step of a run in which a write is one step, nothing fails, and the database is closed when
nobody works on it. -/
structure Sequential (s : Sys) (a : Act) (s' : Sys) : Prop where
  crashes : Crashes s a s'
  alone : a.startsJob → s.jobs = []
  atomic : s.lead ≠ none → a.ofLeader
  succeeds : ¬ a.fails
  closes : a = .kill → s.mode = .running ∧ s.rotating = none ∧ s.jobs = []

/-- Such a step with a background thread, and with no call of `FlushMemTable`. -/
structure Tame (s : Sys) (a : Act) (s' : Sys) : Prop where
  sequential : Sequential s a s'
  background : ∀ options path, a = .recover options path → options.backgroundCompaction = true
  flush : a ≠ .rotate true

theorem Tame.served (h : Tame s a s') : Served s a s' :=
  ⟨h.sequential.crashes, h.background, fun ha => absurd ha h.flush⟩

theorem Sequential.orderly (h : Sequential s a s') (hb : σ → BelowMax s a) : Orderly σ s a s' where
  fits := h.crashes.fits
  oneJob := h.alone
  pins hj hσ := hb hσ hj
  swap ha _ := by
    by_contra hl
    subst ha
    exact h.atomic hl
  power := h.crashes.power

theorem Run.of_tame (h : Run Tame s t) : Run (Orderly False) s t :=
  h.mono fun _ _ _ ht => ht.sequential.orderly fun hf => hf.elim

theorem Good.of_tame (hg : Good False s) (h : Run Tame s t) : Good False t :=
  h.of_tame.induct hg fun _ _ _ hg hs ho => hg.step hs ho

/-- A step of a client while no write is under way. -/
theorem Tame.of_idle (hf : s'.Fits) (hl : s.lead = none) (hi : a.internal)
    (hj : a.startsJob → s.jobs = []) (hfail : ¬ a.fails) (hflush : a ≠ .rotate true) :
    Tame s a s' where
  sequential := ⟨⟨hf, .inl hi⟩, hj, fun hne => absurd hl hne, hfail, fun ha => by
    subst ha
    cases hi⟩
  background options path ha := by
    subst ha
    cases hi
  flush := hflush

theorem Tame.of_recover (hf : s'.Fits) (hl : s.lead = none) (options : Options) (path : String)
    (hb : options.backgroundCompaction = true) : Tame s (.recover options path) s' where
  sequential := ⟨⟨hf, .inr (.inr ⟨_, _, rfl⟩)⟩, fun hj => hj.elim, fun hne => absurd hl hne,
    fun hc => hc.elim, fun hc => (by cases hc)⟩
  background _ _ hc := by
    cases hc
    exact hb
  flush := by simp

theorem Tame.of_leader (hf : s'.Fits) (ha : a.ofLeader) : Tame s a s' where
  sequential := by
    refine ⟨⟨hf, .inl ?_⟩, fun hj => ?_, fun _ => ha, fun hfail => ?_, fun hk => ?_⟩
    · cases a <;> first | exact trivial | cases ha
    · cases a <;> first | exact hj.elim | cases ha
    · cases a <;> first | exact hfail.elim | cases ha
    · subst hk
      cases ha
  background options path hr := by
    subst hr
    cases ha
  flush hr := by
    subst hr
    cases ha

/-- The database is open, no write is under way, the calls `ws` wait, and every write is synced. -/
structure Waits (s : Sys) (ws : List Writer) : Prop where
  running : s.mode = .running
  rotating : s.rotating = none
  lead : s.lead = none
  writers : s.writers = ws
  bgOk : s.db.bgError.isOk = true
  sync : s.db.options.syncPolicy = .everyWrite
  fits : s.Fits

theorem Waits.kill_run (h : Waits s ws) (hj : s.jobs = []) : Run Tame s s.kill :=
  .step .refl (a := .kill) rfl {
    sequential := ⟨(Steady.kill s).served.crashes, fun hc => hc.elim, fun hl => absurd h.lead hl,
      fun hc => hc.elim, fun _ => ⟨h.running, h.rotating, hj⟩⟩
    background := fun _ _ hc => (by cases hc)
    flush := by simp }

/-- A call of `Put` waits. -/
def Sys.calling (s : Sys) (e : BatchEntry) : Sys :=
  { s with writers := [⟨0, [e], false⟩], calls := s.calls ++ [⟨0, [e], false⟩] }

/-- The state after the call that waits has written its entry. -/
def Sys.wrote (s : Sys) (e : BatchEntry) : Sys :=
  let g : Group := ⟨s.db.lastSequence + 1, [e]⟩
  { s with
    fs := (s.fs.append (.log s.db.logNumber) g.record).fsync (.log s.db.logNumber)
    db := { s.db with lastSequence := s.db.lastSequence + 1 }
    writers := []
    lead := none
    store := { s.store with
      mems := Function.update s.store.mems s.db.mem
        ((s.store.mems s.db.mem).add (s.db.lastSequence + 1) e.type e.key e.value) }
    hist := s.hist ++ [g]
    done := s.hist ++ [g]
    acked := s.acked ++ [g]
    batches := s.batches ++ [g]
    returned := s.returned ++ [(⟨0, [e], false⟩, true)]
    safe := (s.hist ++ [g]).length }

/-- What a batch of one entry needs to fit its fields. -/
structure BatchEntry.Small (e : BatchEntry) : Prop where
  entry : WriteBatch.Fits e
  size : 12 + (WriteBatch.ofEntries [e]).rep.length < 2 ^ 32

theorem WriteBatch.Fits.batch {e : BatchEntry} (h : WriteBatch.Fits e) (id : Nat) (sync : Bool) :
    (⟨id, [e], sync⟩ : Writer).batch.count = 1 ∧
      (⟨id, [e], sync⟩ : Writer).batch.forEach = ([e], .ok) := by
  refine ⟨WriteBatch.ofEntries_count [e], ?_⟩
  rw [Writer.batch, WriteBatch.forEach_ofEntries]
  · intro x hx
    rw [List.mem_singleton.1 hx]
    exact h.short
  · simp

theorem Sys.Fits.keep_jobs {fs : DbFs} {jobs : List Job} (hf : s.Fits)
    (hj : ∀ j ∈ jobs, ∃ j' ∈ s.jobs, j'.phase = j.phase) :
    Sys.Fits { s with fs := fs, jobs := jobs } := by
  refine ⟨hf.sequence, hf.fileNumber, hf.files, hf.fileSize, hf.group, fun j hm b hb => ?_, hf.key⟩
  obtain ⟨j', hm', hp⟩ := hj j hm
  exact hf.table j' hm' b (hp ▸ hb)

theorem Sys.Fits.lead_one (hf : s.Fits) (he : e.Small) (hseq : n ≤ kMaxSequenceNumber)
    (hd : s'.db = { s.db with lastSequence := n }) (hj : s'.jobs = s.jobs) (hg : s'.gets = s.gets)
    (hl : ∀ ld, s'.lead = some ld → ld.entries = [e]) : s'.Fits where
  sequence := by rw [hd]; exact hseq
  fileNumber := by rw [hd]; exact hf.fileNumber
  files := by rw [hd]; exact hf.files
  fileSize := by rw [hd]; exact hf.fileSize
  group ld hld := by
    rw [hl ld hld]
    exact ⟨fun x hx => List.mem_singleton.1 hx ▸ he.entry, he.size⟩
  table := by rw [hd, hj]; exact hf.table
  key := by rw [hg]; exact hf.key

theorem Waits.call_run (h : Waits s []) (e : BatchEntry) : Run Tame s (s.calling e) := by
  have h1 := @Sys.write_eq s 0 [e] false h.running h.rotating (by simp)
  rw [h.writers] at h1
  exact .step .refl (a := .write 0 [e] false) h1 (.of_idle
    ⟨h.fits.sequence, h.fits.fileNumber, h.fits.files, h.fits.fileSize, h.fits.group, h.fits.table,
      h.fits.key⟩ h.lead trivial (fun hj => hj.elim) (fun hf => hf.elim) (by simp))

theorem Waits.call (h : Waits s []) (e : BatchEntry) : Waits (s.calling e) [⟨0, [e], false⟩] where
  running := h.running
  rotating := h.rotating
  lead := h.lead
  writers := rfl
  bgOk := h.bgOk
  sync := h.sync
  fits := ⟨h.fits.sequence, h.fits.fileNumber, h.fits.files, h.fits.fileSize, h.fits.group,
    h.fits.table, h.fits.key⟩

/-- The state in the middle of the write of `e`. -/
structure Midway (s : Sys) (e : BatchEntry) (t : Sys) : Prop where
  db : t.db = { s.db with lastSequence := s.db.lastSequence + 1 }
  jobs : t.jobs = s.jobs
  gets : t.gets = s.gets
  lead : ∀ ld, t.lead = some ld → ld.entries = [e]

/-- The steps of the call that waits, whatever is asked of them. -/
theorem Waits.write_run_of {P : Sys → Act → Sys → Prop} (h : Waits s [⟨0, [e], false⟩])
    (he : WriteBatch.Fits e) (hbegin : ∀ {t}, Midway s e t → P s (.begin false) t)
    (hlater : ∀ {a t t'}, a.ofLeader → Midway s e t' → P t a t') : Run P s (s.wrote e) := by
  obtain ⟨hcount, hes⟩ := he.batch 0 false
  have hsync : s.db.shouldSyncNow false false = true := by simp [Db.shouldSyncNow, h.sync]
  have hlead : ∀ {s' : Sys} {ld : Lead}, s'.lead = some ld → ld.members = [⟨0, [e], false⟩] →
      ∀ ld', s'.lead = some ld' → ld'.entries = [e] := by
    intro s' ld hl hm ld' hl'
    cases hl.symm.trans hl'
    rw [Lead.entries, hm]
    rfl
  have h1 := Sys.begin_eq false h.running h.rotating h.lead h.bgOk h.writers
  rw [hcount, hes] at h1
  have r1 : Run P s _ :=
    .step .refl (a := .begin false) h1 (hbegin ⟨rfl, rfl, rfl, hlead rfl rfl⟩)
  have r2 := r1.step (a := .append 0) (Sys.append_eq rfl (record_ne_nil _ _))
    (hlater trivial ⟨rfl, rfl, rfl, hlead rfl rfl⟩)
  have r3 := r2.step (a := .syncLog) (Sys.syncLog_eq rfl rfl hsync)
    (hlater trivial ⟨rfl, rfl, rfl, hlead rfl rfl⟩)
  have r4 := r3.step (a := .insert) (Sys.insert_eq rfl rfl rfl rfl)
    (hlater trivial ⟨rfl, rfl, rfl, hlead rfl rfl⟩)
  have r5 := r4.step (a := .finish) (Sys.finish_eq h.running h.rotating rfl rfl rfl rfl)
    (hlater trivial ⟨rfl, rfl, rfl, fun ld hld => by cases hld⟩)
  convert r5 using 1
  simp only [Sys.wrote, h.writers]
  rfl

theorem Waits.write_run (h : Waits s [⟨0, [e], false⟩]) (he : e.Small)
    (hn : s.db.lastSequence < kMaxSequenceNumber) : Run Tame s (s.wrote e) := by
  have hfit : ∀ {t}, Midway s e t → t.Fits := fun hm =>
    h.fits.lead_one he hn hm.db hm.jobs hm.gets hm.lead
  exact h.write_run_of he.entry
    (fun hm => .of_idle (hfit hm) h.lead trivial (fun hj => hj.elim) (fun hf => hf.elim) (by simp))
    (fun ha hm => .of_leader (hfit hm) ha)

theorem Waits.wrote (h : Waits s [⟨0, [e], false⟩]) (he : e.Small)
    (hn : s.db.lastSequence < kMaxSequenceNumber) : Waits (s.wrote e) [] where
  running := h.running
  rotating := h.rotating
  lead := rfl
  writers := rfl
  bgOk := h.bgOk
  sync := h.sync
  fits := h.fits.lead_one he hn rfl rfl rfl fun ld hl => by cases hl

/-- The state after a number of calls of `Put`. -/
def Sys.puts (s : Sys) (e : BatchEntry) : Nat → Sys
  | 0 => s
  | n + 1 => ((s.puts e n).calling e).wrote e

theorem Sys.puts_db (s : Sys) (e : BatchEntry) (n : Nat) :
    (s.puts e n).db = { s.db with lastSequence := s.db.lastSequence + n } := by
  induction n with
  | zero => rfl
  | succ n ih =>
    show { (s.puts e n).db with lastSequence := (s.puts e n).db.lastSequence + 1 } = _
    rw [ih]
    rfl

theorem Waits.puts_run (h : Waits s []) (he : e.Small)
    (hn : s.db.lastSequence + n ≤ kMaxSequenceNumber) :
    Run Tame s (s.puts e n) ∧ Waits (s.puts e n) [] := by
  induction n with
  | zero => exact ⟨.refl, h⟩
  | succ n ih =>
    obtain ⟨hrun, hwaits⟩ := ih (by omega)
    have hlt : (s.puts e n).db.lastSequence < kMaxSequenceNumber := by
      rw [Sys.puts_db]
      exact hn
    exact ⟨(hrun.trans (hwaits.call_run e)).trans ((hwaits.call e).write_run he hlt),
      (hwaits.call e).wrote he hlt⟩

/-- The state after the call that waits has switched memtables. -/
def Sys.rotated (s : Sys) : Sys :=
  { s with
    fs := (s.fs.openFile (.log s.db.nextFileNumber) false).append (.log s.db.nextFileNumber)
      Wal.fileHeader
    db := { s.db with
      nextFileNumber := s.db.nextFileNumber + 1
      immLogNumber := s.db.logNumber
      logNumber := s.db.nextFileNumber
      imm := some s.db.mem
      mem := s.nextMem }
    nextMem := s.nextMem + 1 }

/-- The steps of a thread that makes its system calls. -/
theorem Run.job_io (hj : s.jobs = [⟨io, phase⟩]) (hf : s.Fits) (hl : s.lead = none) :
    Run Tame s { s with fs := io.foldl Io.run s.fs, jobs := [⟨[], phase⟩] } := by
  induction io generalizing s with
  | nil =>
    rw [← hj]
    exact .refl
  | cons op rest ih =>
    have hf' : Sys.Fits { s with fs := op.run s.fs, jobs := [⟨rest, phase⟩] } :=
      hf.keep_jobs fun j hm => ⟨_, hj ▸ List.mem_singleton_self _, List.mem_singleton.1 hm ▸ rfl⟩
    have h1 : Run Tame s _ := .step .refl (a := .job 0 0 []) (Sys.jobIo_eq hj)
      (.of_idle hf' hl trivial (fun hc => hc.elim) (fun hc => hc.elim) (by simp))
    exact h1.trans (ih rfl hf' hl)

/-- The step of a thread whose calls are made. -/
theorem Run.job_phase (hj : s.jobs = [⟨[], phase⟩])
    (hp : s.phaseStep order phase = some (t, next))
    (hf : Sys.Fits { t with jobs := Sys.setJob t.jobs 0 next }) (hl : s.lead = none) :
    Run Tame s { t with jobs := Sys.setJob t.jobs 0 next } :=
  .step .refl (a := .job 0 0 order) (Sys.jobPhase_eq hj hp)
    (.of_idle hf hl trivial (fun hc => hc.elim) (fun hc => hc.elim) (by simp))

theorem Run.flush_open {t : Table} (hj : s.jobs = [⟨[], .flushOpen n b⟩])
    (ht : s.openJobTable n = .ok t) (hf : s.Fits) (hl : s.lead = none) :
    Run Tame s { s with
      opened := s.opened ++ [t]
      jobs := [⟨[], .flushInstall (Sys.metaOf n b t)⟩] } := by
  have hp : s.phaseStep [] (.flushOpen n b) =
      some ({ s with opened := s.opened ++ [t] }, some ⟨[], .flushInstall (Sys.metaOf n b t)⟩) := by
    simp only [Sys.phaseStep, ht]
  have hset : Sys.setJob s.jobs 0 (some ⟨[], .flushInstall (Sys.metaOf n b t)⟩) =
      [⟨[], .flushInstall (Sys.metaOf n b t)⟩] := by
    rw [hj]
    rfl
  have hr := Run.job_phase hj hp (by
    refine ⟨hf.sequence, hf.fileNumber, hf.files, hf.fileSize, hf.group, fun j hm b hb => ?_,
      hf.key⟩
    have hm' : j ∈ Sys.setJob s.jobs 0 (some ⟨[], .flushInstall (Sys.metaOf n _ t)⟩) := hm
    rw [hset] at hm'
    obtain rfl := List.mem_singleton.1 hm'
    cases hb) hl
  rw [← hset]
  exact hr

/-- The state after a flush has installed its table. -/
def Sys.installed (s : Sys) (f : FileMetaData) : Sys :=
  let db := { s.db with
    imm := none
    immLogNumber := 0
    committing := true
    current := s.db.current.setLevel 0 (f :: s.db.current.levels 0) }
  { s with
    db := db
    jobs := [⟨writeManifest db.manifest, .cleanup db.current db.oldestLiveLog .commitDone⟩] }

theorem Run.flush_install (hj : s.jobs = [⟨[], .flushInstall f⟩]) (hu : s.unlocked = true)
    (hc : s.db.committing = false) (hf : (s.installed f).Fits) (hl : s.lead = none) :
    Run Tame s (s.installed f) := by
  obtain ⟨job, hp, hset⟩ : ∃ job, s.phaseStep [] (.flushInstall f) =
      some ({ s.installed f with jobs := s.jobs }, some job) ∧
      Sys.setJob s.jobs 0 (some job) = (s.installed f).jobs := by
    simp [Sys.phaseStep, hu, Sys.commitVersion, hc, Sys.commitBegin, hj, Sys.setJob, Sys.installed]
  have hr := Run.job_phase hj hp (by rw [hset]; exact hf) hl
  rw [hset] at hr
  exact hr

/-- The files that are left when those that a commit does not need are deleted. -/
def cleaned (live : Version) (log : Nat) (fs : DbFs) : DbFs :=
  ((fs.names.filter (isObsolete live log)).map Io.unlink).foldl Io.run fs

theorem Run.cleanup (hj : s.jobs = [⟨[], .cleanup live log after⟩]) (hf : s.Fits)
    (hb : after.building = none) (hl : s.lead = none) :
    Run Tame s { s with fs := cleaned live log s.fs, jobs := [⟨[], after⟩] } := by
  have hperm : s.fs.names.isPerm s.fs.names = true := List.isPerm_iff.2 (.refl _)
  have hp : s.phaseStep s.fs.names (.cleanup live log after) = some (s,
      some ⟨(s.fs.names.filter (isObsolete live log)).map Io.unlink, after⟩) := by
    simp only [Sys.phaseStep, hperm, if_true]
  have hset : ∀ job, Sys.setJob s.jobs 0 (some job) = [job] := by
    intro job
    rw [hj]
    rfl
  have hf' : ∀ io, Sys.Fits { s with jobs := [⟨io, after⟩] } := by
    intro io
    refine ⟨hf.sequence, hf.fileNumber, hf.files, hf.fileSize, hf.group, fun j hm b hc => ?_,
      hf.key⟩
    obtain rfl := List.mem_singleton.1 hm
    cases hb.symm.trans hc
  have r1 := Run.job_phase hj hp (by rw [hset]; exact hf' _) hl
  rw [hset] at r1
  exact r1.trans (Run.job_io rfl (hf' _) hl)

theorem Sys.Fits.job {fs : DbFs} (hf : s.Fits) (hb : phase.building = none) :
    Sys.Fits { s with fs := fs, jobs := [⟨io, phase⟩] } := by
  refine ⟨hf.sequence, hf.fileNumber, hf.files, hf.fileSize, hf.group, fun j hm b hc => ?_, hf.key⟩
  obtain rfl := List.mem_singleton.1 hm
  cases hb.symm.trans hc

theorem Sys.Fits.committed (hf : s.Fits) (fs : DbFs) :
    Sys.Fits { s with fs := fs, db := { s.db with committing := false }, jobs := [] } :=
  ⟨hf.sequence, hf.fileNumber, hf.files, hf.fileSize, hf.group, fun j hm => (by cases hm), hf.key⟩

theorem Run.commit_done (hj : s.jobs = [⟨[], .commitDone⟩]) (hu : s.unlocked = true)
    (hf : s.Fits) (hl : s.lead = none) :
    Run Tame s { s with db := { s.db with committing := false }, jobs := [] } := by
  have hp : s.phaseStep [] .commitDone =
      some ({ s with db := { s.db with committing := false } }, none) := by
    simp only [Sys.phaseStep, hu, if_true]
  have hset : Sys.setJob s.jobs 0 none = [] := by
    rw [hj]
    rfl
  have hr := Run.job_phase hj hp (by
    rw [hset]
    exact ⟨hf.sequence, hf.fileNumber, hf.files, hf.fileSize, hf.group, fun j hm => (by cases hm),
      hf.key⟩) hl
  rw [hset] at hr
  exact hr

/-- A commit comes to its end. -/
theorem Run.commit (hj : s.jobs = [⟨io, .cleanup live log .commitDone⟩]) (hu : s.unlocked = true)
    (hf : s.Fits) (hl : s.lead = none) :
    Run Tame s { s with
      fs := cleaned live log (io.foldl Io.run s.fs)
      db := { s.db with committing := false }
      jobs := [] } := by
  have r1 := (Run.job_io hj hf hl).trans (Run.cleanup rfl (by exact hf.job rfl) rfl hl)
  exact r1.trans (Run.commit_done rfl hu (by exact hf.job rfl) hl)

/-- The state in which `Recover` uses its new log, and is about to write the manifest. -/
def Sys.logging (s : Sys) (n : Nat) : Sys :=
  let db := { s.db with logNumber := n }
  { s with
    db := db
    jobs := [⟨writeManifest db.manifest, .cleanup db.current db.oldestLiveLog .recovered⟩] }

theorem Sys.Fits.logging (hf : s.Fits) (n : Nat) : (s.logging n).Fits := by
  refine ⟨hf.sequence, hf.fileNumber, hf.files, hf.fileSize, hf.group, fun j hm b hc => ?_, hf.key⟩
  obtain rfl := List.mem_singleton.1 hm
  cases hc

theorem Run.log_opened (hj : s.jobs = [⟨[], .logOpened n⟩]) (hf : s.Fits) (hl : s.lead = none) :
    Run Tame s (s.logging n) := by
  have hset : ∀ job, Sys.setJob s.jobs 0 (some job) = [job] := by
    intro job
    rw [hj]
    rfl
  have hp : s.phaseStep [] (.logOpened n) = some _ := rfl
  have hr := Run.job_phase hj hp (by rw [hset]; exact hf.logging n) hl
  rw [hset] at hr
  exact hr

theorem Run.recovered (hj : s.jobs = [⟨[], .recovered⟩]) (hf : s.Fits) (hl : s.lead = none) :
    Run Tame s { s with mode := .running, jobs := [] } := by
  have hset : Sys.setJob s.jobs 0 none = [] := by
    rw [hj]
    rfl
  have hp : s.phaseStep [] .recovered = some _ := rfl
  have hr := Run.job_phase hj hp (by
    rw [hset]
    exact ⟨hf.sequence, hf.fileNumber, hf.files, hf.fileSize, hf.group, fun j hm => (by cases hm),
      hf.key⟩) hl
  rw [hset] at hr
  exact hr

theorem Run.recover_commit (hj : s.jobs = [⟨io, .cleanup live log .recovered⟩]) (hf : s.Fits)
    (hl : s.lead = none) :
    Run Tame s { s with
      fs := cleaned live log (io.foldl Io.run s.fs)
      mode := .running
      jobs := [] } := by
  have r1 := (Run.job_io hj hf hl).trans (Run.cleanup rfl (by exact hf.job rfl) rfl hl)
  exact r1.trans (Run.recovered rfl (by exact hf.job rfl) hl)

/-- The state in which `Recover` has opened its log, and returns. -/
def Sys.reopened (s : Sys) : Sys :=
  let n := s.db.nextFileNumber
  let db := { s.db with nextFileNumber := n + 1, logNumber := n }
  { s with
    fs := cleaned db.current db.oldestLiveLog
      ((writeManifest db.manifest).foldl Io.run ((openLog s.fs n).foldl Io.run s.fs))
    mode := .running
    db := db
    jobs := [] }

/-- `Recover` comes to its end once there is nothing to flush. -/
theorem Run.reopen (hm : s.mode = .opening) (hj : s.jobs = []) (hi : s.db.imm = none)
    (hl : s.lead = none) (hf : s.Fits) (hn : s.db.nextFileNumber + 1 < 2 ^ 64) :
    Run Tame s s.reopened := by
  have hf1 : ∀ fs io, Sys.Fits { s with
      fs := fs
      db := { s.db with nextFileNumber := s.db.nextFileNumber + 1 }
      jobs := [⟨io, .logOpened s.db.nextFileNumber⟩] } := by
    intro fs io
    refine ⟨hf.sequence, hn, hf.files, hf.fileSize, hf.group, fun j hm b hc => ?_, hf.key⟩
    obtain rfl := List.mem_singleton.1 hm
    cases hc
  have r1 : Run Tame s _ := .step .refl (a := .startLog) (Sys.startLog_eq hm hj hi)
    (.of_idle (hf1 _ _) hl trivial (fun hc => hc.elim) (fun hc => hc.elim) (by simp))
  have r2 := r1.trans (Run.job_io rfl (hf1 _ _) hl)
  have hf2 := hf1 ((openLog s.fs s.db.nextFileNumber).foldl Io.run s.fs) []
  have r3 := r2.trans (Run.log_opened rfl hf2 hl)
  exact r3.trans (Run.recover_commit rfl (hf2.logging _) hl)

theorem Sound.imm_ok (h : Sound σ gh s) (hi : s.db.imm = some imm) :
    ∀ r ∈ (s.store.mems imm).recs, r.Ok := by
  intro r hr
  by_cases hm : s.mode = .opening
  · obtain ⟨older, replayed, hdone, hiff, _⟩ := (h.replaying hm imm hi).split
    refine (h.logged.mem_done (r := r) ?_).1
    rw [hdone, recsOf_append]
    exact List.mem_append_right _ ((hiff r).1 hr)
  · have hlay := h.layered fun ho => absurd ho hm
    refine (h.logged.mem_visible (r := r) ?_).1
    have hvis : r ∈ s.visible := by
      rw [hlay.split]
      exact List.mem_append_right _ (List.mem_append_left _ ((hlay.imm_iff imm hi r).1 hr))
    exact hvis

/-- At the largest sequence number a flush keeps nothing. -/
theorem Sound.flush_keeps_nothing (h : Sound σ gh s) (hi : s.db.imm = some imm)
    (hS : s.db.smallestSnapshot = kMaxSequenceNumber) :
    keepFrom false s.db.smallestSnapshot {} (s.store.mems imm).recs = [] := by
  rw [hS]
  exact keepFrom_eq_nil le_rfl (h.imm_ok hi) le_rfl

end LsmKv
