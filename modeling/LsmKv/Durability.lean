import LsmKv.Scans

namespace LsmKv
set_option autoImplicit true

open Wal (Group)

variable {s s' t : Sys} {gs : List Group}

/-- A step of the process by itself, or a crash: no client calls. -/
def Act.unattended : Act → Prop
  | kill => True
  | recover _ _ => True
  | a => a.ofJob

/-- What the history holds is all done, and nobody writes. -/
structure Quiet (gs : List Group) (s : Sys) : Prop where
  hist : s.hist = gs
  done : s.done = gs
  lead : s.lead = none

theorem Quiet.step (h : Quiet gs s) (hs : LsmKv.step s a = some s') (ha : a.unattended) :
    Quiet gs s' := by
  have hjob : a.ofJob → Quiet gs s' := fun hj =>
    ⟨(Sys.kept_job hs hj Sys.hist fun _ => rfl).trans h.hist,
      (Sys.kept_job hs hj Sys.done fun _ => rfl).trans h.done,
      (Sys.kept_job hs hj Sys.lead fun _ => rfl).trans h.lead⟩
  cases a with
  | kill =>
    cases hs
    exact ⟨h.hist, h.hist, rfl⟩
  | recover options path =>
    obtain ⟨_, ⟨_, rfl⟩ | ⟨_, _, _, _, rfl⟩⟩ := Sys.recover_cases hs
    · exact ⟨h.hist, h.done, h.lead⟩
    · exact ⟨h.hist, h.done, h.lead⟩
  | startFlush => exact hjob trivial
  | startCompaction level => exact hjob trivial
  | startLog => exact hjob trivial
  | job i n order => exact hjob trivial
  | failJob i n => exact hjob trivial
  | _ => cases ha

theorem Quiet.run {P : Sys → Act → Sys → Prop} (h : Quiet gs s)
    (h' : Run (fun s a s' => P s a s' ∧ a.unattended) s t) : Quiet gs t := by
  induction h' with
  | refl => exact h
  | step _ hs hp ih => exact ih.step hs hp.2

theorem Good.done_hist {σ : Prop} (h : Good σ s) : s.done <+: s.hist := by
  cases h with
  | opened hS _ _ => exact hS.logged.pre
  | closed hi _ _ => exact hi.done ▸ List.prefix_rfl

theorem Good.step_cases {σ : Prop} (h : Good σ s) (hs : LsmKv.step s a = some s')
    (ho : Orderly σ s a s') :
    (a.internal ∧ ∃ gh m logs, Sound σ gh s ∧ Disk σ gh s m logs) ∨ s' = s.kill ∨
      ∃ options path m logs N, s.recover options path = some s' ∧ a = .recover options path ∧
        Idle s ∧ OnDisk σ s.fs s.hist m logs N := by
  rcases ho.power with hint | rfl | ⟨options, path, rfl⟩
  · cases h with
    | opened hS hD _ => exact .inl ⟨hint, _, _, _, hS, hD⟩
    | closed hi _ hc =>
      rw [hi.step_eq_none hint hc] at hs
      cases hs
  · exact .inr (.inl (Option.some.inj hs).symm)
  · cases h with
    | opened hS _ _ =>
      have hr : s.recover options path = some s' := hs
      rw [Sys.recover, if_neg hS.is_open] at hr
      cases hr
    | closed hi hd _ => exact .inr (.inr ⟨options, path, _, _, _, hs, rfl, hi, hd⟩)

theorem Run.good_induct {σ : Prop} {I : Sys → Prop} (h : Run (Orderly σ) {} s) (h0 : I {})
    (hstep : ∀ s a s', Good σ s → I s → LsmKv.step s a = some s' → Orderly σ s a s' → I s') :
    I s := by
  refine (h.induct (I := fun s => Good σ s ∧ I s) ⟨good_new σ, h0⟩ ?_).2
  rintro s a s' ⟨hg, hi⟩ hs ho
  exact ⟨hg.step hs ho, hstep s a s' hg hi hs ho⟩

theorem Good.recovers {σ : Prop} (h : Good σ s) (hm : s.mode = .closed) (options : Options)
    (path : String) :
    ∃ s', s.recover options path = some s' ∧ s'.mode = .opening ∧ s'.failed = none := by
  cases h with
  | opened hS _ _ => exact absurd hm hS.is_open
  | closed hi hd hc =>
    obtain ⟨s', hs', hmode, hfailed, _⟩ := hd.recover hi hc options path
    exact ⟨s', hs', hmode, hfailed⟩

namespace Table

theorem readFullyAt_error {file : Bytes} (h : readFullyAt file offset n = .error st) :
    st.isOk = false := by
  rw [readFullyAt] at h
  split at h
  · cases h
  split at h
  · cases h
    rfl
  split at h
  · cases h
    rfl
  · cases h

theorem readFile_error {b : Table} (h : b.readFile entry = .error st) : st.isOk = false := by
  rw [readFile] at h
  split at h
  · rename_i hread
    cases h
    exact readFullyAt_error hread
  · split at h
    · cases h
      rfl
    · cases h

theorem parseIndex_error {path : String} (h : parseIndex path fuel rest = .error st) :
    st.isOk = false := by
  induction fuel generalizing rest with
  | zero =>
    cases rest <;> cases h
  | succ fuel ih =>
    cases rest with
    | nil => cases h
    | cons b rest =>
      rw [parseIndex.eq_def] at h
      dsimp only at h
      split at h
      · cases h
        rfl
      split at h
      · cases h
        rfl
      split at h
      · rename_i hrest
        cases h
        exact ih hrest
      · cases h

/-- A table that does not open is reported. -/
theorem openFile_error {path : String} {file : Bytes}
    (h : openFile path file options n = .error st) :
    st.isOk = false := by
  simp only [openFile] at h
  split at h
  · cases h
    rfl
  split at h
  · cases h
    rfl
  split at h
  · cases h
    rfl
  split at h
  · rename_i hread
    cases h
    exact readFile_error hread
  split at h
  · rename_i hread
    cases h
    exact readFile_error hread
  split at h
  · rename_i hparse
    cases h
    exact parseIndex_error hparse
  · cases h

end Table

theorem openTable_error {fs : DbFs} (h : openTable dir options fs n = .error st) :
    st.isOk = false := by
  rw [openTable] at h
  split at h
  · cases h
    rfl
  · exact Table.openFile_error h

/-- The next step of the thread opens a table or reads some. -/
def Phase.reads : Phase → Bool
  | .flushOpen _ _ => true
  | .compactMerge _ => true
  | .compactOpen _ _ _ _ _ => true
  | _ => false

/-- The table that the thread writes and then opens. -/
def Phase.table : Phase → Option FileName
  | flushOpen number _ => some (.sst number)
  | compactOpen _ number _ _ _ => some (.sst number)
  | _ => none

namespace Sys

theorem fail_keeps (s : Sys) {st : Status} (hst : st.isOk = false) : (s.fail st).fs = s.fs ∧
    ((s.fail st).db.bgError = s.db.bgError ∨ (s.fail st).db.bgError.isOk = false) := by
  rw [fail]
  split
  · exact ⟨rfl, .inl rfl⟩
  · exact ⟨rfl, .inr hst⟩

theorem commitVersion_keeps (s : Sys) (v : Version) : (s.commitVersion v).1.fs = s.fs ∧
    (s.commitVersion v).1.db.bgError = s.db.bgError := by
  rw [commitVersion]
  split <;> exact ⟨rfl, rfl⟩

/-- A thread has made its system calls before its next phase, which changes no file. Only what it
reads can stop it, and no error is taken back. -/
theorem phaseStep_keeps {next : Option Job} (hs : s.phaseStep order phase = some (t, next)) :
    t.fs = s.fs ∧ (t.db.bgError = s.db.bgError ∨
      next = none ∧ phase.reads = true ∧ t.db.bgError.isOk = false) := by
  cases phase with
  | flushOpen n b =>
    rw [phaseStep] at hs
    split at hs <;> cases hs
    · rename_i hopen
      exact (s.fail_keeps (openTable_error hopen)).imp id (Or.imp id fun he => ⟨rfl, rfl, he⟩)
    · exact ⟨rfl, .inl rfl⟩
  | flushInstall f =>
    rw [phaseStep] at hs
    split at hs
    · obtain ⟨rfl, _⟩ := Prod.ext_iff.1 (Option.some.inj hs)
      obtain ⟨hfs, he⟩ :=
        commitVersion_keeps { s with db := { s.db with imm := none, immLogNumber := 0 } }
        (s.db.current.setLevel 0 (f :: s.db.current.levels 0))
      exact ⟨hfs, .inl he⟩
    · cases hs
  | compactMerge c =>
    simp only [phaseStep] at hs
    generalize c.merge.run s.store = p at hs
    obtain ⟨⟨recs, status⟩, store⟩ := p
    dsimp only at hs
    split at hs <;> cases hs
    · exact ⟨rfl, .inl rfl⟩
    · rename_i hst
      exact (fail_keeps { s with store := store } (by simpa using hst)).imp id
        (Or.imp id fun he => ⟨rfl, rfl, he⟩)
  | compactNext c todo outputs =>
    cases todo with
    | nil =>
      rw [phaseStep] at hs
      split at hs
      · obtain ⟨rfl, _⟩ := Prod.ext_iff.1 (Option.some.inj hs)
        obtain ⟨hfs, he⟩ := s.commitVersion_keeps (c.install s.db.current outputs)
        exact ⟨hfs, .inl he⟩
      · cases hs
    | cons b todo =>
      rw [phaseStep] at hs
      split at hs <;> cases hs
      exact ⟨rfl, .inl rfl⟩
  | compactOpen c n b todo outputs =>
    rw [phaseStep] at hs
    split at hs <;> cases hs
    · rename_i hopen
      exact (s.fail_keeps (openTable_error hopen)).imp id (Or.imp id fun he => ⟨rfl, rfl, he⟩)
    · exact ⟨rfl, .inl rfl⟩
  | commitWait v =>
    rw [phaseStep] at hs
    split at hs <;> cases hs
    exact ⟨rfl, .inl rfl⟩
  | cleanup v l p =>
    rw [phaseStep] at hs
    split at hs <;> cases hs
    exact ⟨rfl, .inl rfl⟩
  | commitDone =>
    rw [phaseStep] at hs
    split at hs <;> cases hs
    exact ⟨rfl, .inl rfl⟩
  | logOpened n =>
    cases hs
    exact ⟨rfl, .inl rfl⟩
  | recovered =>
    cases hs
    exact ⟨rfl, .inl rfl⟩

end Sys

namespace Sound
variable {σ : Prop} {gh : Ghost}

theorem table_opens (h : Sound σ gh s) (hj : j ∈ s.jobs) (hio : j.io = [])
    (hn : j.phase.table = some (.sst n)) : ∃ t, s.openJobTable n = .ok t ∧ t.Good := by
  rcases h.jobs with ⟨hnil, -⟩ | ⟨j', hone, hok⟩
  · rw [hnil] at hj
    cases hj
  rw [hone, List.mem_singleton] at hj
  subst hj
  cases hok with
  | @flushOpen es m io hc hf hfit hnew hw =>
    cases hn
    obtain rfl : io = [] := hio
    have ha : Ascending Rec.pos es := by
      obtain ⟨imm, S, hi, -, -, -, rfl⟩ := hf
      exact (h.imm_asc hi).sublist (keepFrom_sublist _ _ _ _)
    obtain ⟨t, ht, -, hg, -⟩ := h.new_file hnew ⟨_, hfit, hw.done⟩ ha s.db.options
    exact ⟨t, ht, hg⟩
  | @compactOpen c outs es rest outputs m io hc hcp hp ho hd hfit hnew hw =>
    cases hn
    obtain rfl : io = [] := hio
    obtain ⟨t, ht, -, hg, -⟩ := h.new_file hnew ⟨_, hfit, hw.done⟩ (hp.run es (by simp)).2
      s.db.options
    exact ⟨t, ht, hg⟩
  | _ => cases hn

/-- What a job reads is there, so it ends in no error of its own. -/
theorem phase_keeps_error (h : Sound σ gh s) (hj : s.jobs = [⟨[], phase⟩])
    (hs : s.phaseStep order phase = some (t, next)) : t.db.bgError = s.db.bgError := by
  rcases (Sys.phaseStep_keeps hs).2 with he | ⟨rfl, hr, -⟩
  · exact he
  generalize hjob : (⟨[], phase⟩ : Job) = j at hj
  have hnext : ∀ {gh'}, ¬ ∃ j, (none : Option Job) = some j ∧ Sound σ gh' { t with jobs := [j] } :=
    fun ⟨_, hc, _⟩ => (by cases hc)
  cases h.job_ok hj with
  | flushOpen hc hf hfit hn hw =>
    cases hjob
    exact (hnext (h.phase_flushOpen hc hf hfit hn hw.done hs)).elim
  | compactMerge hc hcp =>
    cases hjob
    exact (hnext (h.phase_compactMerge hc hcp hs)).elim
  | compactOpen hc hcp hp ho hd hfit hn hw =>
    cases hjob
    exact (hnext (h.phase_compactOpen hc hcp hp ho hd hfit hn hw.done hs)).elim
  | _ =>
    cases hjob
    cases hr

theorem job_keeps_error (h : Sound σ gh s) (hs : s.jobStep i n order = some s') :
    s'.db.bgError = s.db.bgError := by
  obtain ⟨j, hj, hcase⟩ := Sys.jobStep_cases hs
  obtain ⟨rfl, hjobs⟩ := h.jobs_index hj
  rcases hcase with ⟨hio, t, next, hp, rfl⟩ | ⟨fs, io, hio, rfl⟩
  · obtain ⟨io, phase⟩ := j
    cases hio
    have he := h.phase_keeps_error hjobs hp
    exact he
  · rfl

end Sound

theorem Run.never_failed (hrun : Run Steady {} s) (hf : s.failed = none)
    (h : Run (fun s a s' => Steady s a s' ∧ ∀ i n, a ≠ .failJob i n) s t) : t.failed = none := by
  induction h with
  | refl => exact hf
  | @step t a t' h hs hp ih =>
    have hrun := hrun.trans (h.mono fun _ _ _ hp => hp.1)
    have ho := hp.1.orderly hrun hs
    have hg := Good.run hrun.steady.1
    rcases ho.power with hint | rfl | ⟨options, path, rfl⟩
    · cases hg with
      | opened hS hD hC =>
        obtain ⟨gh', hS'⟩ := hS.step_ok hs hint ho.fits (fun hj => ⟨ho.oneJob hj, ho.pins hj⟩)
          (fun hm => (hC.moves hS hs hm).1) hp.2
        exact hS'.failed
      | closed hi _ hc =>
        rw [hi.step_eq_none hint hc] at hs
        cases hs
    · cases hs
      rfl
    · obtain ⟨u, hu, _, hf⟩ := hg.recovers (Sys.recover_cases hs).1 options path
      cases hs.symm.trans hu
      exact hf

/-- Unless a system call fails, `Open` succeeds wherever the crash before it came: the manifest and
the logs can be read, and so can every table that it and the background thread write and open. -/
theorem open_never_fails
    (h : Run (fun s a s' => Steady s a s' ∧ ∀ i n, a ≠ .failJob i n) {} s) :
    s.failed = none ∧
    (s.mode = .closed → ∀ options path, ∃ s', s.recover options path = some s' ∧
      s'.mode = .opening ∧ s'.failed = none) ∧
    (∀ j ∈ s.jobs, j.io = [] → ∀ n, j.phase.table = some (.sst n) →
      ∃ t, s.openJobTable n = .ok t ∧ t.Good) ∧
    ∀ i n order s', step s (.job i n order) = some s' → s'.db.bgError = s.db.bgError := by
  have hrun : Run Steady {} s := h.mono fun _ _ _ hp => hp.1
  have hgood := Good.run hrun.steady.1
  refine ⟨Run.never_failed .refl rfl h, fun hm options path => hgood.recovers hm options path,
    ?_, ?_⟩
  · intro j hj hio n hn
    cases hgood with
    | opened hS hD hC => exact hS.table_opens hj hio hn
    | closed hi _ hc =>
      rw [hi.jobs] at hj
      cases hj
  · intro i n order s' hs
    cases hgood with
    | opened hS hD hC => exact hS.job_keeps_error hs
    | closed hi _ hc =>
      rw [hi.step_eq_none (a := .job i n order) trivial hc] at hs
      cases hs

theorem Steady.kill (s : Sys) : Steady s .kill s.kill where
  served := {
    crashes := {
      fits := {
        sequence := Nat.zero_le _
        fileNumber := (by decide : ({} : Db).nextFileNumber < 2 ^ 64)
        files := (by decide : (Manifest.filesOf ({} : Db).current).length < 2 ^ 32)
        fileSize := fun _ _ hf => (by cases hf)
        group := fun _ hl => (by cases hl)
        table := fun _ hj => (by cases hj)
        key := fun _ hc => (by cases hc) }
      power := .inr (.inl rfl) }
    background := fun _ _ hc => (by cases hc)
    flush := fun hc => (by cases hc) }
  below := fun hj => (by cases hj)

/-- A crash at any point loses no acknowledged write and leaves no write in part: once the database
is open again, after any number of further crashes, reads return what the groups whose records were
complete in a log say. -/
theorem crash_keeps_groups (h : Run Steady {} s) :
    (∀ g ∈ s.acked, g ∈ s.hist) ∧
    ∀ t, Run (fun s a s' => Steady s a s' ∧ a.unattended) s.kill t → t.mode = .running →
      (∀ r ∈ recsOf s.hist, r.seq ≤ t.db.lastSequence) ∧
      ∀ k : Bytes, k.length + 8 < 2 ^ 32 → Reads {r | r ∈ recsOf s.hist} k t.db.lastSequence
        (((t.db.capture none).get k).run t.store).1 := by
  refine ⟨fun g hg => (Good.run h.steady.1).done_hist.subset
    ((Seen.run h.steady.1 trivial).acked g hg), fun t ht hm => ?_⟩
  have hkill : Quiet s.hist s.kill := ⟨rfl, rfl, rfl⟩
  have hq := hkill.run ht
  have hrun : Run Steady {} t := (Run.step h rfl (.kill s)).trans (ht.mono fun _ _ _ hp => hp.1)
  obtain ⟨gh, _, _, hS, _⟩ := (Good.run hrun.steady.1).sound (by simp [hm])
  have hvis : t.visible = recsOf s.hist := by simp [Sys.visible, hq.lead, hq.done]
  rw [← hvis]
  refine ⟨fun r hr => (hS.logged.mem_visible hr).2, fun k hk => ?_⟩
  exact hS.reads_now trivial hm (fun _ hc => by cases hc) hk

section Sample

/-- No client calls. -/
def Act.isUnattended : Act → Bool
  | kill => true
  | recover _ _ => true
  | startFlush => true
  | startCompaction _ => true
  | startLog => true
  | job _ _ _ => true
  | _ => false

theorem Act.unattended_of_check {a : Act} (h : a.isUnattended = true) : a.unattended := by
  cases a with
  | kill => trivial
  | recover options path => trivial
  | startFlush => trivial
  | startCompaction level => trivial
  | startLog => trivial
  | job i n order => trivial
  | _ => cases h

/-- One write is acknowledged; of the record of another the log has the first five bytes. -/
def tornActs : List Act :=
  openActs ++ putActs [97] [1] ++ [.write 0 [⟨.kValue, [97], [2]⟩] false, .begin false, .append 5]

/-- `Open`, which crashes before its flush is part of the version, and `Open` again. -/
def crashActs : List Act :=
  .recover {} "db" :: .startFlush :: jobActs 6 ++ .kill :: .recover {} "db" :: .startFlush ::
    jobActs 10 ++ .job 0 0 [.manifest, .sst 3, .sst 2, .log 1] :: jobActs 2 ++ .startLog ::
    jobActs 8 ++ .job 0 0 [.manifest, .log 4, .sst 3, .log 1] :: jobActs 2

/-- No system call of a job fails. -/
def Act.jobSucceeds : Act → Bool
  | failJob _ _ => false
  | _ => true

theorem Act.ne_failJob {a : Act} (h : a.jobSucceeds = true) : ∀ i n, a ≠ .failJob i n := by
  rintro i n rfl
  cases h

/-- After a crash in the middle of `Open` the next one is about to open the table it has written. -/
theorem open_never_fails_sample : ∃ s s', runActs (fun s a => Steady.check s a && a.jobSucceeds) {}
      (tornActs ++ .kill :: .recover {} "db" :: .startFlush :: jobActs 6 ++ [.kill]) = some s ∧
    s.fs.names = [.manifestTmp, .sst 2, .manifest, .log 1] ∧ s.failed = none ∧
    (∃ t, s.recover {} "db" = some t ∧ t.mode = .opening ∧ t.failed = none) ∧
    runActs (fun s a => Steady.check s a && a.jobSucceeds) s
      (.recover {} "db" :: .startFlush :: jobActs 3) = some s' ∧
    s'.jobs.map (fun j => (j.io.length, j.phase.table)) = [(0, some (.sst 3))] ∧
    ∃ t, s'.openJobTable 3 = .ok t ∧ t.Good := by
  obtain ⟨s, hs, hm, hnames, s', hs', hjobs⟩ : ∃ s,
      runActs (fun s a => Steady.check s a && a.jobSucceeds) {}
        (tornActs ++ .kill :: .recover {} "db" :: .startFlush :: jobActs 6 ++ [.kill]) = some s ∧
      s.mode = .closed ∧ s.fs.names = [.manifestTmp, .sst 2, .manifest, .log 1] ∧
      ∃ s', runActs (fun s a => Steady.check s a && a.jobSucceeds) s
        (.recover {} "db" :: .startFlush :: jobActs 3) = some s' ∧
      s'.jobs.map (fun j => (j.io.length, j.phase.table)) = [(0, some (.sst 3))] := by
    decide +kernel
  have hrun := Run.of_steady_with (fun _ => Act.ne_failJob) .refl hs
  obtain ⟨hfailed, hopen, -⟩ := open_never_fails hrun
  have hrest := Run.of_steady_with (fun _ => Act.ne_failJob) (hrun.mono fun _ _ _ hp => hp.1) hs'
  obtain ⟨-, -, htable, -⟩ := open_never_fails (hrun.trans hrest)
  obtain ⟨j, hj, hlast⟩ := List.map_eq_singleton_iff.1 hjobs
  obtain ⟨hio, hn⟩ := Prod.mk.inj hlast
  refine ⟨s, s', hs, hnames, hfailed, hopen hm {} "db", hs', hjobs, ?_⟩
  exact htable j (hj ▸ List.mem_singleton_self j) (List.length_eq_zero_iff.1 hio) 3 hn

set_option synthInstance.maxSize 2000 in
theorem crash_keeps_groups_sample : ∃ s t, runActs Steady.check {} tornActs = some s ∧
    runActs (fun s a => Steady.check s a && a.isUnattended) s.kill crashActs = some t ∧
    t.mode = .running ∧ s.hist.map Group.entries = [[⟨.kValue, [97], [1]⟩]] ∧
    Reads {r | r ∈ recsOf s.hist} [97] t.db.lastSequence
      (((t.db.capture none).get [97]).run t.store).1 := by
  obtain ⟨s, hs, t, ht, hm, hhist⟩ : ∃ s, runActs Steady.check {} tornActs = some s ∧
      ∃ t, runActs (fun s a => Steady.check s a && a.isUnattended) s.kill crashActs = some t ∧
      t.mode = .running ∧ s.hist.map Group.entries = [[⟨.kValue, [97], [1]⟩]] := by
    decide +kernel
  have hrun := Run.of_steady .refl hs
  have hrest := Run.of_steady_with (fun _ => Act.unattended_of_check)
    (Run.step hrun rfl (.kill s)) ht
  exact ⟨s, t, hs, ht, hm, hhist, ((crash_keeps_groups hrun).2 t hrest hm).2 [97] (by decide)⟩

end Sample

end LsmKv
