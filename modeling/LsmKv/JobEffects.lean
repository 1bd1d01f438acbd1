import LsmKv.Touches

namespace LsmKv
set_option autoImplicit true

open Wal (Group)

variable {σ : Prop} {gh : Ghost} {s s' t : Sys} {m m' : Manifest} {logs : Nat → List Group}
  {fs fs' : DbFs}

/-- A manifest that `LoadManifest` reads back. -/
structure Manifest.Readable (m : Manifest) : Prop where
  fits : m.Fits
  wf : ∃ R, m.version.Wf R

/-- The bytes of a manifest determine which tables it names. -/
theorem Manifest.numbers_eq (h : m.Readable) (h' : m'.Readable)
    (he : m.encode = m'.encode) (l : Nat) :
    (m.version.levels l).map FileMetaData.number =
      (m'.version.levels l).map FileMetaData.number := by
  -- what the tables hold does not matter here, so any that open will do
  let opens : Nat → Except Status Table := fun n => .ok ⟨"", [], n, false, [], []⟩
  have hload : ∀ m : Manifest, m.Readable →
      load opens m.encode = .ok { m with version := reopenVersion opens m.version } := by
    intro m hm
    obtain ⟨R, hwf⟩ := hm.wf
    exact load_encode opens hm.fits (hwf.level0.imp fun h => h.1)
      (fun l hl => (hwf.ok.deeper l hl).smallest_sorted) hwf.ok.empty fun e _ => ⟨_, rfl⟩
  have hnumbers : ∀ v : Version, ((reopenVersion opens v).levels l).map FileMetaData.number =
      (v.levels l).map FileMetaData.number := by
    intro v
    rw [reopenVersion, List.map_map]
    rfl
  have heq := (hload m h).symm.trans (he ▸ hload m' h')
  have hv := congrArg Manifest.version (Except.ok.inj heq)
  calc (m.version.levels l).map FileMetaData.number
      = ((reopenVersion opens m.version).levels l).map FileMetaData.number := (hnumbers _).symm
    _ = ((reopenVersion opens m'.version).levels l).map FileMetaData.number :=
        congrArg (fun v : Version => (v.levels l).map FileMetaData.number) hv
    _ = (m'.version.levels l).map FileMetaData.number := hnumbers _

/-- The manifest on disk names the table. -/
def Listed (fs : DbFs) (n : Nat) : Prop := ∃ m : Manifest, m.Readable ∧
  fs.read .manifest = some m.encode ∧ ∃ l, ∃ f ∈ m.version.levels l, f.number = n

theorem Listed.mem (h : Listed fs n) (hm : m.Readable) (hr : fs.read .manifest = some m.encode) :
    ∃ l, ∃ f ∈ m.version.levels l, f.number = n := by
  obtain ⟨m', hm', hr', l, f, hf, rfl⟩ := h
  have he : m'.encode = m.encode := Option.some.inj (hr'.symm.trans hr)
  have hmem := List.mem_map_of_mem (f := FileMetaData.number) hf
  rw [Manifest.numbers_eq hm' hm he l] at hmem
  obtain ⟨g, hg, hn⟩ := List.mem_map.1 hmem
  exact ⟨l, g, hg, hn⟩

theorem Committed.mem_of_listed (h : Committed fs m) (hl : Listed fs n) :
    ∃ l, ∃ f ∈ m.version.levels l, f.number = n := by
  rcases h.manifest with ⟨hr, _⟩ | ⟨hr, hfit⟩
  · obtain ⟨_, _, hr', _⟩ := hl
    rw [hr] at hr'
    cases hr'
  · exact hl.mem ⟨hfit, h.wf⟩ hr

theorem Committed.listed (h : Committed fs m) (hf : f ∈ m.version.levels l) :
    Listed fs f.number := by
  rcases h.manifest with ⟨_, rfl⟩ | ⟨hr, hfit⟩
  · cases hf
  · exact ⟨m, ⟨hfit, h.wf⟩, hr, l, f, hf, rfl⟩

section Calls
variable {io io' : List Io}

/-- Until it is renamed only the temporary manifest changes. -/
theorem Replacing.stat (h : Replacing fs bytes io) (hs : ioStep n fs io = some (fs', io')) :
    (∀ name, name ≠ .manifestTmp → fs'.stat name = fs.stat name) ∨
      io = [.rename .manifestTmp .manifest, .syncDir] ∧ fs'.stat .manifest = fs.stat .manifestTmp ∧
        fs'.read .manifest = some bytes := by
  rcases h with rfl | ⟨w, rest, hr, hw, rfl⟩ | ⟨hr, rfl | rfl⟩
  · rcases ioStep_cases hs with ⟨op, he, rfl⟩ | ⟨_, _, _, he, _⟩
    · cases he
      exact .inl fun name hn => Io.stat_run _ fs (by simpa [Io.names] using hn)
    · cases he
  · rcases ioStep_cases hs with ⟨op, he, rfl⟩ | ⟨nm, bs, rest', he, _, _, rfl, rfl⟩
    · cases he
      exact .inl fun name hn => Io.stat_run _ fs (by simpa [Io.names] using hn)
    · cases he
      exact .inl fun name hn => (Fs.stat_append _ _ _ _).trans (if_neg hn)
  · rcases ioStep_cases hs with ⟨op, he, rfl⟩ | ⟨_, _, _, he, _⟩
    · cases he
      exact .inl fun name hn => Io.stat_run _ fs (by simpa [Io.names] using hn)
    · cases he
  · rcases ioStep_cases hs with ⟨op, he, rfl⟩ | ⟨_, _, _, he, _⟩
    · cases he
      have hsome : fs.read .manifestTmp ≠ none := by simp [hr]
      have hst : (fs.rename .manifestTmp .manifest).stat .manifest = fs.stat .manifestTmp := by
        rw [Fs.stat_rename fs (by simp) hsome, if_pos rfl]
      refine .inr ⟨rfl, hst, ?_⟩
      rw [Io.run, Fs.read_eq_stat, hst, ← Fs.read_eq_stat, hr]
    · cases he

theorem stat_failCall_of_ne (h : Sys.failCall n fs io = some fs')
    (hne : ∀ nm bytes rest, io = .append nm bytes :: rest → name ≠ nm) :
    fs'.stat name = fs.stat name := by
  rw [Sys.failCall] at h
  split at h
  · cases h
    rfl
  · cases io with
    | nil => cases h
    | cons op rest =>
      cases op with
      | append nm bytes =>
        rw [Sys.failIo] at h
        split at h <;> cases h
        exact (Fs.stat_append _ _ _ _).trans (if_neg (hne nm bytes rest rfl))
      | unlink nm => cases h
      | _ =>
        cases h
        rfl

end Calls

theorem Disk.not_listed (h : Disk σ gh s m logs)
    (hne : ∀ l, ∀ f ∈ m.version.levels l, f.number ≠ k) :
    ¬ Listed s.fs k := by
  intro hl
  obtain ⟨l, f, hf, he⟩ := h.onDisk.committed.mem_of_listed hl
  exact hne l f hf he

/-- All that one step of a job can do to the files, while `m` is the manifest on disk. -/
inductive JobEffect (s : Sys) (m : Manifest) (fs : DbFs) : Prop where
  | same (h : ∀ name, name ≠ .manifestTmp → fs.stat name = s.fs.stat name)
  | table (hl : ¬ Listed s.fs k) (ho : ∀ b ∈ s.opened, b.number ≠ k)
      (h : ∀ name, name ≠ .sst k → fs.stat name = s.fs.stat name)
  | renamed {new : Manifest}
      (hj : s.jobs = [⟨[.rename .manifestTmp .manifest, .syncDir], .cleanup v log next⟩])
      (hst : fs.stat .manifest = s.fs.stat .manifestTmp) (hr : fs.read .manifest = some new.encode)
      (hc : Committed fs new) (hv : new.version = s.db.current)
      (hlog : s.mode = .running → new.logNumber = s.db.oldestLiveLog)
      (h : ∀ name, ¬ IsManifest name → fs.stat name = s.fs.stat name)
  | unlinkTable (hl : ¬ Listed s.fs k) (h : fs = s.fs.unlink (.sst k))
  | unlinkLog (hn : n < m.logNumber) (hm : m.logNumber ≤ s.db.logNumber)
      (h : fs = s.fs.unlink (.log n))
  | log (hm : s.mode = .opening) (h : ∀ name, name ≠ .log n → fs.stat name = s.fs.stat name)

namespace Disk

variable {j : Job} {io io' : List Io}

theorem effect_commit (hS : Sound σ gh s) (hj : s.jobs = [⟨io, .cleanup v log next⟩])
    (hP : (∃ m' logs, (s.mode = .running → m'.logNumber = s.db.oldestLiveLog) ∧
      Pending σ s m' logs io) ∨ io = [.syncDir] ∨ io = [])
    (hio : ioStep n s.fs io = some (fs, io')) : JobEffect s m fs := by
  rcases hP with ⟨m', _, hlog, hp⟩ | rfl | rfl
  · rcases hp.writing.stat hio with hsame | ⟨rfl, hst, hr⟩
    · exact .same hsame
    · have hf : ∀ name, ¬ IsManifest name → fs.stat name = s.fs.stat name := fun name hn =>
        stat_ioStep hio (hp.writing.names hn)
      refine .renamed hj hst hr
        ⟨.inr ⟨hr, hp.fits⟩, hp.version ▸ hS.wf, ?_, hp.next, hp.log_le, hp.last⟩ hp.version hlog hf
      intro l f hmem
      rw [hp.version] at hmem
      refine (hS.tables.live l f hmem).2.frame ?_
      rw [Fs.read_eq_stat, Fs.read_eq_stat, hf _ (by simp [IsManifest])]
  · cases hio
    exact .same fun _ _ => rfl
  · cases hio

theorem effect_unlink (hD : Disk σ gh s m logs) (hS : Sound σ gh s)
    (hun : ∀ op ∈ io, ∃ name, op = .unlink name ∧ isObsolete s.db.current log name = true)
    (hc : Cleaning s m log' io) (hle : log' ≤ s.db.logNumber)
    (hio : ioStep n s.fs io = some (fs, io')) : JobEffect s m fs := by
  obtain ⟨name, rfl, ho, rfl⟩ := ioStep_unlinks hun hio
  rcases isObsolete_cases ho with ⟨k, rfl⟩ | ⟨k, rfl, _⟩
  · refine .unlinkTable (hD.not_listed ?_) rfl
    rintro l f hf rfl
    rw [hc.version] at hf
    obtain ⟨R, hwf⟩ := hS.wf
    have hmem : f.number ∈ s.db.current.files.map (·.number) :=
      List.mem_map_of_mem (hwf.mem_files hf)
    rw [isObsolete, Bool.not_eq_true', ← Bool.not_eq_true, List.contains_iff_mem] at ho
    exact ho hmem
  · have hk := hc.below k List.mem_cons_self
    rw [← hc.number] at hk hle
    exact .unlinkLog hk hle rfl

theorem effect_io (hD : Disk σ gh s m logs) (hS : Sound σ gh s) (hj : s.jobs = [j])
    (hio : ioStep n s.fs j.io = some (fs, io)) : JobEffect s m fs := by
  have hd := hD.jobs j (hj ▸ List.mem_cons_self)
  cases hS.job_ok hj with
  | flushOpen hc hf hfit hn hw =>
    exact .table (hD.not_listed hd) (fun b hb => (hn.2 b hb).ne)
      fun name hne => stat_ioStep hio (hw.names hne)
  | flushInstall hc hf hn => cases hio
  | compactMerge hc hcp => cases hio
  | compactNext hc hcp hp ho hd => cases hio
  | compactOpen hc hcp hp ho hd' hfit hn hw =>
    exact .table (hD.not_listed hd) (fun b hb => (hn.2 b hb).ne)
      fun name hne => stat_ioStep hio (hw.names hne)
  | commit hc hi hlog hn =>
    obtain ⟨hold, _, ⟨m', hm', hp⟩ | hren⟩ := hd
    · exact effect_commit hS hj (.inl ⟨m', logs, fun _ => hm'.trans hold, hp⟩) hio
    · exact effect_commit hS hj (.inr hren.calls) hio
  | commitDone hc hi hlog hun => exact hD.effect_unlink hS hun hd.2 hS.oldest_le hio
  | logOpened hc hm hi hn hlog => exact .log hm fun name hne => stat_ioStep hio (hlog.names hne)
  | recoverCommit hc hm hi hn =>
    obtain ⟨_, ⟨m', _, _, hp⟩ | ⟨_, hren⟩⟩ := hd
    · exact effect_commit hS hj
        (.inl ⟨m', logs, fun hr => absurd (hr.symm.trans hm) (by simp), hp⟩) hio
    · exact effect_commit hS hj (.inr hren.calls) hio
  | recovered hc hm hi hun => exact hD.effect_unlink hS hun hd.2.2 le_rfl hio

/-- A job that fails has touched only the file it was writing. -/
theorem effect_fail (hD : Disk σ gh s m logs) (hS : Sound σ gh s) (hj : s.jobs = [j])
    (hcall : Sys.failCall n s.fs j.io = some fs)
    (ht : { s with fs := fs }.failPhase j.io j.phase = some t) :
    JobEffect s m t.fs := by
  have hd := hD.jobs j (hj ▸ List.mem_cons_self)
  have hname : ∀ name, j.phase.table ≠ some name → (∀ op ∈ j.io, name ∉ op.names) →
      t.fs.stat name = s.fs.stat name := fun name hp hn =>
    (Sys.stat_failPhase ht hp).trans (stat_failCall hcall hn)
  have htmp : j.phase.table = none →
    (∀ nm bytes rest, j.io = .append nm bytes :: rest → nm = .manifestTmp) →
      JobEffect s m t.fs := by
    intro hp htmp
    refine .same fun name hne => ?_
    refine (Sys.stat_failPhase ht (by simp [hp])).trans (stat_failCall_of_ne hcall ?_)
    intro nm bytes rest he
    rw [htmp nm bytes rest he]
    exact hne
  have hsync : ∀ {io : List Io}, io = [.syncDir] ∨ io = [] →
    ∀ nm bytes rest, io = .append nm bytes :: rest →
      nm = .manifestTmp := by
    rintro io (rfl | rfl) nm bytes rest he <;> cases he
  cases hS.job_ok hj with
  | @flushOpen _ k _ hc hf hfit hn hw =>
    refine .table (hD.not_listed hd) (fun b hb => (hn.2 b hb).ne) fun name hne => hname name ?_
      (hw.names hne)
    exact fun he => hne (Option.some.inj he).symm
  | flushInstall hc hf hn => cases ht
  | compactMerge hc hcp => cases ht
  | compactNext hc hcp hp ho hd => cases ht
  | compactOpen hc hcp hp ho hd' hfit hn hw =>
    refine .table (hD.not_listed hd) (fun b hb => (hn.2 b hb).ne) fun name hne => hname name ?_
      (hw.names hne)
    exact fun he => hne (Option.some.inj he).symm
  | commit hc hi hlog hn =>
    rcases hd.2.2 with ⟨m', _, hp⟩ | hren
    · exact htmp rfl hp.writing.append_tmp
    · exact htmp rfl (hsync hren.calls)
  | commitDone hc hi hlog hun => cases ht
  | logOpened hc hm hi hn hlog =>
    exact .log hm fun name hne => hname name (by simp [Phase.table]) (hlog.names hne)
  | recoverCommit hc hm hi hn =>
    rcases hd.2 with ⟨m', _, _, hp⟩ | ⟨_, hren⟩
    · exact htmp rfl hp.writing.append_tmp
    · exact htmp rfl (hsync hren.calls)
  | recovered hc hm hi hun => cases ht

/-- What a step of a job does to the files. -/
theorem effect (hD : Disk σ gh s m logs) (hS : Sound σ gh s) (hs : LsmKv.step s a = some s')
    (ha : a.ofJob) : JobEffect s m s'.fs := by
  cases a with
  | startFlush =>
    obtain ⟨_, _, _, rfl⟩ := Sys.startFlush_cases hs
    exact .same fun _ _ => rfl
  | startCompaction level =>
    obtain ⟨_, _, _, db, c, _, rfl⟩ := Sys.startCompaction_cases hs
    exact .same fun _ _ => rfl
  | startLog =>
    obtain ⟨_, _, _, rfl⟩ := Sys.startLog_cases hs
    exact .same fun _ _ => rfl
  | job i n order =>
    obtain ⟨j, hj, hcase⟩ := Sys.jobStep_cases hs
    obtain ⟨rfl, hjobs⟩ := hS.jobs_index hj
    rcases hcase with ⟨_, t, next, hp, rfl⟩ | ⟨fs, io, hio, rfl⟩
    · refine .same fun name _ => ?_
      show t.fs.stat name = s.fs.stat name
      rw [(Sys.phaseStep_keeps hp).1]
    · exact hD.effect_io hS hjobs hio
  | failJob i n =>
    obtain ⟨j, fs, t, hj, _, _, hcall, ht, rfl⟩ := Sys.failJob_cases hs
    obtain ⟨rfl, hjobs⟩ := hS.jobs_index hj
    have he : JobEffect s m t.fs := hD.effect_fail hS hjobs hcall ht
    exact he
  | _ => cases ha

end Disk

end LsmKv
