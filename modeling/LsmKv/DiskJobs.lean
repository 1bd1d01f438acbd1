import LsmKv.DiskSteps

namespace LsmKv
set_option autoImplicit true

open Versioned
open Wal (Group)

variable {σ : Prop} {gh gh' : Ghost} {s s' : Sys} {m m' : Manifest} {logs : Nat → List Group}

theorem Committed.number_lt (h : Committed fs m)
    (hn : ∀ name ∈ fs.names, ∀ n, Sys.numberOf name = some n → n < N) :
    ∀ l, ∀ f ∈ m.version.levels l, f.number < N := by
  intro l f hf
  obtain ⟨_, _, hr⟩ := h.sst l f hf
  exact hn (.sst f.number) (Fs.mem_names.2 (by simp [hr])) _ rfl

namespace Disk

theorem start {db : Db} (h : Disk σ gh s m logs) (hS : Sound σ gh s)
    (hb : s.db.bgError.isOk = true) (hc : db.current = s.db.current) (hsame : SameLogs s.db db)
    (hco : db.committing = s.db.committing) (he : db.bgError = s.db.bgError)
    (hmem : db.mem = s.db.mem) (hn : s.db.nextFileNumber ≤ db.nextFileNumber)
    (hj : JobDisk σ { s with db := db, jobs := [j] } m logs j) :
    Disk σ gh { s with db := db, jobs := [j] } m logs := by
  refine h.still (.of_read rfl (fun _ => rfl) rfl hc hsame hco hn) hsame
    (h.onDisk.of_read (fun _ => rfl) hn) hS.log_lt (fun j' hj' => List.mem_singleton.1 hj' ▸ hj)
    (fun _ => .inr hb) (fun hm => ?_) (fun hm => ?_) (fun _ => ?_) rfl rfl
  · show ∃ part, LogTail s.fs _ _ (db.bgError.isOk = true) s.lead part
    rw [he]
    exact (h.running hm).tail
  · show s.rotating ≠ none → db.bgError.isOk = true
    rw [he]
    exact (h.running hm).rotating
  · show (s.store.mems db.mem).recs = _
    rw [hmem]

theorem startFlush (h : Disk σ gh s m logs) (hS : Sound σ gh s) (hs : s.startFlush = some s')
    (hj : s.jobs = []) : Disk σ gh s' m logs := by
  obtain ⟨imm, hi, hmay, rfl⟩ := Sys.startFlush_cases hs
  rw [hj]
  refine h.start hS (Sys.mayStart_iff.1 hmay).2.2.1 rfl ⟨rfl, rfl, rfl⟩ rfl rfl rfl
    (Nat.le_succ _) ?_
  exact fun l f hf => (h.onDisk.committed.number_lt hS.tables.names l f hf).ne

theorem startCompaction (h : Disk σ gh s m logs) (hS : Sound σ gh s)
    (hs : s.startCompaction level = some s') (hj : s.jobs = []) : Disk σ gh s' m logs := by
  obtain ⟨hm, hmay, hl, db, c, hb, rfl⟩ := Sys.startCompaction_cases hs
  have hlay := hS.layered fun ho => by simp [hm] at ho
  obtain ⟨_, _, hdb⟩ := Db.beginCompaction_picked hlay.wf hl hb
  generalize db.compactPointer = pointer at hdb
  subst hdb
  rw [hj]
  exact h.start hS (Sys.mayStart_iff.1 hmay).2.2.1 rfl ⟨rfl, rfl, rfl⟩ rfl rfl rfl le_rfl trivial

theorem startLog (h : Disk σ gh s m logs) (hS : Sound σ gh s) (hs : s.startLog = some s') :
    Disk σ gh s' m logs := by
  obtain ⟨hm, hj, hi, rfl⟩ := Sys.startLog_cases hs
  exact h.start hS (hS.opening hm).2.2.2.2.2 rfl ⟨rfl, rfl, rfl⟩ rfl rfl rfl (Nat.le_succ _)
    ⟨hm, h.onDisk.stored.after⟩

end Disk

section Calls
variable {fs : DbFs} {io io' : List Io} {j j' : Job}

theorem still_job (hlog : ∀ n, fs.read (.log n) = s.fs.read (.log n)) (jobs : List Job) :
    Still s { s with fs := fs, jobs := jobs } :=
  ⟨rfl, fun n hn => .inl (hlog n ▸ hn), rfl, rfl, rfl, rfl, le_rfl, fun _ => ⟨rfl, rfl, hlog⟩⟩

namespace Disk

theorem job_read (h : Disk σ gh s m logs) (hS : Sound σ gh s) (hj : s.jobs = [j])
    (hman : fs.read .manifest = s.fs.read .manifest)
    (hlog : ∀ n, fs.read (.log n) = s.fs.read (.log n))
    (hsst : ∀ l, ∀ f ∈ m.version.levels l, fs.read (.sst f.number) = s.fs.read (.sst f.number))
    (hjd : JobDisk σ { s with fs := fs, jobs := [j'] } m logs j') :
    Disk σ gh { s with fs := fs, jobs := [j'] } m logs := by
  refine h.still (still_job hlog _) ⟨rfl, rfl, rfl⟩ (h.onDisk.frame hman hlog hsst le_rfl) hS.log_lt
    (fun j hj => List.mem_singleton.1 hj ▸ hjd) (fun _ => .inl (by simp [hj])) (fun hm => ?_)
    (fun hm => (h.running hm).rotating) (fun _ => rfl) rfl rfl
  obtain ⟨part, ht⟩ := (h.running hm).tail
  exact ⟨part, ht.frame (hlog _)⟩

/-- The manifest that a job has written is now the one on disk. -/
theorem renamed (h : Disk σ gh s m logs) (hS : Sound σ gh s) (hj : s.jobs = [j])
    (hp : Pending σ s m' logs io) (hr : fs.read .manifest = some m'.encode)
    (hf : ∀ name, ¬ IsManifest name → fs.read name = s.fs.read name)
    (hlog : m'.logNumber ≤ s.db.oldestLiveLog) (himm : s.mode = .opening → s.db.imm = none)
    (hjd : JobDisk σ { s with fs := fs, jobs := [j'] } m' logs j') :
    Disk σ gh { s with fs := fs, jobs := [j'] } m' logs := by
  have hlogs : ∀ n, fs.read (.log n) = s.fs.read (.log n) := fun n => hf _ (by simp [IsManifest])
  have hst := h.onDisk.stored.frame hlogs le_rfl
  refine ⟨⟨h.onDisk.ok, ⟨.inr ⟨hr, hp.fits⟩, ?_, fun l f hm => ?_, hp.next, hp.log_le, hp.last⟩,
    hst, hp.cover⟩, fun j hj => List.mem_singleton.1 hj ▸ hjd, fun hm => ?_, fun hm => ?_⟩
  · rw [hp.version]
    exact hS.wf
  · rw [hp.version] at hm
    exact (hS.tables.live l f hm).2.frame (hf _ (by simp [IsManifest]))
  · have hrun := h.running hm
    obtain ⟨part, ht⟩ := hrun.tail
    exact { hrun with
      tail := ⟨part, ht.frame (hlogs _)⟩
      log_le := hlog
      aligned := hp.aligned hm
      swept := fun _ => hrun.swept (.inl (by simp [hj])) }
  · exact ⟨(h.opening hm).mem_nil, fun hne => absurd (himm hm) hne⟩

end Disk

theorem OneBelow.unlink (h : OneBelow logs n) (k : Nat) :
    OneBelow (Function.update logs k []) n := by
  intro i hi j hj hne
  by_cases hik : i = k
  · exact .inl (by rw [hik, Function.update_self])
  · by_cases hjk : j = k
    · exact .inr (by rw [hjk, Function.update_self])
    · rw [Function.update_of_ne hik, Function.update_of_ne hjk]
      exact h i hi j hj hne

theorem Cleaning.unlink (h : Cleaning s m log (.unlink name :: io)) :
    Cleaning { s with fs := s.fs.unlink name, jobs := jobs } m log io where
  version := h.version
  number := h.number
  unlinks := fun n hn hr => by
    have hr' : (s.fs.unlink name).read (.log n) ≠ none := hr
    rw [Fs.read_unlink] at hr'
    split at hr'
    · exact absurd rfl hr'
    · rename_i hne
      refine (List.mem_cons.1 (h.unlinks n hn hr')).resolve_left fun he => hne ?_
      exact Io.unlink.inj he
  below := fun n hn => h.below n (List.mem_cons_of_mem _ hn)

namespace Disk

/-- An older log is deleted. -/
theorem unlink_log (h : Disk σ gh s m logs)
    (hn : n < m.logNumber) (hold : m.logNumber ≤ s.db.oldestLiveLog)
    (hone : Settled σ s.hist m logs s.db.nextFileNumber ∨ OneBelow logs m.logNumber)
    (hrun : s.mode = .running → OneBelow logs m.logNumber ∧ s.db.committing = true)
    (himm : s.mode = .opening → s.db.imm = none)
    (hjd : JobDisk σ { s with fs := s.fs.unlink (.log n), jobs := [j'] } m
      (Function.update logs n []) j') :
    Disk σ gh { s with fs := s.fs.unlink (.log n), jobs := [j'] } m
      (Function.update logs n []) := by
  have hread : ∀ x, x ≠ .log n → (s.fs.unlink (.log n)).read x = s.fs.read x := by
    intro x hx
    rw [Fs.read_unlink, if_neg hx]
  have hup : ∀ k, n < k → Function.update logs n [] k = logs k := fun k hk =>
    Function.update_of_ne hk.ne' _ _
  have hle := h.onDisk.cover.log_le
  have halign : OneBelow logs m.logNumber →
    ∀ {pre}, Aligned σ s.hist m logs s.db.nextFileNumber pre →
      ∃ pre', Aligned σ s.hist m (Function.update logs n []) s.db.nextFileNumber pre' :=
    fun hone _ ha => ha.unlink hle hn fun k hk hne => hone n hn k hk hne
  refine ⟨⟨h.onDisk.ok,
    h.onDisk.committed.frame (hread _ (by simp)) (fun _ _ _ => hread _ (by simp)),
    h.onDisk.stored.unlink n, hle, h.onDisk.cover.content, ?_⟩,
    fun j hj => List.mem_singleton.1 hj ▸ hjd, fun hm => ?_, fun hm => ?_⟩
  · rcases hone with hs | hone
    · exact .inl (hs.unlink hn)
    · rcases h.onDisk.cover.cover with hs | ⟨pre, ha⟩
      · exact .inl (hs.unlink hn)
      · exact .inr (halign hone ha)
  · obtain ⟨hone, hc⟩ := hrun hm
    have hr := h.running hm
    have hnl : n < s.db.logNumber := hn.trans_le (hold.trans hr.oldest_le)
    obtain ⟨part, ht⟩ := hr.tail
    obtain ⟨pre, ha⟩ := hr.aligned
    refine ⟨⟨part, ?_⟩, fun k hk => (hup k (hnl.trans hk)).trans (hr.later k hk), hr.imm_lt,
      fun hi k h1 h2 => ?_, hr.log_le, halign hone ha, fun _ hc' => ?_, hr.rotating, fun hs => ?_⟩
    · rw [hup _ hnl]
      exact ht.frame (hread _ (by simpa using hnl.ne'))
    · by_cases hk : k = n
      · rw [hk, Function.update_self]
      · rw [Function.update_of_ne hk]
        exact hr.mid hi k h1 h2
    · exact absurd (hc.symm.trans hc') (by simp)
    · obtain ⟨base, h1, h2, h3⟩ := hr.parts hs
      refine ⟨base, ?_, h2, fun hi => (h3 hi).trans ?_⟩
      · rw [h1]
        congr 1
        exact span_congr fun k hk _ => (hup k ((hn.trans_le hold).trans_le hk)).symm
      · have himm : s.db.oldestLiveLog = s.db.immLogNumber := by
          rw [Db.oldestLiveLog, if_pos (Option.isSome_iff_ne_none.2 hi)]
        rw [hup _ (hn.trans_le (hold.trans himm.le))]
  · exact ⟨(h.opening hm).mem_nil, fun hne => absurd (himm hm) hne⟩

theorem unlink_sst (h : Disk σ gh s m logs) (hS : Sound σ gh s) (hj : s.jobs = [j])
    (hv : m.version = s.db.current) (ho : isObsolete s.db.current log (.sst n) = true)
    (hjd : JobDisk σ { s with fs := s.fs.unlink (.sst n), jobs := [j'] } m logs j') :
    Disk σ gh { s with fs := s.fs.unlink (.sst n), jobs := [j'] } m logs := by
  have hread : ∀ x, x ≠ .sst n → (s.fs.unlink (.sst n)).read x = s.fs.read x := by
    intro x hx
    rw [Fs.read_unlink, if_neg hx]
  refine h.job_read hS hj (hread _ (by simp)) (fun _ => hread _ (by simp))
    (fun l f hf => hread _ ?_) hjd
  rintro ⟨⟩
  rw [hv] at hf
  obtain ⟨R, hwf⟩ := hS.wf
  have hmem : f.number ∈ s.db.current.files.map (·.number) := List.mem_map_of_mem (hwf.mem_files hf)
  rw [isObsolete, Bool.not_eq_true', ← Bool.not_eq_true, List.contains_iff_mem] at ho
  exact ho hmem

theorem io_commit (h : Disk σ gh s m logs) (hS : Sound σ gh s)
    (hj : s.jobs = [⟨io, .cleanup v log .commitDone⟩]) (himm : s.mode = .opening → s.db.imm = none)
    (hio : ioStep n s.fs io = some (fs, io')) :
    ∃ m', Disk σ gh { s with fs := fs, jobs := [⟨io', .cleanup v log .commitDone⟩] } m' logs := by
  obtain ⟨hlog, hone, hcase⟩ := h.jobs _ (hj ▸ List.mem_cons_self)
  rcases hcase with ⟨m', hm', hp⟩ | hren
  · have hf := fun name (hn : ¬ IsManifest name) => read_ioStep hio (hp.writing.names hn)
    have hlogs : ∀ n, fs.read (.log n) = s.fs.read (.log n) := fun n => hf _ (by simp [IsManifest])
    rcases hp.writing.step hio with ⟨hw, hman⟩ | ⟨rfl, hman⟩
    · exact ⟨m, h.job_read hS hj hman hlogs (fun _ _ _ => hf _ (by simp [IsManifest]))
        ⟨hlog, hone, .inl ⟨m', hm', hp.still (still_job hlogs _) hw h.onDisk.stored.after⟩⟩⟩
    · exact ⟨m', h.renamed hS hj hp hman hf (hm'.trans hlog).le himm
        ⟨hlog, hone, .inr ⟨hp.version, hm', .inl rfl⟩⟩⟩
  · rcases hren.calls with rfl | rfl
    · cases hio
      exact ⟨m, h.job_read hS hj rfl (fun _ => rfl) (fun _ _ _ => rfl)
        ⟨hlog, hone, .inr ⟨hren.version, hren.number, .inr rfl⟩⟩⟩
    · cases hio

theorem io_recoverCommit (h : Disk σ gh s m logs) (hS : Sound σ gh s)
    (hj : s.jobs = [⟨io, .cleanup v log .recovered⟩]) (himm : s.db.imm = none)
    (hio : ioStep n s.fs io = some (fs, io')) :
    ∃ m', Disk σ gh { s with fs := fs, jobs := [⟨io', .cleanup v log .recovered⟩] } m' logs := by
  obtain ⟨hnew, hcase⟩ := h.jobs _ (hj ▸ List.mem_cons_self)
  have hold : s.db.oldestLiveLog = s.db.logNumber := by rw [Db.oldestLiveLog, himm]; rfl
  rcases hcase with ⟨m', hm', hset, hp⟩ | ⟨hset, hren⟩
  · have hf := fun name (hn : ¬ IsManifest name) => read_ioStep hio (hp.writing.names hn)
    have hlogs : ∀ n, fs.read (.log n) = s.fs.read (.log n) := fun n => hf _ (by simp [IsManifest])
    have hnew' : ∀ jobs, NewLog { s with fs := fs, jobs := jobs } logs log := fun jobs =>
      hnew.still (still_job hlogs jobs)
    rcases hp.writing.step hio with ⟨hw, hman⟩ | ⟨rfl, hman⟩
    · exact ⟨m, h.job_read hS hj hman hlogs (fun _ _ _ => hf _ (by simp [IsManifest]))
        ⟨hnew' _, .inl ⟨m', hm', hset, hp.still (still_job hlogs _) hw h.onDisk.stored.after⟩⟩⟩
    · exact ⟨m', h.renamed hS hj hp hman hf (by rw [hm', hnew.number, hold]) (fun _ => himm)
        ⟨hnew' _, .inr ⟨hset, hp.version, hm', .inl rfl⟩⟩⟩
  · rcases hren.calls with rfl | rfl
    · cases hio
      exact ⟨m, h.job_read hS hj rfl (fun _ => rfl) (fun _ _ _ => rfl)
        ⟨⟨hnew.opening, hnew.number, hnew.empty, hnew.header⟩,
          .inr ⟨hset, hren.version, hren.number, .inr rfl⟩⟩⟩
    · cases hio

end Disk

theorem ioStep_unlinks {P : FileName → Prop} (h : ∀ op ∈ io, ∃ name, op = Io.unlink name ∧ P name)
    (hs : ioStep n fs io = some (fs', io')) :
    ∃ name, io = .unlink name :: io' ∧ P name ∧ fs' = fs.unlink name := by
  rcases ioStep_cases hs with ⟨op, rfl, rfl⟩ | ⟨nm, bs, rest, rfl, _⟩
  · obtain ⟨name, rfl, hp⟩ := h op List.mem_cons_self
    exact ⟨name, rfl, hp, rfl⟩
  · obtain ⟨name, he, _⟩ := h _ List.mem_cons_self
    cases he

theorem isObsolete_cases (h : isObsolete v log name = true) :
    (∃ n, name = .sst n) ∨ ∃ n, name = .log n ∧ n < log := by
  cases name with
  | sst n => exact .inl ⟨n, rfl⟩
  | log n => exact .inr ⟨n, rfl, by simpa [isObsolete] using h⟩
  | manifest => cases h
  | manifestTmp => cases h

namespace Disk

theorem io_commitDone (h : Disk σ gh s m logs) (hS : Sound σ gh s)
    (hj : s.jobs = [⟨io, .commitDone⟩])
    (hc : s.db.committing = true) (himm : s.mode = .opening → s.db.imm = none)
    (hun : ∀ op ∈ io, ∃ name, op = .unlink name ∧ isObsolete s.db.current log name = true)
    (hio : ioStep n s.fs io = some (fs, io')) :
    ∃ logs', Disk σ gh { s with fs := fs, jobs := [⟨io', .commitDone⟩] } m logs' := by
  obtain ⟨hone, hcl⟩ := h.jobs _ (hj ▸ List.mem_cons_self)
  obtain ⟨name, rfl, ho, rfl⟩ := ioStep_unlinks hun hio
  rcases isObsolete_cases ho with ⟨k, rfl⟩ | ⟨k, rfl, _⟩
  · exact ⟨logs, h.unlink_sst hS hj hcl.version ho ⟨hone, hcl.unlink⟩⟩
  · have hk : k < m.logNumber := hcl.number ▸ hcl.below k List.mem_cons_self
    have hone' : OneBelow logs m.logNumber := hcl.number ▸ hone
    exact ⟨_, h.unlink_log hk hcl.number.le (.inr hone') (fun _ => ⟨hone', hc⟩) himm
      ⟨hone.unlink k, hcl.unlink⟩⟩

theorem io_recovered (h : Disk σ gh s m logs) (hS : Sound σ gh s) (hj : s.jobs = [⟨io, .recovered⟩])
    (himm : s.db.imm = none)
    (hun : ∀ op ∈ io, ∃ name, op = .unlink name ∧ isObsolete s.db.current log name = true)
    (hio : ioStep n s.fs io = some (fs, io')) :
    ∃ logs', Disk σ gh { s with fs := fs, jobs := [⟨io', .recovered⟩] } m logs' := by
  obtain ⟨hnew, hset, hcl⟩ := h.jobs _ (hj ▸ List.mem_cons_self)
  obtain ⟨name, rfl, ho, rfl⟩ := ioStep_unlinks hun hio
  have hold : s.db.oldestLiveLog = s.db.logNumber := by rw [Db.oldestLiveLog, himm]; rfl
  rcases isObsolete_cases ho with ⟨k, rfl⟩ | ⟨k, rfl, _⟩
  · refine ⟨logs, h.unlink_sst hS hj hcl.version ho ⟨⟨hnew.opening, hnew.number, hnew.empty, ?_⟩,
      hset, hcl.unlink⟩⟩
    show (s.fs.unlink (.sst k)).read _ = _
    rw [Fs.read_unlink, if_neg (by simp)]
    exact hnew.header
  · have hk : k < s.db.logNumber := hcl.below k List.mem_cons_self
    have hkm : k < m.logNumber := hcl.number ▸ hk
    refine ⟨_, h.unlink_log hkm (by rw [hcl.number, hold]) (.inl hset) (fun hm => ?_)
      (fun _ => himm) ⟨⟨hnew.opening, rfl, fun i hi => ?_, ?_⟩, hset.unlink hkm, hcl.unlink⟩⟩
    · exact absurd (hm.symm.trans hnew.opening) (by simp)
    · rw [Function.update_of_ne (hk.trans_le hi).ne']
      exact hnew.empty i hi
    · show (s.fs.unlink (.log k)).read _ = _
      rw [Fs.read_unlink, if_neg (by simpa using hk.ne')]
      exact hnew.header

theorem io_logOpened (h : Disk σ gh s m logs) (hj : s.jobs = [⟨io, .logOpened k⟩])
    (himm : s.db.imm = none) (hk : k < s.db.nextFileNumber) (hlog : OpeningLog s.fs k io)
    (hio : ioStep n s.fs io = some (fs, io')) :
    Disk σ gh { s with fs := fs, jobs := [⟨io', .logOpened k⟩] } m logs := by
  obtain ⟨hm, hnil⟩ := h.jobs _ (hj ▸ List.mem_cons_self)
  have hread := fun (name : FileName) (hne : name ≠ .log k) => read_ioStep hio (hlog.names hne)
  refine ⟨⟨h.onDisk.ok,
    h.onDisk.committed.frame (hread _ (by simp)) (fun _ _ _ => hread _ (by simp)),
    ?_, h.onDisk.cover⟩, fun j hj => ?_, fun hr => ?_, fun _ => ?_⟩
  · exact h.onDisk.stored.header (fun i hi => hread _ (by simpa using hi)) (hnil k le_rfl) hk
      fun _ hb => (hlog.step hio).header hb
  · obtain rfl := List.mem_singleton.1 hj
    exact ⟨hm, hnil⟩
  · exact absurd (hm.symm.trans hr) (by simp)
  · exact ⟨(h.opening hm).mem_nil, fun hne => absurd himm hne⟩

theorem io_table (h : Disk σ gh s m logs) (hS : Sound σ gh s) (hj : s.jobs = [j])
    (hn : ∀ l, ∀ f ∈ m.version.levels l, f.number ≠ k)
    (hf : ∀ name, name ≠ .sst k → fs.read name = s.fs.read name)
    (hjd : JobDisk σ { s with fs := fs, jobs := [j'] } m logs j') :
    Disk σ gh { s with fs := fs, jobs := [j'] } m logs :=
  h.job_read hS hj (hf _ (by simp)) (fun _ => hf _ (by simp))
    (fun l f hl => hf _ (by simpa using hn l f hl)) hjd

/-- A system call of the job in flight. -/
theorem job_io (h : Disk σ gh s m logs) (hS : Sound σ gh s) (hj : s.jobs = [j])
    (hio : ioStep n s.fs j.io = some (fs, io)) :
    ∃ m' logs', Disk σ gh { s with fs := fs, jobs := [{ j with io := io }] } m' logs' := by
  cases hS.job_ok hj with
  | flushOpen hc hf hfit hn hw =>
    have hd := h.jobs _ (hj ▸ List.mem_cons_self)
    exact ⟨m, logs, h.io_table hS hj hd (fun name hne => read_ioStep hio (hw.names hne)) hd⟩
  | flushInstall hc hf hn => cases hio
  | compactMerge hc hcp => cases hio
  | compactNext hc hcp hp ho hd => cases hio
  | compactOpen hc hcp hp ho hd hfit hn hw =>
    have hd := h.jobs _ (hj ▸ List.mem_cons_self)
    exact ⟨m, logs, h.io_table hS hj hd (fun name hne => read_ioStep hio (hw.names hne)) hd⟩
  | commit hc hi hlog hio' =>
    obtain ⟨m', h'⟩ := h.io_commit hS hj hi hio
    exact ⟨m', logs, h'⟩
  | commitDone hc hi hlog hio' => exact ⟨m, h.io_commitDone hS hj hc hi hio' hio⟩
  | logOpened hc hm hi hn hio' => exact ⟨m, logs, h.io_logOpened hj hi hn hio' hio⟩
  | recoverCommit hc hm hi hio' =>
    obtain ⟨m', h'⟩ := h.io_recoverCommit hS hj hi hio
    exact ⟨m', logs, h'⟩
  | recovered hc hm hi hio' => exact ⟨m, h.io_recovered hS hj hi hio' hio⟩

end Disk

end Calls

section Manifests

theorem Sound.oldest_le (h : Sound σ gh s) : s.db.oldestLiveLog ≤ s.db.logNumber := by
  rw [Db.oldestLiveLog]
  split
  · rename_i hi
    exact h.imm_log (Option.isSome_iff_ne_none.1 hi)
  · exact le_rfl

theorem length_firstKeyOf {l : List Rec} (h : ∀ e ∈ l, e.1.length < n) (hn : 0 < n) :
    (firstKeyOf l).length < n := by
  cases l with
  | nil => exact hn
  | cons e l => exact h e List.mem_cons_self

theorem Sound.manifest_fits (h : Sound σ gh s) (hfit : s.Fits) : s.db.manifest.Fits := by
  obtain ⟨R, hwf⟩ := h.wf
  have hfile : ∀ e ∈ Manifest.filesOf s.db.current, e.2 ∈ s.db.current.levels e.1 := fun e he =>
    (Manifest.mem_filesOf.1 he).2
  have hkeys : ∀ e ∈ Manifest.filesOf s.db.current, ∀ r ∈ e.2.table.recs, r.1.length < 2 ^ 32 := by
    intro e he
    obtain ⟨_, hf, _⟩ := (h.tables.live _ _ (hfile e he)).2
    exact hf.keys
  have hnext := hfit.fileNumber
  refine ⟨?_, hnext, ?_, hfit.files, fun e he => ?_, fun e he => hfit.fileSize _ _ (hfile e he),
    fun e he => ?_, fun e he => ?_⟩
  · exact (h.oldest_le.trans_lt h.log_lt).trans hnext
  · exact h.logged.last_le.trans_lt (by decide)
  · obtain ⟨t, ht, hn⟩ := FileMetaData.number_mem h.tables hwf (hfile e he)
    exact hn ▸ (h.tables.number_lt t ht).trans hnext
  · rw [(hwf.file_ok (hfile e he)).smallest]
    exact length_firstKeyOf (hkeys e he) (by decide)
  · rw [(hwf.file_ok (hfile e he)).largest]
    exact Table.length_lastKeyOf (hkeys e he) (by decide)

theorem Logged.visible_mem {fine : Prop} {lead : Option Lead} (h : Logged fine done hist last lead)
    (hr : r ∈ recsOf done ++ (lead.map Lead.inserted).getD []) : r ∈ recsOf hist := by
  rcases List.mem_append.1 hr with hr | hr
  · obtain ⟨g, hg, hr⟩ := List.mem_flatMap.1 hr
    exact List.mem_flatMap.2 ⟨g, h.pre.subset hg, hr⟩
  · cases lead with
    | none => cases hr
    | some ld =>
      have hl := h.leadOk ld rfl
      have hin : r ∈ ld.group.recs.take (ld.seq - ld.base) := hr
      by_cases hu : ld.unwritten = []
      · rw [hl.logged hu, recsOf_append]
        refine List.mem_append_right _ ?_
        rw [recsOf_singleton]
        exact List.mem_of_mem_take hin
      · rw [(hl.waiting hu).1, Nat.sub_self] at hin
        cases hin

theorem Sound.content_mem (h : Sound σ gh s) (ho : s.mode = .opening → s.db.imm = none) :
    ∀ x ∈ s.db.current.content, x ∈ recsOf s.hist := by
  intro x hx
  have hlay := h.layered ho
  have hv : x ∈ s.visible := by
    rw [hlay.split]
    exact List.mem_append_left _ (hlay.content x hx)
  exact h.logged.visible_mem hv

theorem Sound.holds (h : Sound σ gh s) (ho : s.mode = .opening → s.db.imm = none) (hσ : σ)
    (hhist : s.hist = base ++ rest) (hf : gh.flushed = recsOf base) :
    Holds s.hist base.length s.db.current := by
  have htake : s.hist.take base.length = base := by rw [hhist, List.take_left]
  refine ⟨fun x hx => ?_, ?_⟩
  · rw [htake, ← hf]
    exact (h.layered ho).content x hx
  · rw [htake, ← hf]
    refine (h.covers ho hσ).mono (le_trans ?_ h.logged.last_le)
    exact (Db.le_smallestSnapshot_iff.1 le_rfl).1

theorem RunDisk.aligned_now (h : RunDisk σ gh s m logs) (hS : Sound σ gh s)
    (hm : s.mode = .running) :
    ∃ pre, Aligned σ s.hist s.db.manifest logs s.db.nextFileNumber pre := by
  obtain ⟨pre, ha⟩ := h.aligned
  have hle : s.db.oldestLiveLog ≤ s.db.nextFileNumber := hS.oldest_le.trans hS.log_lt.le
  refine ⟨pre, ha.split, fun g hg => hS.logged.tops g ?_, fun hσ => ?_⟩
  · rw [ha.split, ← span_append (Nat.zero_le _) hle, ← List.append_assoc]
    exact List.mem_append_left _ hg
  · obtain ⟨base, h1, h2, _⟩ := h.parts hσ
    have hpre : pre ++ span logs 0 s.db.oldestLiveLog = base := by
      have he := ha.split.symm.trans h1
      rw [← span_append (Nat.zero_le _) hle, ← List.append_assoc] at he
      exact List.append_cancel_right he
    refine ⟨base.length, ?_, hS.holds (fun ho => absurd (hm.symm.trans ho) (by simp)) hσ h1 h2⟩
    show (pre ++ span logs 0 s.db.oldestLiveLog).length ≤ _
    rw [hpre]

theorem Sound.pending (hS : Sound σ gh s) (hfit : s.Fits) (ho : s.mode = .opening → s.db.imm = none)
    (hcover : Settled σ s.hist s.db.manifest logs s.db.nextFileNumber ∨
      ∃ pre, Aligned σ s.hist s.db.manifest logs s.db.nextFileNumber pre)
    (ha : s.mode = .running → ∃ pre, Aligned σ s.hist s.db.manifest logs s.db.nextFileNumber pre) :
    Pending σ s s.db.manifest logs (writeManifest s.db.manifest) where
  version := rfl
  fits := hS.manifest_fits hfit
  next := (Nat.zero_le _).trans_lt hS.log_lt
  log_le := hS.oldest_le.trans hS.log_lt.le
  last := hS.logged.last_le
  cover := ⟨hS.oldest_le.trans hS.log_lt.le, hS.content_mem ho, hcover⟩
  aligned := ha
  writing := replacing_writeManifest _ _

theorem RunDisk.pending (h : RunDisk σ gh s m logs) (hS : Sound σ gh s) (hm : s.mode = .running)
    (hfit : s.Fits) : Pending σ s s.db.manifest logs (writeManifest s.db.manifest) :=
  hS.pending hfit (fun ho => absurd (hm.symm.trans ho) (by simp)) (.inr (h.aligned_now hS hm))
    fun _ => h.aligned_now hS hm

theorem Sound.flushed_opening (h : Sound σ gh s) (hm : s.mode = .opening) (hi : s.db.imm = none)
    (hmem : (s.store.mems s.db.mem).recs = []) : gh.flushed = recsOf s.hist := by
  have hlay := h.layered fun _ => hi
  obtain ⟨hlead, _, _, _, _, hb⟩ := h.opening hm
  have hact : gh.active = [] := List.eq_nil_iff_forall_not_mem.2 fun r hr => by
    have := (hlay.mem_iff r).2 hr
    rw [hmem] at this
    cases this
  have hsplit := hlay.split
  rw [hlay.imm_none hi, hact, Sys.visible, hlead, ← h.logged.idle hlead hb] at hsplit
  simpa using hsplit.symm

end Manifests

section Phases
variable {j : Job} {t : Sys} {next : Option Job}

namespace Disk

theorem next_job {store : Store} {opened : List Table} (h : Disk σ gh s m logs) (hS : Sound σ gh s)
    (hj : s.jobs = [j]) (hmem : store.mems = s.store.mems) (hn : s.db.nextFileNumber ≤ N)
    (hjd : JobDisk σ { s with
      store := store, opened := opened, db := { s.db with nextFileNumber := N }, jobs := [j'] } m
        logs j') :
    Disk σ gh { s with
      store := store, opened := opened, db := { s.db with nextFileNumber := N }, jobs := [j'] }
      m logs := by
  refine h.still (.of_read rfl (fun _ => rfl) rfl rfl ⟨rfl, rfl, rfl⟩ rfl hn) ⟨rfl, rfl, rfl⟩
    (h.onDisk.of_read (fun _ => rfl) hn) hS.log_lt (fun j' hj' => List.mem_singleton.1 hj' ▸ hjd)
    (fun _ => .inl (by simp [hj])) (fun hm => (h.running hm).tail)
    (fun hm => (h.running hm).rotating) (fun _ => ?_) rfl rfl
  rw [hmem]

theorem commit_begun (h : Disk σ gh s m logs) (hfs : t.fs = s.fs) (hh : t.hist = s.hist)
    (hn : t.db.nextFileNumber = s.db.nextFileNumber)
    (hj : t.jobs = [⟨writeManifest t.db.manifest,
      .cleanup t.db.current t.db.oldestLiveLog .commitDone⟩])
    (hone : OneBelow logs t.db.oldestLiveLog)
    (hp : Pending σ t t.db.manifest logs (writeManifest t.db.manifest))
    (hrun : t.mode = .running → RunDisk σ gh' t m logs)
    (hopen : t.mode = .opening → OpenDisk σ t m logs) : Disk σ gh' t m logs where
  onDisk := by
    rw [hfs, hh, hn]
    exact h.onDisk
  jobs := fun j hm => by
    rw [hj, List.mem_singleton] at hm
    subst hm
    exact ⟨rfl, hone, .inl ⟨_, rfl, hp⟩⟩
  running := hrun
  opening := hopen

/-- A flush commits its table. -/
theorem phase_flushInstall (h : Disk σ gh s m logs) (hS : Sound σ gh s)
    (hj : s.jobs = [⟨[], .flushInstall f⟩]) (hc : s.db.committing = false)
    (hi : s.db.imm = some imm) (hs : s.phaseStep order (.flushInstall f) = some (t, next))
    (hS' : Sound σ (gh.install s) { t with jobs := next.toList })
    (hfit : Sys.Fits { t with jobs := next.toList }) :
    Disk σ (gh.install s) { t with jobs := next.toList } m logs := by
  simp only [Sys.phaseStep, Sys.commitVersion, hc] at hs
  split at hs
  · cases hs
    have himm : s.db.imm ≠ none := by simp [hi]
    have hold : s.db.oldestLiveLog = s.db.immLogNumber := by
      rw [Db.oldestLiveLog, hi]
      rfl
    by_cases hm : s.mode = .opening
    · obtain ⟨hlog, pre, ha⟩ := (h.opening hm).imm himm
      obtain ⟨hlead, _, _, _, _, hb⟩ := hS.opening hm
      have hdone := hS.logged.idle hlead hb
      have hflushed : (gh.install s).flushed = recsOf s.hist := by
        rw [Ghost.install, if_pos hm, hdone]
      refine h.commit_begun rfl rfl rfl rfl (fun i hi => ?_) (hS'.pending hfit (fun _ => rfl)
        (.inr ⟨pre, ha.split, fun g hg => hS.logged.tops g ?_, fun hσ => ?_⟩) fun hr => ?_)
        (fun hr => ?_) fun _ => ⟨(h.opening hm).mem_nil, fun hne => absurd rfl hne⟩
      · exact absurd hi (by simp [Db.oldestLiveLog, hlog])
      · have hg' : g ∈ pre ++ span logs 0 s.db.logNumber := hg
        rw [hlog, span_le le_rfl, List.append_nil] at hg'
        rw [ha.split]
        exact List.mem_append_left _ hg'
      · refine ⟨s.hist.length, ?_,
          hS'.holds (fun _ => rfl) hσ (List.append_nil s.hist).symm hflushed⟩
        show (pre ++ span logs 0 s.db.logNumber).length ≤ _
        rw [hlog, span_le le_rfl, List.append_nil, ha.split, List.length_append]
        omega
      · exact absurd (hm.symm.trans hr) (by simp)
      · exact absurd (hm.symm.trans hr) (by simp)
    · have hr := hS.running hm
      have hrun := h.running hr
      have hlt := hrun.imm_lt himm
      have hswept := hrun.swept (.inl (by simp [hj])) hc
      rw [hold] at hswept
      have hrun' : RunDisk σ (gh.install s) { s with
          db := { s.db with
            imm := none, immLogNumber := 0, committing := true,
            current := s.db.current.setLevel 0 (f :: s.db.current.levels 0) }
          jobs := [⟨writeManifest (Db.manifest { s.db with
            imm := none, immLogNumber := 0, committing := true,
            current := s.db.current.setLevel 0 (f :: s.db.current.levels 0) }),
            .cleanup (s.db.current.setLevel 0 (f :: s.db.current.levels 0)) s.db.logNumber
              .commitDone⟩] } m logs := by
        refine ⟨hrun.tail, hrun.later, fun hne => absurd rfl hne, fun hne => absurd rfl hne,
          hrun.log_le.trans hrun.oldest_le, hrun.aligned, fun _ hc' => (by cases hc'),
          hrun.rotating, fun hσ => ?_⟩
        obtain ⟨base, h1, h2, h3⟩ := hrun.parts hσ
        refine ⟨base ++ logs s.db.immLogNumber, ?_, ?_, fun hne => absurd rfl hne⟩
        · show s.hist = _ ++ span logs s.db.logNumber _
          rw [h1, hold, span_split le_rfl (hlt.trans hS.log_lt), span_le le_rfl, List.nil_append,
            List.append_assoc, ← span_append (Nat.succ_le_of_lt hlt) hS.log_lt.le,
            span_eq_nil fun n h1 h2 => hrun.mid himm n h1 h2, List.nil_append]
        · rw [Ghost.install, if_neg hm, Ghost.flush, recsOf_append, h2, h3 himm]
      refine h.commit_begun rfl rfl rfl rfl (fun i hi k hk hne => ?_) (hrun'.pending hS' hr hfit)
        (fun _ => hrun') fun ho => absurd ho hm
      have hbelow : ∀ n, n < s.db.logNumber → n ≠ s.db.immLogNumber → logs n = [] := by
        intro n hn hne
        rcases lt_or_gt_of_ne hne with hlt' | hgt
        · exact hswept n hlt'
        · exact hrun.mid himm n hgt hn
      by_cases hii : i = s.db.immLogNumber
      · exact .inr (hbelow k hk (hii ▸ hne))
      · exact .inl (hbelow i hi hii)
  · cases hs

/-- A compaction commits its tables. -/
theorem phase_compactInstall (h : Disk σ gh s m logs)
    (hj : s.jobs = [⟨[], .compactNext c [] outputs⟩]) (hc : s.db.committing = false)
    (hr : s.mode = .running)
    (hs : s.phaseStep order (.compactNext c [] outputs) = some (t, next))
    (hS' : Sound σ gh { t with jobs := next.toList })
    (hfit : Sys.Fits { t with jobs := next.toList }) :
    Disk σ gh { t with jobs := next.toList } m logs := by
  have hm : s.mode ≠ .opening := by simp [hr]
  simp only [Sys.phaseStep, Sys.commitVersion, hc] at hs
  split at hs
  · cases hs
    have hrun := h.running hr
    have hswept := hrun.swept (.inl (by simp [hj])) hc
    have hrun' : RunDisk σ gh { s with
        db := { s.db with committing := true, current := c.install s.db.current outputs }
        jobs := [⟨writeManifest (Db.manifest { s.db with
          committing := true, current := c.install s.db.current outputs }),
          .cleanup (c.install s.db.current outputs) s.db.oldestLiveLog .commitDone⟩] } m logs :=
      ⟨hrun.tail, hrun.later, hrun.imm_lt, hrun.mid, hrun.log_le, hrun.aligned,
        fun _ hc' => (by cases hc'), hrun.rotating, hrun.parts⟩
    exact h.commit_begun rfl rfl rfl rfl (fun i hi _ _ _ => .inl (hswept i hi))
      (hrun'.pending hS' hr hfit) (fun _ => hrun') fun ho => absurd ho hm
  · cases hs

end Disk

theorem Renamed.of_nil
    (h : (∃ m', m'.logNumber = log ∧ Pending σ s m' logs []) ∨ Renamed s m log []) :
    Renamed s m log [] := by
  rcases h with ⟨m', _, hp⟩ | h
  · rcases hp.writing with hw | ⟨_, _, _, _, hw⟩ | ⟨_, hw | hw⟩ <;> cases hw
  · exact h

theorem Renamed.cleaning (h : Renamed s m log []) {order : List FileName}
    (ho : order.isPerm s.fs.names = true) (v : Version) (jobs : List Job) :
    Cleaning { s with jobs := jobs } m log ((order.filter (isObsolete v log)).map Io.unlink) where
  version := h.version
  number := h.number
  unlinks := fun n hn hr => by
    have hmem : FileName.log n ∈ order := (List.isPerm_iff.1 ho).mem_iff.2 (Fs.mem_names.2 hr)
    exact List.mem_map_of_mem (List.mem_filter.2 ⟨hmem, by simpa [isObsolete] using hn⟩)
  below := fun n hn => by
    obtain ⟨name, hname, he⟩ := List.mem_map.1 hn
    cases he
    simpa [isObsolete] using (List.mem_filter.1 hname).2

theorem Cleaning.done (h : Cleaning s m log []) (hst : Stored s.fs logs N) :
    ∀ n, n < log → logs n = [] := by
  intro n hn
  refine hst.absent n (by_contra fun hr => ?_)
  cases h.unlinks n hn hr

namespace Disk

theorem phase_cleanup (h : Disk σ gh s m logs) (hS : Sound σ gh s)
    (hj : s.jobs = [⟨[], .cleanup v log .commitDone⟩])
    (hs : s.phaseStep order (.cleanup v log .commitDone) = some (t, next)) :
    Disk σ gh { t with jobs := next.toList } m logs := by
  obtain ⟨hlog, hone, hcase⟩ := h.jobs _ (hj ▸ List.mem_cons_self)
  simp only [Sys.phaseStep] at hs
  split at hs
  · rename_i ho
    cases hs
    subst hlog
    exact h.next_job hS hj rfl le_rfl ⟨hone, (Renamed.of_nil hcase).cleaning ho v _⟩
  · cases hs

theorem phase_recoverCleanup (h : Disk σ gh s m logs) (hS : Sound σ gh s)
    (hj : s.jobs = [⟨[], .cleanup v log .recovered⟩])
    (hs : s.phaseStep order (.cleanup v log .recovered) = some (t, next)) :
    Disk σ gh { t with jobs := next.toList } m logs := by
  obtain ⟨hnew, hcase⟩ := h.jobs _ (hj ▸ List.mem_cons_self)
  obtain ⟨hset, hren⟩ : Settled σ s.hist m logs s.db.nextFileNumber ∧ Renamed s m log [] := by
    rcases hcase with ⟨m', hm', _, hp⟩ | hcase
    · rcases hp.writing with hw | ⟨_, _, _, _, hw⟩ | ⟨_, hw | hw⟩ <;> cases hw
    · exact hcase
  simp only [Sys.phaseStep] at hs
  split at hs
  · rename_i ho
    cases hs
    obtain ⟨hop, rfl, hempty, hheader⟩ := hnew
    exact h.next_job hS hj rfl le_rfl ⟨⟨hop, rfl, hempty, hheader⟩, hset, hren.cleaning ho v _⟩
  · cases hs

theorem phase_commitDone (h : Disk σ gh s m logs) (hj : s.jobs = [⟨[], .commitDone⟩])
    (hs : s.phaseStep order .commitDone = some (t, next)) :
    Disk σ gh { t with jobs := next.toList } m logs := by
  obtain ⟨_, hcl⟩ := h.jobs _ (hj ▸ List.mem_cons_self)
  simp only [Sys.phaseStep] at hs
  split at hs
  · cases hs
    exact ⟨h.onDisk, fun _ hm => (by cases hm), fun hm => { h.running hm with
      swept := fun _ _ => hcl.done h.onDisk.stored }, fun hm => ⟨(h.opening hm).mem_nil,
        (h.opening hm).imm⟩⟩
  · cases hs

/-- The new process has its log, and nothing of an older one is left to replay. -/
theorem phase_logOpened (h : Disk σ gh s m logs) (hS : Sound σ gh s)
    (hj : s.jobs = [⟨[], .logOpened n⟩]) (hi : s.db.imm = none) (hlog : OpeningLog s.fs n [])
    (hs : s.phaseStep order (.logOpened n) = some (t, next))
    (hS' : Sound σ gh { t with jobs := next.toList })
    (hfit : Sys.Fits { t with jobs := next.toList }) :
    Disk σ gh { t with jobs := next.toList } m logs := by
  obtain ⟨hm, hnil⟩ := h.jobs _ (hj ▸ List.mem_cons_self)
  cases hs
  have hold : Db.oldestLiveLog { s.db with logNumber := n } = n := by
    rw [Db.oldestLiveLog, hi]
    rfl
  have hmem := (h.opening hm).mem_nil
  have hset : Settled σ s.hist (Db.manifest { s.db with logNumber := n }) logs
      s.db.nextFileNumber := by
    refine ⟨span_eq_nil fun k hk _ => hnil k ?_, hS.logged.tops, fun hσ => ?_⟩
    · exact hold ▸ hk
    · exact hS.holds (fun _ => hi) hσ (List.append_nil s.hist).symm
        (hS.flushed_opening hm hi hmem)
  refine ⟨h.onDisk, fun j hm' => ?_, fun hr => absurd (hm.symm.trans hr) (by simp),
    fun _ => ⟨hmem, fun hne => absurd hi hne⟩⟩
  obtain rfl := List.mem_singleton.1 hm'
  refine ⟨⟨hm, hold, fun k hk => hnil k (hold ▸ hk), ?_⟩, .inl ⟨_, rfl, hset,
    hS'.pending hfit (fun _ => hi) (.inl hset) fun hr => absurd (hm.symm.trans hr) (by simp)⟩⟩
  rw [hold]
  exact hlog.done

/-- `Recover` returns: the log of the process is the only one with a record. -/
theorem phase_recovered (h : Disk σ gh s m logs) (hS : Sound σ gh s)
    (hj : s.jobs = [⟨[], .recovered⟩]) (hi : s.db.imm = none)
    (hs : s.phaseStep order .recovered = some (t, next)) :
    Disk σ gh { t with jobs := next.toList } m logs := by
  obtain ⟨hnew, hset, hcl⟩ := h.jobs _ (hj ▸ List.mem_cons_self)
  cases hs
  have hm := hnew.opening
  obtain ⟨hlead, _, hrot, _⟩ := hS.opening hm
  have hold : s.db.oldestLiveLog = s.db.logNumber := by rw [Db.oldestLiveLog, hi]; rfl
  have hswept := hcl.done h.onDisk.stored
  have hall : ∀ n, logs n = [] := fun n =>
    (lt_or_ge n s.db.logNumber).elim (hswept n) (hnew.empty n)
  have hspan : ∀ a b, span logs a b = [] := fun a b => span_eq_nil fun n _ _ => hall n
  refine ⟨h.onDisk, fun _ hm => (by cases hm), fun _ => ⟨⟨[], ?_⟩, fun n _ => hall n,
    fun hne => absurd hi hne, fun hne => absurd hi hne, ?_, ⟨s.hist, ?_, ?_, fun hσ => ?_⟩,
    fun _ _ n _ => hall n, fun hne => absurd hrot hne,
    fun hσ => ⟨s.hist, ?_, ?_, fun hne => absurd hi hne⟩⟩, fun ho => (by cases ho)⟩
  · refine ⟨?_, .inl rfl, fun _ _ => rfl, fun ld hld => ?_⟩
    · rw [hall]
      exact hnew.header
    · exact absurd (hlead.symm.trans hld) (by simp)
  · show m.logNumber ≤ s.db.oldestLiveLog
    rw [hold, hcl.number]
  · rw [hspan, List.append_nil]
  · rw [hspan, List.append_nil]
    exact hset.tops
  · exact ⟨s.hist.length, by rw [hspan, List.append_nil], hset.holds hσ⟩
  · rw [hspan, List.append_nil]
  · exact hS.flushed_opening hm hi (h.opening hm).mem_nil

/-- The job in flight, its system calls made, takes its next step. -/
theorem job_phase (h : Disk σ gh s m logs) (hS : Sound σ gh s) (hj : s.jobs = [⟨[], phase⟩])
    (hs : s.phaseStep order phase = some (t, next))
    (hS' : Sound σ (gh.afterPhase s phase) { t with jobs := next.toList })
    (hfit : Sys.Fits { t with jobs := next.toList }) :
    Disk σ (gh.afterPhase s phase) { t with jobs := next.toList } m logs := by
  generalize hjob : (⟨[], phase⟩ : Job) = j at hj
  cases hS.job_ok hj with
  | flushOpen hc hf hfit hn hw =>
    cases hjob
    obtain ⟨j, rfl, _⟩ := hS.phase_flushOpen hc hf hfit hn hw.done hs
    simp only [Sys.phaseStep] at hs
    split at hs <;> cases hs
    exact h.next_job hS hj rfl le_rfl trivial
  | flushInstall hc hf hn =>
    cases hjob
    obtain ⟨imm, _, hi, _⟩ := hf
    exact h.phase_flushInstall hS hj hc hi hs hS' hfit
  | compactMerge hc hcp =>
    cases hjob
    have hin : ∀ f ∈ Compaction.inputs _, f.table ∈ s.opened := fun f hf => by
      rcases hcp.picked.mem_inputs hf with hl | hl
      · exact (hS.tables.live _ f hl).1
      · exact (hS.tables.live _ f hl).1
    have hserve := ((Compaction.merge_ensures hS.tables.tablesOk hin
      fun f hf => hS.tables.good _ (hin f hf)) s.store hS.tables.serves).2
    obtain ⟨j, rfl, _⟩ := hS.phase_compactMerge hc hcp hs
    simp only [Sys.phaseStep] at hs
    generalize (Compaction.merge _).run s.store = p at hs hserve
    obtain ⟨⟨recs, status⟩, store⟩ := p
    dsimp only at hs
    split at hs <;> cases hs
    exact h.next_job hS hj hserve.mems le_rfl trivial
  | @compactNext c outs rest outputs hc hcp hp ho hd =>
    cases hjob
    cases rest with
    | nil => exact h.phase_compactInstall hj hc hcp.running hs hS' hfit
    | cons es rest =>
      simp only [List.map_cons, Sys.phaseStep] at hs
      split at hs <;> cases hs
      exact h.next_job hS hj rfl (Nat.le_succ _) fun l f hf =>
        (h.onDisk.committed.number_lt hS.tables.names l f hf).ne
  | compactOpen hc hcp hp ho hd hfit hn hw =>
    cases hjob
    obtain ⟨j, rfl, _⟩ := hS.phase_compactOpen hc hcp hp ho hd hfit hn hw.done hs
    simp only [Sys.phaseStep] at hs
    split at hs <;> cases hs
    exact h.next_job hS hj rfl le_rfl trivial
  | commit hc hi hlog hio =>
    cases hjob
    exact h.phase_cleanup hS hj hs
  | commitDone hc hi hlog hio =>
    cases hjob
    exact h.phase_commitDone hj hs
  | logOpened hc hm hi hn hio =>
    cases hjob
    exact h.phase_logOpened hS hj hi hio hs hS' hfit
  | recoverCommit hc hm hi hio =>
    cases hjob
    exact h.phase_recoverCleanup hS hj hs
  | recovered hc hm hi hio =>
    cases hjob
    exact h.phase_recovered hS hj hi hs

theorem jobStep (h : Disk σ gh s m logs) (hS : Sound σ gh s) (hs : s.jobStep i n order = some s')
    (hfit : s'.Fits) : ∃ gh' m' logs', Sound σ gh' s' ∧ Disk σ gh' s' m' logs' := by
  obtain ⟨j, hj, hcase⟩ := Sys.jobStep_cases hs
  obtain ⟨rfl, hjobs⟩ := hS.jobs_index hj
  rcases hcase with ⟨hio, t, next, hp, rfl⟩ | ⟨fs, io, hio, rfl⟩
  · obtain ⟨io, phase⟩ := j
    cases hio
    rcases Sound.phaseStep_jobs hp with hjt | ⟨hmode, rfl⟩
    · rw [hjt, hjobs, Sound.setJob_singleton] at hfit ⊢
      have hS' := hS.job_phase hjobs hp fun j hj => by
        rw [hj] at hfit
        exact hfit
      exact ⟨_, m, logs, hS', h.job_phase hS hjobs hp hS' hfit⟩
    · have hok := hS.job_phase hjobs hp fun j hj => nomatch hj
      exact absurd hmode hok.is_open
  · rw [hjobs]
    obtain ⟨m', logs', h'⟩ := h.job_io hS hjobs hio
    exact ⟨gh, m', logs', hS.job_io hjobs hio, h'⟩

end Disk

end Phases

section Failures
variable {fs fs' : DbFs} {io : List Io} {t : Sys}

theorem read_failIo_of_ne (h : Sys.failIo n fs io = some fs')
    (hne : ∀ nm bytes rest, io = .append nm bytes :: rest → name ≠ nm) :
    fs'.read name = fs.read name := by
  rcases io with - | ⟨op, rest⟩
  · cases h
  · cases op with
    | append nm bytes =>
      rw [Sys.failIo] at h
      split at h
      · cases h
        rw [Fs.read_append, if_neg (hne nm bytes rest rfl)]
      · cases h
    | unlink nm => cases h
    | _ =>
      cases h
      rfl

theorem Replacing.append_tmp (h : Replacing fs bytes io) :
    ∀ nm bs rest, io = .append nm bs :: rest → nm = .manifestTmp := by
  rintro nm bs rest rfl
  rcases h with h | ⟨_, _, _, _, h⟩ | ⟨_, h | h⟩ <;> cases h
  rfl

theorem Disk.failed_manifest (h : Disk σ gh s m logs) (hio : io ≠ [])
    (hcall : Sys.failCall n s.fs io = some fs)
    (htmp : ∀ nm bs rest, io = .append nm bs :: rest → nm = .manifestTmp) :
    OnDisk σ fs s.hist m logs s.db.nextFileNumber := by
  rw [Sys.failCall, if_neg (by simpa using hio)] at hcall
  have hread : ∀ name, name ≠ .manifestTmp → fs.read name = s.fs.read name := fun name hne =>
    read_failIo_of_ne hcall fun nm bs rest he => htmp nm bs rest he ▸ hne
  exact h.onDisk.frame (hread _ (by simp)) (fun _ => hread _ (by simp))
    (fun _ _ _ => hread _ (by simp)) le_rfl

theorem Writing.read_abandon (h : Writing fs (.sst k) bytes io)
    (hcall : Sys.failCall n fs io = some fs') :
    ∀ name, name ≠ .sst k → (Sys.abandon k fs' io).read name = fs.read name := fun _ hne =>
  (LsmKv.read_abandon hne _ _).trans (read_failCall hcall (h.names hne))

theorem Sys.fail_fs (s : Sys) (status : Status) : (s.fail status).fs = s.fs := by
  rw [Sys.fail]
  split <;> rfl

theorem Disk.failed_table (h : Disk σ gh s m logs)
    (hn : ∀ l, ∀ f ∈ m.version.levels l, f.number ≠ k)
    (hf : ∀ name, name ≠ .sst k → fs.read name = s.fs.read name) :
    OnDisk σ fs s.hist m logs s.db.nextFileNumber :=
  h.onDisk.frame (hf _ (by simp)) (fun _ => hf _ (by simp))
    (fun l f hl => hf _ (by simpa using hn l f hl)) le_rfl

/-- What a failed job leaves on disk. -/
theorem Disk.failed_job (h : Disk σ gh s m logs) (hS : Sound σ gh s) (hj : s.jobs = [j])
    (hcall : Sys.failCall n s.fs j.io = some fs)
    (ht : ({ s with fs := fs } : Sys).failPhase j.io j.phase = some t) :
    OnDisk σ t.fs s.hist m logs s.db.nextFileNumber ∧
      (s.mode = .running → ∀ k, t.fs.read (.log k) = s.fs.read (.log k)) := by
  have hd := h.jobs j (hj ▸ List.mem_cons_self)
  cases hS.job_ok hj with
  | flushOpen hc hf hfit hn hw =>
    cases ht
    rw [Sys.fail_fs]
    have hread := hw.read_abandon hcall
    exact ⟨h.failed_table hd hread, fun _ _ => hread _ (by simp)⟩
  | flushInstall hc hf hn => cases ht
  | compactMerge hc hcp => cases ht
  | compactNext hc hcp hp ho hd => cases ht
  | compactOpen hc hcp hp ho hd' hfit hn hw =>
    cases ht
    rw [Sys.fail_fs]
    have hread := hw.read_abandon hcall
    exact ⟨h.failed_table hd hread, fun _ _ => hread _ (by simp)⟩
  | commit hc hi hlog hio =>
    rw [Sys.failPhase] at ht
    split at ht
    · cases ht
    · rename_i hne
      cases ht
      rw [Sys.fail_fs]
      refine ⟨h.failed_manifest (by simpa using hne) hcall ?_,
        fun _ _ => read_failCall hcall (hio _ (by simp [IsManifest]))⟩
      rcases hd.2.2 with ⟨m', _, hp⟩ | hren
      · exact hp.writing.append_tmp
      · rintro nm bs rest he
        rcases hren.calls with hc | hc <;> cases he.symm.trans hc
  | commitDone hc hi hlog hio => cases ht
  | logOpened hc hm hi hn hio =>
    rw [Sys.failPhase] at ht
    split at ht
    · cases ht
    · rename_i hne
      cases ht
      rw [Sys.fail_fs]
      have hread := fun (name : FileName) (hne : name ≠ _) => read_failCall hcall (hio.names hne)
      rw [Sys.failCall, if_neg hne] at hcall
      refine ⟨⟨h.onDisk.ok, h.onDisk.committed.frame (hread _ (by simp))
        (fun _ _ _ => hread _ (by simp)), ?_, h.onDisk.cover⟩,
        fun hr => absurd (hm.symm.trans hr) (by simp)⟩
      exact h.onDisk.stored.header (fun i hi => hread _ (by simpa using hi)) (hd.2 _ le_rfl) hn
        fun _ hb => hio.failIo hcall hb
  | recoverCommit hc hm hi hio =>
    rw [Sys.failPhase] at ht
    · split at ht
      · cases ht
      · rename_i hne
        cases ht
        rw [Sys.fail_fs]
        refine ⟨h.failed_manifest (by simpa using hne) hcall ?_,
          fun hr => absurd (hm.symm.trans hr) (by simp)⟩
        rcases hd.2 with ⟨m', _, _, hp⟩ | ⟨_, hren⟩
        · exact hp.writing.append_tmp
        · rintro nm bs rest he
          rcases hren.calls with hc | hc <;> cases he.symm.trans hc
    · simp
  | recovered hc hm hi hio => cases ht

theorem Disk.end_job (h : Disk σ gh s m logs) (hm : s.mode = .running) (hrot : s.rotating = none)
    (hd : OnDisk σ fs s.hist m logs s.db.nextFileNumber)
    (hlog : fs.read (.log s.db.logNumber) = s.fs.read (.log s.db.logNumber))
    (committing : Bool) (what : String) :
    Disk σ gh { s with
      fs := fs
      db := { s.db with bgError := .ioError what, committing := committing }
      jobs := [] } m logs := by
  have hrun := h.running hm
  obtain ⟨part, ht⟩ := hrun.tail
  refine ⟨hd, fun _ hc => (nomatch hc), fun _ => { hrun with
    tail := ⟨part, ?_⟩
    swept := fun hj => ?_
    rotating := fun hr => absurd hrot hr }, fun ho => absurd (hm.symm.trans ho) (by simp)⟩
  · exact ⟨hlog.trans ht.read, ht.torn, fun _ hf => (nomatch hf), ht.lead⟩
  · rcases hj with hj | hj
    · exact absurd rfl hj
    · cases hj

theorem Sys.failPhase_cases (h : s.failPhase io phase = some t) :
    ∃ db, (∃ c, db = { s.db with committing := c }) ∧ ∃ what,
      t = ({ s with fs := t.fs, db := db } : Sys).fail (.ioError what) := by
  rw [Sys.failPhase.eq_def] at h
  split at h
  · cases h
    exact ⟨_, ⟨_, rfl⟩, _, by rw [Sys.fail_fs]⟩
  · cases h
    exact ⟨_, ⟨_, rfl⟩, _, by rw [Sys.fail_fs]⟩
  · split at h <;> cases h
    exact ⟨_, ⟨_, rfl⟩, _, by rw [Sys.fail_fs]⟩
  · split at h <;> cases h
    exact ⟨_, ⟨_, rfl⟩, _, by rw [Sys.fail_fs]⟩
  · split at h <;> cases h
    exact ⟨_, ⟨_, rfl⟩, _, by rw [Sys.fail_fs]⟩
  · cases h

theorem Disk.failJob (h : Disk σ gh s m logs) (hS : Sound σ gh s) (hs : s.failJob i n = some s') :
    Sound σ gh s' ∧ Disk σ gh s' m logs ∨
      Idle s' ∧ OnDisk σ s'.fs s'.hist m logs s.db.nextFileNumber := by
  have hsound := hS.failJob hs
  obtain ⟨j, fs, t, hj, _, hrot, hcall, ht, rfl⟩ := Sys.failJob_cases hs
  obtain ⟨rfl, hjobs⟩ := hS.jobs_index hj
  obtain ⟨hd, hlog⟩ := h.failed_job hS hjobs hcall ht
  obtain ⟨db, ⟨c, hdb⟩, what, hfail⟩ := Sys.failPhase_cases ht
  by_cases hm : s.mode = .opening
  · right
    rw [Sys.fail, if_pos hm] at hfail
    obtain ⟨hlead, hw, hr, _, hg, hb⟩ := hS.opening hm
    rw [hfail]
    exact ⟨⟨rfl, hlead, hw, hr, rfl, hg, (hS.logged.idle hlead hb).symm⟩, hd⟩
  · left
    have hr := hS.running hm
    rw [Sys.fail, if_neg hm] at hfail
    subst hdb
    have hjt : t.jobs.eraseIdx 0 = [] := by
      rw [hfail]
      simp [hjobs]
    refine ⟨hsound.resolve_right fun hc => ?_, ?_⟩
    · rw [hfail] at hc
      exact absurd (hr.symm.trans hc) (by simp)
    · rw [hjt, hfail]
      exact h.end_job hr hrot hd (hlog hr _) c what

end Failures

/-- Every step of an open process keeps the invariant of its files too. -/
theorem Disk.step (h : Disk σ gh s m logs) (hS : Sound σ gh s) (hs : LsmKv.step s a = some s')
    (ha : a.internal) (hfit : s'.Fits)
    (hjob : a.startsJob → s.jobs = [] ∧ (σ → s.db.smallestSnapshot < kMaxSequenceNumber))
    (hswap : a = .rotateSwap → σ → s.lead = none)
    (hscan : a.movesScan → s'.store.Serves (· ∈ s.opened) s.store.mems) :
    (∃ gh' m' logs', Sound σ gh' s' ∧ Disk σ gh' s' m' logs') ∨
      Idle s' ∧ ∃ m' logs' N, OnDisk σ s'.fs s'.hist m' logs' N := by
  cases a with
  | write id entries sync => exact .inl ⟨gh, m, logs, hS.write hs, h.write hS hs⟩
  | rotate byFlush => exact .inl ⟨gh, m, logs, hS.rotate hs, h.rotate hS hs⟩
  | rotateIo n => exact .inl ⟨gh, m, logs, hS.rotateIo hs, h.rotateIo hS hs⟩
  | rotateSwap => exact .inl ⟨gh.freeze, m, logs, hS.rotateSwap hs, h.rotateSwap hS hs (hswap rfl)⟩
  | begin elapsed => exact .inl ⟨gh, m, logs, hS.begin hs hfit, h.begin hS hs⟩
  | append n =>
    obtain ⟨logs', h'⟩ := h.append hS hs
    exact .inl ⟨gh, m, logs', hS.append hs, h'⟩
  | syncLog => exact .inl ⟨gh, m, logs, hS.syncLog hs, h.syncLog hS hs⟩
  | insert =>
    obtain ⟨r, hr⟩ := hS.insert hs
    exact .inl ⟨gh.insert r, m, logs, hr, h.insert hS hs r⟩
  | finish => exact .inl ⟨gh, m, logs, hS.finish hs, h.finish hS hs⟩
  | getSnapshot => exact .inl ⟨gh, m, logs, hS.getSnapshot hs, h.getSnapshot hS hs⟩
  | releaseSnapshot handle =>
    exact .inl ⟨gh, m, logs, hS.releaseSnapshot hs, h.releaseSnapshot hS hs⟩
  | getBegin id key snapshot => exact .inl ⟨gh, m, logs, hS.getBegin hs hfit, h.getBegin hS hs⟩
  | getEnd id => exact .inl ⟨gh, m, logs, hS.getEnd hs, h.getEnd hS hs⟩
  | newIterator id snapshot => exact .inl ⟨gh, m, logs, hS.newIterator hs, h.newIterator hS hs⟩
  | seekToFirst id =>
    have hmove : s.moveScan id true DBIter.seekToFirst = some s' := hs
    exact .inl ⟨gh, m, logs, hS.moveScan hmove (hscan trivial), h.moveScan hS hmove (hscan trivial)⟩
  | seek id target =>
    have hmove : s.moveScan id true (DBIter.seek · target) = some s' := hs
    exact .inl ⟨gh, m, logs, hS.moveScan hmove (hscan trivial), h.moveScan hS hmove (hscan trivial)⟩
  | next id =>
    obtain ⟨_, _, _, _, hmove⟩ := Sys.next_cases hs
    exact .inl ⟨gh, m, logs, hS.moveScan hmove (hscan trivial), h.moveScan hS hmove (hscan trivial)⟩
  | startFlush =>
    exact .inl ⟨gh, m, logs, hS.startFlush hs (hjob trivial).1 hfit (hjob trivial).2,
      h.startFlush hS hs (hjob trivial).1⟩
  | startCompaction level =>
    exact .inl ⟨gh, m, logs, hS.startCompaction hs (hjob trivial).1 (hjob trivial).2,
      h.startCompaction hS hs (hjob trivial).1⟩
  | startLog => exact .inl ⟨gh, m, logs, hS.startLog hs, h.startLog hS hs⟩
  | job i n order => exact .inl (h.jobStep hS hs hfit)
  | failAppend n => exact .inl ⟨gh, m, logs, hS.failAppend hs, h.failAppend hS hs⟩
  | failSync => exact .inl ⟨gh, m, logs, hS.failSync hs, h.failSync hS hs⟩
  | failRotate n => exact .inl ⟨gh, m, logs, hS.failRotate hs, h.failRotate hS hs⟩
  | failJob i n =>
    exact (h.failJob hS hs).imp (fun ⟨h1, h2⟩ => ⟨gh, m, logs, h1, h2⟩)
      fun ⟨h1, h2⟩ => ⟨h1, m, logs, _, h2⟩
  | kill => cases ha
  | recover options path => cases ha
  | powerLoss keep cut => cases ha
  | powerLossData cut => cases ha

end LsmKv
