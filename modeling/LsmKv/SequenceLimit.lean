import LsmKv.Progress

namespace LsmKv
set_option autoImplicit true

open Versioned
open Wal (Group)

variable {σ : Prop} {gh : Ghost} {s s' : Sys} {a : Act} {e : BatchEntry} {t : Table} {fs : DbFs}
  {imm n : Nat}

/-- A database without tables, whose immutable memtable waits to be flushed when the largest
sequence number is used. -/
structure AtLimit (s : Sys) (imm : Nat) : Prop where
  good : Good False s
  is_open : s.mode ≠ .closed
  rotating : s.rotating = none
  lead : s.lead = none
  jobs : s.jobs = []
  bgOk : s.db.bgError.isOk = true
  waits : s.db.imm = some imm
  smallest : s.db.smallestSnapshot = kMaxSequenceNumber
  options : s.db.options = {}
  current : s.db.current = {}
  next : s.db.nextFileNumber + 2 < 2 ^ 64
  fits : s.Fits

/-- The version with an empty table. -/
def emptyTable (number : Nat) (t : Table) : Version :=
  ({} : Version).setLevel 0 [Sys.metaOf number (built {} []) t]

/-- The state in which the flush has installed its empty table, `t`, and is about to write the
manifest. -/
def Sys.dropped (s : Sys) (t : Table) (fs : DbFs) : Sys :=
  let s' : Sys := { s with
    fs := fs
    db := { s.db with nextFileNumber := s.db.nextFileNumber + 1 }
    opened := s.opened ++ [t] }
  s'.installed (Sys.metaOf s.db.nextFileNumber (built {} []) t)

theorem tableFile_nil_length : (tableFile {} []).length < 2 ^ 32 := by decide +kernel

theorem tableFits_of_built (he : built {} [] = built {} es) : TableFits {} es := by
  refine tableFits_of_file ?_
  rw [← built_file, ← he]
  exact tableFile_nil_length

theorem mem_emptyTable (hf : f ∈ (emptyTable n t).levels l) : f = Sys.metaOf n (built {} []) t := by
  rw [emptyTable, Version.setLevel] at hf
  dsimp only at hf
  split at hf
  · exact List.mem_singleton.1 hf
  · cases hf

theorem Sys.Fits.of_emptyTable (hf : s.Fits) (hd : s'.db.current = emptyTable n t)
    (hseq : s'.db.lastSequence = s.db.lastSequence) (hn : s'.db.nextFileNumber < 2 ^ 64)
    (hl : s'.lead = s.lead) (hj : ∀ j ∈ s'.jobs, j.phase.building = none)
    (hg : s'.gets = s.gets) : s'.Fits where
  sequence := hseq ▸ hf.sequence
  fileNumber := hn
  files := by
    rw [hd]
    show 1 < 2 ^ 32
    decide
  fileSize l f hm := by
    rw [hd] at hm
    rw [mem_emptyTable hm]
    show (built {} []).fileSize < 2 ^ 64
    decide +kernel
  group := hl ▸ hf.group
  table j hm b hb := by
    rw [hj j hm] at hb
    cases hb
  key := hg ▸ hf.key

theorem AtLimit.dropped_current (h : AtLimit s imm) (t : Table) (fs : DbFs) :
    (s.dropped t fs).db.current = emptyTable s.db.nextFileNumber t := by
  show s.db.current.setLevel 0 (_ :: s.db.current.levels 0) = _
  rw [h.current]
  rfl

theorem AtLimit.dropped_fits (h : AtLimit s imm) (t : Table) (fs : DbFs) :
    (s.dropped t fs).Fits := by
  have hnext := h.next
  refine h.fits.of_emptyTable (h.dropped_current t fs) rfl ?_ rfl (fun j hj => ?_) rfl
  · show s.db.nextFileNumber + 1 < 2 ^ 64
    omega
  · obtain rfl := List.mem_singleton.1 hj
    rfl

theorem AtLimit.drop_run (h : AtLimit s imm) :
    ∃ t fs, t.recs = [] ∧ Run Tame s (s.dropped t fs) := by
  obtain ⟨gh, _, _, hS, _⟩ := h.good.sound h.is_open
  have hnext := h.next
  have hmay : s.mayStart = true :=
    Sys.mayStart_iff.2 ⟨h.is_open, h.rotating, h.bgOk, .inl h.jobs⟩
  have h1 := Sys.startFlush_eq h.waits hmay
  rw [hS.flush_keeps_nothing h.waits h.smallest, h.options, h.jobs] at h1
  have hfit : Sys.Fits { s with
      db := { s.db with nextFileNumber := s.db.nextFileNumber + 1 }
      jobs := [⟨writeTable s.db.nextFileNumber (tableFile {} []),
        .flushOpen s.db.nextFileNumber (built {} [])⟩] } := by
    refine ⟨h.fits.sequence, ?_, h.fits.files, h.fits.fileSize, h.fits.group,
      fun j hm b hb es he => ?_, h.fits.key⟩
    · show s.db.nextFileNumber + 1 < 2 ^ 64
      omega
    · obtain rfl := List.mem_singleton.1 hm
      cases hb
      show TableFits s.db.options es
      rw [h.options]
      refine tableFits_of_built (he.trans ?_)
      show built s.db.options es = _
      rw [h.options]
  have r1 : Run Tame s _ := .step .refl (a := .startFlush) h1
    (.of_idle hfit h.lead trivial (fun _ => h.jobs) (fun hc => hc.elim) (by simp))
  have r2 := r1.trans (Run.job_io rfl hfit h.lead)
  set fs := (writeTable s.db.nextFileNumber (tableFile {} [])).foldl Io.run s.fs with hfs
  have hread : fs.read (.sst s.db.nextFileNumber) = some (tableFile {} []) := by
    simp [hfs, writeTable, Io.run, Fs.read_append, Fs.read_openFile]
  have hholds : SstHolds fs s.db.nextFileNumber [] :=
    ⟨{}, tableFits_of_file tableFile_nil_length, hread⟩
  obtain ⟨t, ht, _, _, hrecs⟩ := hholds.openTable .nil s.db.path s.db.options
  refine ⟨t, fs, hrecs, ?_⟩
  have hopened : Sys.Fits { s with
      fs := fs
      db := { s.db with nextFileNumber := s.db.nextFileNumber + 1 }
      jobs := [⟨[], .flushOpen s.db.nextFileNumber (built {} [])⟩] } :=
    hfit.keep_jobs fun j hj => ⟨_, List.mem_singleton_self _, List.mem_singleton.1 hj ▸ rfl⟩
  have r3 := r2.trans (Run.flush_open rfl ht hopened h.lead)
  have hunlocked : s.unlocked = true := Sys.unlocked_iff.2 ⟨h.is_open, h.rotating⟩
  have hcommit := hS.idle_committing h.jobs
  exact r3.trans (Run.flush_install rfl hunlocked hcommit (h.dropped_fits t fs) h.lead)

/-- A database without records for a key answers `NotFound`. -/
theorem Sound.get_none {k : Bytes} (h : Sound σ gh s) (hm : s.mode = .running)
    (hk : k.length + 8 < 2 ^ 32) (hmem : ∀ r ∈ (s.store.mems s.db.mem).recs, r.userKey ≠ k)
    (hi : s.db.imm = none) (hcur : s.db.current = emptyTable n t) (ht : t.recs = []) :
    (((s.db.capture none).get k).run s.store).1 = .error .notFound := by
  have hsn : ∀ sn : Snapshot, none = some sn → sn ∈ s.db.snapshots := fun sn hc => by cases hc
  have hok := h.captured_ok (h.capOk hm hsn)
  rcases (hok.run_get h.tables.serves hk).1 with ⟨v, _, r, ⟨hr, _⟩, _⟩ | ⟨hres, _⟩
  · exfalso
    have hin : r ∈ ((s.store.mems s.db.mem).recs ::
      (s.db.imm.toList.map fun id => (s.store.mems id).recs) ++ s.db.current.runs).flatten := hr.mem
    rw [hi, Option.toList_none, List.map_nil, List.singleton_append, List.flatten_cons,
      List.mem_append] at hin
    rcases hin with hin | hin
    · exact hmem r hin hr.key_eq
    · have hempty : ∀ l, kNumLevels ≤ l → s.db.current.levels l = [] := hok.version.empty
      obtain ⟨l, hl⟩ := (Version.mem_runs hempty).1 hin
      obtain ⟨f, hf, hrf⟩ := Version.mem_levelRecs.1 hl
      have hrecs : f.recs = [] := by
        rw [hcur] at hf
        rw [mem_emptyTable hf]
        exact ht
      rw [hrecs] at hrf
      cases hrf
  · exact hres

/-- The database that `Open` creates in an empty directory. -/
def created : Sys := (({} : Sys).recovering {} "db" {} []).reopened

theorem created_run : Run Tame {} created := by
  have hs : ({} : Sys).recover {} "db" = some (({} : Sys).recovering {} "db" {} []) :=
    Sys.recover_eq rfl rfl rfl
  have hf : (({} : Sys).recovering {} "db" {} []).Fits :=
    ⟨Nat.zero_le _, by decide, by decide, fun _ _ hc => (by cases hc), fun _ hc => (by cases hc),
      fun _ hc => (by cases hc), fun _ hc => (by cases hc)⟩
  have r1 : Run Tame {} (({} : Sys).recovering {} "db" {} []) :=
    .step .refl (a := .recover {} "db") hs (.of_recover hf rfl _ _ rfl)
  exact r1.trans (Run.reopen rfl rfl rfl rfl hf (by decide))

theorem created_waits : Waits created [] := by
  refine ⟨rfl, rfl, rfl, rfl, rfl, rfl, ?_⟩
  exact ⟨Nat.zero_le _, by decide, by decide, fun _ _ hc => (by cases hc),
    fun _ hc => (by cases hc), fun _ hc => (by cases hc), fun _ hc => (by cases hc)⟩

/-- An open database in which nothing was written. -/
structure Blank (s : Sys) : Prop where
  good : Good False s
  waits : Waits s []
  options : s.db.options = {}
  current : s.db.current = {}
  imm : s.db.imm = none
  snapshots : s.db.snapshots = []
  last : s.db.lastSequence = 0
  next : s.db.nextFileNumber ≤ 3
  jobs : s.jobs = []
  gets : s.gets = []
  answers : s.answers = []
  hist : s.hist = []
  acked : s.acked = []
  manifest : s.fs.read .manifest = some (Manifest.encode ⟨{}, 1, 2, 0⟩)
  bump : Sys.bumpFileNumber s.fs 2 = 2

/-- The groups of a number of calls of `Put`. -/
def putGroups (last : Nat) (e : BatchEntry) (n : Nat) : List Group :=
  (List.range n).map fun i => ⟨last + i + 1, [e]⟩

/-- What a number of calls of `Put` leaves alone, and what it adds to the history. -/
structure Sys.PutsTo (s : Sys) (e : BatchEntry) (n : Nat) (t : Sys) : Prop where
  jobs : t.jobs = s.jobs
  gets : t.gets = s.gets
  answers : t.answers = s.answers
  names : t.fs.names = s.fs.names
  manifest : t.fs.read .manifest = s.fs.read .manifest
  hist : t.hist = s.hist ++ putGroups s.db.lastSequence e n
  acked : t.acked = s.acked ++ putGroups s.db.lastSequence e n

theorem Sys.names_modify (fs : DbFs) (name : FileName) (f : Inode UInt8 → Inode UInt8) :
    (fs.modify name f).names = fs.names := by
  rw [Fs.modify]
  split <;> rfl

theorem Sys.puts_putsTo (s : Sys) (e : BatchEntry) (n : Nat) : s.PutsTo e n (s.puts e n) := by
  induction n with
  | zero => exact ⟨rfl, rfl, rfl, rfl, rfl, (List.append_nil _).symm, (List.append_nil _).symm⟩
  | succ n ih =>
    have hlast : (s.puts e n).db.lastSequence + 1 = s.db.lastSequence + n + 1 := by
      rw [Sys.puts_db]
    have hgroups : putGroups s.db.lastSequence e (n + 1) =
        putGroups s.db.lastSequence e n ++ [⟨(s.puts e n).db.lastSequence + 1, [e]⟩] := by
      rw [hlast, putGroups, List.range_succ, List.map_append]
      rfl
    refine ⟨ih.jobs, ih.gets, ih.answers, ?_, ?_, ?_, ?_⟩
    · exact (Sys.names_modify _ _ _).trans ((Sys.names_modify _ _ _).trans ih.names)
    · rw [← ih.manifest]
      show (Fs.fsync _ _).read _ = _
      rw [Fs.read_fsync, Fs.read_append, if_neg (by simp)]
      rfl
    · rw [hgroups, ← List.append_assoc, ← ih.hist]
      rfl
    · rw [hgroups, ← List.append_assoc, ← ih.acked]
      rfl

/-- The entries that the runs below write. -/
def putA : BatchEntry := ⟨.kValue, [97], [1]⟩

theorem putA_small : putA.Small := ⟨(by decide : 1 + 1 + 16 < 2 ^ 32), by decide +kernel⟩

/-- The flush has come to its end, and left a table without records. -/
structure Forgot (s u : Sys) (t : Table) : Prop where
  run : Run Tame s u
  mode : u.mode = s.mode
  rotating : u.rotating = none
  lead : u.lead = none
  jobs : u.jobs = []
  gets : u.gets = s.gets
  answers : u.answers = s.answers
  hist : u.hist = s.hist
  acked : u.acked = s.acked
  store : u.store = s.store
  mem : u.db.mem = s.db.mem
  imm : u.db.imm = none
  current : u.db.current = emptyTable s.db.nextFileNumber t
  nil : t.recs = []
  next : u.db.nextFileNumber + 1 < 2 ^ 64
  fits : u.Fits

theorem AtLimit.forgets (h : AtLimit s imm) : ∃ u t, Forgot s u t := by
  obtain ⟨t, fs, ht, hrun⟩ := h.drop_run
  have hfit := h.dropped_fits t fs
  have hrun' := hrun.trans (Run.commit rfl (Sys.unlocked_iff.2 ⟨h.is_open, h.rotating⟩) hfit h.lead)
  exact ⟨_, t, hrun', rfl, h.rotating, h.lead, rfl, rfl, rfl, rfl, rfl, rfl, rfl, rfl,
    h.dropped_current t fs, ht, h.next, hfit.committed _⟩

theorem Forgot.get_none {u : Sys} {k : Bytes} (h : Forgot s u t) (hg : Good False u)
    (hm : s.mode = .running) (hmem : ∀ r ∈ (s.store.mems s.db.mem).recs, r.userKey ≠ k)
    (hk : k.length + 8 < 2 ^ 32) :
    (((u.db.capture none).get k).run u.store).1 = .error .notFound := by
  have hm' := h.mode.trans hm
  obtain ⟨gh, _, _, hS, _⟩ := hg.sound (by simp [hm'])
  refine hS.get_none hm' hk ?_ h.imm h.current h.nil
  rw [h.store, h.mem]
  exact hmem

theorem mapOfGroups_putGroups (last : Nat) (n : Nat) :
    mapOfGroups (putGroups last putA (n + 1)) [97] = some [1] := by
  rw [putGroups, List.range_succ, List.map_append, mapOfGroups_append]
  rfl

theorem putGroups_last (hn : 0 < n) : (⟨last + n, [e]⟩ : Group) ∈ putGroups last e n := by
  refine List.mem_map.2 ⟨n - 1, List.mem_range.2 (by omega), ?_⟩
  rw [Nat.add_assoc, Nat.sub_add_cancel hn]

theorem MemTable.add_isEmpty (m : MemTable) (seq : Nat) (type : ValueType) (key value : Bytes) :
    (m.add seq type key value).isEmpty = false := by
  simp [isEmpty, add, insert]

theorem Sys.replayInto_isEmpty {es : List Wal.Entry} (h : es ≠ []) :
    (Sys.replayInto {} es).isEmpty = false := by
  obtain ⟨init, e, rfl⟩ := List.eq_nil_or_concat es |>.resolve_left h
  rw [List.concat_eq_append, Sys.replayInto, List.foldl_append]
  exact MemTable.add_isEmpty ..

theorem Blank.loads (h : Blank s) (n : Nat) :
    Sys.loadManifest {} "db" (s.puts putA n).fs = .ok ⟨{}, 1, 2, 0⟩ := by
  rw [Sys.loadManifest, (s.puts_putsTo putA n).manifest, h.manifest]
  refine Manifest.load_encode _ (m := ⟨{}, 1, 2, 0⟩) ?_ .nil (fun _ _ => .nil) (fun _ _ => rfl) ?_
  · exact ⟨by decide, by decide, by decide, by decide, fun _ he => (by cases he),
      fun _ he => (by cases he), fun _ he => (by cases he), fun _ he => (by cases he)⟩
  · intro e he
    cases he

/-- The next `Open` of a database whose one log uses up the sequence numbers. -/
theorem Blank.recovers (h : Blank s) (hn : n = kMaxSequenceNumber) :
    ∃ t, Run Tame (s.puts putA n).kill t ∧ AtLimit t 0 ∧ t.mode = .opening ∧ t.db.mem = 1 ∧
      t.store.mems 1 = {} ∧ t.hist = putGroups 0 putA n ∧ t.acked = t.hist := by
  have hlast := h.last
  obtain ⟨hrun, hwaits⟩ := h.waits.puts_run putA_small (n := n) (by omega)
  have hto := s.puts_putsTo putA n
  have hgood := h.good.of_tame (hrun.trans (hwaits.kill_run (hto.jobs.trans h.jobs)))
  cases hgood with
  | opened hS _ _ => exact absurd rfl hS.is_open
  | closed hi hd hc =>
    obtain ⟨t, hrec, hmode, _, hhist, hgood⟩ := hd.recover hi hc {} "db"
    obtain ⟨gh, _, _, hS, _⟩ := hgood.sound (by simp [hmode])
    rcases (Sys.recover_cases hrec).2 with ⟨_, rfl⟩ | ⟨m, es, hload, hes, rfl⟩
    · cases hmode
    · cases (h.loads n).symm.trans hload
      have hgroups : (s.puts putA n).hist = putGroups 0 putA n := by
        rw [hto.hist, h.hist, h.last, List.nil_append]
      have hmem : ⟨0 + n, [putA]⟩ ∈ (s.puts putA n).hist := by
        rw [hgroups, hn]
        exact putGroups_last (by decide)
      have hle : Sys.maxSequence 0 es ≤ kMaxSequenceNumber := hS.logged.last_le
      have hseq : Sys.maxSequence 0 es = kMaxSequenceNumber := by
        have htop : 0 + n + 1 ≤ Sys.maxSequence 0 es + 1 := hS.logged.tops _ hmem
        omega
      have hne : es ≠ [] := by
        rintro rfl
        cases hseq
      have hempty := Sys.replayInto_isEmpty hne
      have hbump : Sys.bumpFileNumber (s.puts putA n).fs 2 = 2 := by
        rw [Sys.bumpFileNumber, hto.names]
        exact h.bump
      have hfit : ((s.puts putA n).kill.recovering {} "db" ⟨{}, 1, 2, 0⟩ es).Fits := by
        refine ⟨hle, ?_, (by decide : (Manifest.filesOf {}).length < 2 ^ 32),
          fun _ _ hf => (by cases hf), fun _ hl => (by cases hl), fun _ hj => (by cases hj),
          fun _ hc => (by cases hc)⟩
        show Sys.bumpFileNumber (s.puts putA n).fs 2 < 2 ^ 64
        rw [hbump]
        decide
      refine ⟨_, .step .refl (a := .recover {} "db") hrec (.of_recover hfit rfl _ _ rfl),
        ⟨hgood, by simp [hmode], rfl, rfl, rfl, rfl, ?_, hseq, rfl, rfl, ?_, hfit⟩, rfl, ?_, rfl,
        hgroups, ?_⟩
      · simp [Sys.recovering, hempty]
      · show Sys.bumpFileNumber (s.puts putA n).fs 2 + 2 < 2 ^ 64
        rw [hbump]
        decide
      · simp [Sys.recovering, hempty]
      · show (s.puts putA n).acked = (s.puts putA n).hist
        rw [hto.hist, hto.acked, h.hist, h.acked]

/-- `Open` comes to its end, and nothing is left of the log it replayed. -/
theorem AtLimit.reopens (h : AtLimit s imm) (hm : s.mode = .opening)
    (hmem : (s.store.mems s.db.mem).recs = []) :
    ∃ t, Run Tame s t ∧ t.mode = .running ∧
      ∀ k, k.length + 8 < 2 ^ 32 →
        (((t.db.capture none).get k).run t.store).1 = .error .notFound := by
  obtain ⟨u, t, hu⟩ := h.forgets
  have hrun := hu.run.trans (Run.reopen (hu.mode.trans hm) hu.jobs hu.imm hu.lead hu.fits hu.next)
  obtain ⟨gh, _, _, hS, _⟩ := (h.good.of_tame hrun).sound (fun hc => by cases hc)
  refine ⟨_, hrun, rfl, fun k hk => hS.get_none rfl hk (fun r hr => ?_) hu.imm hu.current hu.nil⟩
  have hr' : r ∈ (u.store.mems u.db.mem).recs := hr
  rw [hu.store, hu.mem, hmem] at hr'
  cases hr'

/-- A database is filled, closed and opened again, and all its acknowledged writes are gone. -/
theorem Blank.lost (h : Blank s) : ∃ t u, Run Tame s t ∧ t.mode = .running ∧ t.lead = none ∧
    t.jobs = [] ∧ mapOfGroups t.acked [97] = some [1] ∧ Run Tame t.kill u ∧ u.mode = .running ∧
    (((u.db.capture none).get [97]).run u.store).1 = .error .notFound := by
  obtain ⟨n, hn⟩ : ∃ n, n + 1 = kMaxSequenceNumber := ⟨2 ^ 56 - 2, by decide⟩
  obtain ⟨hrun, hwaits⟩ := h.waits.puts_run putA_small (n := n + 1) (by
    rw [h.last]
    omega)
  have hto := s.puts_putsTo putA (n + 1)
  obtain ⟨t, hrun', hlim, hm, hmem, hnil, _⟩ := h.recovers hn
  obtain ⟨u, hrun'', hm', hget⟩ := hlim.reopens hm (by rw [hmem, hnil]; rfl)
  refine ⟨_, u, hrun, hwaits.running, hwaits.lead, hto.jobs.trans h.jobs, ?_,
    hrun'.trans hrun'', hm', hget [97] (by decide)⟩
  rw [hto.acked, h.acked, List.nil_append]
  exact mapOfGroups_putGroups _ n

end LsmKv
