import LsmKv.ManifestBounds
import LsmKv.Reach

namespace LsmKv
set_option autoImplicit true

/-- No file below the last level. -/
def Version.Shallow (v : Version) : Prop := ∀ l, kNumLevels ≤ l → v.levels l = []

def Phase.Shallow : Phase → Prop
  | compactMerge c => c.level + 1 < kNumLevels
  | compactNext c _ _ => c.level + 1 < kNumLevels
  | compactOpen c _ _ _ _ => c.level + 1 < kNumLevels
  | commitWait v => v.Shallow
  | cleanup _ _ next => next.Shallow
  | _ => True

structure Shallow (s : Sys) : Prop where
  current : s.db.current.Shallow
  jobs : ∀ j ∈ s.jobs, j.phase.Shallow

theorem Version.Shallow.setLevel {v : Version} (h : v.Shallow) (hl : level < kNumLevels)
    (fs : List FileMetaData) : (v.setLevel level fs).Shallow := by
  intro l hge
  rw [Version.levels_setLevel, if_neg (by omega)]
  exact h l hge

theorem Version.Shallow.install {v : Version} (h : v.Shallow) {c : Compaction}
    (hc : c.level + 1 < kNumLevels) (outputs : List FileMetaData) : (c.install v outputs).Shallow :=
  (h.setLevel (by omega) _).setLevel hc _

theorem Manifest.load_shallow {f : Nat → Except Status Table} {body : Bytes}
    (h : Manifest.load f body = .ok m) :
    m.version.Shallow := by
  rw [Manifest.load] at h
  split at h
  · cases h
  dsimp only at h
  split at h
  · cases h
  split at h
  · cases h
  split at h <;> cases h
  rename_i files hparse
  obtain ⟨_, _, hlevels⟩ := Manifest.parseFiles_eq_ok f hparse
  intro l hl
  have hnone : files.filter (fun e => e.1 == l) = [] := by
    rw [List.filter_eq_nil_iff]
    intro e he heq
    have := (hlevels e he).1
    rw [beq_iff_eq] at heq
    omega
  have hpos : l ≠ 0 := by
    rintro rfl
    exact absurd hl (by decide)
  rw [Manifest.sortLevels]
  simp only [hnone, List.map_nil, if_neg hpos, List.insertionSort_nil]

theorem Sys.loadManifest_shallow {fs : DbFs} (h : Sys.loadManifest options path fs = .ok m) :
    m.version.Shallow := by
  rw [Sys.loadManifest] at h
  split at h
  · cases h
    exact fun _ _ => rfl
  · exact Manifest.load_shallow h

namespace Shallow

variable {s s' : Sys} {id : Nat}

theorem keep (h : Shallow s) (hc : s'.db.current = s.db.current) (hj : s'.jobs = s.jobs) :
    Shallow s' :=
  ⟨hc ▸ h.current, hj ▸ h.jobs⟩

theorem add_job (h : Shallow s) (hc : s'.db.current = s.db.current) (hj : s'.jobs = s.jobs ++ [j])
    (hp : j.phase.Shallow) : Shallow s' := by
  refine ⟨hc ▸ h.current, fun k hk => ?_⟩
  rw [hj] at hk
  rcases List.mem_append.1 hk with hk | hk
  · exact h.jobs k hk
  · exact List.mem_singleton.1 hk ▸ hp

theorem fail (h : Shallow s) (status : Status) : Shallow (s.fail status) := by
  rw [Sys.fail]
  split
  · exact ⟨h.current, fun _ hj => (by cases hj)⟩
  · exact h.keep rfl rfl

theorem commitVersion (h : Shallow s) {v : Version} (hv : v.Shallow) :
    Shallow (s.commitVersion v).1 ∧ ∀ j, (s.commitVersion v).2 = some j → j.phase.Shallow := by
  rw [Sys.commitVersion]
  split
  · exact ⟨h, fun j hj => Option.some.inj hj ▸ hv⟩
  · exact ⟨⟨hv, h.jobs⟩, fun j hj => Option.some.inj hj ▸ trivial⟩

theorem phaseStep (h : Shallow s) (hp : phase.Shallow)
    (hs : s.phaseStep order phase = some (t, next)) :
    Shallow t ∧ ∀ j, next = some j → j.phase.Shallow := by
  have hnone : ∀ j : Job, none = some j → j.phase.Shallow := fun _ hj => (nomatch hj)
  cases phase with
  | flushOpen n b =>
    rw [Sys.phaseStep] at hs
    split at hs <;> cases hs
    · exact ⟨h.fail _, hnone⟩
    · exact ⟨h.keep rfl rfl, fun j hj => Option.some.inj hj ▸ trivial⟩
  | flushInstall f =>
    rw [Sys.phaseStep] at hs
    split at hs
    · have hs := Option.some.inj hs
      have hdb : Shallow { s with db := { s.db with imm := none, immLogNumber := 0 } } :=
        h.keep rfl rfl
      have h0 : 0 < kNumLevels := by decide
      have hc := hdb.commitVersion (h.current.setLevel h0 (f :: s.db.current.levels 0))
      rw [hs] at hc
      exact hc
    · cases hs
  | compactMerge c =>
    simp only [Sys.phaseStep] at hs
    generalize c.merge.run s.store = p at hs
    obtain ⟨⟨recs, status⟩, store⟩ := p
    have hst : Shallow { s with store := store } := h.keep rfl rfl
    dsimp only at hs
    split at hs <;> cases hs
    · exact ⟨hst, fun j hj => Option.some.inj hj ▸ hp⟩
    · exact ⟨hst.fail _, hnone⟩
  | compactNext c todo outputs =>
    cases todo with
    | nil =>
      rw [Sys.phaseStep] at hs
      split at hs
      · have hs := Option.some.inj hs
        have hc := h.commitVersion (h.current.install hp outputs)
        rw [hs] at hc
        exact hc
      · cases hs
    | cons b todo =>
      rw [Sys.phaseStep] at hs
      split at hs <;> cases hs
      exact ⟨h.keep rfl rfl, fun j hj => Option.some.inj hj ▸ hp⟩
  | compactOpen c n b todo outputs =>
    rw [Sys.phaseStep] at hs
    split at hs <;> cases hs
    · exact ⟨h.fail _, hnone⟩
    · exact ⟨h.keep rfl rfl, fun j hj => Option.some.inj hj ▸ hp⟩
  | commitWait v =>
    rw [Sys.phaseStep] at hs
    split at hs <;> cases hs
    exact ⟨⟨hp, h.jobs⟩, fun j hj => Option.some.inj hj ▸ trivial⟩
  | cleanup v l p =>
    rw [Sys.phaseStep] at hs
    split at hs <;> cases hs
    exact ⟨h, fun j hj => Option.some.inj hj ▸ hp⟩
  | commitDone =>
    rw [Sys.phaseStep] at hs
    split at hs <;> cases hs
    exact ⟨h.keep rfl rfl, hnone⟩
  | logOpened n =>
    cases hs
    exact ⟨h.keep rfl rfl, fun j hj => Option.some.inj hj ▸ trivial⟩
  | recovered =>
    cases hs
    exact ⟨h.keep rfl rfl, hnone⟩

theorem setJob (h : Shallow s) (hn : ∀ j, next = some j → j.phase.Shallow) :
    Shallow { s with jobs := Sys.setJob s.jobs i next } := by
  refine ⟨h.current, fun j hj => ?_⟩
  cases next with
  | none => exact h.jobs j (List.mem_of_mem_eraseIdx hj)
  | some k =>
    rcases List.mem_or_eq_of_mem_set hj with hj | rfl
    · exact h.jobs j hj
    · exact hn j rfl

theorem jobStep (h : Shallow s) (hs : s.jobStep i n order = some s') : Shallow s' := by
  obtain ⟨j, hj, ⟨_, t, next, hp, rfl⟩ | ⟨fs, io, _, rfl⟩⟩ := Sys.jobStep_cases hs
  · obtain ⟨ht, hnext⟩ := h.phaseStep (h.jobs j (List.mem_of_getElem? hj)) hp
    exact ht.setJob hnext
  · refine ⟨h.current, fun k hk => ?_⟩
    rcases List.mem_or_eq_of_mem_set hk with hk | rfl
    · exact h.jobs k hk
    · exact h.jobs j (List.mem_of_getElem? hj)

theorem failPhase (h : Shallow s) (hs : s.failPhase io phase = some t) : Shallow t := by
  obtain ⟨db, ⟨c, rfl⟩, what, ht⟩ := Sys.failPhase_cases hs
  rw [ht]
  refine fail ?_ _
  exact h.keep rfl rfl

theorem failJob (h : Shallow s) (hs : s.failJob i n = some s') : Shallow s' := by
  obtain ⟨j, fs, t, _, _, _, _, ht, rfl⟩ := Sys.failJob_cases hs
  have hfs : Shallow { s with fs := fs } := h.keep rfl rfl
  have ht := hfs.failPhase ht
  exact ⟨ht.current, fun k hk => ht.jobs k (List.mem_of_mem_eraseIdx hk)⟩

theorem recover (h : Shallow s) (hs : s.recover options path = some s') : Shallow s' := by
  rw [Sys.recover] at hs
  split at hs
  · split at hs
    · cases hs
      exact h.keep rfl rfl
    · rename_i m hm
      split at hs <;> cases hs
      · exact h.keep rfl rfl
      · exact ⟨Sys.loadManifest_shallow hm, h.jobs⟩
  · cases hs

theorem kill (s : Sys) : Shallow s.kill := ⟨fun _ _ => rfl, fun _ hj => (nomatch hj)⟩

theorem step (h : Shallow s) (hs : LsmKv.step s a = some s') : Shallow s' := by
  cases a with
  | write id entries sync =>
    obtain ⟨_, _, _, rfl⟩ := Sys.write_cases hs
    exact h.keep rfl rfl
  | rotate byFlush =>
    obtain ⟨_, _, _, _, _, rfl⟩ := Sys.rotate_cases hs
    exact h.keep rfl rfl
  | rotateIo n =>
    obtain ⟨_, _, _, _, _, rfl⟩ := Sys.rotateIo_cases hs
    exact h.keep rfl rfl
  | rotateSwap =>
    obtain ⟨_, _, _, _, rfl⟩ := Sys.rotateSwap_cases hs
    exact h.keep rfl rfl
  | begin elapsed =>
    obtain ⟨_, _, _, _, _, _, ⟨_, rfl⟩ | ⟨_, rfl⟩⟩ := Sys.begin_cases hs
    · exact h.keep rfl rfl
    · exact h.keep rfl rfl
  | append n =>
    obtain ⟨_, _, _, ⟨_, _, rfl⟩ | rfl⟩ := Sys.append_cases hs
    · exact h.keep rfl rfl
    · exact h.keep rfl rfl
  | syncLog =>
    obtain ⟨_, _, _, _, rfl⟩ := Sys.syncLog_cases hs
    exact h.keep rfl rfl
  | insert =>
    obtain ⟨_, _, _, _, _, _, _, rfl⟩ := Sys.insert_cases hs
    exact h.keep rfl rfl
  | finish =>
    obtain ⟨_, _, _, _, _, _, _, rfl⟩ := Sys.finish_cases hs
    exact h.keep rfl rfl
  | getSnapshot =>
    obtain ⟨_, _, rfl⟩ := Sys.getSnapshot_cases hs
    exact h.keep rfl rfl
  | releaseSnapshot handle =>
    obtain ⟨_, _, rfl⟩ := Sys.releaseSnapshot_cases hs
    exact h.keep rfl rfl
  | getBegin id key snapshot =>
    obtain ⟨_, _, _, _, _, rfl⟩ := Sys.getBegin_cases hs
    exact h.keep rfl rfl
  | getEnd id =>
    obtain ⟨_, _, _, rfl⟩ := Sys.getEnd_cases hs
    exact h.keep rfl rfl
  | newIterator id snapshot =>
    obtain ⟨_, _, _, _, rfl⟩ := Sys.newIterator_cases hs
    exact h.keep rfl rfl
  | seekToFirst id =>
    have hmove : s.moveScan id true DBIter.seekToFirst = some s' := hs
    obtain ⟨_, _, _, rfl⟩ := Sys.moveScan_cases hmove
    exact h.keep rfl rfl
  | seek id target =>
    have hmove : s.moveScan id true (DBIter.seek · target) = some s' := hs
    obtain ⟨_, _, _, rfl⟩ := Sys.moveScan_cases hmove
    exact h.keep rfl rfl
  | next id =>
    obtain ⟨_, _, _, _, hmove⟩ := Sys.next_cases hs
    obtain ⟨_, _, _, rfl⟩ := Sys.moveScan_cases hmove
    exact h.keep rfl rfl
  | startFlush =>
    obtain ⟨_, _, _, rfl⟩ := Sys.startFlush_cases hs
    exact h.add_job rfl rfl trivial
  | startCompaction level =>
    obtain ⟨_, _, hl, db, c, hb, rfl⟩ := Sys.startCompaction_cases hs
    obtain ⟨hlevel, pointer, rfl⟩ := Db.beginCompaction_db hb
    refine h.add_job rfl rfl ?_
    change c.level + 1 < kNumLevels
    rwa [hlevel]
  | startLog =>
    obtain ⟨_, _, _, rfl⟩ := Sys.startLog_cases hs
    refine ⟨h.current, fun j hm => ?_⟩
    obtain rfl := List.mem_singleton.1 hm
    trivial
  | job i n order => exact h.jobStep hs
  | failAppend n =>
    obtain ⟨_, _, _, _, rfl⟩ := Sys.failAppend_cases hs
    exact h.keep rfl rfl
  | failSync =>
    obtain ⟨_, _, _, _, _, rfl⟩ := Sys.failSync_cases hs
    exact h.keep rfl rfl
  | failRotate n =>
    obtain ⟨_, _, _, _, rfl⟩ := Sys.failRotate_cases hs
    exact h.keep rfl rfl
  | failJob i n => exact h.failJob hs
  | kill =>
    cases hs
    exact kill s
  | recover options path => exact h.recover hs
  | powerLoss keep cut =>
    cases hs
    exact ⟨fun _ _ => rfl, fun _ hj => (nomatch hj)⟩
  | powerLossData cut =>
    cases hs
    exact ⟨fun _ _ => rfl, fun _ hj => (nomatch hj)⟩

end Shallow

theorem Run.shallow {P : Sys → Act → Sys → Prop} (h : Run P {} s) : Shallow s :=
  h.induct ⟨fun _ _ => rfl, fun _ hj => (nomatch hj)⟩ fun _ _ _ hg hs _ => hg.step hs

/-- Every number and length of the state fits its field, the tables being below 4 GiB. -/
def Sys.fits (s : Sys) : Bool :=
  decide (s.db.lastSequence ≤ kMaxSequenceNumber) && decide (s.db.nextFileNumber < 2 ^ 64) &&
    decide ((Manifest.filesOf s.db.current).length < 2 ^ 32) &&
    (s.db.current.files.all fun f => decide (f.fileSize < 2 ^ 64)) &&
    (s.lead.all fun ld =>
      (ld.entries.all fun e => decide (e.key.length + e.value.length + 16 < 2 ^ 32)) &&
      decide (12 + (WriteBatch.ofEntries ld.entries).rep.length < 2 ^ 32)) &&
    (s.jobs.all fun j => j.phase.building.all fun b => decide (b.file.length < 2 ^ 32)) &&
    s.gets.all fun c => decide (c.key.length + 8 < 2 ^ 32)

theorem Sys.fits_of_check {s : Sys} (h : s.fits = true) (hs : Shallow s) : s.Fits := by
  simp only [fits, Bool.and_eq_true, List.all_eq_true, Option.all_eq_true, decide_eq_true_eq] at h
  obtain ⟨⟨⟨⟨⟨⟨hseq, hnum⟩, hfiles⟩, hsize⟩, hlead⟩, hjobs⟩, hgets⟩ := h
  refine ⟨hseq, hnum, hfiles, fun l f hf => ?_, hlead, fun j hj b hb es he => ?_, hgets⟩
  · have hl : l < kNumLevels := by
      by_contra hc
      rw [hs.current l (not_lt.1 hc)] at hf
      cases hf
    exact hsize f (List.mem_flatMap.2 ⟨l, List.mem_range.2 hl, hf⟩)
  · refine tableFits_of_file ?_
    have hlen := hjobs j hj b hb
    rw [he] at hlen
    exact hlen

/-- A step of a run with crashes of the process but no power loss, in which every number and length
fits its field. -/
structure Crashes (s : Sys) (a : Act) (s' : Sys) : Prop where
  fits : s'.Fits
  power : a.internal ∨ a = .kill ∨ ∃ options path, a = .recover options path

def Act.powered : Act → Bool
  | powerLoss _ _ => false
  | powerLossData _ => false
  | _ => true

def Crashes.check (s : Sys) (a : Act) : Bool := a.powered && (step s a).all Sys.fits

theorem Crashes.of_check (hc : check s a = true) (hs : LsmKv.step s a = some s') (h : Shallow s) :
    Crashes s a s' := by
  rw [check, Bool.and_eq_true, Option.all_eq_true] at hc
  obtain ⟨hpower, hfits⟩ := hc
  refine ⟨Sys.fits_of_check (hfits s' hs) (h.step hs), ?_⟩
  cases a with
  | kill => exact .inr (.inl rfl)
  | recover options path => exact .inr (.inr ⟨options, path, rfl⟩)
  | powerLoss keep cut => cases hpower
  | powerLossData cut => cases hpower
  | _ => exact .inl trivial

theorem Run.of_checks_from {P : Sys → Act → Sys → Prop} {check : Sys → Act → Bool}
    (hp : ∀ s a s', check s a = true → LsmKv.step s a = some s' → Shallow s → P s a s')
    (hw : Shallow s) (h : runActs check s as = some t) : Run P s t := by
  have hrun : Run (fun s a _ => check s a = true) s t := Run.of_runActs (fun _ _ _ hc _ => hc) h
  clear h
  induction hrun with
  | refl => exact .refl
  | step h hs hc ih =>
    exact .step ih hs (hp _ _ _ hc hs (h.induct hw fun _ _ _ hg hs _ => hg.step hs))

theorem Run.of_checks {P : Sys → Act → Sys → Prop} {check : Sys → Act → Bool}
    (hp : ∀ s a s', check s a = true → LsmKv.step s a = some s' → Shallow s → P s a s')
    (h : runActs check {} as = some s) : Run P {} s :=
  Run.of_checks_from hp (Run.refl (P := P)).shallow h

/-- Whether no other job is in flight when one starts. -/
def Act.alone (s : Sys) : Act → Bool
  | startFlush => s.jobs.isEmpty
  | startCompaction _ => s.jobs.isEmpty
  | _ => true

theorem Act.alone_of_check {a : Act} {s : Sys} (h : a.alone s = true) (hj : a.startsJob) :
    s.jobs = [] := by
  cases a with
  | startFlush => exact List.isEmpty_iff.1 h
  | startCompaction level => exact List.isEmpty_iff.1 h
  | _ => cases hj

theorem Crashes.orderly (h : Crashes s a s') (hj : a.startsJob → s.jobs = []) :
    Orderly False s a s' :=
  ⟨h.fits, hj, fun _ hf => hf.elim, fun _ hf => hf.elim, h.power⟩

def Orderly.check (s : Sys) (a : Act) : Bool := a.alone s && Crashes.check s a

theorem Run.of_check (h : runActs Orderly.check {} as = some s) : Run (Orderly False) {} s := by
  refine Run.of_checks (fun s a s' hc hs hw => ?_) h
  rw [Orderly.check, Bool.and_eq_true] at hc
  exact (Crashes.of_check hc.2 hs hw).orderly (Act.alone_of_check hc.1)

section Sample

/-- The only thread makes its next `n` steps. -/
def jobActs (n : Nat) : List Act := List.replicate n (.job 0 0 [])

/-- `Open` of a new database. -/
def openActs : List Act :=
  .recover {} "db" :: .startLog :: jobActs 8 ++ .job 0 0 [.manifest, .log 1] :: jobActs 1

def putActs (key value : Bytes) : List Act :=
  [.write 0 [⟨.kValue, key, value⟩] false, .begin false, .append 0, .syncLog, .insert, .finish]

def rotateActs : List Act := [.rotate true, .rotateIo 0, .rotateIo 0, .rotateSwap]

/-- A flush; `order` is how the directory is listed when it deletes files. -/
def flushActs (order : List FileName) : List Act :=
  .startFlush :: jobActs 10 ++ .job 0 0 order :: jobActs 2

def compactActs (level : Nat) (order : List FileName) : List Act :=
  .startCompaction level :: jobActs 12 ++ .job 0 0 order :: jobActs 2

/-- `Open` after a crash, with a log to replay and one to delete. -/
def reopenActs (order order' : List FileName) : List Act :=
  .recover {} "db" :: .startFlush :: jobActs 10 ++ .job 0 0 order :: jobActs 1 ++
    .startLog :: jobActs 8 ++ .job 0 0 order' :: jobActs 2

/-- Two keys are compacted into a file each; a new version of the first one is flushed by the `Open`
after a crash, and again because that `Open` crashes as well; the next one is in the memtable. -/
def sampleActs : List Act :=
  openActs ++ putActs [97] [1] ++ rotateActs ++ flushActs [.manifest, .sst 3, .log 2, .log 1] ++
    compactActs 0 [.manifest, .sst 4, .sst 3, .log 2] ++ putActs [98] [2] ++ rotateActs ++
    flushActs [.manifest, .sst 6, .log 5, .sst 4, .log 2] ++
    compactActs 0 [.manifest, .sst 7, .log 5, .sst 6, .sst 4] ++ putActs [97] [3] ++ .kill ::
    .recover {} "db" :: .startFlush :: jobActs 10 ++ .kill ::
    reopenActs [.manifest, .sst 9, .sst 8, .sst 7, .log 5, .sst 4]
      [.manifest, .log 10, .sst 9, .sst 8, .sst 7, .log 5, .sst 4] ++
    putActs [97] [4]

set_option synthInstance.maxSize 2000 in
theorem sampleActs_run : ∃ s, runActs Orderly.check {} sampleActs = some s ∧ s.mode = .running ∧
    s.db.lastSequence = 4 ∧ (s.store.mems s.db.mem).recs.map Rec.seq = [4] ∧
    (s.db.current.levels 0).map (fun f => (f.number, f.recs.map Rec.seq)) =
      [(9, [3]), (8, [3])] ∧
    (s.db.current.levels 1).map (fun f => (f.number, f.recs.map Rec.seq)) =
      [(4, [1]), (7, [2])] ∧
    s.db.nextFileNumber = 11 ∧ (step s (.rotate true)).map (·.db.nextFileNumber) = some 12 := by
  have hrun : (runActs Orderly.check {} sampleActs).map (fun s => (s.mode, s.db.lastSequence,
      (s.store.mems s.db.mem).recs.map Rec.seq,
      (s.db.current.levels 0).map (fun f => (f.number, f.recs.map Rec.seq)),
      (s.db.current.levels 1).map (fun f => (f.number, f.recs.map Rec.seq)),
      s.db.nextFileNumber, (step s (.rotate true)).map (·.db.nextFileNumber))) =
      some (.running, 4, [4], [(9, [3]), (8, [3])], [(4, [1]), (7, [2])], 11, some 12) := by
    decide +kernel
  obtain ⟨s, hs, hres⟩ := Option.map_eq_some_iff.1 hrun
  simp only [Prod.mk.injEq] at hres
  exact ⟨s, hs, hres⟩

end Sample

end LsmKv
