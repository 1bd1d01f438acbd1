import LsmKv.Disk

namespace LsmKv
set_option autoImplicit true

/-- What a thread does to the version it finds under `mu_`. -/
inductive Edit where
  | flush (file : FileMetaData)
  | compact (c : Compaction) (outputs : List FileMetaData)

namespace Edit

/-- The thread that is about to install the edit. -/
def job : Edit → Job
  | flush file => ⟨[], .flushInstall file⟩
  | compact c outputs => ⟨[], .compactNext c [] outputs⟩

def apply (v : Version) : Edit → Version
  | flush file => v.setLevel 0 (file :: v.levels 0)
  | compact c outputs => c.install v outputs

/-- The files the edit adds, with their levels. -/
def added : Edit → List (Nat × FileMetaData)
  | flush file => [(0, file)]
  | compact c outputs => outputs.map fun f => (c.level + 1, f)

/-- The numbers of the files the edit removes. -/
def removed : Edit → List Nat
  | flush _ => []
  | compact c _ => c.inputs.map (·.number)

def touches : Edit → Nat → Prop
  | flush _, _ => False
  | compact c _, l => l = c.level ∨ l = c.level + 1

variable {e : Edit} {v : Version} {f g : FileMetaData}

theorem mem_apply (hg : g ∈ v.levels l) (hn : g.number ∉ e.removed) : g ∈ (e.apply v).levels l := by
  cases e with
  | flush file =>
    rw [apply, Version.levels_setLevel]
    split_ifs with h
    · exact List.mem_cons_of_mem _ (h ▸ hg)
    · exact hg
  | compact c outputs =>
    have hkeep : ∀ l', g ∈ v.levels l' → g ∈ c.keepFiles (v.levels l') := fun l' hl' =>
      List.mem_filter.2 ⟨hl', by simpa [removed] using hn⟩
    rw [apply, Compaction.levels_install]
    split_ifs with h1 h2
    · exact Compaction.mem_targetLevel.2 (.inl (hkeep _ (h1 ▸ hg)))
    · exact hkeep _ (h2 ▸ hg)
    · exact hg

theorem added_mem_apply (h : (l, f) ∈ e.added) : f ∈ (e.apply v).levels l := by
  cases e with
  | flush file =>
    cases List.mem_singleton.1 h
    exact List.mem_cons_self
  | compact c outputs =>
    obtain ⟨f', hf, he⟩ := List.mem_map.1 h
    cases he
    rw [apply, Compaction.levels_install, if_pos rfl]
    exact Compaction.mem_targetLevel.2 (.inr hf)

/-- A file of the new version was there before and is not a removed one, or it was added. -/
theorem of_mem_apply (h : g ∈ (e.apply v).levels l) :
    g ∈ v.levels l ∧ (e.touches l → g.number ∉ e.removed) ∨ (l, g) ∈ e.added := by
  cases e with
  | flush file =>
    rw [apply, Version.levels_setLevel] at h
    split_ifs at h with hl
    · subst hl
      rcases List.mem_cons.1 h with rfl | h
      · exact .inr (List.mem_singleton_self _)
      · exact .inl ⟨h, fun ht => ht.elim⟩
    · exact .inl ⟨h, fun ht => ht.elim⟩
  | compact c outputs =>
    have hkeep : ∀ l', g ∈ c.keepFiles (v.levels l') →
        g ∈ v.levels l' ∧ g.number ∉ (compact c outputs).removed := by
      intro l' hl'
      obtain ⟨hm, hn⟩ := List.mem_filter.1 hl'
      exact ⟨hm, by simpa [removed] using hn⟩
    rw [apply, Compaction.levels_install] at h
    split_ifs at h with h1 h2
    · subst h1
      rcases Compaction.mem_targetLevel.1 h with h | h
      · exact .inl ⟨(hkeep _ h).1, fun _ => (hkeep _ h).2⟩
      · exact .inr (List.mem_map.2 ⟨g, h, rfl⟩)
    · subst h2
      exact .inl ⟨(hkeep _ h).1, fun _ => (hkeep _ h).2⟩
    · exact .inl ⟨h, fun ht => (ht.elim h2 h1).elim⟩

end Edit

/-- Files that are added have numbers of their own, and files that are removed stand where the
compaction took them from. -/
structure EditsOk (edits : List Edit) (v : Version) : Prop where
  fresh : ∀ e ∈ edits, ∀ e' ∈ edits, ∀ p ∈ e.added, p.2.number ∉ e'.removed
  placed : ∀ e ∈ edits, ∀ l, ∀ g ∈ v.levels l, g.number ∈ e.removed → e.touches l

/-- A version with every file that the edits add and none of those they remove. -/
structure Contains (edits : List Edit) (v : Version) : Prop where
  added : ∀ e ∈ edits, ∀ p ∈ e.added, p.2 ∈ v.levels p.1
  removed : ∀ e ∈ edits, ∀ l, ∀ g ∈ v.levels l, g.number ∉ e.removed

section Edits
variable {edits past : List Edit} {v : Version}

theorem EditsOk.apply (h : EditsOk edits v) (he : e ∈ edits) : EditsOk edits (e.apply v) where
  fresh := h.fresh
  placed e' he' l g hg hn := by
    rcases Edit.of_mem_apply hg with ⟨hg, _⟩ | hadd
    · exact h.placed e' he' l g hg hn
    · exact absurd hn (h.fresh e he e' he' (l, g) hadd)

theorem EditsOk.contains_snoc (h : EditsOk edits v) (hc : Contains past v) (he : e ∈ edits)
    (hb : ∀ e' ∈ past, e' ∈ edits) : Contains (past ++ [e]) (e.apply v) where
  added e' he' p hp := by
    rcases List.mem_append.1 he' with he' | he'
    · exact Edit.mem_apply (hc.added e' he' p hp) (h.fresh e' (hb e' he') e he p hp)
    · cases List.mem_singleton.1 he'
      exact Edit.added_mem_apply hp
  removed e' he' l g hg := by
    rcases Edit.of_mem_apply hg with ⟨hg, hn⟩ | hadd
    · rcases List.mem_append.1 he' with he' | he'
      · exact hc.removed e' he' l g hg
      · cases List.mem_singleton.1 he'
        exact fun hr => hn (h.placed e he l g hg hr) hr
    · rcases List.mem_append.1 he' with he' | he'
      · exact h.fresh e he e' (hb e' he') (l, g) hadd
      · cases List.mem_singleton.1 he'
        exact h.fresh e he e he (l, g) hadd

theorem Contains.perm (h : Contains past v) (hp : past.Perm edits) : Contains edits v :=
  ⟨fun e he => h.added e (hp.mem_iff.2 he), fun e he => h.removed e (hp.mem_iff.2 he)⟩

theorem contains_nil (v : Version) : Contains [] v :=
  ⟨fun _ he => (nomatch he), fun _ he => (nomatch he)⟩

end Edits

/-- The thread inside `CommitVersion` that has set `committing_`: it writes the manifest of the
current version, and then deletes files. -/
inductive Committing (s : Sys) : Job → Prop where
  | writing {m : Manifest} (hv : m.version = s.db.current) (hio : Replacing s.fs m.encode io) :
      Committing s ⟨io, .cleanup s.db.current log .commitDone⟩
  | renamed {m : Manifest} (hv : m.version = s.db.current)
      (hr : s.fs.read .manifest = some m.encode) (hio : io = [.syncDir] ∨ io = []) :
      Committing s ⟨io, .cleanup s.db.current log .commitDone⟩
  | deleting {m : Manifest} (hv : m.version = s.db.current)
    (hr : s.fs.read .manifest = some m.encode)
      (hio : ∀ op ∈ io, .manifest ∉ op.names) : Committing s ⟨io, .commitDone⟩

/-- The manifest of the thread's commit is in place. -/
def Job.wroteManifest (j : Job) : Prop :=
  match j.phase with
  | .cleanup _ _ _ => j.io = []
  | .commitDone => True
  | _ => False

/-- The thread builds its version in its next step. -/
def Phase.builds : Phase → Bool
  | .flushInstall _ => true
  | .compactNext _ [] _ => true
  | _ => false

/-- The thread has built its version and waits for another commit to end. -/
def Phase.waits : Phase → Bool
  | .commitWait _ => true
  | _ => false

/-- The steps of threads that are past their start and do not fail, and all that clients do
meanwhile. -/
def Act.ongoing : Act → Prop
  | .startFlush => False
  | .startCompaction _ => False
  | .startLog => False
  | .failJob _ _ => False
  | .kill => False
  | .recover _ _ => False
  | .powerLoss _ _ => False
  | .powerLossData _ => False
  | _ => True

/-- No version is built while another waits to be committed. -/
def BuildsAlone (s : Sys) (a : Act) : Prop :=
  ∀ i n order, a = .job i n order → ∀ j, s.jobs[i]? = some j → j.phase.builds = true →
    ∀ k ∈ s.jobs, k.phase.waits = false

/-- Threads that are about to install their edits. -/
structure Committers (edits : List Edit) (s : Sys) : Prop where
  jobs : s.jobs = edits.map Edit.job
  committing : s.db.committing = false
  rotating : s.rotating = none
  ok : EditsOk edits s.db.current

/-- Where a thread is with its edit. -/
inductive Role where
  | pending (e : Edit)
  | waiting (e : Edit)
  | committing

namespace Role

def isWaiting : Role → Bool
  | waiting _ => true
  | _ => false

def isCommitting : Role → Bool
  | committing => true
  | _ => false

/-- The edit, unless it is part of the current version. -/
def edit? : Role → Option Edit
  | pending e => some e
  | waiting e => some e
  | committing => none

/-- A version that waits was built from the current one. -/
def Fits (s : Sys) : Role → Job → Prop
  | pending e, j => j = e.job
  | waiting e, j => j = ⟨[], .commitWait (e.apply s.db.current)⟩
  | committing, j => Committing s j

end Role

/-- Some edits are part of the current version, at most one thread is committing and at most one
waits for it, and the rest have their versions unbuilt. -/
structure Serial (edits : List Edit) (s : Sys) : Prop where
  ok : EditsOk edits s.db.current
  rotating : ∀ r, s.rotating = some r → ∀ name, IsManifest name → ∀ op ∈ r.io, name ∉ op.names
  queue : ∃ past roles, (past ++ roles.filterMap Role.edit?).Perm edits ∧
    Contains past s.db.current ∧ List.Forall₂ (Role.Fits s) roles s.jobs ∧
    roles.countP Role.isCommitting = s.db.committing.toNat ∧ roles.countP Role.isWaiting ≤ 1

section Steps
variable {edits : List Edit} {s s' : Sys} {j : Job}

theorem Committers.serial (h : Committers edits s) : Serial edits s where
  ok := h.ok
  rotating r hr := by
    rw [h.rotating] at hr
    cases hr
  queue := by
    have hedits : (edits.map Role.pending).filterMap Role.edit? = edits := by
      rw [List.filterMap_map]
      exact List.filterMap_some
    refine ⟨[], edits.map .pending, by rw [hedits]; rfl, contains_nil _, ?_, ?_, ?_⟩
    · rw [h.jobs, List.forall₂_map_left_iff, List.forall₂_map_right_iff, List.forall₂_same]
      exact fun _ _ => rfl
    · rw [h.committing, List.countP_map]
      exact List.countP_eq_zero.2 fun _ _ => Bool.false_ne_true
    · rw [List.countP_map]
      exact (List.countP_eq_zero.2 fun _ _ => Bool.false_ne_true).le.trans (Nat.zero_le 1)

/-- A step that leaves the version and the manifest alone. -/
structure Aside (s s' : Sys) : Prop where
  current : s'.db.current = s.db.current
  files : ∀ name, IsManifest name → s'.fs.read name = s.fs.read name

theorem Committing.aside (h : Committing s j) (ha : Aside s s') : Committing s' j := by
  have htmp := ha.files _ (.inr rfl)
  have hman := ha.files _ (.inl rfl)
  cases h with
  | writing hv hio =>
    rw [← ha.current]
    exact .writing (hv.trans ha.current.symm) (hio.frame htmp)
  | renamed hv hr hio =>
    rw [← ha.current]
    exact .renamed (hv.trans ha.current.symm) (hman.trans hr) hio
  | deleting hv hr hio => exact .deleting (hv.trans ha.current.symm) (hman.trans hr) hio

theorem Role.Fits.aside {r : Role} (h : r.Fits s j) (ha : Aside s s') : r.Fits s' j := by
  cases r with
  | pending e => exact h
  | waiting e =>
    rw [Fits, ha.current]
    exact h
  | committing => exact Committing.aside h ha

theorem Serial.aside (h : Serial edits s) (ha : Aside s s')
    (hc : s'.db.committing = s.db.committing) (hj : s'.jobs = s.jobs)
    (hr : ∀ r, s'.rotating = some r → ∀ name, IsManifest name → ∀ op ∈ r.io, name ∉ op.names) :
    Serial edits s' where
  ok := ha.current ▸ h.ok
  rotating := hr
  queue := by
    obtain ⟨past, roles, hp, hcont, hfits, hcount⟩ := h.queue
    refine ⟨past, roles, hp, ha.current ▸ hcont, ?_, hc ▸ hcount⟩
    rw [hj]
    exact hfits.imp fun _ _ hf => hf.aside ha

theorem IsManifest.ne_log (h : IsManifest name) : name ≠ .log n := by
  rcases h with rfl | rfl
  · exact FileName.noConfusion
  · exact FileName.noConfusion

theorem read_append_log (fs : DbFs) (bytes : Bytes) (h : IsManifest name) :
    (fs.append (.log n) bytes).read name = fs.read name := by
  rw [Fs.read_append, if_neg h.ne_log]

theorem names_openLog (fs : DbFs) (n : Nat) (h : IsManifest name) :
    ∀ op ∈ openLog fs n, name ∉ op.names := by
  have hne : name ≠ .log n := h.ne_log
  unfold openLog
  split_ifs
  · simp [Io.names, hne]
  · simp [Io.names, hne]

/-- What clients do leaves the commits alone. -/
theorem Serial.client (h : Serial edits s) (hs : step s a = some s') (ho : a.ongoing)
    (hj : ∀ i n order, a ≠ .job i n order) : Serial edits s' := by
  cases a with
  | write id entries sync =>
    obtain ⟨_, _, _, rfl⟩ := Sys.write_cases hs
    exact h.aside ⟨rfl, fun _ _ => rfl⟩ rfl rfl h.rotating
  | rotate byFlush =>
    obtain ⟨_, _, _, _, _, rfl⟩ := Sys.rotate_cases hs
    refine h.aside ⟨rfl, fun _ _ => rfl⟩ rfl rfl fun r hr name hn => ?_
    cases hr
    exact names_openLog s.fs _ hn
  | rotateIo n =>
    obtain ⟨r, fs, io, hr, hio, rfl⟩ := Sys.rotateIo_cases hs
    refine h.aside ⟨rfl, fun name hn => read_ioStep hio (h.rotating r hr name hn)⟩ rfl rfl ?_
    intro r' hr' name hn
    cases hr'
    exact ioStep_names hio (h.rotating r hr name hn)
  | rotateSwap =>
    obtain ⟨r, _, _, _, rfl⟩ := Sys.rotateSwap_cases hs
    exact h.aside ⟨rfl, fun _ _ => rfl⟩ rfl rfl fun _ hr => (nomatch hr)
  | begin elapsed =>
    obtain ⟨_, _, _, w, ws, _, ⟨_, rfl⟩ | ⟨_, rfl⟩⟩ := Sys.begin_cases hs
    · exact h.aside ⟨rfl, fun _ _ => rfl⟩ rfl rfl h.rotating
    · exact h.aside ⟨rfl, fun _ _ => rfl⟩ rfl rfl h.rotating
  | append n =>
    obtain ⟨ld, _, _, ⟨_, _, rfl⟩ | ⟨_, rfl⟩⟩ := Sys.append_cases hs
    · exact h.aside ⟨rfl, fun _ hn => read_append_log _ _ hn⟩ rfl rfl h.rotating
    · exact h.aside ⟨rfl, fun _ hn => read_append_log _ _ hn⟩ rfl rfl h.rotating
  | syncLog =>
    obtain ⟨_, _, _, _, rfl⟩ := Sys.syncLog_cases hs
    exact h.aside ⟨rfl, fun _ _ => Fs.read_fsync _ _ _⟩ rfl rfl h.rotating
  | insert =>
    obtain ⟨_, _, _, _, _, _, _, rfl⟩ := Sys.insert_cases hs
    exact h.aside ⟨rfl, fun _ _ => rfl⟩ rfl rfl h.rotating
  | finish =>
    obtain ⟨_, _, _, _, _, _, _, rfl⟩ := Sys.finish_cases hs
    exact h.aside ⟨rfl, fun _ _ => rfl⟩ rfl rfl h.rotating
  | getSnapshot =>
    obtain ⟨_, _, rfl⟩ := Sys.getSnapshot_cases hs
    exact h.aside ⟨rfl, fun _ _ => rfl⟩ rfl rfl h.rotating
  | releaseSnapshot handle =>
    obtain ⟨_, _, rfl⟩ := Sys.releaseSnapshot_cases hs
    exact h.aside ⟨rfl, fun _ _ => rfl⟩ rfl rfl h.rotating
  | getBegin id key snapshot =>
    obtain ⟨_, _, _, _, _, rfl⟩ := Sys.getBegin_cases hs
    exact h.aside ⟨rfl, fun _ _ => rfl⟩ rfl rfl h.rotating
  | getEnd id =>
    obtain ⟨_, _, _, rfl⟩ := Sys.getEnd_cases hs
    exact h.aside ⟨rfl, fun _ _ => rfl⟩ rfl rfl h.rotating
  | newIterator id snapshot =>
    obtain ⟨_, _, _, _, rfl⟩ := Sys.newIterator_cases hs
    exact h.aside ⟨rfl, fun _ _ => rfl⟩ rfl rfl h.rotating
  | seekToFirst id =>
    have hm : s.moveScan id true DBIter.seekToFirst = some s' := hs
    obtain ⟨_, _, _, rfl⟩ := Sys.moveScan_cases hm
    exact h.aside ⟨rfl, fun _ _ => rfl⟩ rfl rfl h.rotating
  | seek id target =>
    have hm : s.moveScan id true (DBIter.seek · target) = some s' := hs
    obtain ⟨_, _, _, rfl⟩ := Sys.moveScan_cases hm
    exact h.aside ⟨rfl, fun _ _ => rfl⟩ rfl rfl h.rotating
  | next id =>
    obtain ⟨_, _, _, _, hm⟩ := Sys.next_cases hs
    obtain ⟨_, _, _, rfl⟩ := Sys.moveScan_cases hm
    exact h.aside ⟨rfl, fun _ _ => rfl⟩ rfl rfl h.rotating
  | failAppend n =>
    obtain ⟨_, _, _, _, rfl⟩ := Sys.failAppend_cases hs
    exact h.aside ⟨rfl, fun _ hn => read_append_log _ _ hn⟩ rfl rfl h.rotating
  | failSync =>
    obtain ⟨_, _, _, _, _, rfl⟩ := Sys.failSync_cases hs
    exact h.aside ⟨rfl, fun _ _ => rfl⟩ rfl rfl h.rotating
  | failRotate n =>
    obtain ⟨r, fs, hr, hio, rfl⟩ := Sys.failRotate_cases hs
    refine h.aside ⟨rfl, fun name hn => read_failIo hio (h.rotating r hr name hn)⟩ rfl rfl ?_
    exact fun _ hr => (nomatch hr)
  | job i n order => exact absurd rfl (hj i n order)
  | startFlush => exact ho.elim
  | startCompaction level => exact ho.elim
  | startLog => exact ho.elim
  | failJob i n => exact ho.elim
  | kill => exact ho.elim
  | recover options path => exact ho.elim
  | powerLoss keep cut => exact ho.elim
  | powerLossData cut => exact ho.elim

theorem Edit.phaseStep (e : Edit) (hc : s.db.committing = false)
    (hs : s.phaseStep order e.job.phase = some (t, next)) :
    ∃ j, next = some j ∧ t.jobs = s.jobs ∧ t.rotating = s.rotating ∧
      t.db.current = e.apply s.db.current ∧ t.db.committing = true ∧ Committing t j := by
  cases e with
  | flush file =>
    simp only [job, Sys.phaseStep, Sys.commitVersion, hc] at hs
    split at hs
    · cases hs
      exact ⟨_, rfl, rfl, rfl, rfl, rfl, .writing rfl (replacing_writeManifest _ _)⟩
    · cases hs
  | compact c outputs =>
    simp only [job, Sys.phaseStep, Sys.commitVersion, hc] at hs
    split at hs
    · cases hs
      exact ⟨_, rfl, rfl, rfl, rfl, rfl, .writing rfl (replacing_writeManifest _ _)⟩
    · cases hs

theorem Edit.phaseStep_wait (e : Edit) (hc : s.db.committing = true)
    (hs : s.phaseStep order e.job.phase = some (t, next)) :
    next = some ⟨[], .commitWait (e.apply s.db.current)⟩ ∧ t.jobs = s.jobs ∧
      t.rotating = s.rotating ∧ t.db.committing = true ∧ Aside s t := by
  cases e with
  | flush file =>
    simp only [job, Sys.phaseStep, Sys.commitVersion, hc] at hs
    split at hs
    · cases hs
      exact ⟨rfl, rfl, rfl, rfl, rfl, fun _ _ => rfl⟩
    · cases hs
  | compact c outputs =>
    simp only [job, Sys.phaseStep, Sys.commitVersion, hc] at hs
    split at hs
    · cases hs
      exact ⟨rfl, rfl, rfl, hc, rfl, fun _ _ => rfl⟩
    · cases hs

theorem phaseStep_commitWait (hs : s.phaseStep order (.commitWait v) = some (t, next)) :
    s.db.committing = false ∧ ∃ j, next = some j ∧ t.jobs = s.jobs ∧ t.rotating = s.rotating ∧
      t.db.current = v ∧ t.db.committing = true ∧ Committing t j := by
  rw [Sys.phaseStep, Option.ite_none_right_eq_some] at hs
  obtain ⟨⟨-, hc⟩, hs⟩ := hs
  cases hs
  exact ⟨hc, _, rfl, rfl, rfl, rfl, rfl, .writing rfl (replacing_writeManifest _ _)⟩

theorem Edit.job_builds (e : Edit) : e.job.phase.builds = true := by
  cases e <;> rfl

theorem Edit.job_io (e : Edit) : e.job.io = [] := by
  cases e <;> rfl

theorem Committing.io_step (h : Committing s ⟨io, ph⟩) (hs : ioStep n s.fs io = some (fs, io')) :
    Committing { s with fs := fs, jobs := jobs } ⟨io', ph⟩ := by
  cases h with
  | writing hv hio =>
    rcases hio.step hs with ⟨hio, _⟩ | ⟨rfl, hr⟩
    · exact .writing hv hio
    · exact .renamed hv hr (.inl rfl)
  | renamed hv hr hio =>
    rcases hio with rfl | rfl
    · cases hs
      exact .renamed hv hr (.inr rfl)
    · cases hs
  | deleting hv hr hio =>
    exact .deleting hv ((read_ioStep hs hio).trans hr) (ioStep_names hs hio)

theorem Committing.phase_step (h : Committing s ⟨[], ph⟩)
    (hs : s.phaseStep order ph = some (t, next)) :
    (∃ j, next = some j ∧ t = s ∧ Committing s j) ∨
      next = none ∧ t = { s with db := { s.db with committing := false } } := by
  cases h with
  | writing hv hio => simp [Replacing] at hio
  | renamed hv hr hio =>
    rw [Sys.phaseStep] at hs
    split at hs
    · cases hs
      refine .inl ⟨_, rfl, rfl, .deleting hv hr fun op ho => ?_⟩
      obtain ⟨name, rfl, hobs⟩ := mem_isObsolete ho
      rw [Io.names, List.mem_singleton]
      rintro rfl
      cases hobs
    · cases hs
  | deleting hv hr hio =>
    rw [Sys.phaseStep] at hs
    split at hs
    · cases hs
      exact .inr ⟨rfl, rfl⟩
    · cases hs

theorem Committing.manifest (h : Committing s j) (hw : j.wroteManifest) :
    ∃ m : Manifest, s.fs.read .manifest = some m.encode ∧ m.version = s.db.current := by
  cases h with
  | writing hv hio =>
    obtain rfl : _ = [] := hw
    simp [Replacing] at hio
  | renamed hv hr hio => exact ⟨_, hr, hv⟩
  | deleting hv hr hio => exact ⟨_, hr, hv⟩

theorem Committing.jobs (h : Committing s j) (jobs : List Job) :
    Committing { s with jobs := jobs } j := h.aside ⟨rfl, fun _ _ => rfl⟩

theorem exists_split {R : α → β → Prop} {l : List α} {m : List β} (h : List.Forall₂ R l m)
    (hy : m[i]? = some y) : ∃ a x b a' b', l = a ++ x :: b ∧ m = a' ++ y :: b' ∧ a'.length = i ∧
      List.Forall₂ R a a' ∧ R x y ∧ List.Forall₂ R b b' := by
  induction h generalizing i with
  | nil => cases hy
  | @cons x z l m hxz h ih =>
    cases i with
    | zero =>
      cases hy
      exact ⟨[], x, l, [], m, rfl, rfl, rfl, .nil, hxz, h⟩
    | succ i =>
      obtain ⟨a, x', b, a', b', rfl, rfl, rfl, ha, hx, hb⟩ := ih hy
      exact ⟨x :: a, x', b, z :: a', b', rfl, rfl, rfl, .cons hxz ha, hx, hb⟩

theorem set_middle (a : List Job) (j j' : Job) (b : List Job) :
    Sys.setJob (a ++ j :: b) a.length (some j') = a ++ j' :: b := by
  rw [Sys.setJob, List.set_append_right _ _ le_rfl, Nat.sub_self, List.set_cons_zero]

theorem erase_middle (a : List Job) (j : Job) (b : List Job) :
    Sys.setJob (a ++ j :: b) a.length none = a ++ b := by
  rw [Sys.setJob, List.eraseIdx_append_of_length_le le_rfl, Nat.sub_self, List.eraseIdx_cons_zero]

section Roles
variable {r : Role} {a b roles : List Role} {a' b' : List Job} {past : List Edit}

theorem Role.Fits.current (h : r.Fits s j) (hr : r.isCommitting = false)
    (hc : s'.db.current = s.db.current) : r.Fits s' j := by
  cases r with
  | pending e => exact h
  | waiting e =>
    rw [Fits, hc]
    exact h
  | committing => cases hr

theorem fits_pending (h : List.Forall₂ (Role.Fits s) roles jobs)
    (hc : roles.countP Role.isCommitting = 0) (hw : roles.countP Role.isWaiting = 0) :
    List.Forall₂ (Role.Fits s') roles jobs := by
  induction h with
  | nil => exact .nil
  | @cons r j roles jobs hr _ ih =>
    rw [List.countP_cons] at hc hw
    refine .cons ?_ (ih (by omega) (by omega))
    cases r with
    | pending e => exact hr
    | waiting e => simp [Role.isWaiting] at hw
    | committing => simp [Role.isCommitting] at hc

theorem fits_current (h : List.Forall₂ (Role.Fits s) roles jobs)
    (hc : roles.countP Role.isCommitting = 0) (hcur : s'.db.current = s.db.current) :
    List.Forall₂ (Role.Fits s') roles jobs := by
  induction h with
  | nil => exact .nil
  | @cons r j roles jobs hr _ ih =>
    rw [List.countP_cons] at hc
    refine .cons (hr.current ?_ hcur) (ih (by omega))
    cases hr' : r.isCommitting with
    | false => rfl
    | true => simp [hr'] at hc

theorem countP_isWaiting (h : List.Forall₂ (Role.Fits s) roles jobs)
    (hw : ∀ k ∈ jobs, k.phase.waits = false) : roles.countP Role.isWaiting = 0 := by
  induction h with
  | nil => rfl
  | @cons r j roles jobs hr _ ih =>
    rw [List.countP_cons, ih fun k hk => hw k (List.mem_cons_of_mem j hk)]
    cases r with
    | pending e => rfl
    | waiting e =>
      have := hw j List.mem_cons_self
      rw [show j = _ from hr] at this
      cases this
    | committing => rfl

/-- A version that was built from the current one becomes current. -/
theorem Serial.commit (h : Serial edits s)
    (hperm : (past ++ (a ++ r :: b).filterMap Role.edit?).Perm edits)
    (hcont : Contains past s.db.current) (hr : r.edit? = some e)
    (ha : List.Forall₂ (Role.Fits s) a a') (hb : List.Forall₂ (Role.Fits s) b b')
    (hc : a.countP Role.isCommitting + b.countP Role.isCommitting = 0)
    (hw : a.countP Role.isWaiting + b.countP Role.isWaiting = 0)
    (hjobs : t.jobs = a' ++ j :: b') (hrot : t.rotating = s.rotating)
    (hcur : t.db.current = e.apply s.db.current) (hcom : t.db.committing = true)
    (hj : Committing t j) : Serial edits t := by
  rw [List.filterMap_append, List.filterMap_cons_some hr] at hperm
  have hsub : ∀ e' ∈ past ++ (a.filterMap Role.edit? ++ e :: b.filterMap Role.edit?), e' ∈ edits :=
    fun e' he' => hperm.subset he'
  have he : e ∈ edits := hsub e (by simp)
  refine ⟨hcur ▸ h.ok.apply he, hrot ▸ h.rotating, past ++ [e], a ++ .committing :: b, ?_, ?_, ?_,
    ?_, ?_⟩
  · refine List.Perm.trans ?_ hperm
    rw [List.filterMap_append, List.filterMap_cons_none rfl, List.append_assoc,
      List.singleton_append]
    exact List.Perm.append_left _ List.perm_middle.symm
  · exact hcur ▸ h.ok.contains_snoc hcont he fun e' he' => hsub e' (List.mem_append_left _ he')
  · rw [hjobs]
    exact List.rel_append (fits_pending ha (by omega) (by omega))
      (.cons hj (fits_pending hb (by omega) (by omega)))
  · rw [hcom, List.countP_append, List.countP_cons]
    simp only [Role.isCommitting, Bool.toNat_true, if_true]
    omega
  · rw [List.countP_append, List.countP_cons]
    simp only [Role.isWaiting, Bool.false_eq_true, if_false]
    omega

theorem Serial.job (h : Serial edits s) (hs : s.jobStep i n order = some s')
    (hbuild : ∀ j, s.jobs[i]? = some j → j.phase.builds = true →
      ∀ k ∈ s.jobs, k.phase.waits = false) : Serial edits s' := by
  obtain ⟨j, hj, hcase⟩ := Sys.jobStep_cases hs
  obtain ⟨past, roles, hperm, hcont, hfits, hone, hwait⟩ := h.queue
  obtain ⟨a, r, b, a', b', rfl, hjobs, rfl, ha, hr, hb⟩ := exists_split hfits hj
  rw [List.countP_append, List.countP_cons] at hone hwait
  cases r with
  | pending e =>
    obtain rfl : j = e.job := hr
    rcases hcase with ⟨-, t, next, hp, rfl⟩ | ⟨fs, io, hio, -⟩
    · have hnone := countP_isWaiting hfits (hbuild _ hj e.job_builds)
      rw [List.countP_append, List.countP_cons] at hnone
      simp only [Role.isCommitting, Role.isWaiting, Bool.false_eq_true, if_false] at hone hnone
      cases hc : s.db.committing with
      | false =>
        rw [hc, Bool.toNat_false] at hone
        obtain ⟨jn, rfl, htj, htr, htc, hcom, hjn⟩ := e.phaseStep hc hp
        refine h.commit hperm hcont rfl ha hb (by omega) (by omega) ?_ htr htc hcom (hjn.jobs _)
        rw [htj, hjobs]
        exact set_middle ..
      | true =>
        obtain ⟨rfl, htj, htr, hcom, haside⟩ := e.phaseStep_wait hc hp
        refine ⟨haside.current ▸ h.ok, htr ▸ h.rotating, past, a ++ .waiting e :: b, ?_,
          haside.current ▸ hcont, ?_, ?_, ?_⟩
        · rw [List.filterMap_append] at hperm ⊢
          exact hperm
        · rw [htj, hjobs, set_middle]
          refine List.rel_append (ha.imp fun _ _ hf => hf.aside ⟨haside.current, haside.files⟩)
            (.cons ?_ (hb.imp fun _ _ hf => hf.aside ⟨haside.current, haside.files⟩))
          exact congrArg (fun v => Job.mk [] (.commitWait (e.apply v))) haside.current.symm
        · rw [List.countP_append, List.countP_cons]
          simpa [Role.isCommitting, hcom, hc] using hone
        · rw [List.countP_append, List.countP_cons]
          simp only [Role.isWaiting, if_true]
          omega
    · rw [Edit.job_io] at hio
      cases hio
  | waiting e =>
    obtain rfl : j = ⟨[], .commitWait (e.apply s.db.current)⟩ := hr
    rcases hcase with ⟨-, t, next, hp, rfl⟩ | ⟨fs, io, hio, -⟩
    · obtain ⟨hc, jn, rfl, htj, htr, htc, hcom, hjn⟩ := phaseStep_commitWait hp
      simp only [Role.isCommitting, Role.isWaiting, hc, Bool.toNat_false, Bool.false_eq_true,
        if_false, if_true] at hone hwait
      refine h.commit hperm hcont rfl ha hb (by omega) (by omega) ?_ htr htc hcom (hjn.jobs _)
      rw [htj, hjobs]
      exact set_middle ..
    · cases hio
  | committing =>
    simp only [Role.isCommitting, Role.isWaiting, Bool.false_eq_true, if_false, if_true]
      at hone hwait
    have hle : s.db.committing.toNat ≤ 1 := Bool.toNat_le _
    have hca : a.countP Role.isCommitting = 0 := by omega
    have hcb : b.countP Role.isCommitting = 0 := by omega
    rw [List.filterMap_append, List.filterMap_cons_none rfl, ← List.filterMap_append] at hperm
    -- the thread goes on as `jn`, in a state with the same version
    have hgo : ∀ {t : Sys} {jn}, t.db = s.db → t.rotating = s.rotating → Committing t jn →
        t.jobs = a' ++ jn :: b' → Serial edits t := by
      intro t jn hdb hrot hjn htj
      refine ⟨hdb ▸ h.ok, hrot ▸ h.rotating, past, a ++ .committing :: b, ?_,
        hdb ▸ hcont, ?_, ?_, ?_⟩
      · rwa [List.filterMap_append, List.filterMap_cons_none rfl, ← List.filterMap_append]
      · rw [htj]
        exact List.rel_append (fits_current ha hca (by rw [hdb]))
          (.cons hjn (fits_current hb hcb (by rw [hdb])))
      · rw [hdb, List.countP_append, List.countP_cons]
        simpa [Role.isCommitting] using hone
      · rw [List.countP_append, List.countP_cons]
        simpa [Role.isWaiting] using hwait
    obtain ⟨io, ph⟩ := j
    rcases hcase with ⟨hnil, t, next, hp, rfl⟩ | ⟨fs, io', hio, rfl⟩
    · obtain rfl : io = [] := hnil
      rcases Committing.phase_step hr hp with ⟨jn, rfl, rfl, hjn⟩ | ⟨rfl, rfl⟩
      · refine hgo rfl rfl (hjn.jobs _) ?_
        rw [hjobs]
        exact set_middle ..
      · refine ⟨h.ok, h.rotating, past, a ++ b, hperm, hcont, ?_, ?_, ?_⟩
        · rw [hjobs, erase_middle]
          refine List.rel_append ?_ ?_
          · exact fits_current ha hca rfl
          · exact fits_current hb hcb rfl
        · rw [List.countP_append, hca, hcb]
          rfl
        · rw [List.countP_append]
          exact hwait
    · refine hgo rfl rfl (Committing.io_step hr hio) ?_
      rw [hjobs]
      exact set_middle ..

end Roles

end Steps

/-- Where no version is built while another waits, no commit is lost: once all threads are done the
current version has all their files, and at any time the manifest a thread has written is that of
the current version. -/
theorem commits_kept {edits : List Edit} {s₀ s : Sys} (h₀ : Committers edits s₀)
    (h : Run (fun s a _ => a.ongoing ∧ BuildsAlone s a) s₀ s) :
    (s.jobs = [] → Contains edits s.db.current) ∧
      ∀ j ∈ s.jobs, j.wroteManifest →
        ∃ m : Manifest, s.fs.read .manifest = some m.encode ∧ m.version = s.db.current := by
  have hserial : Serial edits s := by
    refine h.induct h₀.serial fun s a s' hs hstep hp => ?_
    obtain ⟨ho, hb⟩ := hp
    by_cases hj : ∃ i n order, a = .job i n order
    · obtain ⟨i, n, order, rfl⟩ := hj
      exact hs.job hstep fun j hj hbuilds => hb i n order rfl j hj hbuilds
    · exact hs.client hstep ho fun i n order ha => hj ⟨i, n, order, ha⟩
  obtain ⟨past, roles, hperm, hcont, hfits, -, -⟩ := hserial.queue
  constructor
  · intro hnil
    rw [hnil, List.forall₂_nil_right_iff] at hfits
    rw [hfits, List.filterMap_nil, List.append_nil] at hperm
    exact hcont.perm hperm
  · intro j hj hw
    obtain ⟨i, hi⟩ := List.mem_iff_getElem?.1 hj
    obtain ⟨-, r, -, -, -, -, -, -, -, hr, -⟩ := exists_split hfits hi
    cases r with
    | pending e =>
      obtain rfl : j = e.job := hr
      cases e <;> exact absurd hw id
    | waiting e =>
      obtain rfl : j = _ := hr
      exact absurd hw id
    | committing => exact Committing.manifest hr hw

section Flushes

def numberedFlush (n : Nat) : Edit :=
  .flush ⟨n, 0, [], [], ⟨"", [], n, true, [], []⟩⟩

/-- A running process in which one thread for each number is about to install its file. -/
def installing (ns : List Nat) : Sys where
  mode := .running
  jobs := (ns.map numberedFlush).map Edit.job

theorem committers_installing (ns : List Nat) :
    Committers (ns.map numberedFlush) (installing ns) where
  jobs := rfl
  committing := rfl
  rotating := rfl
  ok := by
    have hremoved : ∀ e ∈ ns.map numberedFlush, e.removed = [] := by
      intro e he
      obtain ⟨n, _, rfl⟩ := List.mem_map.1 he
      rfl
    constructor
    · intro e _ e' he' p _
      rw [hremoved e' he']
      exact List.not_mem_nil
    · intro e he l g hg
      cases hg

/-- What the thread at the front does to write its manifest and end its commit. -/
def writeActs : List Act := List.replicate 5 (.job 0 0 []) ++ [.job 0 0 [.manifest], .job 0 0 []]

def jobAct (_ : Sys) : Act → Bool
  | .job _ _ _ => true
  | _ => false

def jobActAlone (s : Sys) : Act → Bool
  | .job i _ _ => (s.jobs[i]?).all fun j =>
      !j.phase.builds || s.jobs.all fun k => !k.phase.waits
  | _ => false

/-- Two threads, of which the second builds its version while the first one commits. -/
theorem commits_kept_two :
    ∃ s, Run (fun s a _ => a.ongoing ∧ BuildsAlone s a) (installing [1, 2]) s ∧
    s.jobs = [] ∧ Contains [numberedFlush 1, numberedFlush 2] s.db.current := by
  have hacts : (runActs jobActAlone (installing [1, 2])
      (.job 0 0 [] :: .job 1 0 [] :: writeActs ++ .job 0 0 [] :: writeActs)).map (·.jobs.length) =
        some 0 := rfl
  obtain ⟨s, hs, hlen⟩ := Option.map_eq_some_iff.1 hacts
  have hrun : Run (fun s a _ => a.ongoing ∧ BuildsAlone s a) (installing [1, 2]) s := by
    refine Run.of_runActs (fun s a s' hp _ => ?_) hs
    cases a with
    | job i n order =>
      refine ⟨trivial, fun i' n' order' ha j hj hb => ?_⟩
      cases ha
      simpa [jobActAlone, hj, hb] using hp
    | _ => cases hp
  have hnil := List.length_eq_zero_iff.1 hlen
  exact ⟨s, hrun, hnil, (commits_kept (committers_installing [1, 2]) hrun).1 hnil⟩

/-- Three threads, of which two build their versions while the first one commits: the version of
the third does not have the file of the second. -/
theorem commit_lost : ¬ ∀ edits s₀ s, Committers edits s₀ → Run (fun _ a _ => a.ongoing) s₀ s →
    s.jobs = [] → Contains edits s.db.current := by
  intro hall
  have hacts : (runActs jobAct (installing [1, 2, 3])
      (.job 0 0 [] :: .job 1 0 [] :: .job 2 0 [] :: writeActs ++ .job 0 0 [] :: writeActs ++
        .job 0 0 [] :: writeActs)).map
      (fun s => (s.jobs.length, (s.db.current.levels 0).map (·.number))) = some (0, [3, 1]) := rfl
  obtain ⟨s, hs, hres⟩ := Option.map_eq_some_iff.1 hacts
  obtain ⟨hlen, hnumbers⟩ := Prod.mk.inj hres
  have hrun : Run (fun _ a _ => a.ongoing) (installing [1, 2, 3]) s := by
    refine Run.of_runActs (fun s a s' hp _ => ?_) hs
    cases a with
    | job i n order => trivial
    | _ => cases hp
  have hc := hall _ _ s (committers_installing [1, 2, 3]) hrun (List.length_eq_zero_iff.1 hlen)
  have hmem := hc.added (numberedFlush 2) (by simp) _ (List.mem_singleton_self _)
  have hnum : 2 ∈ (s.db.current.levels 0).map (·.number) := List.mem_map.2 ⟨_, hmem, rfl⟩
  rw [hnumbers] at hnum
  simp at hnum

end Flushes

end LsmKv
