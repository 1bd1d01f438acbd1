import LsmKv.JobEffects

namespace LsmKv
set_option autoImplicit true

open Wal (Group)

variable {σ : Prop} {gh : Ghost} {s s' t : Sys} {m m' : Manifest} {logs : Nat → List Group}
  {fs fs' : DbFs}

/-- What a job has forced to stable storage before it goes on. -/
def JobFirm (fs : DbFs) (j : Job) : Prop :=
  match j.phase with
  | .flushOpen n _ => j.io = [] → fs.Solid (.sst n)
  | .compactOpen _ n _ _ _ => j.io = [] → fs.Solid (.sst n)
  | .cleanup _ _ _ => j.io = [.rename .manifestTmp .manifest, .syncDir] → fs.Solid .manifestTmp
  | _ => True

/-- The manifest, the tables it names and those that are open are on stable storage. -/
structure Firm (s : Sys) : Prop where
  manifest : s.fs.Solid .manifest
  listed : ∀ n, Listed s.fs n → s.fs.Solid (.sst n)
  opened : ∀ t ∈ s.opened, s.fs.Solid (.sst t.number)
  jobs : ∀ j ∈ s.jobs, JobFirm s.fs j

theorem JobFirm.frame (h : JobFirm fs j) (ht : fs'.stat .manifestTmp = fs.stat .manifestTmp)
    (hs : ∀ n, fs'.stat (.sst n) = fs.stat (.sst n)) : JobFirm fs' j := by
  rw [JobFirm] at *
  split
  · rename_i n b hp
    rw [hp] at h
    exact fun hio => (h hio).frame (hs n)
  · rename_i n b todo outputs hp
    rw [hp] at h
    exact fun hio => (h hio).frame (hs _)
  · rename_i hp
    rw [hp] at h
    exact fun hio => (h hio).frame ht
  · trivial

theorem Sys.step_work (hs : LsmKv.step s a = some s') (ha : a.internal) (hj : ¬ a.ofJob) :
    s'.jobs = s.jobs ∧ s'.opened = s.opened ∧ s'.db.current = s.db.current := by
  by_cases hw : a.ofWriter
  · exact ⟨kept_write hs hw jobs fun _ => rfl, kept_write hs hw opened fun _ => rfl,
      kept_write hs hw (·.db.current) fun _ => rfl⟩
  · exact ⟨kept_read hs ha hw hj jobs fun _ => rfl, kept_read hs ha hw hj opened fun _ => rfl,
      kept_read hs ha hw hj (·.db.current) fun _ => rfl⟩

theorem Sound.log_of_touches (h : Sound σ gh s) (ha : ¬ a.ofJob) (ht : s.touches a name) :
    ∃ n, name = .log n := by
  cases a with
  | append n => exact ⟨_, ht⟩
  | failAppend n => exact ⟨_, ht⟩
  | syncLog => exact ⟨_, ht⟩
  | rotateIo n =>
    obtain ⟨r, hr, op, hop, hmem⟩ := ht
    by_contra hne
    exact (h.rotating r hr).log.names (fun he => hne ⟨_, he⟩) op hop hmem
  | failRotate n =>
    obtain ⟨r, hr, op, hop, hmem⟩ := ht
    by_contra hne
    exact (h.rotating r hr).log.names (fun he => hne ⟨_, he⟩) op hop hmem
  | job i n order => exact absurd trivial ha
  | failJob i n => exact absurd trivial ha
  | _ => cases ht

theorem Sound.stat_client (h : Sound σ gh s) (hs : LsmKv.step s a = some s') (ha : a.internal)
    (hj : ¬ a.ofJob) (hn : ∀ n, name ≠ .log n) : s'.fs.stat name = s.fs.stat name := by
  refine Sys.stat_step hs ha fun ht => ?_
  obtain ⟨n, he⟩ := h.log_of_touches hj ht
  exact hn n he

namespace Firm

theorem frame (h : Firm s) (hm : s'.fs.stat .manifest = s.fs.stat .manifest)
    (hs : ∀ n, s'.fs.stat (.sst n) = s.fs.stat (.sst n)) (ho : s'.opened = s.opened)
    (hj : ∀ j ∈ s'.jobs, JobFirm s'.fs j) : Firm s' where
  manifest := h.manifest.frame hm
  listed n hl := by
    refine (h.listed n ?_).frame (hs n)
    have hr : s'.fs.read .manifest = s.fs.read .manifest := by
      rw [Fs.read_eq_stat, Fs.read_eq_stat, hm]
    rw [Listed, hr] at hl
    exact hl
  opened t ht := (h.opened t (ho ▸ ht)).frame (hs _)
  jobs := hj

theorem client (h : Firm s) (hS : Sound σ gh s) (hs : LsmKv.step s a = some s') (ha : a.internal)
    (hj : ¬ a.ofJob) : Firm s' := by
  obtain ⟨hjobs, hopened, _⟩ := Sys.step_work hs ha hj
  have hsame : ∀ name, (∀ n, name ≠ .log n) → s'.fs.stat name = s.fs.stat name := fun name hne =>
    hS.stat_client hs ha hj hne
  refine h.frame (hsame _ (by simp)) (fun n => hsame _ (by simp)) hopened ?_
  intro j hmem
  rw [hjobs] at hmem
  exact (h.jobs j hmem).frame (hsame _ (by simp)) fun n => hsame _ (by simp)

theorem start (h : Firm s) (hfs : s'.fs = s.fs) (ho : s'.opened = s.opened) {j : Job}
    (hj : s'.jobs = s.jobs ++ [j] ∨ s'.jobs = [j]) (hf : JobFirm s.fs j) : Firm s' := by
  refine h.frame (by rw [hfs]) (fun n => by rw [hfs]) ho ?_
  intro k hk
  rw [hfs]
  rcases hj with hj | hj
  · rw [hj] at hk
    rcases List.mem_append.1 hk with hk | hk
    · exact h.jobs k hk
    · exact List.mem_singleton.1 hk ▸ hf
  · rw [hj] at hk
    exact List.mem_singleton.1 hk ▸ hf

theorem next_phase (h : Firm s) {j : Job} {next : Option Job} (hj : t.jobs = [j])
    (hfs : t.fs = s.fs) (hopened : ∀ b ∈ t.opened, b ∈ s.opened ∨ s.fs.Solid (.sst b.number))
    (hnext : ∀ k, next = some k → JobFirm s.fs k) :
    Firm { t with jobs := Sys.setJob t.jobs 0 next } where
  manifest := h.manifest.frame (by rw [hfs])
  listed n hl := by
    rw [Listed, hfs] at hl
    exact (h.listed n hl).frame (by rw [hfs])
  opened b hb := by
    rcases hopened b hb with hb | hb
    · exact (h.opened b hb).frame (by rw [hfs])
    · exact hb.frame (by rw [hfs])
  jobs k hk := by
    simp only [hj, Sound.setJob_singleton, Option.mem_toList] at hk
    show JobFirm t.fs k
    rw [hfs]
    exact hnext k hk

end Firm

theorem openTable_number (h : openTable dir options fs n = .ok b) : b.number = n := by
  rw [openTable] at h
  split at h
  · cases h
  · simp only [Table.openFile] at h
    split at h
    · cases h
    split at h
    · cases h
    split at h
    · cases h
    split at h
    · cases h
    split at h
    · cases h
    split at h
    · cases h
    · cases h
      rfl

theorem JobFirm.commitVersion (s : Sys) (v : Version) :
    ∀ k, (s.commitVersion v).2 = some k → JobFirm fs k := by
  intro k hk
  rw [Sys.commitVersion] at hk
  split at hk
  · cases hk
    trivial
  · cases hk
    intro hio
    cases hio

namespace Firm

theorem commit (h : Firm s) {j : Job} (hj : t.jobs = [j]) (hfs : t.fs = s.fs)
    (ho : t.opened = s.opened) (v : Version) :
    Firm { (t.commitVersion v).1 with
      jobs := Sys.setJob (t.commitVersion v).1.jobs 0 (t.commitVersion v).2 } := by
  have hkept : (t.commitVersion v).1.jobs = t.jobs ∧ (t.commitVersion v).1.opened = t.opened := by
    rw [Sys.commitVersion]
    split <;> exact ⟨rfl, rfl⟩
  refine h.next_phase (hkept.1.trans hj) ((t.commitVersion_keeps v).1.trans hfs) ?_
    (JobFirm.commitVersion t v)
  intro b hb
  rw [hkept.2, ho] at hb
  exact .inl hb

theorem job_phase (h : Firm s) (hS : Sound σ gh s) {next : Option Job} (hj : s.jobs = [⟨[], phase⟩])
    (hs : s.phaseStep order phase = some (t, next)) :
    Firm { t with jobs := Sys.setJob t.jobs 0 next } := by
  have hfirm := h.jobs _ (hj ▸ List.mem_cons_self)
  have hsame : ∀ b ∈ s.opened, b ∈ s.opened ∨ s.fs.Solid (.sst b.number) := fun _ hb => .inl hb
  cases hS.job_ok hj with
  | flushOpen hc hf hfit hn hw =>
    obtain ⟨_, rfl, _⟩ := hS.phase_flushOpen hc hf hfit hn hw.done hs
    rw [Sys.phaseStep] at hs
    split at hs
    · cases hs
    · rename_i b hopen
      cases hs
      refine h.next_phase hj rfl ?_ (fun _ hk => by cases hk; trivial)
      intro x hx
      rcases List.mem_append.1 hx with hx | hx
      · exact .inl hx
      · rw [List.mem_singleton.1 hx, openTable_number hopen]
        exact .inr (hfirm rfl)
  | flushInstall hc hf hn =>
    rw [Sys.phaseStep] at hs
    split at hs
    · obtain ⟨rfl, rfl⟩ := Prod.ext_iff.1 (Option.some.inj hs)
      exact h.commit (t := { s with db := { s.db with imm := none, immLogNumber := 0 } }) hj
        rfl rfl _
    · cases hs
  | @compactMerge c hc hcp =>
    obtain ⟨_, rfl, _⟩ := hS.phase_compactMerge hc hcp hs
    simp only [Sys.phaseStep] at hs
    generalize c.merge.run s.store = p at hs
    obtain ⟨⟨recs, status⟩, store⟩ := p
    dsimp only at hs
    split at hs <;> cases hs
    exact h.next_phase hj rfl hsame (fun _ hk => by cases hk; trivial)
  | @compactNext _ _ rest _ hc hcp hp ho hd =>
    cases rest with
    | nil =>
      rw [List.map_nil, Sys.phaseStep] at hs
      split at hs
      · obtain ⟨rfl, rfl⟩ := Prod.ext_iff.1 (Option.some.inj hs)
        exact h.commit hj rfl rfl _
      · cases hs
    | cons es rest =>
      rw [List.map_cons, Sys.phaseStep] at hs
      split at hs <;> cases hs
      refine h.next_phase hj rfl hsame ?_
      intro k hk
      cases hk
      intro hio
      cases hio
  | compactOpen hc hcp hp ho hd hfit hn hw =>
    obtain ⟨_, rfl, _⟩ := hS.phase_compactOpen hc hcp hp ho hd hfit hn hw.done hs
    rw [Sys.phaseStep] at hs
    split at hs
    · cases hs
    · rename_i b hopen
      cases hs
      refine h.next_phase hj rfl ?_ (fun _ hk => by cases hk; trivial)
      intro x hx
      rcases List.mem_append.1 hx with hx | hx
      · exact .inl hx
      · rw [List.mem_singleton.1 hx, openTable_number hopen]
        exact .inr (hfirm rfl)
  | commit hc hi hlog hio =>
    rw [Sys.phaseStep] at hs
    split at hs <;> cases hs
    exact h.next_phase hj rfl hsame (fun _ hk => by cases hk; trivial)
  | commitDone hc hi hlog hio =>
    rw [Sys.phaseStep] at hs
    split at hs <;> cases hs
    exact h.next_phase hj rfl hsame (fun _ hk => by cases hk)
  | logOpened hc hm hi hn hio =>
    cases hs
    refine h.next_phase hj rfl hsame ?_
    intro k hk
    cases hk
    intro hio
    cases hio
  | recoverCommit hc hm hi hio =>
    rw [Sys.phaseStep] at hs
    split at hs <;> cases hs
    exact h.next_phase hj rfl hsame (fun _ hk => by cases hk; trivial)
  | recovered hc hm hi hio =>
    cases hs
    exact h.next_phase hj rfl hsame (fun _ hk => by cases hk)

end Firm

section Calls
variable {io io' : List Io}

theorem Writing.solid (h : Writing fs name bytes io) (hs : ioStep n fs io = some (fs', [])) :
    fs'.Solid name := by
  rcases h with ⟨_, rfl⟩ | ⟨w, rest, _, _, rfl⟩ | ⟨_, rfl | rfl⟩
  · rcases ioStep_cases hs with ⟨_, he, _⟩ | ⟨_, _, _, he, _⟩ <;> cases he
  · rcases ioStep_cases hs with ⟨_, he, _⟩ | ⟨_, _, _, _, _, _, _, he⟩ <;> cases he
  · rcases ioStep_cases hs with ⟨_, he, rfl⟩ | ⟨_, _, _, he, _⟩
    · cases he
      exact Fs.solid_fsync fs name
    · cases he
  · cases hs

theorem Replacing.solid (h : Replacing fs bytes io) (hs : ioStep n fs io = some (fs', io'))
    (he : io' = [.rename .manifestTmp .manifest, .syncDir]) : fs'.Solid .manifestTmp := by
  subst he
  rcases h with rfl | ⟨w, rest, _, _, rfl⟩ | ⟨_, rfl | rfl⟩
  · rcases ioStep_cases hs with ⟨_, he, _⟩ | ⟨_, _, _, he, _⟩ <;> cases he
  · rcases ioStep_cases hs with ⟨_, he, _⟩ | ⟨_, _, _, _, _, _, _, he⟩ <;> cases he
  · rcases ioStep_cases hs with ⟨_, he, rfl⟩ | ⟨_, _, _, he, _⟩
    · cases he
      exact Fs.solid_fsync fs _
    · cases he
  · rcases ioStep_cases hs with ⟨_, he, _⟩ | ⟨_, _, _, he, _⟩ <;> cases he

end Calls

namespace Firm

variable {j : Job} {io : List Io}

/-- A job leaves the manifest, the tables it names and the open ones on stable storage. -/
theorem of_effect (h : Firm s) (hS : Sound σ gh s) (he : JobEffect s m s'.fs)
    (ho : s'.opened = s.opened) (hj : ∀ k ∈ s'.jobs, JobFirm s'.fs k) : Firm s' := by
  have hlisted : s'.fs.stat .manifest = s.fs.stat .manifest → ∀ n, Listed s'.fs n →
      Listed s.fs n := by
    intro hm n hn
    have hr : s'.fs.read .manifest = s.fs.read .manifest := by
      rw [Fs.read_eq_stat, Fs.read_eq_stat, hm]
    rw [Listed, ← hr]
    exact hn
  -- an unlink leaves the other files, and nothing of its own
  have hunlink : ∀ {name}, name ≠ .manifest → s'.fs = s.fs.unlink name → Firm s' := by
    intro name hm hfs
    have hne : s'.fs.stat .manifest = s.fs.stat .manifest := by
      rw [hfs, Fs.stat_unlink, if_neg hm.symm]
    have hsolid : ∀ n, s.fs.Solid n → s'.fs.Solid n := by
      intro n hn
      rw [hfs]
      by_cases he : n = name
      · exact .of_none ((s.fs.stat_unlink name n).trans (if_pos he))
      · exact hn.frame ((s.fs.stat_unlink name n).trans (if_neg he))
    exact ⟨hsolid _ h.manifest, fun n hn => hsolid _ (h.listed n (hlisted hne n hn)),
      fun b hb => hsolid _ (h.opened b (ho ▸ hb)), hj⟩
  cases he with
  | same hf => exact h.frame (hf _ (by simp)) (fun n => hf _ (by simp)) ho hj
  | table hl hn hf =>
    refine ⟨h.manifest.frame (hf _ (by simp)), fun n hn' => ?_, fun b hb => ?_, hj⟩
    · have hn' := hlisted (hf _ (by simp)) n hn'
      refine (h.listed n hn').frame (hf _ ?_)
      rintro ⟨⟩
      exact hl hn'
    · rw [ho] at hb
      exact (h.opened b hb).frame (hf _ (by simpa using hn b hb))
  | renamed hjob hst hr hc hv hlog hf =>
    refine ⟨fun f hm => ?_, fun n hn => ?_, fun b hb => ?_, hj⟩
    · have hfirm : JobFirm s.fs _ := h.jobs _ (hjob ▸ List.mem_cons_self)
      exact hfirm rfl f (hst ▸ hm)
    · obtain ⟨l, f, hfile, rfl⟩ := hc.mem_of_listed hn
      obtain ⟨R, hwf⟩ := hS.wf
      rw [hv] at hfile
      obtain ⟨b, hb, hbn⟩ := FileMetaData.number_mem hS.tables hwf hfile
      exact (hbn ▸ h.opened b hb).frame (hf _ (by simp [IsManifest]))
    · rw [ho] at hb
      exact (h.opened b hb).frame (hf _ (by simp [IsManifest]))
  | unlinkTable hl hfs => exact hunlink (by simp) hfs
  | unlinkLog hn hm hfs => exact hunlink (by simp) hfs
  | log hm hf => exact h.frame (hf _ (by simp)) (fun n => hf _ (by simp)) ho hj

theorem job_io (h : Firm s) (hS : Sound σ gh s) (hD : Disk σ gh s m logs) (hj : s.jobs = [j])
    (hio : ioStep n s.fs j.io = some (fs, io)) :
    Firm { s with fs := fs, jobs := [{ j with io := io }] } := by
  have he : JobEffect s m ({ s with fs := fs, jobs := [{ j with io := io }] } : Sys).fs :=
    hD.effect_io hS hj hio
  refine h.of_effect hS he rfl fun k hk => ?_
  rw [List.mem_singleton.1 hk]
  have hd := hD.jobs j (hj ▸ List.mem_cons_self)
  have hsync : ∀ {io' : List Io}, io' = [.syncDir] ∨ io' = [] → ioStep n s.fs io' = some (fs, io) →
      io ≠ [.rename .manifestTmp .manifest, .syncDir] := by
    rintro io' (rfl | rfl) hs heq
    · cases hs
      cases heq
    · cases hs
  cases hS.job_ok hj with
  | flushOpen hc hf hfit hn hw =>
    rintro ⟨⟩
    exact hw.solid hio
  | compactOpen hc hcp hp ho hd' hfit hn hw =>
    rintro ⟨⟩
    exact hw.solid hio
  | commit hc hi hlog hn =>
    rcases hd.2.2 with ⟨m', _, hp⟩ | hren
    · exact fun he => hp.writing.solid hio he
    · exact fun he => absurd he (hsync hren.calls hio)
  | recoverCommit hc hm hi hn =>
    rcases hd.2 with ⟨m', _, _, hp⟩ | ⟨_, hren⟩
    · exact fun he => hp.writing.solid hio he
    · exact fun he => absurd he (hsync hren.calls hio)
  | _ => trivial

theorem failJob (h : Firm s) (hS : Sound σ gh s) (hD : Disk σ gh s m logs)
    (hs : s.failJob i n = some s') : Firm s' := by
  have he : JobEffect s m s'.fs := hD.effect (a := .failJob i n) hS hs trivial
  obtain ⟨j, fs, t, hj, _, _, _, ht, rfl⟩ := Sys.failJob_cases hs
  obtain ⟨rfl, hjobs⟩ := hS.jobs_index hj
  obtain ⟨db, _, what, hfail⟩ := Sys.failPhase_cases ht
  have hkept : t.opened = s.opened ∧ t.jobs.eraseIdx 0 = [] := by
    rw [hfail, Sys.fail]
    split
    · exact ⟨rfl, rfl⟩
    · exact ⟨rfl, by simp [hjobs]⟩
  refine h.of_effect hS he hkept.1 fun k hk => ?_
  have hk' : k ∈ t.jobs.eraseIdx 0 := hk
  rw [hkept.2] at hk'
  cases hk'

theorem job (h : Firm s) (hS : Sound σ gh s) (hD : Disk σ gh s m logs)
    (hs : LsmKv.step s a = some s') (ha : a.ofJob) : Firm s' := by
  cases a with
  | startFlush =>
    obtain ⟨_, _, _, rfl⟩ := Sys.startFlush_cases hs
    exact h.start rfl rfl (.inl rfl) (fun he => by cases he)
  | startCompaction level =>
    obtain ⟨_, _, _, db, c, _, rfl⟩ := Sys.startCompaction_cases hs
    exact h.start (j := ⟨[], .compactMerge c⟩) rfl rfl (.inl rfl) trivial
  | startLog =>
    obtain ⟨_, _, _, rfl⟩ := Sys.startLog_cases hs
    exact h.start (j := ⟨openLog s.fs s.db.nextFileNumber, .logOpened s.db.nextFileNumber⟩) rfl rfl
      (.inr rfl) trivial
  | job i n order =>
    obtain ⟨j, hj, hcase⟩ := Sys.jobStep_cases hs
    obtain ⟨rfl, hjobs⟩ := hS.jobs_index hj
    rcases hcase with ⟨hio, t, next, hp, rfl⟩ | ⟨fs, io, hio, rfl⟩
    · obtain ⟨io, phase⟩ := j
      cases hio
      exact h.job_phase hS hjobs hp
    · rw [hjobs]
      exact h.job_io hS hD hjobs hio
  | failJob i n => exact h.failJob hS hD hs
  | _ => cases ha

theorem kill (h : Firm s) : Firm s.kill :=
  ⟨h.manifest, h.listed, fun _ ht => (by cases ht), fun _ hj => (by cases hj)⟩

theorem recover (h : Firm s) (hi : Idle s) (hd : OnDisk σ s.fs s.hist m logs N)
    (hs : s.recover options path = some s') : Firm s' := by
  obtain ⟨older, hrec⟩ := hd.cover.recoverable
  obtain ⟨φ, gh, hφ, hr, _⟩ := hrec.recover hi hd.ok hd.committed hd.stored options path
  cases hs.symm.trans hr
  refine ⟨h.manifest, h.listed, fun t ht => ?_, fun j hj => ?_⟩
  · obtain ⟨g, hg, rfl⟩ := List.mem_map.1 ht
    obtain ⟨l, _, hg⟩ := List.mem_flatMap.1 hg
    obtain ⟨f, hf, rfl⟩ := Version.mem_mapFiles.1 hg
    have hsame := hφ l f hf
    rw [hsame.ok.number, hsame.number]
    exact h.listed _ (hd.committed.listed hf)
  · have hj' : j ∈ s.jobs := hj
    rw [hi.jobs] at hj'
    cases hj'

theorem step (h : Firm s) (hg : Good σ s) (hs : LsmKv.step s a = some s') (ho : Orderly σ s a s') :
    Firm s' := by
  rcases hg.step_cases hs ho with ⟨hint, gh, m, logs, hS, hD⟩ | rfl | ⟨_, _, _, _, _, hr, _, hi, hd⟩
  · by_cases hj : a.ofJob
    · exact h.job hS hD hs hj
    · exact h.client hS hs hint hj
  · exact h.kill
  · exact h.recover hi hd hr

end Firm

theorem firm_new : Firm {} where
  manifest := .of_none rfl
  listed n hn := by
    obtain ⟨m, _, hr, _⟩ := hn
    cases hr
  opened t ht := by cases ht
  jobs j hj := by cases hj

end LsmKv
