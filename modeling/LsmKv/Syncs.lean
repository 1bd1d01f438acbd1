import LsmKv.Firm
import LsmKv.LogBytes

namespace LsmKv
set_option autoImplicit true

open Wal (Group)

variable {σ : Prop} {gh : Ghost} {s s' t : Sys} {m : Manifest} {logs : Nat → List Group} {fs : DbFs}

theorem JobEffect.log_stat (h : JobEffect s m fs) (hm : s.mode = .running) (n : Nat) :
    fs.stat (.log n) = s.fs.stat (.log n) ∨
      fs.stat (.log n) = none ∧ n < m.logNumber ∧ m.logNumber ≤ s.db.logNumber := by
  cases h with
  | same hf => exact .inl (hf _ (by simp))
  | table _ _ hf => exact .inl (hf _ (by simp))
  | renamed _ _ _ _ _ _ hf => exact .inl (hf _ (by simp [IsManifest]))
  | unlinkTable _ hfs =>
    rw [hfs, Fs.stat_unlink]
    exact .inl (if_neg (by simp))
  | @unlinkLog k hk hle hfs =>
    rw [hfs, Fs.stat_unlink]
    by_cases hn : n = k
    · subst hn
      exact .inr ⟨if_pos rfl, hk, hle⟩
    · exact .inl (if_neg (by simpa using hn))
  | log ho _ =>
    rw [hm] at ho
    cases ho

theorem JobEffect.log_kept (h : JobEffect s m fs) (hm : s.mode = .running) :
    fs.stat (.log s.db.logNumber) = s.fs.stat (.log s.db.logNumber) := by
  rcases h.log_stat hm s.db.logNumber with hf | ⟨_, hlt, hle⟩
  · exact hf
  · omega

/-- The log is switched and `Recover` ends in one phase each; an error may close the database. -/
theorem Sys.phaseStep_same {next : Option Job} (hs : s.phaseStep order phase = some (t, next)) :
    (t.db.logNumber = s.db.logNumber ∨ ∃ n, phase = .logOpened n) ∧
      (t.mode = s.mode ∨ t.mode = .closed ∨ phase = .recovered) := by
  have hfail : ∀ (u : Sys) status, u.mode = s.mode → u.db.logNumber = s.db.logNumber →
      ((u.fail status).db.logNumber = s.db.logNumber ∨ ∃ n, phase = .logOpened n) ∧
        ((u.fail status).mode = s.mode ∨ (u.fail status).mode = .closed ∨ phase = .recovered) := by
    intro u status hm hn
    rw [fail]
    split
    · exact ⟨.inl hn, .inr (.inl rfl)⟩
    · exact ⟨.inl hn, .inl hm⟩
  have hcommit : ∀ (u : Sys) v, u.mode = s.mode → u.db.logNumber = s.db.logNumber →
      ((u.commitVersion v).1.db.logNumber = s.db.logNumber ∨ ∃ n, phase = .logOpened n) ∧
        ((u.commitVersion v).1.mode = s.mode ∨ (u.commitVersion v).1.mode = .closed ∨
          phase = .recovered) := by
    intro u v hm hn
    rw [commitVersion]
    split <;> exact ⟨.inl hn, .inl hm⟩
  cases phase with
  | flushOpen n b =>
    rw [phaseStep] at hs
    split at hs <;> cases hs
    · exact hfail s _ rfl rfl
    · exact ⟨.inl rfl, .inl rfl⟩
  | flushInstall f =>
    rw [phaseStep] at hs
    split at hs
    · obtain ⟨rfl, _⟩ := Prod.ext_iff.1 (Option.some.inj hs)
      exact hcommit _ _ rfl rfl
    · cases hs
  | compactMerge c =>
    simp only [phaseStep] at hs
    generalize c.merge.run s.store = p at hs
    obtain ⟨⟨recs, status⟩, store⟩ := p
    dsimp only at hs
    split at hs <;> cases hs
    · exact ⟨.inl rfl, .inl rfl⟩
    · exact hfail _ _ rfl rfl
  | compactNext c todo outputs =>
    cases todo with
    | nil =>
      rw [phaseStep] at hs
      split at hs
      · obtain ⟨rfl, _⟩ := Prod.ext_iff.1 (Option.some.inj hs)
        exact hcommit s _ rfl rfl
      · cases hs
    | cons b todo =>
      rw [phaseStep] at hs
      split at hs <;> cases hs
      exact ⟨.inl rfl, .inl rfl⟩
  | compactOpen c n b todo outputs =>
    rw [phaseStep] at hs
    split at hs <;> cases hs
    · exact hfail s _ rfl rfl
    · exact ⟨.inl rfl, .inl rfl⟩
  | commitWait v =>
    rw [phaseStep] at hs
    split at hs <;> cases hs
    exact ⟨.inl rfl, .inl rfl⟩
  | cleanup v l p =>
    rw [phaseStep] at hs
    split at hs <;> cases hs
    exact ⟨.inl rfl, .inl rfl⟩
  | commitDone =>
    rw [phaseStep] at hs
    split at hs <;> cases hs
    exact ⟨.inl rfl, .inl rfl⟩
  | logOpened n =>
    cases hs
    exact ⟨.inr ⟨n, rfl⟩, .inl rfl⟩
  | recovered =>
    cases hs
    exact ⟨.inl rfl, .inr (.inr rfl)⟩

/-- No job of an open database switches the log. -/
theorem Sound.logNumber_job (h : Sound σ gh s) (hm : s.mode = .running)
    (hs : LsmKv.step s a = some s') (ha : a.ofJob) : s'.db.logNumber = s.db.logNumber := by
  cases a with
  | startFlush =>
    obtain ⟨_, _, _, rfl⟩ := Sys.startFlush_cases hs
    rfl
  | startCompaction level =>
    obtain ⟨_, _, _, db, c, hb, rfl⟩ := Sys.startCompaction_cases hs
    obtain ⟨_, pointer, rfl⟩ := Db.beginCompaction_db hb
    rfl
  | startLog =>
    obtain ⟨_, _, _, rfl⟩ := Sys.startLog_cases hs
    rfl
  | job i n order =>
    obtain ⟨j, hj, hcase⟩ := Sys.jobStep_cases hs
    rcases hcase with ⟨_, t, next, hp, rfl⟩ | ⟨_, _, _, rfl⟩
    · obtain ⟨rfl, hjobs⟩ := h.jobs_index hj
      refine Eq.trans (b := t.db.logNumber) rfl ((Sys.phaseStep_same hp).1.resolve_right ?_)
      rintro ⟨n, he⟩
      cases h.job_ok hjobs with
      | logOpened _ ho _ _ _ =>
        rw [hm] at ho
        cases ho
      | _ => cases he
    · rfl
  | failJob i n =>
    obtain ⟨j, fs, t, hj, _, _, _, ht, rfl⟩ := Sys.failJob_cases hs
    obtain ⟨db, ⟨c, rfl⟩, what, hfail⟩ := Sys.failPhase_cases ht
    show t.db.logNumber = s.db.logNumber
    rw [hfail, Sys.fail]
    split <;> rfl
  | _ => cases ha

namespace Writer

theorem growGroup_sync (first : Writer) (budget : Nat) (merged : WriteBatch) (ws : List Writer) :
    ∀ x ∈ (growGroup first budget merged ws).1, x.sync = true → first.sync = true := by
  induction ws generalizing merged with
  | nil => simp [growGroup]
  | cons w ws ih =>
    intro x hx hsync
    rw [growGroup] at hx
    split at hx
    · cases hx
    · rename_i hrule
      split at hx
      · cases hx
      · rcases List.mem_cons.1 hx with rfl | hx
        · simpa [hsync] using hrule
        · exact ih _ x hx hsync

theorem buildBatchGroup_sync (w : Writer) (ws : List Writer) :
    ∀ x ∈ (buildBatchGroup (w :: ws)).1, x.sync = true → w.sync = true := by
  intro x hx hsync
  rcases List.mem_cons.1 hx with rfl | hx
  · exact hsync
  · exact growGroup_sync w _ _ ws x hx hsync

end Writer

/-- A member of the group, or the database, wants the record on stable storage. -/
def Sys.demands (s : Sys) (ld : Lead) : Prop :=
  s.db.options.syncPolicy = .everyWrite ∨ ∃ w ∈ ld.members, w.sync = true

theorem Db.shouldSyncNow_of_demand (db : Db) {w : Writer} (elapsed : Bool)
    (h : db.options.syncPolicy = .everyWrite ∨ w.sync = true) :
    db.shouldSyncNow w.sync elapsed = true := by
  rw [shouldSyncNow]
  split
  · rfl
  · rename_i hw
    rw [h.resolve_right hw]

/-- A leader that has to sync will do so, or the whole log is on stable storage. -/
def Honours (s : Sys) : Prop :=
  ∀ ld, s.lead = some ld → s.demands ld →
    ld.unsynced = true ∨ ld.unwritten = [] ∧ s.fs.Solid (.log s.db.logNumber)

theorem Sound.running_of_lead (h : Sound σ gh s) (hl : s.lead ≠ none) : s.mode = .running :=
  h.running fun ho => hl (h.opening ho).1

theorem Disk.mem_hist (h : Disk σ gh s m logs) (hm : s.mode = .running) (hg : g ∈ logs n) :
    g ∈ s.hist := by
  obtain ⟨pre, ha⟩ := (h.running hm).aligned
  have hn : n < s.db.nextFileNumber := by
    by_contra hle
    rw [h.onDisk.stored.after n (not_lt.1 hle)] at hg
    cases hg
  rw [ha.split]
  exact List.mem_append_right pre (mem_span.2 ⟨n, Nat.zero_le n, hn, hg⟩)

namespace Honours

theorem of_none (h : s.lead = none) : Honours s := fun ld hl => by
  rw [h] at hl
  cases hl

theorem of_same (h : Honours s) (hl : s'.lead = s.lead) (ho : s'.db.options = s.db.options)
    (hn : s'.db.logNumber = s.db.logNumber)
    (hf : s'.fs.stat (.log s.db.logNumber) = s.fs.stat (.log s.db.logNumber)) : Honours s' := by
  intro ld hld hd
  rw [Sys.demands, ho] at hd
  rw [hn]
  exact (h ld (hl ▸ hld) hd).imp_right fun hs => ⟨hs.1, hs.2.frame hf⟩

theorem job (h : Honours s) (hS : Sound σ gh s) (hD : Disk σ gh s m logs)
    (hs : LsmKv.step s a = some s') (ha : a.ofJob) : Honours s' := by
  have hlead : s'.lead = s.lead := Sys.kept_job hs ha Sys.lead fun _ => rfl
  by_cases hl : s.lead = none
  · exact .of_none (hlead.trans hl)
  · have hm : s.mode = .running := hS.running_of_lead hl
    exact h.of_same hlead (Sys.kept_job hs ha (·.db.options) fun _ => rfl)
      (hS.logNumber_job hm hs ha) ((hD.effect hS hs ha).log_kept hm)

theorem begin (hs : s.begin elapsed = some s') : Honours s' := by
  obtain ⟨_, _, hl, w, ws, _, ⟨_, rfl⟩ | ⟨_, rfl⟩⟩ := Sys.begin_cases hs
  · exact .of_none hl
  · intro ld hld hd
    cases hld
    refine .inl (Db.shouldSyncNow_of_demand _ _ ?_)
    rcases hd with hp | ⟨x, hx, hsync⟩
    · exact .inl hp
    · exact .inr (Writer.buildBatchGroup_sync w ws x hx hsync)

theorem append (h : Honours s) (hs : s.append n = some s') : Honours s' := by
  obtain ⟨ld, hl, hne, hcase⟩ := Sys.append_cases hs
  have hu : s.demands ld → ld.unsynced = true := fun hd =>
    (h ld hl hd).resolve_right fun hx => hne hx.1
  rcases hcase with ⟨_, _, rfl⟩ | rfl
  · intro ld' hl' hd
    cases hl'
    exact .inl (hu hd)
  · intro ld' hl' hd
    cases hl'
    exact .inl (hu hd)

theorem syncLog (hs : s.syncLog = some s') : Honours s' := by
  obtain ⟨ld, hl, hnil, _, rfl⟩ := Sys.syncLog_cases hs
  intro ld' hl' _
  cases hl'
  exact .inr ⟨hnil, Fs.solid_fsync _ _⟩

theorem insert (h : Honours s) (hs : s.insert = some s') : Honours s' := by
  obtain ⟨ld, _, _, hl, _, _, _, rfl⟩ := Sys.insert_cases hs
  intro ld' hl' hd
  cases hl'
  exact h ld hl hd

theorem step (h : Honours s) (hS : Sound σ gh s) (hD : Disk σ gh s m logs)
    (hs : LsmKv.step s a = some s') (ha : a.internal) (hswap : a = .rotateSwap → s.lead = none) :
    Honours s' := by
  by_cases hj : a.ofJob
  · exact h.job hS hD hs hj
  by_cases hw : ¬ a.ofWriter
  · exact h.of_same (Sys.kept_read hs ha hw hj Sys.lead fun _ => rfl)
      (Sys.kept_read hs ha hw hj (·.db.options) fun _ => rfl)
      (Sys.kept_read hs ha hw hj (·.db.logNumber) fun _ => rfl)
      (congrArg (Fs.stat · (.log s.db.logNumber)) (Sys.kept_read hs ha hw hj Sys.fs fun _ => rfl))
  -- the log that is being opened is not the one in use
  have hother : ∀ r, s.rotating = some r → FileName.log s.db.logNumber ≠ .log r.number := by
    intro r hr
    have hlt := (hS.rotating r hr).log_lt
    simp only [ne_eq, FileName.log.injEq]
    omega
  cases a with
  | write id entries sync =>
    obtain ⟨_, _, _, rfl⟩ := Sys.write_cases hs
    exact h.of_same rfl rfl rfl rfl
  | rotate byFlush =>
    obtain ⟨_, _, _, _, _, rfl⟩ := Sys.rotate_cases hs
    exact h.of_same rfl rfl rfl rfl
  | rotateIo n =>
    obtain ⟨r, _, _, hr, hio, rfl⟩ := Sys.rotateIo_cases hs
    exact h.of_same rfl rfl rfl (stat_ioStep hio ((hS.rotating r hr).log.names (hother r hr)))
  | failRotate n =>
    obtain ⟨r, _, hr, hio, rfl⟩ := Sys.failRotate_cases hs
    exact h.of_same rfl rfl rfl (stat_failIo hio ((hS.rotating r hr).log.names (hother r hr)))
  | rotateSwap =>
    obtain ⟨_, _, _, _, rfl⟩ := Sys.rotateSwap_cases hs
    exact .of_none (hswap rfl)
  | begin elapsed => exact .begin hs
  | append n => exact h.append hs
  | syncLog => exact .syncLog hs
  | insert => exact h.insert hs
  | finish =>
    obtain ⟨_, _, _, _, _, _, _, rfl⟩ := Sys.finish_cases hs
    exact .of_none rfl
  | failAppend n =>
    obtain ⟨_, _, _, _, rfl⟩ := Sys.failAppend_cases hs
    exact .of_none rfl
  | failSync =>
    obtain ⟨_, _, _, _, _, rfl⟩ := Sys.failSync_cases hs
    exact .of_none rfl
  | _ => exact absurd not_false hw

theorem orderly (h : Honours s) (hg : Good True s) (hs : LsmKv.step s a = some s')
    (ho : Orderly True s a s') : Honours s' := by
  rcases hg.step_cases hs ho with ⟨hint, gh, m, logs, hS, hD⟩ | rfl | ⟨_, _, _, _, _, hr, _, hi, _⟩
  · exact h.step hS hD hs hint fun ha => ho.swap ha trivial
  · exact .of_none rfl
  · obtain ⟨_, ⟨_, rfl⟩ | ⟨_, _, _, _, rfl⟩⟩ := Sys.recover_cases hr
    · exact .of_none hi.lead
    · exact .of_none hi.lead

theorem run (h : Run (Orderly True) {} s) : Honours s :=
  h.good_induct (.of_none rfl) fun _ _ _ hg h hs ho => h.orderly hg hs ho

end Honours

/-- A group that is complete in a log and not finished ends the log in use. -/
def Trailing (s : Sys) : Prop :=
  s.mode = .running → s.hist ≠ s.done → ∃ g xs, s.hist = s.done ++ [g] ∧ (∀ x ∈ xs, x.Fits) ∧
    s.fs.read (.log s.db.logNumber) = some (Wal.fileHeader ++ (xs ++ [g]).flatMap Group.record)

namespace Trailing

theorem of_eq (h : s.hist = s.done) : Trailing s := fun _ hne => absurd h hne

theorem of_same (h : Trailing s) (hm : s'.mode = s.mode) (hh : s'.hist = s.hist)
    (hd : s'.done = s.done) (hn : s'.db.logNumber = s.db.logNumber)
    (hr : s'.fs.read (.log s.db.logNumber) = s.fs.read (.log s.db.logNumber)) : Trailing s' := by
  intro hm' hne
  rw [hh, hd] at hne ⊢
  rw [hn, hr]
  exact h (hm ▸ hm') hne

theorem job (h : Trailing s) (hS : Sound σ gh s) (hD : Disk σ gh s m logs)
    (hs : LsmKv.step s a = some s') (ha : a.ofJob) : Trailing s' := by
  have hhist : s'.hist = s.hist := Sys.kept_job hs ha Sys.hist fun _ => rfl
  have hdone : s'.done = s.done := Sys.kept_job hs ha Sys.done fun _ => rfl
  by_cases hm : s.mode = .opening
  · obtain ⟨hl, _, _, _, _, hb⟩ := hS.opening hm
    exact .of_eq (by rw [hhist, hdone, hS.logged.idle hl hb])
  · have hm := hS.running hm
    have hint : a.internal := by cases a <;> trivial
    refine h.of_same (((Onward.step hs hint).running hm).trans hm.symm) hhist hdone
      (hS.logNumber_job hm hs ha) ?_
    rw [Fs.read_eq_stat, Fs.read_eq_stat, (hD.effect hS hs ha).log_kept hm]

theorem step (h : Trailing s) (hS : Sound σ gh s) (hD : Disk σ gh s m logs)
    (hs : LsmKv.step s a = some s') (ha : a.internal) (hswap : a = .rotateSwap → s.lead = none) :
    Trailing s' := by
  by_cases hj : a.ofJob
  · exact h.job hS hD hs hj
  by_cases hw : ¬ a.ofWriter
  · exact h.of_same (Sys.kept_read hs ha hw hj Sys.mode fun _ => rfl)
      (Sys.kept_read hs ha hw hj Sys.hist fun _ => rfl)
      (Sys.kept_read hs ha hw hj Sys.done fun _ => rfl)
      (Sys.kept_read hs ha hw hj (·.db.logNumber) fun _ => rfl)
      (congrArg (Fs.read · (.log s.db.logNumber)) (Sys.kept_read hs ha hw hj Sys.fs fun _ => rfl))
  have hother : ∀ r, s.rotating = some r → FileName.log s.db.logNumber ≠ .log r.number := by
    intro r hr
    have hlt := (hS.rotating r hr).log_lt
    simp only [ne_eq, FileName.log.injEq]
    omega
  cases a with
  | write id entries sync =>
    obtain ⟨_, _, _, rfl⟩ := Sys.write_cases hs
    exact h.of_same rfl rfl rfl rfl rfl
  | rotate byFlush =>
    obtain ⟨_, _, _, _, _, rfl⟩ := Sys.rotate_cases hs
    exact h.of_same rfl rfl rfl rfl rfl
  | rotateIo n =>
    obtain ⟨r, _, _, hr, hio, rfl⟩ := Sys.rotateIo_cases hs
    exact h.of_same rfl rfl rfl rfl (read_ioStep hio ((hS.rotating r hr).log.names (hother r hr)))
  | failRotate n =>
    obtain ⟨r, _, hr, hio, rfl⟩ := Sys.failRotate_cases hs
    exact h.of_same rfl rfl rfl rfl (read_failIo hio ((hS.rotating r hr).log.names (hother r hr)))
  | rotateSwap =>
    obtain ⟨r, hr, _, _, rfl⟩ := Sys.rotateSwap_cases hs
    intro hm
    have hb := (hD.running hm).rotating (by simp [hr])
    exact fun hne => absurd (hS.logged.idle (hswap rfl) hb) hne
  | begin elapsed =>
    obtain ⟨_, _, _, _, _, _, ⟨_, rfl⟩ | ⟨_, rfl⟩⟩ := Sys.begin_cases hs
    · exact h.of_same rfl rfl rfl rfl rfl
    · exact h.of_same rfl rfl rfl rfl rfl
  | append n =>
    obtain ⟨ld, hl, hne, hcase⟩ := Sys.append_cases hs
    have heq := ((hS.logged.leadOk ld hl).waiting hne).2
    rcases hcase with ⟨_, _, rfl⟩ | rfl
    · exact .of_eq heq
    · intro hm _
      obtain ⟨part, ht⟩ := (hD.running hm).tail
      rw [hl] at ht
      refine ⟨ld.group, logs s.db.logNumber, congrArg (· ++ [ld.group]) heq, fun x hx => ?_, ?_⟩
      · exact hS.logged.ok.fits x (hD.mem_hist hm hx)
      · exact (ht.append_all hne).read.trans (by rw [List.append_nil])
  | syncLog =>
    obtain ⟨_, _, _, _, rfl⟩ := Sys.syncLog_cases hs
    exact h.of_same rfl rfl rfl rfl (Fs.read_fsync _ _ _)
  | insert =>
    obtain ⟨_, _, _, _, _, _, _, rfl⟩ := Sys.insert_cases hs
    exact h.of_same rfl rfl rfl rfl rfl
  | finish =>
    obtain ⟨_, _, _, _, _, _, _, rfl⟩ := Sys.finish_cases hs
    exact .of_eq rfl
  | failAppend n =>
    obtain ⟨ld, hl, _, hlt, rfl⟩ := Sys.failAppend_cases hs
    have hne : ld.unwritten ≠ [] := by
      rintro he
      rw [he] at hlt
      cases hlt
    exact .of_eq ((hS.logged.leadOk ld hl).waiting hne).2
  | failSync =>
    obtain ⟨_, _, _, _, _, rfl⟩ := Sys.failSync_cases hs
    exact h.of_same rfl rfl rfl rfl rfl
  | _ => exact absurd not_false hw

theorem orderly (h : Trailing s) (hg : Good True s) (hs : LsmKv.step s a = some s')
    (ho : Orderly True s a s') : Trailing s' := by
  rcases hg.step_cases hs ho with ⟨hint, gh, m, logs, hS, hD⟩ | rfl | ⟨_, _, _, _, _, hr, _, hi, _⟩
  · exact h.step hS hD hs hint fun ha => ho.swap ha trivial
  · exact .of_eq rfl
  · obtain ⟨_, ⟨_, rfl⟩ | ⟨_, _, _, _, rfl⟩⟩ := Sys.recover_cases hr
    · exact .of_eq hi.done.symm
    · exact .of_eq hi.done.symm

theorem run (h : Run (Orderly True) {} s) : Trailing s :=
  h.good_induct (.of_eq rfl) fun _ _ _ hg h hs ho => h.orderly hg hs ho

end Trailing

/-- A log still begins with bytes that are on stable storage, or is gone. -/
structure Begins (n : Nat) (bytes : Bytes) (s : Sys) : Prop where
  mode : s.mode = .running
  le : n ≤ s.db.logNumber
  grown : ∀ f, s.fs.stat (.log n) = some f → bytes <+: f.data ∧ bytes.length ≤ f.synced

namespace Begins

variable {n : Nat} {bytes : Bytes}

theorem of_same (h : Begins n bytes s) (hm : s'.mode = s.mode)
    (hn : s'.db.logNumber = s.db.logNumber)
    (hf : s'.fs.stat (.log n) = s.fs.stat (.log n)) : Begins n bytes s' where
  mode := hm.trans h.mode
  le := hn ▸ h.le
  grown f hs := h.grown f (hf ▸ hs)

theorem job (h : Begins n bytes s) (hS : Sound σ gh s) (hD : Disk σ gh s m logs)
    (hs : LsmKv.step s a = some s') (ha : a.ofJob) : Begins n bytes s' := by
  have hint : a.internal := by cases a <;> trivial
  refine ⟨(Onward.step hs hint).running h.mode, (hS.logNumber_job h.mode hs ha).symm ▸ h.le, ?_⟩
  intro f hf
  rcases (hD.effect hS hs ha).log_stat h.mode n with hsame | ⟨hnone, _⟩
  · exact h.grown f (hsame ▸ hf)
  · rw [hnone] at hf
    cases hf

theorem append (h : Begins n bytes s) (bs : Bytes) (hm : s'.mode = s.mode)
    (hn : s'.db.logNumber = s.db.logNumber) (hfs : s'.fs = s.fs.append (.log s.db.logNumber) bs) :
    Begins n bytes s' := by
  refine ⟨hm.trans h.mode, hn ▸ h.le, fun f hf => ?_⟩
  rw [hfs, Fs.stat_append] at hf
  split at hf
  · rename_i he
    obtain ⟨g, hg, rfl⟩ := Option.map_eq_some_iff.1 hf
    rw [← he] at hg
    exact ⟨(h.grown g hg).1.trans (List.prefix_append _ _), (h.grown g hg).2⟩
  · exact h.grown f hf

theorem step (h : Begins n bytes s) (hS : Sound σ gh s) (hD : Disk σ gh s m logs)
    (hs : LsmKv.step s a = some s') (ha : a.internal) : Begins n bytes s' := by
  by_cases hj : a.ofJob
  · exact h.job hS hD hs hj
  by_cases hw : ¬ a.ofWriter
  · exact h.of_same (Sys.kept_read hs ha hw hj Sys.mode fun _ => rfl)
      (Sys.kept_read hs ha hw hj (·.db.logNumber) fun _ => rfl)
      (congrArg (Fs.stat · (.log n)) (Sys.kept_read hs ha hw hj Sys.fs fun _ => rfl))
  -- a log that is being opened has a number of its own
  have hother : ∀ r, s.rotating = some r → FileName.log n ≠ .log r.number := by
    intro r hr
    have hlt := (hS.rotating r hr).log_lt
    have hle := h.le
    simp only [ne_eq, FileName.log.injEq]
    omega
  cases a with
  | write id entries sync =>
    obtain ⟨_, _, _, rfl⟩ := Sys.write_cases hs
    exact h.of_same rfl rfl rfl
  | rotate byFlush =>
    obtain ⟨_, _, _, _, _, rfl⟩ := Sys.rotate_cases hs
    exact h.of_same rfl rfl rfl
  | rotateIo k =>
    obtain ⟨r, _, _, hr, hio, rfl⟩ := Sys.rotateIo_cases hs
    exact h.of_same rfl rfl (stat_ioStep hio ((hS.rotating r hr).log.names (hother r hr)))
  | failRotate k =>
    obtain ⟨r, _, hr, hio, rfl⟩ := Sys.failRotate_cases hs
    exact h.of_same rfl rfl (stat_failIo hio ((hS.rotating r hr).log.names (hother r hr)))
  | rotateSwap =>
    obtain ⟨r, hr, _, _, rfl⟩ := Sys.rotateSwap_cases hs
    exact ⟨h.mode, h.le.trans (hS.rotating r hr).log_lt.le, h.grown⟩
  | begin elapsed =>
    obtain ⟨_, _, _, _, _, _, ⟨_, rfl⟩ | ⟨_, rfl⟩⟩ := Sys.begin_cases hs
    · exact h.of_same rfl rfl rfl
    · exact h.of_same rfl rfl rfl
  | append k =>
    obtain ⟨ld, _, _, ⟨_, _, rfl⟩ | rfl⟩ := Sys.append_cases hs
    · exact h.append _ rfl rfl rfl
    · exact h.append _ rfl rfl rfl
  | syncLog =>
    obtain ⟨_, _, _, _, rfl⟩ := Sys.syncLog_cases hs
    refine ⟨h.mode, h.le, fun f hf => ?_⟩
    have hf : (s.fs.fsync (.log s.db.logNumber)).stat (.log n) = some f := hf
    rw [Fs.stat_fsync] at hf
    split at hf
    · rename_i he
      obtain ⟨g, hg, rfl⟩ := Option.map_eq_some_iff.1 hf
      rw [← he] at hg
      exact ⟨(h.grown g hg).1, (h.grown g hg).1.length_le⟩
    · exact h.grown f hf
  | insert =>
    obtain ⟨_, _, _, _, _, _, _, rfl⟩ := Sys.insert_cases hs
    exact h.of_same rfl rfl rfl
  | finish =>
    obtain ⟨_, _, _, _, _, _, _, rfl⟩ := Sys.finish_cases hs
    exact h.of_same rfl rfl rfl
  | failAppend k =>
    obtain ⟨_, _, _, _, rfl⟩ := Sys.failAppend_cases hs
    exact h.append _ rfl rfl rfl
  | failSync =>
    obtain ⟨_, _, _, _, _, rfl⟩ := Sys.failSync_cases hs
    exact h.of_same rfl rfl rfl
  | _ => exact absurd not_false hw

/-- After a power failure the groups at the beginning of the log are all replayed. -/
theorem replays {xs : List Group} (h : Begins n (Wal.fileHeader ++ xs.flatMap Group.record) s)
    (hS : Sound σ gh s) (hD : Disk σ gh s m logs) (hx : ∀ g ∈ xs, g.Fits) (cut : FileName → Nat)
    (path : String) (hb : (s.fs.powerLossData cut).read (.log n) = some bytes) :
    (Wal.replay path bytes).status = .ok ∧
      ∀ e ∈ xs.flatMap Group.numbered, e ∈ (Wal.replay path bytes).entries := by
  rw [Fs.read_powerLossData] at hb
  obtain ⟨f, hf, rfl⟩ := Option.map_eq_some_iff.1 hb
  obtain ⟨⟨rest, hrest⟩, hsync⟩ := h.grown f hf
  have himage : Wal.Image (logs n) f.data := by
    refine hD.onDisk.stored.image n f.data ?_
    rw [Fs.read_eq_stat, hf]
    rfl
  have hfit : ∀ g ∈ logs n, g.Fits := fun g hg => hS.logged.ok.fits g (hD.mem_hist h.mode hg)
  obtain ⟨zs, hzs⟩ := himage.covers hfit hx (hrest.symm.trans (List.append_assoc _ _ _))
  obtain ⟨k, hk, hcut, hbefore⟩ := himage.take hfit (max f.synced (cut (.log n)))
  have hend : Wal.endOf ((logs n).take xs.length) ≤ max f.synced (cut (.log n)) := by
    rw [hzs, List.take_left]
    rw [List.length_append] at hsync
    exact hsync.trans (le_max_left _ _)
  have hle : xs.length ≤ k := hbefore xs.length (by simp [hzs]) hend
  obtain ⟨hes, hok⟩ := Wal.replay_image hcut (fun g hg => hfit g (List.mem_of_mem_take hg)) path
  refine ⟨hok, fun e he => ?_⟩
  rw [hes]
  obtain ⟨g, hg, he⟩ := List.mem_flatMap.1 he
  refine List.mem_flatMap.2 ⟨g, ?_, he⟩
  have hxs : xs = (logs n).take xs.length := by rw [hzs, List.take_left]
  rw [hxs] at hg
  exact (List.take_sublist_take_left hle).subset hg

end Begins

/-- Once a `Write` call that asked for a sync has returned OK, or any call under `kEveryWrite`, its
group is safe from power failures: whenever one cuts the unsynced bytes of the log, the log replays
without an error and delivers every entry of the group. -/
theorem sync_honoured (h : Run Steady {} s) (hs : step s .finish = some s')
    (hp : Steady s .finish s') (hl : s.lead = some ld) (hd : s.demands ld)
    (ht : Run (fun s a s' => Steady s a s' ∧ a.internal) s' t) :
    s'.acked = s.acked ++ [ld.group] ∧ ∀ cut path bytes,
      (t.fs.powerLossData cut).read (.log s.db.logNumber) = some bytes →
      (Wal.replay path bytes).status = .ok ∧
      ∀ e ∈ ld.group.numbered, e ∈ (Wal.replay path bytes).entries := by
  obtain ⟨ld', hl', hopen, _, hnil, hsynced, _, rfl⟩ := Sys.finish_cases hs
  cases hl.symm.trans hl'
  refine ⟨rfl, fun cut path bytes hb => ?_⟩
  have hgood := Good.run h.steady.1
  obtain ⟨gh, m, logs, hS, hD⟩ := hgood.sound hopen
  have hm := hS.running_of_lead (by simp [hl])
  have hhist := (hS.logged.leadOk ld hl).logged hnil
  obtain ⟨g, xs, hg, hx, hread⟩ := Trailing.run h.steady.1 hm (by simp [hhist])
  obtain rfl : g = ld.group := by
    have he := hg.symm.trans hhist
    simpa using he
  have hsolid : s.fs.Solid (.log s.db.logNumber) := by
    rcases Honours.run h.steady.1 ld hl hd with hu | ⟨_, hsolid⟩
    · cases hsynced.symm.trans hu
    · exact hsolid
  have hbegin :
      Begins s.db.logNumber (Wal.fileHeader ++ (xs ++ [ld.group]).flatMap Group.record) s := by
    refine ⟨hm, le_rfl, fun f hf => ?_⟩
    rw [Fs.read_eq_stat, hf] at hread
    have hdata : f.data = Wal.fileHeader ++ (xs ++ [ld.group]).flatMap Group.record :=
      Option.some.inj hread
    rw [← hdata]
    exact ⟨List.prefix_rfl, hsolid f hf⟩
  have hlater : Run Steady {} t ∧
      Begins s.db.logNumber (Wal.fileHeader ++ (xs ++ [ld.group]).flatMap Group.record) t := by
    refine ht.induct (I := fun t => Run Steady {} t ∧ Begins _ _ t) ⟨h.step hs hp, ?_⟩ ?_
    · exact hbegin.step hS hD hs trivial
    · rintro u a u' ⟨hu, hbu⟩ hsu ⟨hpu, hau⟩
      obtain ⟨gh, m, logs, hSu, hDu⟩ := (Good.run hu.steady.1).sound (by simp [hbu.mode])
      exact ⟨hu.step hsu hpu, hbu.step hSu hDu hsu hau⟩
  obtain ⟨hrun, hbt⟩ := hlater
  obtain ⟨gh', m', logs', hSt, hDt⟩ := (Good.run hrun.steady.1).sound (by simp [hbt.mode])
  have hfit : ∀ x ∈ xs ++ [ld.group], x.Fits := by
    intro x hmem
    rcases List.mem_append.1 hmem with hmem | hmem
    · exact hx x hmem
    · rw [List.mem_singleton.1 hmem]
      exact (hS.logged.leadOk ld hl).fits
  obtain ⟨hok, hall⟩ := hbt.replays hSt hDt hfit cut path hb
  exact ⟨hok, fun e he => hall e (List.mem_flatMap.2 ⟨ld.group, by simp, he⟩)⟩

section Sample

/-- A database that does not sync on its own, and the first write that asks for it. -/
def syncedActs : List Act :=
  .recover { syncPolicy := .never } "db" :: openActs.tail ++
    [.write 0 [⟨.kValue, [97], [1]⟩] true, .begin false, .append 0, .syncLog, .insert]

/-- A later write is lost with the power, the synced one is not. -/
theorem sync_honoured_sample : ∃ s s' t bytes, runActs Steady.check {} syncedActs = some s ∧
    step s .finish = some s' ∧
    runActs (fun s a => Steady.check s a && a.goesOn) s'
      [.write 0 [⟨.kValue, [97], [2]⟩] false, .begin false, .append 0, .insert, .finish] = some t ∧
    t.acked.length = 2 ∧ (t.fs.powerLossData fun _ => 0).read (.log 1) = some bytes ∧
    (Wal.replay "" bytes).entries.length = 1 ∧
    ⟨1, .kValue, [97], [1]⟩ ∈ (Wal.replay "" bytes).entries := by
  obtain ⟨s, hs, s', hf, hc, hdemand, t, ht, hlen, hlog, hone⟩ : ∃ s,
    runActs Steady.check {} syncedActs = some s ∧
      ∃ s', step s .finish = some s' ∧ Steady.check s .finish = true ∧
      (s.lead.any fun ld => ld.members.any Writer.sync &&
        ld.group.numbered == [⟨1, .kValue, [97], [1]⟩]) = true ∧
      ∃ t, runActs (fun s a => Steady.check s a && a.goesOn) s'
        [.write 0 [⟨.kValue, [97], [2]⟩] false, .begin false, .append 0, .insert, .finish] =
        some t ∧
      t.acked.length = 2 ∧ s.db.logNumber = 1 ∧
      (((t.fs.powerLossData fun _ => 0).read (.log 1)).any fun bytes =>
        (Wal.replay "" bytes).entries.length == 1) = true := by
    decide +kernel
  obtain ⟨ld, hl, hld⟩ : ∃ ld, s.lead = some ld ∧
      (ld.members.any Writer.sync && ld.group.numbered == [⟨1, .kValue, [97], [1]⟩]) = true := by
    cases hl : s.lead with
    | none =>
      rw [hl] at hdemand
      cases hdemand
    | some ld => exact ⟨ld, rfl, by simpa [hl] using hdemand⟩
  obtain ⟨hsync, hgroup⟩ := Bool.and_eq_true_iff.1 hld
  obtain ⟨bytes, hb, hbytes⟩ : ∃ bytes, (t.fs.powerLossData fun _ => 0).read (.log 1) = some bytes ∧
      ((Wal.replay "" bytes).entries.length == 1) = true := by
    cases hb : (t.fs.powerLossData fun _ => 0).read (.log 1) with
    | none =>
      rw [hb] at hone
      cases hone
    | some bytes => exact ⟨bytes, rfl, by simpa [hb] using hone⟩
  have hrun := Run.of_steady .refl hs
  have hp : Steady s .finish s' := .of_check hc hf hrun.shallow
  have h' := Run.of_steady_with (fun _ => Act.goesOn_spec) (hrun.step hf hp) ht
  have hall := ((sync_honoured hrun hf hp hl (.inr (by simpa using hsync))
    (h'.mono fun _ _ _ hd => ⟨hd.1, hd.2.1⟩)).2 (fun _ => 0) "" bytes (hlog ▸ hb)).2
  refine ⟨s, s', t, bytes, hs, hf, ht, hlen, hb, by simpa using hbytes, hall _ ?_⟩
  rw [eq_of_beq hgroup]
  exact List.mem_cons_self

end Sample

end LsmKv
