import LsmKv.Answers

namespace LsmKv
set_option autoImplicit true

variable {s s' : Sys}

/-- A step of a database whose flushes and compactions are left to one background thread, which may
crash, and whose clients call `FlushMemTable` only while no write is under way. Numbers and lengths
fit their fields. -/
structure Served (s : Sys) (a : Act) (s' : Sys) : Prop where
  crashes : Crashes s a s'
  background : ∀ options path, a = .recover options path → options.backgroundCompaction = true
  flush : a = .rotate true → s.lead = none

/-- There is no leader while the memtables are switched. -/
structure Tidy (s : Sys) : Prop where
  background : s.mode ≠ .closed → s.db.options.backgroundCompaction = true
  rotating : s.rotating ≠ none → s.lead = none

namespace Tidy

theorem keep (h : Tidy s) (hm : s'.mode = s.mode) (ho : s'.db.options = s.db.options)
    (hr : s'.rotating ≠ none → s.rotating ≠ none) (hl : s.lead = none → s'.lead = none) : Tidy s' :=
  ⟨fun hm' => ho ▸ h.background (hm ▸ hm'), fun hr' => hl (h.rotating (hr hr'))⟩

theorem job (h : Tidy s) (hm : s.mode ≠ .closed) (hs : LsmKv.step s a = some s') (ha : a.ofJob) :
    Tidy s' := by
  have ho : s'.db.options = s.db.options := Sys.kept_job hs ha (·.db.options) fun _ => rfl
  have hl : s'.lead = s.lead := Sys.kept_job hs ha Sys.lead fun _ => rfl
  have hr : s'.rotating = s.rotating := Sys.kept_job hs ha Sys.rotating fun _ => rfl
  exact ⟨fun _ => ho ▸ h.background hm, fun hr' => hl.trans (h.rotating (hr ▸ hr'))⟩

theorem internal (h : Tidy s) (hm : s.mode ≠ .closed) (hs : LsmKv.step s a = some s')
    (ha : a.internal) (hf : a = .rotate true → s.lead = none) : Tidy s' := by
  have hsome : ∀ {ld} {t : Option Lead}, s.lead = some ld → s.lead = none → t = none := by
    intro ld t h1 h2
    cases h1.symm.trans h2
  cases a with
  | write id entries sync =>
    obtain ⟨_, _, _, rfl⟩ := Sys.write_cases hs
    exact ⟨h.background, h.rotating⟩
  | rotate byFlush =>
    obtain ⟨_, _, _, _, hcase, rfl⟩ := Sys.rotate_cases hs
    refine ⟨h.background, fun _ => ?_⟩
    rcases hcase with rfl | hcase
    · exact hf rfl
    · exact hcase.1
  | rotateIo n =>
    obtain ⟨r, _, _, hr, _, rfl⟩ := Sys.rotateIo_cases hs
    exact h.keep rfl rfl (fun _ => by simp [hr]) id
  | rotateSwap =>
    obtain ⟨_, _, _, _, rfl⟩ := Sys.rotateSwap_cases hs
    exact h.keep rfl rfl (fun hc => absurd rfl hc) id
  | begin elapsed =>
    obtain ⟨_, hr, _, _, _, _, ⟨_, rfl⟩ | ⟨_, rfl⟩⟩ := Sys.begin_cases hs
    · exact h.keep rfl rfl id id
    · exact ⟨h.background, fun hc => absurd hr hc⟩
  | append n =>
    obtain ⟨_, hl, _, ⟨_, _, rfl⟩ | rfl⟩ := Sys.append_cases hs
    · exact h.keep rfl rfl id (hsome hl)
    · exact h.keep rfl rfl id (hsome hl)
  | syncLog =>
    obtain ⟨_, hl, _, _, rfl⟩ := Sys.syncLog_cases hs
    exact h.keep rfl rfl id (hsome hl)
  | insert =>
    obtain ⟨_, _, _, hl, _, _, _, rfl⟩ := Sys.insert_cases hs
    exact h.keep rfl rfl id (hsome hl)
  | finish =>
    obtain ⟨_, _, _, _, _, _, _, rfl⟩ := Sys.finish_cases hs
    exact h.keep rfl rfl id fun _ => rfl
  | getSnapshot =>
    obtain ⟨_, _, rfl⟩ := Sys.getSnapshot_cases hs
    exact h.keep rfl rfl id id
  | releaseSnapshot handle =>
    obtain ⟨_, _, rfl⟩ := Sys.releaseSnapshot_cases hs
    exact h.keep rfl rfl id id
  | getBegin id key snapshot =>
    obtain ⟨_, _, _, _, _, rfl⟩ := Sys.getBegin_cases hs
    exact ⟨h.background, h.rotating⟩
  | getEnd id =>
    obtain ⟨_, _, _, rfl⟩ := Sys.getEnd_cases hs
    exact ⟨h.background, h.rotating⟩
  | newIterator id snapshot =>
    obtain ⟨_, _, _, _, rfl⟩ := Sys.newIterator_cases hs
    exact ⟨h.background, h.rotating⟩
  | seekToFirst id =>
    have hmove : s.moveScan id true DBIter.seekToFirst = some s' := hs
    obtain ⟨_, _, _, rfl⟩ := Sys.moveScan_cases hmove
    exact ⟨h.background, h.rotating⟩
  | seek id target =>
    have hmove : s.moveScan id true (DBIter.seek · target) = some s' := hs
    obtain ⟨_, _, _, rfl⟩ := Sys.moveScan_cases hmove
    exact ⟨h.background, h.rotating⟩
  | next id =>
    obtain ⟨_, _, _, _, hmove⟩ := Sys.next_cases hs
    obtain ⟨_, _, _, rfl⟩ := Sys.moveScan_cases hmove
    exact ⟨h.background, h.rotating⟩
  | failAppend n =>
    obtain ⟨_, _, _, _, rfl⟩ := Sys.failAppend_cases hs
    exact h.keep rfl rfl id fun _ => rfl
  | failSync =>
    obtain ⟨_, _, _, _, _, rfl⟩ := Sys.failSync_cases hs
    exact h.keep rfl rfl id fun _ => rfl
  | failRotate n =>
    obtain ⟨_, _, _, _, rfl⟩ := Sys.failRotate_cases hs
    exact h.keep rfl rfl (fun hc => absurd rfl hc) id
  | startFlush => exact h.job hm hs trivial
  | startCompaction level => exact h.job hm hs trivial
  | startLog => exact h.job hm hs trivial
  | job i n order => exact h.job hm hs trivial
  | failJob i n => exact h.job hm hs trivial
  | kill => cases ha
  | recover options path => cases ha
  | powerLoss keep cut => cases ha
  | powerLossData cut => cases ha

theorem recover (h : Tidy s) (hs : s.recover options path = some s')
    (hb : options.backgroundCompaction = true) : Tidy s' := by
  obtain ⟨_, ⟨_, rfl⟩ | ⟨_, _, _, _, rfl⟩⟩ := Sys.recover_cases hs
  · exact h.keep rfl rfl id id
  · exact ⟨fun _ => hb, h.rotating⟩

end Tidy

/-- A flush or a compaction starts only while some reader may still come below the largest sequence
number. -/
def BelowMax (s : Sys) (a : Act) : Prop := a.startsJob → s.db.smallestSnapshot < kMaxSequenceNumber

theorem Served.orderly (h : Served s a s') (ht : Tidy s) (hs : LsmKv.step s a = some s')
    (hb : σ → BelowMax s a) : Orderly σ s a s' where
  fits := h.crashes.fits
  oneJob hj := by
    have hstart : s.mayStart = true := by
      cases a with
      | startFlush => exact (Sys.startFlush_cases hs).choose_spec.2.1
      | startCompaction level => exact (Sys.startCompaction_cases hs).2.1
      | _ => cases hj
    obtain ⟨hm, _, _, hidle | hoff⟩ := Sys.mayStart_iff.1 hstart
    · exact hidle
    · rw [ht.background hm] at hoff
      cases hoff
  pins hj hσ := hb hσ hj
  swap ha _ := by
    subst ha
    obtain ⟨r, hr, _⟩ := Sys.rotateSwap_cases hs
    exact ht.rotating (by simp [hr])
  power := h.crashes.power

/-- Every run of a served database is orderly. -/
theorem Run.served (h : Run (fun s a s' => Served s a s' ∧ (σ → BelowMax s a)) {} s) :
    Run (Orderly σ) {} s ∧ Tidy s := by
  induction h with
  | refl => exact ⟨.refl, fun hm => absurd rfl hm, fun hr => absurd rfl hr⟩
  | @step s a s' h hs hp ih =>
    obtain ⟨hrun, ht⟩ := ih
    refine ⟨.step hrun hs (hp.1.orderly ht hs hp.2), ?_⟩
    rcases hp.1.crashes.power with hint | rfl | ⟨options, path, rfl⟩
    · cases Good.run hrun with
      | opened hS _ _ => exact ht.internal hS.is_open hs hint hp.1.flush
      | closed hi _ hc =>
        rw [hi.step_eq_none hint hc] at hs
        cases hs
    · cases hs
      exact ⟨fun hm => absurd rfl hm, fun hr => absurd rfl hr⟩
    · exact ht.recover hs (hp.1.background options path rfl)

/-- A step of a served database that is not at the end of the sequence numbers. -/
structure Steady (s : Sys) (a : Act) (s' : Sys) : Prop where
  served : Served s a s'
  below : BelowMax s a

theorem Run.steady (h : Run Steady {} s) : Run (Orderly True) {} s ∧ Tidy s :=
  Run.served (h.mono fun _ _ _ hp => ⟨hp.served, fun _ => hp.below⟩)

theorem Steady.orderly (hp : Steady s a s') (h : Run Steady {} s) (hs : LsmKv.step s a = some s') :
    Orderly True s a s' :=
  hp.served.orderly h.steady.2 hs fun _ => hp.below

theorem Run.steady_from (h : Run Steady {} s) (h' : Run Steady s t) : Run (Orderly True) s t := by
  induction h' with
  | refl => exact .refl
  | step h' hs hp ih => exact .step ih hs (hp.orderly (h.trans h') hs)

/-- While flushes and compactions start below the largest sequence number, a read without a snapshot
returns the effect of a write that is not older than any acknowledged before the read started. -/
theorem reads_keep_acknowledged (h : Run Steady {} s) (ha : a ∈ s.answers)
    (hn : a.call.snapshot = none) : a.Effect s.hist :=
  ((Seen.run h.steady.1 trivial).answers a ha).effect hn

section Sample

def Served.check (s : Sys) : Act → Bool
  | .recover options _ => options.backgroundCompaction
  | .rotate byFlush => !byFlush || s.lead.isNone
  | _ => true

def BelowMax.check (s : Sys) : Act → Bool
  | .startFlush => decide (s.db.smallestSnapshot < kMaxSequenceNumber)
  | .startCompaction _ => decide (s.db.smallestSnapshot < kMaxSequenceNumber)
  | _ => true

theorem BelowMax.of_check (h : BelowMax.check s a = true) : BelowMax s a := fun hj => by
  cases a with
  | startFlush => exact of_decide_eq_true h
  | startCompaction level => exact of_decide_eq_true h
  | _ => cases hj

def Steady.check (s : Sys) (a : Act) : Bool :=
  Served.check s a && BelowMax.check s a && Crashes.check s a

theorem Steady.of_check (hc : Steady.check s a = true) (hs : LsmKv.step s a = some s')
    (h : Shallow s) :
    Steady s a s' := by
  rw [Steady.check, Bool.and_eq_true, Bool.and_eq_true] at hc
  obtain ⟨⟨hserved, hbelow⟩, hcrash⟩ := hc
  refine ⟨⟨.of_check hcrash hs h, ?_, ?_⟩, fun hj => ?_⟩
  · rintro options path rfl
    exact hserved
  · rintro rfl
    exact Option.isNone_iff_eq_none.1 hserved
  · exact BelowMax.of_check hbelow hj

/-- Whether the memtables are switched with no leader at work. -/
def Act.swapsIdle (s : Sys) : Act → Bool
  | rotateSwap => s.lead.isNone
  | _ => true

def Orderly.checkAll (s : Sys) (a : Act) : Bool :=
  a.alone s && BelowMax.check s a && a.swapsIdle s && Crashes.check s a

theorem Orderly.of_checkAll (hc : Orderly.checkAll s a = true) (hs : LsmKv.step s a = some s')
    (h : Shallow s) : Orderly True s a s' := by
  simp only [checkAll, Bool.and_eq_true] at hc
  obtain ⟨⟨⟨halone, hbelow⟩, hswap⟩, hcrash⟩ := hc
  have hcr := Crashes.of_check hcrash hs h
  refine ⟨hcr.fits, Act.alone_of_check halone, fun hj _ => BelowMax.of_check hbelow hj, ?_,
    hcr.power⟩
  rintro rfl _
  exact Option.isNone_iff_eq_none.1 hswap

theorem Run.of_steady_with {Q : Act → Prop} {q : Act → Bool} (hq : ∀ a, q a = true → Q a)
    (hr : Run Steady {} s) (h : runActs (fun s a => Steady.check s a && q a) s as = some t) :
    Run (fun s a s' => Steady s a s' ∧ Q a) s t := by
  have hrun : Run (fun s a _ => (Steady.check s a && q a) = true) s t :=
    Run.of_runActs (fun _ _ _ hc _ => hc) h
  clear h
  induction hrun with
  | refl => exact .refl
  | step _ hs hc ih =>
    rw [Bool.and_eq_true] at hc
    have hsteady := hr.trans (ih.mono fun _ _ _ hp => hp.1)
    exact .step ih hs ⟨.of_check hc.1 hs hsteady.shallow, hq _ hc.2⟩

theorem Run.of_steady (hr : Run Steady {} s) (h : runActs Steady.check s as = some t) :
    Run Steady s t := by
  have hall : (fun s a => Steady.check s a && true) = Steady.check := by simp
  rw [← hall] at h
  exact (Run.of_steady_with (q := fun _ => true) (fun _ _ => trivial) hr h).mono
    fun _ _ _ hp => hp.1

/-- A write that finds the memtable full: its call switches memtables before it takes the lead. -/
def rotatingPutActs (key value : Bytes) : List Act :=
  [.write 0 [⟨.kValue, key, value⟩] false, .rotate false, .rotateIo 0, .rotateIo 0, .rotateSwap,
    .begin false, .append 0, .syncLog, .insert, .finish]

/-- A read that starts before a flush and returns after it, while the key is written again. -/
def servedActs : List Act :=
  openActs ++ putActs [97] [1] ++ rotatingPutActs [97] [2] ++ .getBegin 7 [97] none ::
    .startFlush ::
    jobActs 10 ++ .job 0 0 [.manifest, .sst 3, .log 2, .log 1] :: jobActs 2 ++ putActs [97] [3] ++
    [.getEnd 7]

set_option synthInstance.maxSize 2000 in
theorem reads_keep_acknowledged_sample : ∃ s a, runActs Steady.check {} servedActs = some s ∧
    a ∈ s.answers ∧ a.result = .ok [2] ∧ a.call.acked.length = 2 ∧ a.Effect s.hist := by
  obtain ⟨s, hs, a, ha, hn, hres, hacked⟩ : ∃ s, runActs Steady.check {} servedActs = some s ∧
      ∃ a ∈ s.answers, a.call.snapshot.isNone = true ∧ a.result.toOption = some [2] ∧
        a.call.acked.length = 2 := by
    decide +kernel
  have hok : a.result = .ok [2] := by
    cases hr : a.result with
    | error e => simp [hr, Except.toOption] at hres
    | ok v => simpa [hr, Except.toOption] using hres
  exact ⟨s, a, hs, ha, hok, hacked,
    reads_keep_acknowledged (Run.of_steady .refl hs) ha (Option.isNone_iff_eq_none.1 hn)⟩

end Sample

end LsmKv
