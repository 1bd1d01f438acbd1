import LsmKv.Syncs

namespace LsmKv
set_option autoImplicit true

open Wal (Group)

/-- The call changes no log from number `n` on. -/
def Io.Spares (n : Nat) (op : Io) : Prop := ∀ k, n ≤ k → FileName.log k ∉ op.names

def Phase.Spares (n : Nat) : Phase → Prop
  | cleanup _ logNumber next => logNumber ≤ n ∧ next = commitDone
  | logOpened _ => False
  | recovered => False
  | _ => True

/-- A flush or a compaction that leaves the logs from `n` on alone, now and later. -/
structure Job.Spares (n : Nat) (j : Job) : Prop where
  io : ∀ op ∈ j.io, op.Spares n
  phase : j.phase.Spares n

/-- A new log that is being opened. -/
def Creates (fs : DbFs) (n : Nat) (io : List Io) : Prop :=
  (∃ trunc rest, io = .openFile (.log n) trunc :: rest ∧
      ∀ op ∈ rest, ∃ bytes, op = .append (.log n) bytes) ∨
    fs.read (.log n) ≠ none ∧ ∀ op ∈ io, ∃ bytes, op = .append (.log n) bytes

structure HasLog (s : Sys) : Prop where
  read : s.fs.read (.log s.db.logNumber) ≠ none
  lt : s.db.logNumber < s.db.nextFileNumber

/-- `Recover` from the open of its log on. -/
inductive OpensLog (s : Sys) (j : Job) : Prop where
  | opened (hp : j.phase = .logOpened n) (hle : s.db.logNumber ≤ n) (hn : n < s.db.nextFileNumber)
      (hc : Creates s.fs n j.io)
  | commit (hp : j.phase = .cleanup live log .recovered) (hl : HasLog s)
      (hle : log ≤ s.db.logNumber) (hio : ∀ op ∈ j.io, op.Spares s.db.logNumber)
  | cleanup (hp : j.phase = .recovered) (hl : HasLog s)
      (hio : ∀ op ∈ j.io, op.Spares s.db.logNumber)

/-- The memtable switch of the next leader. -/
structure Switches (s : Sys) (r : Rotation) : Prop where
  lead : s.lead = none
  log_lt : s.db.logNumber < r.number
  lt : r.number < s.db.nextFileNumber
  creates : Creates s.fs r.number r.io

/-- What the leader has written of its record ends the log in use. -/
def Appending (s : Sys) (ld : Lead) : Prop :=
  ∃ pre part, s.fs.read (.log s.db.logNumber) = some (pre ++ part) ∧
    part ++ ld.unwritten = ld.group.record

/-- The log in use stays in place, whatever is flushed, compacted and deleted. -/
structure Standing (s : Sys) : Prop where
  idle : s.mode ≠ .running → s.lead = none ∧ s.rotating = none
  closed : s.mode = .closed → s.jobs = []
  log : s.mode = .running → HasLog s
  le_next : s.db.logNumber ≤ s.db.nextFileNumber
  imm_le : s.db.immLogNumber ≤ s.db.logNumber
  rotating : ∀ r, s.rotating = some r → Switches s r
  jobs : (∀ j ∈ s.jobs, j.Spares s.db.logNumber) ∨
    s.mode = .opening ∧ s.db.imm = none ∧ ∃ j, s.jobs = [j] ∧ OpensLog s j
  lead : ∀ ld, s.lead = some ld → Appending s ld
  honours : Honours s

variable {s s' t : Sys} {a : Act} {fs fs' : DbFs} {io io' : List Io} {n : Nat} {j : Job}

section Calls

theorem Job.Spares.mono {n' : Nat} (h : j.Spares n) (hle : n ≤ n') : j.Spares n' := by
  refine ⟨fun op hop k hk => h.io op hop k (hle.trans hk), ?_⟩
  have hp := h.phase
  obtain ⟨io, phase⟩ := j
  cases phase with
  | cleanup live log next => exact ⟨hp.1.trans hle, hp.2⟩
  | logOpened n => exact hp
  | recovered => exact hp
  | _ => trivial

theorem spares_ioStep {k : Nat} (h : ioStep k fs io = some (fs', io'))
    (hio : ∀ op ∈ io, op.Spares n) : ∀ op ∈ io', op.Spares n :=
  fun op ho l hl => ioStep_names h (fun op ho => hio op ho l hl) op ho

theorem spares_writeTable (number : Nat) (file : Bytes) :
    ∀ op ∈ writeTable number file, op.Spares n := by
  intro op ho k _
  simp only [writeTable, List.mem_cons, List.not_mem_nil, or_false] at ho
  rcases ho with rfl | rfl | rfl <;> simp [Io.names]

theorem spares_writeManifest (m : Manifest) : ∀ op ∈ writeManifest m, op.Spares n := by
  intro op ho k _
  simp only [writeManifest, List.mem_cons, List.not_mem_nil, or_false] at ho
  rcases ho with rfl | rfl | rfl | rfl | rfl <;> simp [Io.names]

theorem spares_unlinks {live : Version} {log : Nat} (hle : log ≤ n) (order : List FileName) :
    ∀ op ∈ (order.filter (isObsolete live log)).map Io.unlink, op.Spares n := by
  intro op ho k hk hmem
  obtain ⟨name, hname, rfl⟩ := List.mem_map.1 ho
  obtain rfl := List.mem_singleton.1 hmem
  have hlt : k < log := of_decide_eq_true (List.mem_filter.1 hname).2
  omega

namespace Creates

theorem openLog (fs : DbFs) (n : Nat) : Creates fs n (openLog fs n) := by
  refine .inl ⟨false, _, rfl, fun op ho => ?_⟩
  split at ho
  · exact ⟨_, List.mem_singleton.1 ho⟩
  · cases ho

theorem names (h : Creates fs n io) {k : Nat} (hk : k ≠ n) :
    ∀ op ∈ io, FileName.log k ∉ op.names := by
  have happ : ∀ op, (∃ bytes, op = Io.append (.log n) bytes) → FileName.log k ∉ op.names := by
    rintro _ ⟨bytes, rfl⟩
    simpa [Io.names] using hk
  rcases h with ⟨trunc, rest, rfl, hrest⟩ | ⟨_, hio⟩
  · intro op ho
    rcases List.mem_cons.1 ho with rfl | ho
    · simpa [Io.names] using hk
    · exact happ op (hrest op ho)
  · exact fun op ho => happ op (hio op ho)

theorem frame (h : Creates fs n io) (hs : fs'.read (.log n) = fs.read (.log n)) :
    Creates fs' n io := by
  rcases h with h | ⟨hread, hio⟩
  · exact .inl h
  · exact .inr ⟨hs ▸ hread, hio⟩

theorem step {k : Nat} (h : Creates fs n io) (hs : ioStep k fs io = some (fs', io')) :
    Creates fs' n io' := by
  rcases h with ⟨trunc, rest, rfl, hrest⟩ | ⟨hread, hio⟩
  · cases hs
    refine .inr ⟨?_, hrest⟩
    rw [Io.run, Fs.read_openFile, if_pos rfl]
    cases trunc <;> simp
  · have hgrown : ∀ bytes, (fs.append (.log n) bytes).read (.log n) ≠ none := fun bytes => by
      rw [Fs.read_append, if_pos rfl]
      simpa using hread
    rcases ioStep_cases hs with ⟨op, rfl, rfl⟩ | ⟨name, bytes, rest, rfl, _, _, rfl, rfl⟩
    · obtain ⟨bytes, rfl⟩ := hio op List.mem_cons_self
      exact .inr ⟨hgrown bytes, fun op ho => hio op (List.mem_cons_of_mem _ ho)⟩
    · obtain ⟨_, he⟩ := hio _ List.mem_cons_self
      cases he
      refine .inr ⟨hgrown _, fun op ho => ?_⟩
      rcases List.mem_cons.1 ho with rfl | ho
      · exact ⟨_, rfl⟩
      · exact hio op (List.mem_cons_of_mem _ ho)

theorem done (h : Creates fs n []) : fs.read (.log n) ≠ none := by
  rcases h with ⟨_, _, hc, _⟩ | ⟨hread, _⟩
  · cases hc
  · exact hread

end Creates

end Calls

/-- The log in use and those after it, and who writes to them, are as they were. -/
structure SameLog (s s' : Sys) : Prop where
  mode : s'.mode = s.mode
  number : s'.db.logNumber = s.db.logNumber
  next : s.db.nextFileNumber ≤ s'.db.nextFileNumber
  rotating : s'.rotating = s.rotating
  lead : s'.lead = s.lead
  options : s'.db.options = s.db.options
  stat : ∀ k, s.db.logNumber ≤ k → s'.fs.stat (.log k) = s.fs.stat (.log k)

theorem SameLog.read (h : SameLog s s') {k : Nat} (hk : s.db.logNumber ≤ k) :
    s'.fs.read (.log k) = s.fs.read (.log k) := by
  rw [Fs.read_eq_stat, Fs.read_eq_stat, h.stat k hk]

theorem HasLog.same (h : HasLog s) (hs : SameLog s s') : HasLog s' where
  read := by
    rw [hs.number, hs.read le_rfl]
    exact h.read
  lt := by
    rw [hs.number]
    exact h.lt.trans_le hs.next

theorem Switches.same {r : Rotation} (h : Switches s r) (hs : SameLog s s') : Switches s' r where
  lead := hs.lead.trans h.lead
  log_lt := hs.number ▸ h.log_lt
  lt := h.lt.trans_le hs.next
  creates := h.creates.frame (hs.read h.log_lt.le)

theorem Appending.same {ld : Lead} (h : Appending s ld) (hs : SameLog s s') : Appending s' ld := by
  rw [Appending, hs.number, hs.read le_rfl]
  exact h

theorem OpensLog.same (h : OpensLog s j) (hs : SameLog s s') (hfs : s'.fs = s.fs) :
    OpensLog s' j := by
  cases h with
  | opened hp hle hn hc =>
    exact .opened hp (hs.number ▸ hle) (hn.trans_le hs.next) (hfs ▸ hc)
  | commit hp hl hle hio => exact .commit hp (hl.same hs) (hs.number ▸ hle) (hs.number ▸ hio)
  | cleanup hp hl hio => exact .cleanup hp (hl.same hs) (hs.number ▸ hio)

/-- What a flush or a compaction leaves when it goes on, or fails, between two system calls. -/
structure GoesOn (s t : Sys) (next : Option Job) : Prop where
  number : t.db.logNumber = s.db.logNumber
  imm_le : t.db.immLogNumber ≤ s.db.logNumber
  ends : t.mode = s.mode ∧ t.jobs = s.jobs ∨ s.mode = .opening ∧ t.mode = .closed ∧ t.jobs = []
  spares : ∀ j, next = some j → j.Spares s.db.logNumber

namespace GoesOn

variable {next : Option Job}

theorem of_same (hm : t.mode = s.mode) (hj : t.jobs = s.jobs)
    (hn : t.db.logNumber = s.db.logNumber) (hi : t.db.immLogNumber ≤ s.db.logNumber)
    (hnext : ∀ j, next = some j → j.Spares s.db.logNumber) : GoesOn s t next :=
  ⟨hn, hi, .inl ⟨hm, hj⟩, hnext⟩

theorem fail (hm : t.mode = s.mode) (hj : t.jobs = s.jobs)
    (hn : t.db.logNumber = s.db.logNumber) (hi : t.db.immLogNumber ≤ s.db.logNumber)
    (status : Status) : GoesOn s (t.fail status) none := by
  rw [Sys.fail]
  split
  · exact ⟨hn, hi, .inr ⟨hm.symm.trans ‹_›, rfl, rfl⟩, fun _ hc => (by cases hc)⟩
  · exact ⟨hn, hi, .inl ⟨hm, hj⟩, fun _ hc => (by cases hc)⟩

theorem commitBegin (hm : t.mode = s.mode) (hj : t.jobs = s.jobs)
    (hn : t.db.logNumber = s.db.logNumber) (hi : t.db.immLogNumber ≤ s.db.logNumber)
    (v : Version) : GoesOn s (t.commitBegin v).1 (t.commitBegin v).2 := by
  refine .of_same hm hj hn hi fun j hj => ?_
  cases hj
  refine ⟨spares_writeManifest _, ?_, rfl⟩
  show (if t.db.imm.isSome then t.db.immLogNumber else t.db.logNumber) ≤ _
  split
  · exact hi
  · exact hn.le

theorem commitVersion (hm : t.mode = s.mode) (hj : t.jobs = s.jobs)
    (hn : t.db.logNumber = s.db.logNumber) (hi : t.db.immLogNumber ≤ s.db.logNumber)
    (v : Version) : GoesOn s (t.commitVersion v).1 (t.commitVersion v).2 := by
  rw [Sys.commitVersion]
  split
  · refine .of_same hm hj hn hi fun j hj => ?_
    cases hj
    exact ⟨fun op ho => (by cases ho), trivial⟩
  · exact .commitBegin hm hj hn hi v

theorem phaseStep (hs : s.phaseStep order phase = some (t, next))
    (hp : phase.Spares s.db.logNumber) (hi : s.db.immLogNumber ≤ s.db.logNumber) :
    GoesOn s t next := by
  have hnil : ∀ {p : Phase} j, some (⟨[], p⟩ : Job) = some j → p.Spares s.db.logNumber →
      j.Spares s.db.logNumber := by
    intro p j hj hp
    cases hj
    exact ⟨fun op ho => (by cases ho), hp⟩
  cases phase with
  | flushOpen number b =>
    rw [Sys.phaseStep] at hs
    split at hs <;> cases hs
    · exact .fail rfl rfl rfl hi _
    · exact .of_same rfl rfl rfl hi fun j hj => hnil j hj trivial
  | flushInstall f =>
    rw [Sys.phaseStep] at hs
    split at hs
    · obtain ⟨rfl, rfl⟩ := Prod.ext_iff.1 (Option.some.inj hs)
      refine .commitVersion ?_ ?_ ?_ ?_ _
      exacts [rfl, rfl, rfl, Nat.zero_le _]
    · cases hs
  | compactMerge c =>
    simp only [Sys.phaseStep] at hs
    generalize c.merge.run s.store = p at hs
    obtain ⟨⟨recs, status⟩, store⟩ := p
    dsimp only at hs
    split at hs <;> cases hs
    · exact .of_same rfl rfl rfl hi fun j hj => hnil j hj trivial
    · refine .fail ?_ ?_ ?_ ?_ _
      exacts [rfl, rfl, rfl, hi]
  | compactNext c todo outputs =>
    cases todo with
    | nil =>
      rw [Sys.phaseStep] at hs
      split at hs
      · obtain ⟨rfl, rfl⟩ := Prod.ext_iff.1 (Option.some.inj hs)
        exact .commitVersion rfl rfl rfl hi _
      · cases hs
    | cons b todo =>
      rw [Sys.phaseStep] at hs
      split at hs <;> cases hs
      refine .of_same rfl rfl rfl hi fun j hj => ?_
      cases hj
      exact ⟨spares_writeTable _ _, trivial⟩
  | compactOpen c number b todo outputs =>
    rw [Sys.phaseStep] at hs
    split at hs <;> cases hs
    · exact .fail rfl rfl rfl hi _
    · exact .of_same rfl rfl rfl hi fun j hj => hnil j hj trivial
  | commitWait v =>
    rw [Sys.phaseStep] at hs
    split at hs
    · obtain ⟨rfl, rfl⟩ := Prod.ext_iff.1 (Option.some.inj hs)
      exact .commitBegin rfl rfl rfl hi v
    · cases hs
  | cleanup live log after =>
    obtain ⟨hle, rfl⟩ := hp
    rw [Sys.phaseStep] at hs
    split at hs <;> cases hs
    refine .of_same rfl rfl rfl hi fun j hj => ?_
    cases hj
    exact ⟨spares_unlinks hle order, trivial⟩
  | commitDone =>
    rw [Sys.phaseStep] at hs
    split at hs <;> cases hs
    exact .of_same rfl rfl rfl hi fun _ hc => (by cases hc)
  | logOpened number => exact hp.elim
  | recovered => exact hp.elim

end GoesOn

namespace Standing

theorem same (h : Standing s) (hs : SameLog s s') (hi : s'.db.immLogNumber ≤ s.db.logNumber)
    (hc : s'.mode = .closed → s'.jobs = [])
    (hj : (∀ j ∈ s'.jobs, j.Spares s.db.logNumber) ∨
      s'.mode = .opening ∧ s'.db.imm = none ∧ ∃ j, s'.jobs = [j] ∧ OpensLog s' j) :
    Standing s' where
  idle := by
    rw [hs.mode, hs.lead, hs.rotating]
    exact h.idle
  closed := hc
  log hm := (h.log (hs.mode ▸ hm)).same hs
  le_next := hs.number ▸ h.le_next.trans hs.next
  imm_le := hs.number ▸ hi
  rotating r hr := (h.rotating r (hs.rotating ▸ hr)).same hs
  jobs := hs.number ▸ hj
  lead ld hl := (h.lead ld (hs.lead ▸ hl)).same hs
  honours := h.honours.of_same hs.lead hs.options hs.number (hs.stat _ le_rfl)

/-- A step that leaves the files and the jobs alone. -/
theorem calm (h : Standing s) (hs : SameLog s s') (hfs : s'.fs = s.fs) (hj : s'.jobs = s.jobs)
    (hi : s'.db.immLogNumber = s.db.immLogNumber) (him : s'.db.imm = s.db.imm) : Standing s' := by
  refine h.same hs (hi ▸ h.imm_le) (fun hm => hj ▸ h.closed (hs.mode ▸ hm)) ?_
  rw [hj, hs.mode, him]
  refine h.jobs.imp_right ?_
  rintro ⟨hm, hnone, j, hjobs, ho⟩
  exact ⟨hm, hnone, j, hjobs, ho.same hs hfs⟩

theorem of_closed (hm : s.mode = .closed) (hl : s.lead = none) (hr : s.rotating = none)
    (hj : s.jobs = []) (hx : s.db.logNumber ≤ s.db.nextFileNumber)
    (hi : s.db.immLogNumber ≤ s.db.logNumber) : Standing s where
  idle _ := ⟨hl, hr⟩
  closed _ := hj
  log hrun := by cases hm.symm.trans hrun
  le_next := hx
  imm_le := hi
  rotating r hsome := by cases hr.symm.trans hsome
  jobs := .inl (by simp [hj])
  lead ld hsome := by cases hl.symm.trans hsome
  honours := .of_none hl

theorem kill (s : Sys) : Standing s.kill := of_closed rfl rfl rfl rfl (Nat.zero_le _) le_rfl

theorem recover (h : Standing s) (hs : s.recover options path = some s') : Standing s' := by
  obtain ⟨hm, ⟨_, rfl⟩ | ⟨_, _, _, _, rfl⟩⟩ := Sys.recover_cases hs
  · exact h.calm ⟨rfl, rfl, le_rfl, rfl, rfl, rfl, fun _ _ => rfl⟩ rfl rfl rfl rfl
  · obtain ⟨hl, hr⟩ := h.idle (by simp [hm])
    exact {
      idle := fun _ => ⟨hl, hr⟩
      closed := fun hc => (by cases hc)
      log := fun hc => (by cases hc)
      le_next := Nat.zero_le _
      imm_le := le_rfl
      rotating := fun r hsome => by cases hr.symm.trans hsome
      jobs := .inl fun j hj => by
        have hj : j ∈ s.jobs := hj
        rw [h.closed hm] at hj
        cases hj
      lead := fun ld hsome => by cases hl.symm.trans hsome
      honours := .of_none hl }

/-- With the log in use there are no jobs but flushes and compactions. -/
theorem spares (h : Standing s) (hm : s.mode = .running) : ∀ j ∈ s.jobs, j.Spares s.db.logNumber :=
  h.jobs.resolve_right fun ho => by cases hm.symm.trans ho.1

theorem running_of_lead (h : Standing s) (hl : s.lead ≠ none) : s.mode = .running := by
  by_contra hm
  exact hl (h.idle hm).1

theorem running_of_rotating (h : Standing s) (hr : s.rotating ≠ none) : s.mode = .running := by
  by_contra hm
  exact hr (h.idle hm).2

theorem of_running (hm : s.mode = .running) (hlog : HasLog s)
    (hi : s.db.immLogNumber ≤ s.db.logNumber) (hr : ∀ r, s.rotating = some r → Switches s r)
    (hj : ∀ j ∈ s.jobs, j.Spares s.db.logNumber) (hl : ∀ ld, s.lead = some ld → Appending s ld)
    (hh : Honours s) : Standing s where
  idle hne := absurd hm hne
  closed hc := by cases hm.symm.trans hc
  log _ := hlog
  le_next := hlog.lt.le
  imm_le := hi
  rotating := hr
  jobs := .inl hj
  lead := hl
  honours := hh

theorem rotate (h : Standing s) (hs : s.rotate false = some s') : Standing s' := by
  obtain ⟨hm, _, _, _, hwho, rfl⟩ := Sys.rotate_cases hs
  have hl : s.lead = none := by
    rcases hwho with hc | ⟨hl, _⟩
    · cases hc
    · exact hl
  have hlog := h.log hm
  refine .of_running hm ⟨hlog.read, hlog.lt.trans (Nat.lt_succ_self _)⟩ h.imm_le ?_ (h.spares hm)
    (fun ld hsome => by cases hl.symm.trans hsome) (.of_none hl)
  intro r hr
  cases hr
  exact ⟨hl, hlog.lt, Nat.lt_succ_self _, .openLog _ _⟩

theorem rotateIo (h : Standing s) (hs : s.rotateIo n = some s') : Standing s' := by
  obtain ⟨r, fs, io, hr, hio, rfl⟩ := Sys.rotateIo_cases hs
  have hm := h.running_of_rotating (by simp [hr])
  have hsw := h.rotating r hr
  have hread : fs.read (.log s.db.logNumber) = s.fs.read (.log s.db.logNumber) :=
    read_ioStep hio (hsw.creates.names hsw.log_lt.ne)
  refine .of_running hm ⟨hread.symm ▸ (h.log hm).read, (h.log hm).lt⟩ h.imm_le ?_ (h.spares hm)
    (fun ld hsome => by cases hsw.lead.symm.trans hsome) (.of_none hsw.lead)
  intro r' hr'
  cases hr'
  exact ⟨hsw.lead, hsw.log_lt, hsw.lt, hsw.creates.step hio⟩

theorem failRotate (h : Standing s) (hs : s.failRotate n = some s') : Standing s' := by
  obtain ⟨r, fs, hr, hio, rfl⟩ := Sys.failRotate_cases hs
  have hm := h.running_of_rotating (by simp [hr])
  have hsw := h.rotating r hr
  have hread : fs.read (.log s.db.logNumber) = s.fs.read (.log s.db.logNumber) :=
    read_failIo hio (hsw.creates.names hsw.log_lt.ne)
  exact .of_running hm ⟨hread.symm ▸ (h.log hm).read, (h.log hm).lt⟩ h.imm_le
    (fun r hc => by cases hc) (h.spares hm) (fun ld hsome => by cases hsw.lead.symm.trans hsome)
    (.of_none hsw.lead)

theorem rotateSwap (h : Standing s) (hs : s.rotateSwap = some s') : Standing s' := by
  obtain ⟨r, hr, hio, _, rfl⟩ := Sys.rotateSwap_cases hs
  have hm := h.running_of_rotating (by simp [hr])
  have hsw := h.rotating r hr
  have hnew := hsw.creates
  rw [hio] at hnew
  exact .of_running hm ⟨hnew.done, hsw.lt⟩ hsw.log_lt.le (fun r hc => by cases hc)
    (fun j hj => (h.spares hm j hj).mono hsw.log_lt.le)
    (fun ld hsome => by cases hsw.lead.symm.trans hsome) (.of_none hsw.lead)

theorem begin (h : Standing s) (hs : s.begin elapsed = some s') : Standing s' := by
  have hh := Honours.begin hs
  obtain ⟨hm, hr, hl, w, ws, _, ⟨_, rfl⟩ | ⟨_, rfl⟩⟩ := Sys.begin_cases hs
  · exact h.calm ⟨rfl, rfl, le_rfl, rfl, rfl, rfl, fun _ _ => rfl⟩ rfl rfl rfl rfl
  · refine .of_running hm ⟨(h.log hm).read, (h.log hm).lt⟩ h.imm_le
      (fun r hsome => by cases hr.symm.trans hsome) (h.spares hm) (fun ld hsome => ?_) hh
    cases hsome
    obtain ⟨_, _, hbatch⟩ := Writer.buildBatchGroup_spec w ws
    obtain ⟨bytes, hbytes⟩ := Option.ne_none_iff_exists'.1 (h.log hm).read
    refine ⟨bytes, [], ?_, ?_⟩
    · rw [List.append_nil]
      exact hbytes
    · show [] ++ Wal.record _ _ = Wal.record _ _
      rw [hbatch]
      rfl

/-- The leader goes on, and has perhaps put bytes at the end of the log in use. -/
theorem leads (h : Standing s) (hl : s.lead = some ld) (hm : s'.mode = s.mode)
    (hn : s'.db.logNumber = s.db.logNumber) (hx : s'.db.nextFileNumber = s.db.nextFileNumber)
    (hi : s'.db.immLogNumber = s.db.immLogNumber) (hr : s'.rotating = s.rotating)
    (hj : s'.jobs = s.jobs) (bytes : Bytes) (hread : s'.fs.read (.log s.db.logNumber) =
      (s.fs.read (.log s.db.logNumber)).map (· ++ bytes))
    (hlead : ∀ ld', s'.lead = some ld' →
      ld'.group = ld.group ∧ bytes ++ ld'.unwritten = ld.unwritten)
    (hh : Honours s') : Standing s' := by
  have hrun := h.running_of_lead (by simp [hl])
  refine .of_running (hm.trans hrun) ⟨?_, ?_⟩ ?_ (fun r hsome => ?_) ?_ (fun ld' hl' => ?_) hh
  · rw [hn, hread]
    simpa using (h.log hrun).read
  · rw [hn, hx]
    exact (h.log hrun).lt
  · rw [hn, hi]
    exact h.imm_le
  · cases hl.symm.trans (h.rotating r (hr ▸ hsome)).lead
  · rw [hj, hn]
    exact h.spares hrun
  · obtain ⟨hg, hu⟩ := hlead ld' hl'
    obtain ⟨pre, part, hfile, hrec⟩ := h.lead ld hl
    refine ⟨pre, part ++ bytes, ?_, ?_⟩
    · rw [hn, hread, hfile, Option.map_some, List.append_assoc]
    · rw [List.append_assoc, hu, hrec, hg]

theorem writer (h : Standing s) (hs : LsmKv.step s a = some s') (hw : a.ofWriter)
    (hf : a ≠ .rotate true) : Standing s' := by
  have happend : ∀ bytes, (s.fs.append (.log s.db.logNumber) bytes).read (.log s.db.logNumber) =
      (s.fs.read (.log s.db.logNumber)).map (· ++ bytes) := fun bytes => by
    rw [Fs.read_append, if_pos rfl]
  have hkeep : s.fs.read (.log s.db.logNumber) =
      (s.fs.read (.log s.db.logNumber)).map (· ++ []) := by
    simp
  cases a with
  | write id entries sync =>
    obtain ⟨_, _, _, rfl⟩ := Sys.write_cases hs
    exact h.calm ⟨rfl, rfl, le_rfl, rfl, rfl, rfl, fun _ _ => rfl⟩ rfl rfl rfl rfl
  | rotate byFlush =>
    cases byFlush with
    | true => exact absurd rfl hf
    | false => exact h.rotate hs
  | rotateIo n => exact h.rotateIo hs
  | rotateSwap => exact h.rotateSwap hs
  | begin elapsed => exact h.begin hs
  | append n =>
    have hh := h.honours.append hs
    obtain ⟨ld, hl, _, ⟨_, _, rfl⟩ | rfl⟩ := Sys.append_cases hs
    · refine h.leads hl rfl rfl rfl rfl rfl rfl _ (happend _) (fun ld' hl' => ?_) hh
      cases hl'
      exact ⟨rfl, List.take_append_drop _ _⟩
    · refine h.leads hl rfl rfl rfl rfl rfl rfl _ (happend _) (fun ld' hl' => ?_) hh
      cases hl'
      exact ⟨rfl, List.append_nil _⟩
  | syncLog =>
    have hh := Honours.syncLog hs
    obtain ⟨ld, hl, _, _, rfl⟩ := Sys.syncLog_cases hs
    refine h.leads hl rfl rfl rfl rfl rfl rfl [] ((Fs.read_fsync _ _ _).trans hkeep)
      (fun ld' hl' => ?_) hh
    cases hl'
    exact ⟨rfl, rfl⟩
  | insert =>
    have hh := h.honours.insert hs
    obtain ⟨ld, _, _, hl, _, _, _, rfl⟩ := Sys.insert_cases hs
    refine h.leads hl rfl rfl rfl rfl rfl rfl [] hkeep (fun ld' hl' => ?_) hh
    cases hl'
    exact ⟨rfl, rfl⟩
  | finish =>
    obtain ⟨ld, hl, _, _, _, _, _, rfl⟩ := Sys.finish_cases hs
    exact h.leads hl rfl rfl rfl rfl rfl rfl [] hkeep (fun ld' hc => by cases hc) (.of_none rfl)
  | failAppend n =>
    obtain ⟨ld, hl, _, _, rfl⟩ := Sys.failAppend_cases hs
    exact h.leads hl rfl rfl rfl rfl rfl rfl _ (happend _) (fun ld' hc => by cases hc)
      (.of_none rfl)
  | failSync =>
    obtain ⟨ld, hl, _, _, _, rfl⟩ := Sys.failSync_cases hs
    exact h.leads hl rfl rfl rfl rfl rfl rfl [] hkeep (fun ld' hc => by cases hc) (.of_none rfl)
  | failRotate n => exact h.failRotate hs
  | _ => cases hw

theorem of_opening (hm : s.mode = .opening) (hl : s.lead = none) (hr : s.rotating = none)
    (hx : s.db.logNumber ≤ s.db.nextFileNumber) (hi : s.db.immLogNumber ≤ s.db.logNumber)
    (him : s.db.imm = none) (hj : s.jobs = [j]) (ho : OpensLog s j) : Standing s where
  idle _ := ⟨hl, hr⟩
  closed hc := by cases hm.symm.trans hc
  log hc := by cases hm.symm.trans hc
  le_next := hx
  imm_le := hi
  rotating r hsome := by cases hr.symm.trans hsome
  jobs := .inr ⟨hm, him, j, hj, ho⟩
  lead ld hsome := by cases hl.symm.trans hsome
  honours := .of_none hl

theorem mem_setJob {next : Option Job} {jobs : List Job} (h : j ∈ Sys.setJob jobs i next) :
    j ∈ jobs ∨ next = some j := by
  cases next with
  | none => exact .inl (List.mem_of_mem_eraseIdx h)
  | some k => exact (List.mem_or_eq_of_mem_set h).imp_right fun he => congrArg some he.symm

/-- A thread of a flush or a compaction between two system calls. -/
theorem work_phase (h : Standing s) (hs : s.jobStep i n order = some s') (hj : s.jobs[i]? = some j)
    (hsp : ∀ j ∈ s.jobs, j.Spares s.db.logNumber) {next : Option Job}
    (hp : s.phaseStep order j.phase = some (t, next))
    (he : s' = { t with jobs := Sys.setJob t.jobs i next }) : Standing s' := by
  have hmem : j ∈ s.jobs := List.mem_of_getElem? hj
  have hlead : s'.lead = s.lead :=
    Sys.kept_job (a := .job i n order) hs trivial Sys.lead fun _ => rfl
  have hrot : s'.rotating = s.rotating :=
    Sys.kept_job (a := .job i n order) hs trivial Sys.rotating fun _ => rfl
  have hopt : s'.db.options = s.db.options :=
    Sys.kept_job (a := .job i n order) hs trivial (·.db.options) fun _ => rfl
  have hg := GoesOn.phaseStep hp (hsp j hmem).phase h.imm_le
  have hfs := (Sys.phaseStep_keeps hp).1
  have hnext := (Onward.phaseStep (p := True) hp).next_le
  subst he
  rcases hg.ends with ⟨hm, hjobs⟩ | ⟨hm, hm', hjobs⟩
  · refine h.same ⟨hm, hg.number, hnext, hrot, hlead, hopt, fun k _ => congrArg (Fs.stat · _) hfs⟩
      hg.imm_le (fun hc => ?_) (.inl fun j' hj' => ?_)
    · have hnil := h.closed (hm.symm.trans hc)
      rw [hnil] at hmem
      cases hmem
    · rcases mem_setJob hj' with hj' | hj'
      · exact hsp j' (hjobs ▸ hj')
      · exact hg.spares j' hj'
  · obtain ⟨hl, hr⟩ := h.idle (by simp [hm])
    refine .of_closed hm' (hlead.trans hl) (hrot.trans hr) ?_ ?_ ?_
    · show Sys.setJob t.jobs i next = []
      rw [hjobs]
      cases next <;> rfl
    · show t.db.logNumber ≤ t.db.nextFileNumber
      rw [hg.number]
      exact h.le_next.trans hnext
    · show t.db.immLogNumber ≤ t.db.logNumber
      rw [hg.number]
      exact hg.imm_le

/-- A system call of a flush or a compaction. -/
theorem work_call {fs : DbFs} (h : Standing s) (hj : s.jobs[i]? = some j)
    (hsp : ∀ j ∈ s.jobs, j.Spares s.db.logNumber) (hio : ioStep n s.fs j.io = some (fs, io)) :
    Standing { s with fs := fs, jobs := s.jobs.set i { j with io := io } } := by
  have hmem : j ∈ s.jobs := List.mem_of_getElem? hj
  refine h.same ⟨rfl, rfl, le_rfl, rfl, rfl, rfl, fun k hk => ?_⟩ h.imm_le (fun hm => ?_)
    (.inl fun j' hj' => ?_)
  · exact stat_ioStep hio fun op ho => (hsp j hmem).io op ho k hk
  · rw [h.closed hm] at hmem
    cases hmem
  · rcases List.mem_or_eq_of_mem_set hj' with hj' | rfl
    · exact hsp j' hj'
    · exact ⟨spares_ioStep hio (hsp j hmem).io, (hsp j hmem).phase⟩

/-- `Recover` after the open of its log, between two system calls. -/
theorem opens_phase {next : Option Job} (h : Standing s) (hm : s.mode = .opening)
    (him : s.db.imm = none) (hj : s.jobs = [j]) (ho : OpensLog s j) (hio : j.io = [])
    (hp : s.phaseStep order j.phase = some (t, next)) :
    Standing { t with jobs := Sys.setJob t.jobs 0 next } := by
  obtain ⟨hl, hr⟩ := h.idle (by simp [hm])
  cases ho with
  | @opened number hphase hle hn hc =>
    rw [hphase] at hp
    rw [hio] at hc
    cases hp
    refine .of_opening hm hl hr hn.le (h.imm_le.trans hle) him (congrArg (List.set · 0 _) hj) ?_
    refine .commit rfl ⟨hc.done, hn⟩ ?_ (spares_writeManifest _)
    show (if s.db.imm.isSome then _ else number) ≤ number
    rw [him]
    rfl
  | commit hphase hlog hle _ =>
    rw [hphase, Sys.phaseStep] at hp
    split at hp <;> cases hp
    exact .of_opening hm hl hr h.le_next h.imm_le him (congrArg (List.set · 0 _) hj)
      (.cleanup rfl ⟨hlog.read, hlog.lt⟩ (spares_unlinks hle order))
  | cleanup hphase hlog _ =>
    rw [hphase] at hp
    cases hp
    refine .of_running rfl ⟨hlog.read, hlog.lt⟩ h.imm_le
      (fun r hsome => by cases hr.symm.trans hsome) (fun j' hj' => ?_)
      (fun ld hsome => by cases hl.symm.trans hsome) (.of_none hl)
    have hj' : j' ∈ s.jobs.eraseIdx 0 := hj'
    rw [hj] at hj'
    cases hj'

theorem opens_call {fs : DbFs} (h : Standing s) (hm : s.mode = .opening) (him : s.db.imm = none)
    (hj : s.jobs = [j]) (ho : OpensLog s j) (hio : ioStep n s.fs j.io = some (fs, io)) :
    Standing { s with fs := fs, jobs := s.jobs.set 0 { j with io := io } } := by
  obtain ⟨hl, hr⟩ := h.idle (by simp [hm])
  have hread : HasLog s → (∀ op ∈ j.io, op.Spares s.db.logNumber) →
      HasLog { s with fs := fs, jobs := s.jobs.set 0 { j with io := io } } := fun hlog hsp => by
    refine ⟨?_, hlog.lt⟩
    show fs.read _ ≠ none
    rw [read_ioStep hio fun op ho => hsp op ho _ le_rfl]
    exact hlog.read
  refine .of_opening hm hl hr h.le_next h.imm_le him (congrArg (List.set · 0 _) hj) ?_
  cases ho with
  | opened hphase hle hn hc => exact .opened hphase hle hn (hc.step hio)
  | commit hphase hlog hle hsp =>
    exact .commit hphase (hread hlog hsp) hle (spares_ioStep hio hsp)
  | cleanup hphase hlog hsp => exact .cleanup hphase (hread hlog hsp) (spares_ioStep hio hsp)

theorem failJob (h : Standing s) (hs : s.failJob i n = some s') : Standing s' := by
  obtain ⟨j, fs, t, hj, _, hrot, hcall, ht, rfl⟩ := Sys.failJob_cases hs
  have hphase : ∀ k, t.fs.stat (.log k) = fs.stat (.log k) := fun k =>
    Sys.stat_failPhase ht (by cases j.phase <;> simp [Phase.table])
  obtain ⟨db, ⟨c, rfl⟩, what, hfail⟩ := Sys.failPhase_cases ht
  rw [Sys.fail] at hfail
  split at hfail
  · rename_i hm
    obtain ⟨hl, hr⟩ := h.idle (by simp [show s.mode = .opening from hm])
    rw [hfail]
    exact .of_closed rfl hl hr rfl h.le_next h.imm_le
  · rename_i hm
    have hsp : ∀ j ∈ s.jobs, j.Spares s.db.logNumber := h.jobs.resolve_right fun ho => hm ho.1
    rw [hfail]
    refine h.same ⟨rfl, rfl, le_rfl, rfl, rfl, rfl, fun k hk => ?_⟩ h.imm_le (fun hc => ?_)
      (.inl fun j' hj' => hsp j' (List.mem_of_mem_eraseIdx hj'))
    · exact (hphase k).trans (stat_failCall hcall fun op ho =>
        (hsp j (List.mem_of_getElem? hj)).io op ho k hk)
    · show s.jobs.eraseIdx i = []
      rw [h.closed hc]
      rfl

theorem job (h : Standing s) (hs : LsmKv.step s a = some s') (ha : a.ofJob) : Standing s' := by
  cases a with
  | startFlush =>
    obtain ⟨imm, him, hstart, rfl⟩ := Sys.startFlush_cases hs
    have hopen : s.mode ≠ .closed := by
      simp only [Sys.mayStart, Bool.and_eq_true] at hstart
      exact (Sys.unlocked_iff.1 hstart.1.1).1
    have hsp : ∀ j ∈ s.jobs, j.Spares s.db.logNumber := h.jobs.resolve_right fun ho => by
      cases him.symm.trans ho.2.1
    refine h.same ⟨rfl, rfl, Nat.le_succ _, rfl, rfl, rfl, fun _ _ => rfl⟩ h.imm_le
      (fun hm => absurd hm hopen) (.inl fun j hj => ?_)
    rcases List.mem_append.1 hj with hj | hj
    · exact hsp j hj
    · rw [List.mem_singleton.1 hj]
      exact ⟨spares_writeTable _ _, trivial⟩
  | startCompaction level =>
    obtain ⟨hm, _, _, db, c, hb, rfl⟩ := Sys.startCompaction_cases hs
    obtain ⟨_, pointer, rfl⟩ := Db.beginCompaction_db hb
    refine h.same ⟨rfl, rfl, le_rfl, rfl, rfl, rfl, fun _ _ => rfl⟩ h.imm_le
      (fun hc => by cases hm.symm.trans hc) (.inl fun j hj => ?_)
    rcases List.mem_append.1 hj with hj | hj
    · exact h.spares hm j hj
    · rw [List.mem_singleton.1 hj]
      exact ⟨fun op ho => (by cases ho), trivial⟩
  | startLog =>
    obtain ⟨hm, _, him, rfl⟩ := Sys.startLog_cases hs
    obtain ⟨hl, hr⟩ := h.idle (by simp [hm])
    exact .of_opening hm hl hr (h.le_next.trans (Nat.le_succ _)) h.imm_le him rfl
      (.opened rfl h.le_next (Nat.lt_succ_self _) (.openLog _ _))
  | job i n order =>
    obtain ⟨j, hj, hcase⟩ := Sys.jobStep_cases hs
    rcases h.jobs with hsp | ⟨hm, him, j₀, hjobs, ho⟩
    · rcases hcase with ⟨_, t, next, hp, he⟩ | ⟨fs, io, hio, rfl⟩
      · exact h.work_phase hs hj hsp hp he
      · exact h.work_call hj hsp hio
    · have hj' := hj
      rw [hjobs] at hj'
      obtain ⟨rfl, rfl⟩ : i = 0 ∧ j₀ = j := by
        cases i with
        | zero => exact ⟨rfl, Option.some.inj hj'⟩
        | succ i => cases hj'
      rcases hcase with ⟨hio, t, next, hp, rfl⟩ | ⟨fs, io, hio, rfl⟩
      · exact h.opens_phase hm him hjobs ho hio hp
      · exact h.opens_call hm him hjobs ho hio
  | failJob i n => exact h.failJob hs
  | _ => cases ha

theorem step (h : Standing s) (hs : LsmKv.step s a = some s') (hf : a ≠ .rotate true) :
    Standing s' := by
  by_cases hj : a.ofJob
  · exact h.job hs hj
  by_cases hw : a.ofWriter
  · exact h.writer hs hw hf
  by_cases ha : a.internal
  · have hkept : ∀ {α : Type} (f : Sys → α), (∀ s, f s.unread = f s) → f s' = f s := fun f hf =>
      Sys.kept_read hs ha hw hj f hf
    exact h.calm ⟨hkept Sys.mode fun _ => rfl, hkept (·.db.logNumber) fun _ => rfl,
      (hkept (·.db.nextFileNumber) fun _ => rfl).ge, hkept Sys.rotating fun _ => rfl,
      hkept Sys.lead fun _ => rfl, hkept (·.db.options) fun _ => rfl,
      fun k _ => congrArg (Fs.stat · (.log k)) (hkept Sys.fs fun _ => rfl)⟩
      (hkept Sys.fs fun _ => rfl) (hkept Sys.jobs fun _ => rfl)
      (hkept (·.db.immLogNumber) fun _ => rfl) (hkept (·.db.imm) fun _ => rfl)
  · cases a with
    | kill =>
      cases hs
      exact .kill s
    | recover options path => exact h.recover hs
    | powerLoss keep cut =>
      cases hs
      exact .of_closed rfl rfl rfl rfl (Nat.zero_le _) le_rfl
    | powerLossData cut =>
      cases hs
      exact .of_closed rfl rfl rfl rfl (Nat.zero_le _) le_rfl
    | _ => exact absurd trivial ha

theorem run (h : Run (fun _ a _ => a ≠ .rotate true) {} s) : Standing s :=
  h.induct (.kill {}) fun _ _ _ ih hs hf => ih.step hs hf

end Standing

section Sample

end Sample

end LsmKv
