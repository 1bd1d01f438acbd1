import LsmKv.Disk

namespace LsmKv
set_option autoImplicit true

open Versioned
open Wal (Group)

variable {σ : Prop} {gh gh' : Ghost} {s s' : Sys} {m : Manifest} {logs : Nat → List Group}

/-- The memtables keep their logs. -/
structure SameLogs (db db' : Db) : Prop where
  logNumber : db'.logNumber = db.logNumber
  immLogNumber : db'.immLogNumber = db.immLogNumber
  imm : db'.imm = db.imm

theorem SameLogs.oldest {db db' : Db} (h : SameLogs db db') :
    db'.oldestLiveLog = db.oldestLiveLog := by
  rw [Db.oldestLiveLog, Db.oldestLiveLog, h.imm, h.immLogNumber, h.logNumber]

/-- A step that keeps what a commit is made from, and makes no older log. -/
structure Still (s s' : Sys) : Prop where
  mode : s'.mode = s.mode
  logs : ∀ n, s'.fs.read (.log n) ≠ none → s.fs.read (.log n) ≠ none ∨ s.db.oldestLiveLog ≤ n
  hist : s'.hist = s.hist
  current : s'.db.current = s.db.current
  oldest : s'.db.oldestLiveLog = s.db.oldestLiveLog
  committing : s'.db.committing = s.db.committing
  next : s.db.nextFileNumber ≤ s'.db.nextFileNumber
  opening : s.mode = .opening → s'.db.logNumber = s.db.logNumber ∧ s'.db.imm = s.db.imm ∧
    ∀ n, s'.fs.read (.log n) = s.fs.read (.log n)

theorem Aligned.mono (h : Aligned σ hist m logs N pre) (hN : N ≤ N')
    (hl : ∀ n, N ≤ n → logs n = []) : Aligned σ hist m logs N' pre :=
  { h with split := by rw [span_trim (Nat.zero_le _) hN fun n hn _ => hl n hn]; exact h.split }

theorem Settled.mono (h : Settled σ hist m logs N) (hle : m.logNumber ≤ N) (hN : N ≤ N')
    (hl : ∀ n, N ≤ n → logs n = []) : Settled σ hist m logs N' :=
  { h with live := by rw [span_trim hle hN fun n hn _ => hl n hn]; exact h.live }

theorem Pending.still (h : Pending σ s m logs io) (hst : Still s s')
    (hw : Replacing s'.fs m.encode io')
    (hl : ∀ n, s.db.nextFileNumber ≤ n → logs n = []) : Pending σ s' m logs io' where
  version := h.version.trans hst.current.symm
  fits := h.fits
  next := h.next
  log_le := h.log_le
  last := h.last
  cover := hst.hist ▸ h.cover.mono hst.next hl
  aligned hm := by
    obtain ⟨pre, ha⟩ := h.aligned (hst.mode ▸ hm)
    exact ⟨pre, hst.hist ▸ ha.mono hst.next hl⟩
  writing := hw

theorem Renamed.still (h : Renamed s m log io) (hst : Still s s') : Renamed s' m log io :=
  ⟨h.version.trans hst.current.symm, h.number, h.calls⟩

theorem Cleaning.still (h : Cleaning s m log io) (hst : Still s s')
    (hlog : log ≤ s.db.oldestLiveLog ∨ s.mode = .opening) : Cleaning s' m log io := by
  refine ⟨h.version.trans hst.current.symm, h.number, fun n hn hr => h.unlinks n hn ?_, h.below⟩
  rcases hlog with hlog | ho
  · rcases hst.logs n hr with hr | hle
    · exact hr
    · omega
  · rwa [← (hst.opening ho).2.2 n]

theorem NewLog.still (h : NewLog s logs log) (hst : Still s s') : NewLog s' logs log := by
  obtain ⟨hn, _, hr⟩ := hst.opening h.opening
  exact ⟨hst.mode.trans h.opening, h.number.trans hn.symm, h.empty, (hr log).trans h.header⟩

theorem JobDisk.still (h : JobDisk σ s m logs j) (hst : Still s s')
    (htmp : s'.fs.read .manifestTmp = s.fs.read .manifestTmp)
    (hle : m.logNumber ≤ s.db.nextFileNumber)
    (hl : ∀ n, s.db.nextFileNumber ≤ n → logs n = []) : JobDisk σ s' m logs j := by
  rw [JobDisk] at h ⊢
  have ho := hst.oldest
  split at h
  · exact h
  · exact h
  · obtain ⟨h1, h2, h3⟩ := h
    refine ⟨h1.trans ho.symm, h2, h3.imp ?_ fun h => h.still hst⟩
    rintro ⟨m', hm', hp⟩
    exact ⟨m', hm', hp.still hst (hp.writing.frame htmp) hl⟩
  · rw [ho]
    exact ⟨h.1, h.2.still hst (.inl le_rfl)⟩
  · exact ⟨hst.mode.trans h.1, h.2⟩
  · obtain ⟨h1, h2⟩ := h
    refine ⟨h1.still hst, h2.imp ?_ ?_⟩
    · rintro ⟨m', hm', hs, hp⟩
      exact ⟨m', hm', hst.hist ▸ hs.mono hp.cover.log_le hst.next hl,
        hp.still hst (hp.writing.frame htmp) hl⟩
    · rintro ⟨hs, hr⟩
      exact ⟨hst.hist ▸ hs.mono hle hst.next hl, hr.still hst⟩
  · have hn := (hst.opening h.1.opening).1
    rw [hn, hst.hist]
    exact ⟨h.1.still hst, h.2.1.mono hle hst.next hl, h.2.2.still hst (.inr h.1.opening)⟩
  · exact h

theorem LogTail.frame {lead : Option Lead} (h : LogTail fs n gs fine lead part)
    (hr : fs'.read (.log n) = fs.read (.log n)) : LogTail fs' n gs fine lead part :=
  { h with read := hr.trans h.read }

theorem OnDisk.frame (h : OnDisk σ fs hist m logs N)
    (hm : fs'.read .manifest = fs.read .manifest)
    (hlog : ∀ n, fs'.read (.log n) = fs.read (.log n))
    (hs : ∀ l, ∀ f ∈ m.version.levels l, fs'.read (.sst f.number) = fs.read (.sst f.number))
    (hN : N ≤ N') : OnDisk σ fs' hist m logs N' where
  ok := h.ok
  committed := h.committed.frame hm hs
  stored := h.stored.frame hlog hN
  cover := h.cover.mono hN h.stored.after

theorem RunDisk.oldest_le (h : RunDisk σ gh s m logs) : s.db.oldestLiveLog ≤ s.db.logNumber := by
  rw [Db.oldestLiveLog]
  split
  · rename_i hi
    exact (h.imm_lt (Option.isSome_iff_ne_none.1 hi)).le
  · exact le_rfl

theorem RunDisk.still (h : RunDisk σ gh s m logs) (hst : Still s s') (hsame : SameLogs s.db s'.db)
    (hl : ∀ n, s.db.nextFileNumber ≤ n → logs n = [])
    (hlog : s.db.logNumber < s.db.nextFileNumber)
    (hswept : s'.jobs ≠ [] ∨ s'.db.bgError.isOk = true → s.jobs ≠ [] ∨ s.db.bgError.isOk = true)
    (htail : ∃ part, LogTail s'.fs s.db.logNumber (logs s.db.logNumber)
      (s'.db.bgError.isOk = true) s'.lead part)
    (hrot : s'.rotating ≠ none → s'.db.bgError.isOk = true)
    (hf : gh'.flushed = gh.flushed) (hz : gh'.frozen = gh.frozen) : RunDisk σ gh' s' m logs where
  tail := hsame.logNumber ▸ htail
  later := hsame.logNumber ▸ h.later
  imm_lt := hsame.imm ▸ hsame.immLogNumber ▸ hsame.logNumber ▸ h.imm_lt
  mid := hsame.imm ▸ hsame.immLogNumber ▸ hsame.logNumber ▸ h.mid
  log_le := hst.oldest ▸ h.log_le
  aligned := by
    obtain ⟨pre, ha⟩ := h.aligned
    exact ⟨pre, hst.hist ▸ ha.mono hst.next hl⟩
  swept hj hc := hst.oldest ▸ h.swept (hswept hj) (hst.committing ▸ hc)
  rotating := hrot
  parts hs := by
    obtain ⟨base, h1, h2, h3⟩ := h.parts hs
    refine ⟨base, ?_, hf.trans h2, fun hi => ?_⟩
    · rw [hst.hist, hst.oldest, span_trim (h.oldest_le.trans hlog.le) hst.next
        fun n hn _ => hl n hn]
      exact h1
    · rw [hsame.immLogNumber, hz]
      exact h3 (hsame.imm ▸ hi)

theorem OpenDisk.still (h : OpenDisk σ s m logs) (hst : Still s s') (hm : s.mode = .opening)
    (hl : ∀ n, s.db.nextFileNumber ≤ n → logs n = [])
    (hmem : (s'.store.mems s'.db.mem).recs = (s.store.mems s.db.mem).recs) :
    OpenDisk σ s' m logs where
  mem_nil := hmem.trans h.mem_nil
  imm hi := by
    obtain ⟨hn, himm, _⟩ := hst.opening hm
    obtain ⟨h1, pre, h2⟩ := h.imm (himm ▸ hi)
    exact ⟨hn.trans h1, pre, hst.hist ▸ h2.mono hst.next hl⟩

theorem Disk.jobs_still (h : Disk σ gh s m logs) (hst : Still s s')
    (htmp : s'.fs.read .manifestTmp = s.fs.read .manifestTmp) (hj : j ∈ s.jobs) :
    JobDisk σ s' m logs j :=
  (h.jobs j hj).still hst htmp h.onDisk.cover.log_le h.onDisk.stored.after

theorem Disk.still (h : Disk σ gh s m logs) (hst : Still s s') (hsame : SameLogs s.db s'.db)
    (hd : OnDisk σ s'.fs s'.hist m logs s'.db.nextFileNumber)
    (hlog : s.db.logNumber < s.db.nextFileNumber)
    (hjobs : ∀ j ∈ s'.jobs, JobDisk σ s' m logs j)
    (hswept : s'.jobs ≠ [] ∨ s'.db.bgError.isOk = true → s.jobs ≠ [] ∨ s.db.bgError.isOk = true)
    (htail : s.mode = .running → ∃ part, LogTail s'.fs s.db.logNumber (logs s.db.logNumber)
      (s'.db.bgError.isOk = true) s'.lead part)
    (hrot : s.mode = .running → s'.rotating ≠ none → s'.db.bgError.isOk = true)
    (hmem : s.mode = .opening → (s'.store.mems s'.db.mem).recs = (s.store.mems s.db.mem).recs)
    (hf : gh'.flushed = gh.flushed) (hz : gh'.frozen = gh.frozen) : Disk σ gh' s' m logs where
  onDisk := hd
  jobs := hjobs
  running hm := (h.running (hst.mode ▸ hm)).still hst hsame h.onDisk.stored.after hlog hswept
    (htail (hst.mode ▸ hm)) (hrot (hst.mode ▸ hm)) hf hz
  opening hm := (h.opening (hst.mode ▸ hm)).still hst (hst.mode ▸ hm) h.onDisk.stored.after
    (hmem (hst.mode ▸ hm))

theorem Disk.keep (h : Disk σ gh s m logs) (hst : Still s s') (hsame : SameLogs s.db s'.db)
    (hd : OnDisk σ s'.fs s'.hist m logs s'.db.nextFileNumber)
    (hlog : s.db.logNumber < s.db.nextFileNumber) (hj : s'.jobs = s.jobs)
    (htmp : s'.fs.read .manifestTmp = s.fs.read .manifestTmp)
    (hbg : s'.db.bgError.isOk = true → s.db.bgError.isOk = true)
    (htail : s.mode = .running → ∃ part, LogTail s'.fs s.db.logNumber (logs s.db.logNumber)
      (s'.db.bgError.isOk = true) s'.lead part)
    (hrot : s.mode = .running → s'.rotating ≠ none → s'.db.bgError.isOk = true)
    (hmem : s.mode = .opening → (s'.store.mems s'.db.mem).recs = (s.store.mems s.db.mem).recs)
    (hf : gh'.flushed = gh.flushed) (hz : gh'.frozen = gh.frozen) : Disk σ gh' s' m logs := by
  refine h.still hst hsame hd hlog (fun j hj' => h.jobs_still hst htmp (hj ▸ hj')) ?_
    htail hrot hmem hf hz
  rw [hj]
  exact Or.imp_right hbg

theorem Still.of_read (hm : s'.mode = s.mode) (hr : ∀ name, s'.fs.read name = s.fs.read name)
    (hh : s'.hist = s.hist) (hc : s'.db.current = s.db.current) (hsame : SameLogs s.db s'.db)
    (hco : s'.db.committing = s.db.committing)
    (hn : s.db.nextFileNumber ≤ s'.db.nextFileNumber) : Still s s' :=
  ⟨hm, fun _ h => .inl (hr _ ▸ h), hh, hc, hsame.oldest, hco, hn,
    fun _ => ⟨hsame.logNumber, hsame.imm, fun _ => hr _⟩⟩

theorem OnDisk.of_read (h : OnDisk σ fs hist m logs N) (hr : ∀ name, fs'.read name = fs.read name)
    (hN : N ≤ N') : OnDisk σ fs' hist m logs N' :=
  h.frame (hr _) (fun _ => hr _) (fun _ _ _ => hr _) hN

theorem Disk.client (h : Disk σ gh s m logs) (hm : s'.mode = s.mode)
    (hr : ∀ name, s'.fs.read name = s.fs.read name) (hh : s'.hist = s.hist)
    (hc : s'.db.current = s.db.current) (hsame : SameLogs s.db s'.db)
    (hco : s'.db.committing = s.db.committing)
    (hn : s.db.nextFileNumber ≤ s'.db.nextFileNumber)
    (hlog : s.db.logNumber < s.db.nextFileNumber) (hj : s'.jobs = s.jobs)
    (he : s'.db.bgError = s.db.bgError) (hle : s'.lead = s.lead)
    (hro : s'.rotating = s.rotating)
    (hmem : s.mode = .opening → (s'.store.mems s'.db.mem).recs = (s.store.mems s.db.mem).recs) :
    Disk σ gh s' m logs :=
  h.keep (.of_read hm hr hh hc hsame hco hn) hsame (hh ▸ h.onDisk.of_read hr hn) hlog hj (hr _)
    (by rw [he]; exact id)
    (fun hm => by
      obtain ⟨part, ht⟩ := (h.running hm).tail
      rw [he, hle]
      exact ⟨part, ht.frame (hr _)⟩)
    (fun hm => by rw [he, hro]; exact (h.running hm).rotating) hmem rfl rfl

theorem LogTail.lead_congr {lead lead' : Option Lead} (h : LogTail fs n gs fine lead part)
    (hl : ∀ ld', lead' = some ld' → ∃ ld, lead = some ld ∧ ld'.unwritten = ld.unwritten ∧
      ld'.group = ld.group) (hnone : lead' = none → fine → part = []) :
    LogTail fs n gs fine lead' part :=
  { h with
    idle := hnone
    lead := fun ld' hld' => by
      obtain ⟨ld, hld, hu, hg⟩ := hl ld' hld'
      rw [hu, hg]
      exact h.lead ld hld }

theorem LogTail.image {lead : Option Lead} (h : LogTail fs n gs fine lead part)
    (hb : fs.read (.log n) = some bytes) : Wal.Image gs bytes := by
  rw [h.read] at hb
  cases hb
  exact .records gs h.torn

/-- Part of the leader's record goes into the log. -/
theorem LogTail.append_part {fine fine' : Prop} {lead : Option Lead}
    (h : LogTail fs n gs fine (some ld) part) (hfit : ld.group.Fits) (hk : k < ld.unwritten.length)
    (hidle : lead = none → ¬ fine')
    (hlead : ∀ ld', lead = some ld' →
      ld'.unwritten = ld.unwritten.drop k ∧ ld'.group = ld.group) :
    LogTail (fs.append (.log n) (ld.unwritten.take k)) n gs fine' lead
      (part ++ ld.unwritten.take k) := by
  have hrec : part ++ ld.unwritten = ld.group.record := by
    rcases h.lead ld rfl with ⟨_, hp⟩ | ⟨hu, _⟩
    · exact hp
    · rw [hu] at hk
      cases hk
  refine ⟨?_, .inr ⟨ld.group, hfit, ?_, ?_⟩, fun hn hf => absurd hf (hidle hn), fun ld' hl => ?_⟩
  · rw [Fs.read_append, if_pos rfl, h.read]
    simp
  · rw [← hrec]
    exact (List.prefix_append_right_inj part).2 (List.take_prefix k _)
  · rw [← hrec, List.length_append, List.length_append, List.length_take]
    omega
  · obtain ⟨hu, hg⟩ := hlead ld' hl
    rw [hu, hg]
    refine .inl ⟨fun hnil => ?_, ?_⟩
    · have := List.drop_eq_nil_iff.1 hnil
      omega
    · rw [List.append_assoc, List.take_append_drop, hrec]

theorem LogTail.append_all (h : LogTail fs n gs fine (some ld) part) (hne : ld.unwritten ≠ []) :
    LogTail (fs.append (.log n) ld.unwritten) n (gs ++ [ld.group]) fine
      (some { ld with unwritten := [] }) [] := by
  have hrec : part ++ ld.unwritten = ld.group.record :=
    (h.lead ld rfl).elim And.right fun hu => absurd hu.1 hne
  refine ⟨?_, .inl rfl, fun hn => (nomatch hn), ?_⟩
  · rw [Fs.read_append, if_pos rfl, h.read]
    simp [hrec]
  · rintro _ ⟨⟩
    exact .inr ⟨rfl, rfl⟩

namespace Disk

theorem write {id : Nat} (h : Disk σ gh s m logs) (hS : Sound σ gh s)
    (hs : s.write id entries sync = some s') : Disk σ gh s' m logs := by
  obtain ⟨_, _, _, rfl⟩ := Sys.write_cases hs
  exact h.client rfl (fun _ => rfl) rfl rfl ⟨rfl, rfl, rfl⟩ rfl le_rfl hS.log_lt rfl rfl rfl rfl
    fun _ => rfl

theorem getSnapshot (h : Disk σ gh s m logs) (hS : Sound σ gh s)
    (hs : s.getSnapshot = some s') : Disk σ gh s' m logs := by
  obtain ⟨_, _, rfl⟩ := Sys.getSnapshot_cases hs
  exact h.client rfl (fun _ => rfl) rfl rfl ⟨rfl, rfl, rfl⟩ rfl le_rfl hS.log_lt rfl rfl rfl rfl
    fun _ => rfl

theorem releaseSnapshot (h : Disk σ gh s m logs) (hS : Sound σ gh s)
    (hs : s.releaseSnapshot handle = some s') : Disk σ gh s' m logs := by
  obtain ⟨_, _, rfl⟩ := Sys.releaseSnapshot_cases hs
  exact h.client rfl (fun _ => rfl) rfl rfl ⟨rfl, rfl, rfl⟩ rfl le_rfl hS.log_lt rfl rfl rfl rfl
    fun _ => rfl

theorem getBegin {id : Nat} {key : Bytes} (h : Disk σ gh s m logs) (hS : Sound σ gh s)
    (hs : s.getBegin id key snapshot = some s') : Disk σ gh s' m logs := by
  obtain ⟨_, _, _, _, _, rfl⟩ := Sys.getBegin_cases hs
  exact h.client rfl (fun _ => rfl) rfl rfl ⟨rfl, rfl, rfl⟩ rfl le_rfl hS.log_lt rfl rfl rfl rfl
    fun _ => rfl

theorem newIterator {id : Nat} (h : Disk σ gh s m logs) (hS : Sound σ gh s)
    (hs : s.newIterator id snapshot = some s') : Disk σ gh s' m logs := by
  obtain ⟨_, _, _, _, rfl⟩ := Sys.newIterator_cases hs
  exact h.client rfl (fun _ => rfl) rfl rfl ⟨rfl, rfl, rfl⟩ rfl le_rfl hS.log_lt rfl rfl rfl rfl
    fun _ => rfl

theorem getEnd {id : Nat} (h : Disk σ gh s m logs) (hS : Sound σ gh s)
    (hs : s.getEnd id = some s') : Disk σ gh s' m logs := by
  obtain ⟨call, hc, _, rfl⟩ := Sys.getEnd_cases hs
  obtain ⟨hcap, hkey⟩ := hS.gets call hc
  have hserve := ((hS.captured_ok hcap).run_get hS.tables.serves hkey).2
  refine h.client rfl (fun _ => rfl) rfl rfl ⟨rfl, rfl, rfl⟩ rfl le_rfl hS.log_lt rfl rfl rfl rfl
    fun _ => ?_
  show ((((call.capture.get call.key).run s.store).2).mems _).recs = _
  rw [hserve.mems]

theorem moveScan {id : Nat} (h : Disk σ gh s m logs) (hS : Sound σ gh s)
    (hs : s.moveScan id fresh f = some s')
    (hserve : s'.store.Serves (· ∈ s.opened) s.store.mems) : Disk σ gh s' m logs := by
  obtain ⟨scan, _, _, rfl⟩ := Sys.moveScan_cases hs
  refine h.client rfl (fun _ => rfl) rfl rfl ⟨rfl, rfl, rfl⟩ rfl le_rfl hS.log_lt rfl rfl rfl rfl
    fun _ => ?_
  rw [hserve.mems]

theorem rotate (h : Disk σ gh s m logs) (hS : Sound σ gh s) (hs : s.rotate byFlush = some s') :
    Disk σ gh s' m logs := by
  obtain ⟨_, _, hb, _, _, rfl⟩ := Sys.rotate_cases hs
  exact h.keep (.of_read rfl (fun _ => rfl) rfl rfl ⟨rfl, rfl, rfl⟩ rfl (Nat.le_succ _))
    ⟨rfl, rfl, rfl⟩ (h.onDisk.of_read (fun _ => rfl) (Nat.le_succ _)) hS.log_lt rfl rfl id
    (fun hm => (h.running hm).tail) (fun _ _ => hb) (fun _ => rfl) rfl rfl

theorem lead_step {lead : Option Lead} {store : Store} {writers : List Writer}
    {returned : List (Writer × Bool)} {done acked batches : List Group} {safe last : Nat}
    (h : Disk σ gh s m logs) (hS : Sound σ gh s)
    (hm : s.mode = .running) (hr : ∀ name, fs.read name = s.fs.read name)
    (htail : ∀ part, LogTail s.fs s.db.logNumber (logs s.db.logNumber)
      (s.db.bgError.isOk = true) s.lead part →
      LogTail s.fs s.db.logNumber (logs s.db.logNumber) (s.db.bgError.isOk = true) lead part)
    (hf : gh'.flushed = gh.flushed) (hz : gh'.frozen = gh.frozen) :
    Disk σ gh' { s with
      fs := fs, lead := lead, store := store, writers := writers, returned := returned,
      done := done, acked := acked, batches := batches, safe := safe,
      db := { s.db with lastSequence := last } } m logs :=
  h.keep (.of_read rfl hr rfl rfl ⟨rfl, rfl, rfl⟩ rfl le_rfl) ⟨rfl, rfl, rfl⟩
    (h.onDisk.of_read hr le_rfl) hS.log_lt rfl (hr _) id
    (fun hm => by
      obtain ⟨part, ht⟩ := (h.running hm).tail
      exact ⟨part, (htail part ht).frame (hr _)⟩)
    (fun hm => (h.running hm).rotating) (fun ho => absurd (hm.symm.trans ho) (by simp)) hf hz

theorem begin (h : Disk σ gh s m logs) (hS : Sound σ gh s) (hs : s.begin elapsed = some s') :
    Disk σ gh s' m logs := by
  obtain ⟨hm, _, hl, w, ws, _, ⟨hb, rfl⟩ | ⟨hb, rfl⟩⟩ := Sys.begin_cases hs
  · exact h.client rfl (fun _ => rfl) rfl rfl ⟨rfl, rfl, rfl⟩ rfl le_rfl hS.log_lt rfl rfl rfl rfl
      fun _ => rfl
  · refine h.lead_step hS hm (fun _ => rfl) (fun part ht => ?_) rfl rfl
    have hpart : part = [] := ht.idle hl hb
    refine { ht with idle := fun hc => (nomatch hc), lead := ?_ }
    rintro _ ⟨⟩
    refine .inl ⟨record_ne_nil _ _, ?_⟩
    rw [hpart, List.nil_append, (Writer.buildBatchGroup_spec w ws).2.2]
    rfl

theorem syncLog (h : Disk σ gh s m logs) (hS : Sound σ gh s) (hs : s.syncLog = some s') :
    Disk σ gh s' m logs := by
  obtain ⟨ld, hl, _, _, rfl⟩ := Sys.syncLog_cases hs
  refine h.lead_step hS (hS.running (hS.not_opening_of_lead hl)) (fun _ => Fs.read_fsync ..)
    (fun part ht => ht.lead_congr ?_ (fun hc => nomatch hc)) rfl rfl
  rintro _ ⟨⟩
  exact ⟨ld, hl, rfl, rfl⟩

theorem insert (h : Disk σ gh s m logs) (hS : Sound σ gh s) (hs : s.insert = some s') (r : Rec) :
    Disk σ (gh.insert r) s' m logs := by
  obtain ⟨ld, e, rest, hl, _, _, _, rfl⟩ := Sys.insert_cases hs
  refine h.lead_step hS (hS.running (hS.not_opening_of_lead hl)) (fun _ => rfl)
    (fun part ht => ht.lead_congr ?_ (fun hc => nomatch hc)) rfl rfl
  rintro _ ⟨⟩
  exact ⟨ld, hl, rfl, rfl⟩

theorem finish (h : Disk σ gh s m logs) (hS : Sound σ gh s) (hs : s.finish = some s') :
    Disk σ gh s' m logs := by
  obtain ⟨ld, hl, _, _, hu, _, _, rfl⟩ := Sys.finish_cases hs
  refine h.lead_step hS (hS.running (hS.not_opening_of_lead hl)) (fun _ => rfl)
    (fun part ht => ht.lead_congr (fun _ hc => nomatch hc) fun _ _ => ?_) rfl rfl
  rcases ht.lead ld hl with ⟨hne, _⟩ | ⟨_, hp⟩
  · exact absurd hu hne
  · exact hp

/-- A step of a memtable switch that touches its new log only. -/
theorem rotation {rotating : Option Rotation} {writers : List Writer}
    {returned : List (Writer × Bool)} (h : Disk σ gh s m logs) (hS : Sound σ gh s)
    (hr : s.rotating = some r) (hf : ∀ name, name ≠ .log r.number → fs.read name = s.fs.read name)
    (hb : ∀ bytes, fs.read (.log r.number) = some bytes → bytes <+: Wal.fileHeader) :
    Disk σ gh { s with fs := fs, rotating := rotating, writers := writers, returned := returned }
      m logs := by
  have hm := hS.running (hS.not_opening_of_rotating hr)
  have hrun := h.running hm
  have hrot := hS.rotating r hr
  have hold : s.db.oldestLiveLog = s.db.logNumber := by rw [Db.oldestLiveLog, hrot.imm_none]; rfl
  have hstored : Stored fs logs s.db.nextFileNumber :=
    h.onDisk.stored.header (fun k hk => hf _ (by simpa using hk)) (hrun.later _ hrot.log_lt)
      hrot.number_lt hb
  refine h.keep ⟨rfl, fun n hn => ?_, rfl, rfl, rfl, rfl, le_rfl, fun ho => ?_⟩
    ⟨rfl, rfl, rfl⟩ ?_ hS.log_lt rfl (hf _ (by simp)) id (fun _ => ?_) (fun _ _ => ?_)
    (fun ho => ?_) rfl rfl
  · by_cases he : n = r.number
    · exact .inr (hold.trans_le (he ▸ hrot.log_lt.le))
    · exact .inl (hf (.log n) (by simpa using he) ▸ hn)
  · exact absurd ho (hS.not_opening_of_rotating hr)
  · exact ⟨h.onDisk.ok, h.onDisk.committed.frame (hf _ (by simp)) (fun _ _ _ => hf _ (by simp)),
      hstored, h.onDisk.cover⟩
  · obtain ⟨part, ht⟩ := hrun.tail
    exact ⟨part, ht.frame (hf _ (by simpa using hrot.log_lt.ne))⟩
  · exact hrun.rotating (by simp [hr])
  · exact absurd ho (hS.not_opening_of_rotating hr)

theorem rotateIo (h : Disk σ gh s m logs) (hS : Sound σ gh s) (hs : s.rotateIo n = some s') :
    Disk σ gh s' m logs := by
  obtain ⟨r, fs, io, hr, hio, rfl⟩ := Sys.rotateIo_cases hs
  have hlog := (hS.rotating r hr).log
  exact h.rotation hS hr (fun _ hne => read_ioStep hio (hlog.names hne))
    fun _ => (hlog.step hio).header

theorem failRotate (h : Disk σ gh s m logs) (hS : Sound σ gh s) (hs : s.failRotate n = some s') :
    Disk σ gh s' m logs := by
  obtain ⟨r, fs, hr, hio, rfl⟩ := Sys.failRotate_cases hs
  have hlog := (hS.rotating r hr).log
  exact h.rotation hS hr (fun _ hne => read_failIo hio (hlog.names hne)) fun _ => hlog.failIo hio

/-- The leader writes to the log, and its record is not complete after it. -/
theorem lead_write {lead : Option Lead} {writers : List Writer}
    {returned : List (Writer × Bool)} (h : Disk σ gh s m logs) (hS : Sound σ gh s)
    (hl : s.lead = some ld) (bgError : Status)
    (hf : ∀ name, name ≠ .log s.db.logNumber → fs.read name = s.fs.read name)
    (htail : ∃ part,
      LogTail fs s.db.logNumber (logs s.db.logNumber) (bgError.isOk = true) lead part)
    (hbg : bgError.isOk = true → s.db.bgError.isOk = true)
    (hrot : s.rotating ≠ none → bgError.isOk = true) :
    Disk σ gh { s with
      fs := fs, lead := lead, db := { s.db with bgError := bgError }, writers := writers,
      returned := returned } m logs := by
  have hm := hS.not_opening_of_lead hl
  obtain ⟨part, ht⟩ := htail
  have hlogs : ∀ k, k ≠ s.db.logNumber → fs.read (.log k) = s.fs.read (.log k) := fun k hk =>
    hf _ (by simpa using hk)
  have hstored : Stored fs logs s.db.nextFileNumber := by
    have hw := h.onDisk.stored.write le_rfl hlogs ht.read (ht.image ht.read) hS.log_lt
    rwa [Function.update_eq_self] at hw
  refine h.keep ⟨rfl, fun n hn => .inl ?_, rfl, rfl, rfl, rfl, le_rfl,
      fun ho => absurd ho hm⟩ ⟨rfl, rfl, rfl⟩ ?_ hS.log_lt rfl (hf _ (by simp)) hbg
      (fun _ => ⟨part, ht⟩) (fun _ => hrot) (fun ho => absurd ho hm) rfl rfl
  · by_cases he : n = s.db.logNumber
    · obtain ⟨_, ht'⟩ := (h.running (hS.running hm)).tail
      simp [he, ht'.read]
    · exact hlogs n he ▸ hn
  · exact ⟨h.onDisk.ok, h.onDisk.committed.frame (hf _ (by simp)) (fun _ _ _ => hf _ (by simp)),
      hstored, h.onDisk.cover⟩

theorem failAppend (h : Disk σ gh s m logs) (hS : Sound σ gh s) (hs : s.failAppend n = some s') :
    Disk σ gh s' m logs := by
  obtain ⟨ld, hl, hrot, hn, rfl⟩ := Sys.failAppend_cases hs
  obtain ⟨part, ht⟩ := (h.running (hS.running (hS.not_opening_of_lead hl))).tail
  rw [hl] at ht
  refine h.lead_write hS hl _ (fun _ hne => ?_)
    ⟨_, ht.append_part (hS.logged.leadOk ld hl).fits hn (fun _ hf => nomatch hf)
      (fun _ hc => nomatch hc)⟩ (fun hf => nomatch hf) (fun hr => absurd hrot hr)
  rw [Fs.read_append, if_neg hne]

theorem failSync (h : Disk σ gh s m logs) (hS : Sound σ gh s) (hs : s.failSync = some s') :
    Disk σ gh s' m logs := by
  obtain ⟨ld, hl, hrot, hu, _, rfl⟩ := Sys.failSync_cases hs
  obtain ⟨part, ht⟩ := (h.running (hS.running (hS.not_opening_of_lead hl))).tail
  exact h.lead_write hS hl _ (fun _ _ => rfl)
    ⟨part, { ht with idle := fun _ hf => (nomatch hf), lead := fun _ hc => (nomatch hc) }⟩
    (fun hf => nomatch hf) (fun hr => absurd hrot hr)

end Disk

section Append
variable {k : Nat} {g : Group} {fs : DbFs} {lead : Option Lead}

theorem Pending.append (h : Pending σ s m logs io) (hm : s.mode = .running) (hk : m.logNumber ≤ k)
    (hkN : k < s.db.nextFileNumber) (hl : ∀ n, k < n → logs n = [])
    (htmp : fs.read .manifestTmp = s.fs.read .manifestTmp) :
    Pending σ { s with fs := fs, lead := lead, hist := s.hist ++ [g] } m
      (Function.update logs k (logs k ++ [g])) io := by
  obtain ⟨pre, ha⟩ := h.aligned hm
  exact { h with
    cover := ha.cover_append hk hkN hl h.cover.content g
    aligned := fun _ => ⟨pre, ha.append hk hkN hl g⟩
    writing := h.writing.frame htmp }

theorem JobDisk.append (h : JobDisk σ s m logs j) (hm : s.mode = .running)
    (hk : s.db.oldestLiveLog ≤ k) (hkN : k < s.db.nextFileNumber) (hl : ∀ n, k < n → logs n = [])
    (htmp : fs.read .manifestTmp = s.fs.read .manifestTmp)
    (hlogs : ∀ n, fs.read (.log n) ≠ none → s.fs.read (.log n) ≠ none) :
    JobDisk σ { s with fs := fs, lead := lead, hist := s.hist ++ [g] } m
      (Function.update logs k (logs k ++ [g])) j := by
  have hbelow : ∀ i, i < s.db.oldestLiveLog → Function.update logs k (logs k ++ [g]) i = logs i :=
    fun i hi => Function.update_of_ne (hi.trans_le hk).ne _ _
  have hne : s.mode ≠ .opening := fun ho => Mode.noConfusion (hm.symm.trans ho)
  rw [JobDisk] at h ⊢
  split at h
  · exact h
  · exact h
  · obtain ⟨h1, h2, h3⟩ := h
    refine ⟨h1, h2.congr (h1 ▸ hbelow), h3.imp ?_ fun h => ⟨h.version, h.number, h.calls⟩⟩
    rintro ⟨m', hm', hp⟩
    exact ⟨m', hm', hp.append hm (hm'.trans_le (h1.trans_le hk)) hkN hl htmp⟩
  · exact ⟨h.1.congr hbelow, h.2.version, h.2.number, fun n hn hr => h.2.unlinks n hn (hlogs n hr),
      h.2.below⟩
  · exact absurd h.1 hne
  · exact absurd h.1.opening hne
  · exact absurd h.1.opening hne
  · exact h

theorem RunDisk.append {part : Bytes} (h : RunDisk σ gh s m logs)
    (hlog : s.db.logNumber < s.db.nextFileNumber)
    (ht : LogTail fs s.db.logNumber (logs s.db.logNumber ++ [g]) (s.db.bgError.isOk = true) lead
      part) :
    RunDisk σ gh { s with fs := fs, lead := lead, hist := s.hist ++ [g] } m
      (Function.update logs s.db.logNumber (logs s.db.logNumber ++ [g])) := by
  have hold := h.oldest_le
  have hlt : ∀ n, n < s.db.logNumber →
      Function.update logs s.db.logNumber (logs s.db.logNumber ++ [g]) n = logs n :=
    fun n hn => Function.update_of_ne hn.ne _ _
  have hgt : ∀ n, s.db.logNumber < n →
      Function.update logs s.db.logNumber (logs s.db.logNumber ++ [g]) n = logs n :=
    fun n hn => Function.update_of_ne hn.ne' _ _
  refine ⟨⟨part, ?_⟩, fun n hn => (hgt n hn).trans (h.later n hn), h.imm_lt,
    fun hi n h1 h2 => (hlt n h2).trans (h.mid hi n h1 h2), h.log_le, ?_,
    fun hj hc n hn => (hlt n (hn.trans_le hold)).trans (h.swept hj hc n hn), h.rotating,
    fun hs => ?_⟩
  · rwa [Function.update_self]
  · obtain ⟨pre, ha⟩ := h.aligned
    exact ⟨pre, ha.append (h.log_le.trans hold) hlog h.later g⟩
  · obtain ⟨base, h1, h2, h3⟩ := h.parts hs
    refine ⟨base, ?_, h2, fun hi => (h3 hi).trans ?_⟩
    · rw [span_grow hold hlog fun n hn _ => h.later n hn, ← List.append_assoc, ← h1]
    · rw [hlt _ (h.imm_lt hi)]

end Append

namespace Disk

theorem append (h : Disk σ gh s m logs) (hS : Sound σ gh s) (hs : s.append n = some s') :
    ∃ logs', Disk σ gh s' m logs' := by
  have hok := (hS.append hs).logged.ok
  obtain ⟨ld, hl, hne, ⟨_, hn, rfl⟩ | ⟨_, rfl⟩⟩ := Sys.append_cases hs
  all_goals
    have hm := hS.running (hS.not_opening_of_lead hl)
    have hrun := h.running hm
    obtain ⟨part, ht⟩ := hrun.tail
    rw [hl] at ht
  · refine ⟨logs, h.lead_write hS hl s.db.bgError (fun _ hne => ?_)
      ⟨_, ht.append_part (hS.logged.leadOk ld hl).fits hn (fun hc => nomatch hc) ?_⟩ id
      hrun.rotating⟩
    · rw [Fs.read_append, if_neg hne]
    · rintro _ ⟨⟩
      exact ⟨rfl, rfl⟩
  · have hall := ht.append_all hne
    have hread : ∀ name, name ≠ .log s.db.logNumber →
        (s.fs.append (.log s.db.logNumber) ld.unwritten).read name = s.fs.read name :=
      fun name hne => by rw [Fs.read_append, if_neg hne]
    have hlogs : ∀ n, (s.fs.append (.log s.db.logNumber) ld.unwritten).read (.log n) ≠ none →
        s.fs.read (.log n) ≠ none := by
      intro n hn
      by_cases he : n = s.db.logNumber
      · rw [he, ht.read]
        simp
      · rwa [hread _ (by simpa using he)] at hn
    obtain ⟨pre, ha⟩ := hrun.aligned
    refine ⟨_, ⟨hok, ?_, ?_, ?_⟩,
      fun j hj => (h.jobs j hj).append hm hrun.oldest_le hS.log_lt hrun.later
      (hread _ (by simp)) hlogs,
      fun _ => hrun.append hS.log_lt hall, fun ho => absurd (hm.symm.trans ho) (by simp)⟩
    · exact h.onDisk.committed.frame (hread _ (by simp)) fun _ _ _ => hread _ (by simp)
    · exact h.onDisk.stored.write le_rfl (fun k hk => hread _ (by simpa using hk)) hall.read
        (hall.image hall.read) hS.log_lt
    · exact ha.cover_append (hrun.log_le.trans hrun.oldest_le) hS.log_lt hrun.later
        h.onDisk.cover.content ld.group

end Disk

theorem Sound.active_eq (h : Sound σ gh s) (hm : s.mode = .running) (hi : s.db.imm = none)
    (hl : s.lead = none) (hb : s.db.bgError.isOk = true)
    (hbase : s.hist = base ++ gs) (hf : gh.flushed = recsOf base) : gh.active = recsOf gs := by
  have hlay := h.layered fun ho => absurd (hm.symm.trans ho) (by simp)
  have hsplit := hlay.split
  have hdone : s.hist = s.done := h.logged.idle hl hb
  rw [Sys.visible, hl, ← hdone, hbase, recsOf_append, hlay.imm_none hi, hf] at hsplit
  simpa using hsplit.symm

namespace Disk

theorem rotateSwap (h : Disk σ gh s m logs) (hS : Sound σ gh s) (hs : s.rotateSwap = some s')
    (hl : σ → s.lead = none) : Disk σ gh.freeze s' m logs := by
  obtain ⟨r, hr, hio, hbetween, rfl⟩ := Sys.rotateSwap_cases hs
  have hno := hS.not_opening_of_rotating hr
  have hm := hS.running hno
  have hrun := h.running hm
  have hrot := hS.rotating r hr
  have hold : s.db.oldestLiveLog = s.db.logNumber := by rw [Db.oldestLiveLog, hrot.imm_none]; rfl
  have hst : Still s { s with
      db := { s.db with
        immLogNumber := s.db.logNumber, logNumber := r.number, imm := some s.db.mem,
        mem := s.nextMem }
      nextMem := s.nextMem + 1
      rotating := none } :=
    ⟨rfl, fun _ hn => .inl hn, rfl, rfl, hold.symm, rfl, le_rfl, fun ho => absurd ho hno⟩
  have hlog := hrot.log
  rw [hio] at hlog
  have hnil : logs r.number = [] := hrun.later _ hrot.log_lt
  refine ⟨h.onDisk, fun j hj => h.jobs_still hst rfl hj,
    fun _ => ⟨⟨[], ?_⟩, fun n hn => hrun.later n (hrot.log_lt.trans hn), fun _ => hrot.log_lt,
      fun _ n h1 _ => hrun.later n h1, ?_, hrun.aligned, fun hj hc => ?_, fun hn => absurd rfl hn,
      fun hσ => ?_⟩, fun ho => absurd ho hno⟩
  · refine ⟨?_, .inl rfl, fun _ _ => rfl, fun ld hld => ?_⟩
    · rw [hnil]
      exact hlog.done
    · by_cases hu : ld.unwritten = []
      · exact .inr ⟨hu, rfl⟩
      · have hb := hbetween ld hld
        rw [Lead.betweenWrites, Bool.or_eq_true, List.isEmpty_iff, beq_iff_eq] at hb
        refine .inl ⟨hu, (hb.resolve_left hu).trans ?_⟩
        rw [(hS.logged.leadOk ld hld).batch]
        rfl
  · exact hst.oldest ▸ hrun.log_le
  · exact hst.oldest ▸ hrun.swept hj hc
  · obtain ⟨base, h1, h2, _⟩ := hrun.parts hσ
    have hspan : span logs s.db.oldestLiveLog s.db.nextFileNumber = logs s.db.logNumber := by
      rw [hold, span_trim (Nat.le_succ _) hS.log_lt fun n hn _ => hrun.later n hn, span_singleton]
    have hact := hS.active_eq hm hrot.imm_none (hl hσ) (hrun.rotating (by simp [hr])) h1 h2
    exact ⟨base, hst.oldest ▸ h1, h2, fun _ => hact.trans (by rw [hspan])⟩

end Disk

end LsmKv
