import LsmKv.Recovery

namespace LsmKv
set_option autoImplicit true

open Versioned
open Wal (Group)

/-- The version holds what the first `n` groups of the history say. -/
structure Holds (hist : List Group) (n : Nat) (v : Version) : Prop where
  content : ∀ x ∈ v.content, x ∈ recsOf (hist.take n)
  agree : Agree kMaxSequenceNumber {r | r ∈ recsOf (hist.take n)} v.content

/-- No live log has a record. Older logs may be left in any number. -/
structure Settled (σ : Prop) (hist : List Group) (m : Manifest) (logs : Nat → List Group)
    (N : Nat) : Prop where
  live : span logs m.logNumber N = []
  tops : ∀ g ∈ hist, g.base + g.entries.length ≤ m.lastSequence + 1
  holds : σ → Holds hist hist.length m.version

/-- The logs, those that are not live included, hold the end of the history. -/
structure Aligned (σ : Prop) (hist : List Group) (m : Manifest) (logs : Nat → List Group)
    (N : Nat) (pre : List Group) : Prop where
  split : hist = pre ++ span logs 0 N
  tops : ∀ g ∈ pre ++ span logs 0 m.logNumber, g.base + g.entries.length ≤ m.lastSequence + 1
  holds : σ → ∃ n, (pre ++ span logs 0 m.logNumber).length ≤ n ∧ Holds hist n m.version

/-- A manifest that may be the one on disk. -/
structure Cover (σ : Prop) (hist : List Group) (m : Manifest) (logs : Nat → List Group)
    (N : Nat) : Prop where
  log_le : m.logNumber ≤ N
  content : ∀ x ∈ m.version.content, x ∈ recsOf hist
  cover : Settled σ hist m logs N ∨ ∃ pre, Aligned σ hist m logs N pre

/-- What a crash at this point would leave. -/
structure OnDisk (σ : Prop) (fs : DbFs) (hist : List Group) (m : Manifest)
    (logs : Nat → List Group) (N : Nat) : Prop where
  ok : HistOk hist
  committed : Committed fs m
  stored : Stored fs logs N
  cover : Cover σ hist m logs N

section Cover
variable {σ : Prop} {hist pre : List Group} {m : Manifest} {logs : Nat → List Group}

theorem Stored.after (h : Stored fs logs N) : ∀ n, N ≤ n → logs n = [] := fun n hn =>
  h.absent n (by_contra fun hr => absurd (h.bound n hr) (not_lt_of_ge hn))

theorem Settled.recoverable (h : Settled σ hist m logs N) 
    (hc : ∀ x ∈ m.version.content, x ∈ recsOf hist) : Recoverable σ hist m logs N hist where
  split := by rw [h.live, List.append_nil]
  tops := h.tops
  content := hc
  agree := fun hs => ⟨_, le_rfl, (h.holds hs).content, (h.holds hs).agree⟩

theorem Aligned.recoverable (h : Aligned σ hist m logs N pre) (hle : m.logNumber ≤ N)
    (hc : ∀ x ∈ m.version.content, x ∈ recsOf hist) :
    Recoverable σ hist m logs N (pre ++ span logs 0 m.logNumber) where
  split := by rw [List.append_assoc, span_append (Nat.zero_le _) hle, ← h.split]
  tops := h.tops
  content := hc
  agree := fun hs => by
    obtain ⟨n, hn, hh⟩ := h.holds hs
    exact ⟨n, hn, hh.content, hh.agree⟩

theorem Cover.recoverable (h : Cover σ hist m logs N) :
    ∃ older, Recoverable σ hist m logs N older := by
  rcases h.cover with hs | ⟨pre, ha⟩
  · exact ⟨_, hs.recoverable h.content⟩
  · exact ⟨_, ha.recoverable h.log_le h.content⟩

theorem Cover.mono (h : Cover σ hist m logs N) (hN : N ≤ N') (hl : ∀ n, N ≤ n → logs n = []) :
    Cover σ hist m logs N' := by
  have htrim : ∀ a, a ≤ N → span logs a N' = span logs a N := fun a ha =>
    span_trim ha hN fun n hn _ => hl n hn
  refine ⟨h.log_le.trans hN, h.content, ?_⟩
  rcases h.cover with hs | ⟨pre, ha⟩
  · exact .inl { hs with live := (htrim _ h.log_le).trans hs.live }
  · exact .inr ⟨pre, { ha with split := by rw [htrim 0 (Nat.zero_le _)]; exact ha.split }⟩

theorem Holds.snoc (h : Holds hist n v) (hn : n ≤ hist.length) (g : Group) :
    Holds (hist ++ [g]) n v := by
  have ht : (hist ++ [g]).take n = hist.take n := List.take_append_of_le_length hn
  exact ⟨by rw [ht]; exact h.content, by rw [ht]; exact h.agree⟩

theorem Holds.le_length (h : Holds hist n v) : ∃ k, min n hist.length = k ∧ Holds hist k v := by
  refine ⟨_, rfl, ?_⟩
  have ht : hist.take (min n hist.length) = hist.take n := by
    rw [List.take_eq_take_iff]
    omega
  exact ⟨by rw [ht]; exact h.content, by rw [ht]; exact h.agree⟩

theorem Aligned.append (h : Aligned σ hist m logs N pre) (hk : m.logNumber ≤ k) (hkN : k < N)
    (hl : ∀ n, k < n → logs n = []) (g : Group) :
    Aligned σ (hist ++ [g]) m (Function.update logs k (logs k ++ [g])) N pre := by
  have hobs : span (Function.update logs k (logs k ++ [g])) 0 m.logNumber =
      span logs 0 m.logNumber :=
    span_congr fun n _ hn => Function.update_of_ne (hn.trans_le hk).ne _ _
  refine ⟨?_, by rw [hobs]; exact h.tops, fun hs => ?_⟩
  · rw [span_grow (Nat.zero_le k) hkN (fun n hn _ => hl n hn), ← List.append_assoc, ← h.split]
  · obtain ⟨n, hn, hh⟩ := h.holds hs
    obtain ⟨n', hn', hh'⟩ := hh.le_length
    refine ⟨n', ?_, hh'.snoc (by omega) g⟩
    have hlen : (pre ++ span logs 0 m.logNumber).length ≤ hist.length := by
      rw [h.split, ← span_append (Nat.zero_le m.logNumber) (hk.trans hkN.le)]
      simp only [List.length_append]
      omega
    rw [hobs]
    omega

theorem Aligned.cover_append (h : Aligned σ hist m logs N pre) (hk : m.logNumber ≤ k) (hkN : k < N)
    (hl : ∀ n, k < n → logs n = []) (hc : ∀ x ∈ m.version.content, x ∈ recsOf hist) (g : Group) :
    Cover σ (hist ++ [g]) m (Function.update logs k (logs k ++ [g])) N where
  log_le := hk.trans hkN.le
  content x hx := by
    rw [recsOf_append]
    exact List.mem_append_left _ (hc x hx)
  cover := .inr ⟨pre, h.append hk hkN hl g⟩

/-- The only older log with records is deleted, or one without. -/
theorem Aligned.unlink (h : Aligned σ hist m logs N pre) (hle : m.logNumber ≤ N)
    (hn : n < m.logNumber) (hone : ∀ k, k < m.logNumber → k ≠ n → logs n = [] ∨ logs k = []) :
    ∃ pre', Aligned σ hist m (Function.update logs n []) N pre' := by
  by_cases hnil : logs n = []
  · rw [← hnil, Function.update_eq_self]
    exact ⟨pre, h⟩
  · have hobs : span logs 0 m.logNumber = logs n := by
      rw [span_split (Nat.zero_le n) hn, span_eq_nil fun k _ hk => ?_,
        span_eq_nil fun k hk hk' => ?_]
      · simp
      · exact (hone k hk' (by omega)).resolve_left hnil
      · exact (hone k (hk.trans hn) hk.ne).resolve_left hnil
    have hobs' : span (Function.update logs n []) 0 m.logNumber = [] := span_eq_nil fun k _ hk => by
      by_cases he : k = n
      · rw [he, Function.update_self]
      · rw [Function.update_of_ne he]
        exact (hone k hk he).resolve_left hnil
    have hlive : span (Function.update logs n []) m.logNumber N = span logs m.logNumber N :=
      span_congr fun k hk _ => Function.update_of_ne (hn.trans_le hk).ne' _ _
    refine ⟨pre ++ logs n, ?_, ?_, ?_⟩
    · rw [← span_append (Nat.zero_le m.logNumber) hle, hobs', hlive, List.nil_append,
        List.append_assoc, ← hobs, span_append (Nat.zero_le _) hle]
      exact h.split
    · rw [hobs', List.append_nil, ← hobs]
      exact h.tops
    · rw [hobs', List.append_nil, ← hobs]
      exact h.holds

theorem Settled.unlink (h : Settled σ hist m logs N) (hn : n < m.logNumber) :
    Settled σ hist m (Function.update logs n []) N :=
  { h with
    live := (span_congr fun _ hk _ => Function.update_of_ne (hn.trans_le hk).ne' _ _).trans h.live }

end Cover

section Files
variable {fs fs' : DbFs} {logs : Nat → List Group} {m : Manifest}

theorem Stored.frame (h : Stored fs logs N) (hr : ∀ n, fs'.read (.log n) = fs.read (.log n))
    (hN : N ≤ N') : Stored fs' logs N' where
  image n bytes hb := h.image n bytes (hr n ▸ hb)
  absent n hb := h.absent n (hr n ▸ hb)
  bound n hb := (h.bound n (hr n ▸ hb)).trans_le hN

theorem Stored.write (h : Stored fs logs N) (hN : N ≤ N')
    (ho : ∀ k, k ≠ n → fs'.read (.log k) = fs.read (.log k)) (hr : fs'.read (.log n) = some bytes)
    (hi : Wal.Image gs bytes) (hn : n < N') : Stored fs' (Function.update logs n gs) N' := by
  refine ⟨fun k b hb => ?_, fun k hb => ?_, fun k hb => ?_⟩
  · by_cases hk : k = n
    · subst hk
      rw [hr] at hb
      cases hb
      rwa [Function.update_self]
    · rw [Function.update_of_ne hk]
      exact h.image k b (ho k hk ▸ hb)
  · by_cases hk : k = n
    · subst hk
      rw [hr] at hb
      cases hb
    · rw [Function.update_of_ne hk]
      exact h.absent k (ho k hk ▸ hb)
  · by_cases hk : k = n
    · exact hk ▸ hn
    · exact (h.bound k (ho k hk ▸ hb)).trans_le hN

theorem Stored.header (h : Stored fs logs N)
    (ho : ∀ k, k ≠ n → fs'.read (.log k) = fs.read (.log k)) (hl : logs n = []) (hn : n < N)
    (hb : ∀ bytes, fs'.read (.log n) = some bytes → bytes <+: Wal.fileHeader) :
    Stored fs' logs N := by
  cases hr : fs'.read (.log n) with
  | some bytes =>
    have hw := h.write le_rfl ho hr (.header (hb bytes hr)) hn
    rwa [← hl, Function.update_eq_self] at hw
  | none =>
    refine ⟨fun k b hk => ?_, fun k hk => ?_, fun k hk => ?_⟩ <;> by_cases he : k = n
    · rw [he, hr] at hk
      cases hk
    · exact h.image k b (ho k he ▸ hk)
    · rw [he, hl]
    · exact h.absent k (ho k he ▸ hk)
    · exact he ▸ hn
    · exact h.bound k (ho k he ▸ hk)

theorem Stored.unlink (h : Stored fs logs N) (n : Nat) :
    Stored (fs.unlink (.log n)) (Function.update logs n []) N := by
  have hread : ∀ k, (fs.unlink (.log n)).read (.log k) = if k = n then
      none else fs.read (.log k) := by
    intro k
    rw [Fs.read_unlink]
    simp
  refine ⟨fun k b hb => ?_, fun k hb => ?_, fun k hb => ?_⟩ <;> rw [hread] at hb <;> split at hb
  · cases hb
  · rename_i hk
    rw [Function.update_of_ne hk]
    exact h.image k b hb
  · rename_i hk
    rw [hk, Function.update_self]
  · rename_i hk
    rw [Function.update_of_ne hk]
    exact h.absent k hb
  · exact absurd rfl hb
  · exact h.bound k hb

theorem Committed.frame (h : Committed fs m) (hm : fs'.read .manifest = fs.read .manifest)
    (hs : ∀ l, ∀ f ∈ m.version.levels l, fs'.read (.sst f.number) = fs.read (.sst f.number)) :
    Committed fs' m where
  manifest := hm ▸ h.manifest
  wf := h.wf
  sst l f hf := (h.sst l f hf).frame (hs l f hf)
  next := h.next
  log_le := h.log_le
  last := h.last

/-- The program that puts `bytes` into the manifest, before its `rename`. -/
def Replacing (fs : DbFs) (bytes : Bytes) (io : List Io) : Prop :=
  io = [.openFile .manifestTmp true, .append .manifestTmp bytes, .fsync .manifestTmp,
      .rename .manifestTmp .manifest, .syncDir] ∨
    (∃ written rest, fs.read .manifestTmp = some written ∧ written ++ rest = bytes ∧
      io = [.append .manifestTmp rest, .fsync .manifestTmp, .rename .manifestTmp .manifest,
        .syncDir]) ∨
    fs.read .manifestTmp = some bytes ∧
      (io = [.fsync .manifestTmp, .rename .manifestTmp .manifest, .syncDir] ∨
        io = [.rename .manifestTmp .manifest, .syncDir])

theorem replacing_writeManifest (fs : DbFs) (m : Manifest) :
    Replacing fs m.encode (writeManifest m) :=
  .inl rfl

theorem Replacing.frame (h : Replacing fs bytes io)
    (hr : fs'.read .manifestTmp = fs.read .manifestTmp) : Replacing fs' bytes io := by
  rcases h with h | ⟨w, rest, h1, h2, h3⟩ | ⟨h1, h2⟩
  · exact .inl h
  · exact .inr (.inl ⟨w, rest, hr.trans h1, h2, h3⟩)
  · exact .inr (.inr ⟨hr.trans h1, h2⟩)

/-- The `rename` is the only call that changes the manifest. -/
theorem Replacing.step (h : Replacing fs bytes io) (hs : ioStep n fs io = some (fs', io')) :
    Replacing fs' bytes io' ∧ fs'.read .manifest = fs.read .manifest ∨
      io' = [.syncDir] ∧ fs'.read .manifest = some bytes := by
  rcases h with rfl | ⟨w, rest, hr, hw, rfl⟩ | ⟨hr, rfl | rfl⟩
  · rcases ioStep_cases hs with ⟨op, he, rfl⟩ | ⟨nm, bs, rest', he, _⟩
    · cases he
      exact .inl ⟨.inr (.inl ⟨[], bytes, by simp [Io.run, Fs.read_openFile], rfl, rfl⟩),
        by simp [Io.run, Fs.read_openFile]⟩
    · cases he
  · rcases ioStep_cases hs with ⟨op, he, rfl⟩ | ⟨nm, bs, rest', he, _, _, rfl, rfl⟩
    · cases he
      refine .inl ⟨.inr (.inr ⟨?_, .inl rfl⟩), by simp [Io.run, Fs.read_append]⟩
      simp [Io.run, Fs.read_append, hr, hw]
    · cases he
      refine .inl ⟨.inr (.inl ⟨w ++ rest.take n, rest.drop n, ?_, ?_, rfl⟩),
        by simp [Fs.read_append]⟩
      · simp [Fs.read_append, hr]
      · rw [List.append_assoc, List.take_append_drop, hw]
  · rcases ioStep_cases hs with ⟨op, he, rfl⟩ | ⟨nm, bs, rest', he, _⟩
    · cases he
      exact .inl ⟨.inr (.inr ⟨by simp [Io.run, hr], .inr rfl⟩), by simp [Io.run]⟩
    · cases he
  · rcases ioStep_cases hs with ⟨op, he, rfl⟩ | ⟨nm, bs, rest', he, _⟩
    · cases he
      refine .inr ⟨rfl, ?_⟩
      have hne : FileName.manifestTmp ≠ FileName.manifest := by simp
      have hsome : fs.read .manifestTmp ≠ none := by simp [hr]
      rw [Io.run, Fs.read_rename fs hne hsome, if_pos rfl, hr]
    · cases he

theorem Replacing.names (h : Replacing fs bytes io) (hn : ¬ IsManifest name) :
    ∀ op ∈ io, name ∉ op.names := by
  have h1 : name ≠ .manifest := fun he => hn (.inl he)
  have h2 : name ≠ .manifestTmp := fun he => hn (.inr he)
  rcases h with rfl | ⟨w, rest, _, _, rfl⟩ | ⟨_, rfl | rfl⟩ <;> simp [Io.names, h1, h2]

end Files

/-- The current log: its groups, and what of the leader's record is there. -/
structure LogTail (fs : DbFs) (n : Nat) (gs : List Group) (fine : Prop) (lead : Option Lead)
    (part : Bytes) : Prop where
  read : fs.read (.log n) = some (Wal.fileHeader ++ (gs.flatMap Group.record ++ part))
  torn : Wal.Torn part
  idle : lead = none → fine → part = []
  lead : ∀ ld, lead = some ld → ld.unwritten ≠ [] ∧ part ++ ld.unwritten = ld.group.record ∨
    ld.unwritten = [] ∧ part = []

/-- Of the logs below `n`, at most one has records. -/
def OneBelow (logs : Nat → List Group) (n : Nat) : Prop :=
  ∀ i, i < n → ∀ k, k < n → k ≠ i → logs i = [] ∨ logs k = []

theorem OneBelow.congr (h : OneBelow logs n) (he : ∀ i, i < n → logs' i = logs i) :
    OneBelow logs' n := fun i hi k hk hne => by
  rw [he i hi, he k hk]
  exact h i hi k hk hne

/-- A manifest that a job is writing. -/
structure Pending (σ : Prop) (s : Sys) (m : Manifest) (logs : Nat → List Group) (io : List Io) :
    Prop where
  version : m.version = s.db.current
  fits : m.Fits
  next : 0 < m.nextFileNumber
  log_le : m.logNumber ≤ m.nextFileNumber
  last : m.lastSequence ≤ kMaxSequenceNumber
  cover : Cover σ s.hist m logs s.db.nextFileNumber
  aligned : s.mode = .running → ∃ pre, Aligned σ s.hist m logs s.db.nextFileNumber pre
  writing : Replacing s.fs m.encode io

/-- The manifest a job has written. -/
structure Renamed (s : Sys) (m : Manifest) (log : Nat) (io : List Io) : Prop where
  version : m.version = s.db.current
  number : m.logNumber = log
  calls : io = [.syncDir] ∨ io = []

/-- A job deletes obsolete files, all older logs among them. -/
structure Cleaning (s : Sys) (m : Manifest) (log : Nat) (io : List Io) : Prop where
  version : m.version = s.db.current
  number : m.logNumber = log
  unlinks : ∀ n, n < log → s.fs.read (.log n) ≠ none → Io.unlink (.log n) ∈ io
  below : ∀ n, Io.unlink (.log n) ∈ io → n < log

/-- The log of a process that is about to open. -/
structure NewLog (s : Sys) (logs : Nat → List Group) (log : Nat) : Prop where
  opening : s.mode = .opening
  number : log = s.db.logNumber
  empty : ∀ k, log ≤ k → logs k = []
  header : s.fs.read (.log log) = some Wal.fileHeader

/-- What a job in flight means for the files. -/
def JobDisk (σ : Prop) (s : Sys) (m : Manifest) (logs : Nat → List Group) (j : Job) : Prop :=
  match j.phase with
  | .flushOpen n _ => ∀ l, ∀ f ∈ m.version.levels l, f.number ≠ n
  | .compactOpen _ n _ _ _ => ∀ l, ∀ f ∈ m.version.levels l, f.number ≠ n
  | .cleanup _ log .commitDone => log = s.db.oldestLiveLog ∧ OneBelow logs log ∧
      ((∃ m', m'.logNumber = log ∧ Pending σ s m' logs j.io) ∨ Renamed s m log j.io)
  | .commitDone => OneBelow logs s.db.oldestLiveLog ∧ Cleaning s m s.db.oldestLiveLog j.io
  | .logOpened n => s.mode = .opening ∧ ∀ k, n ≤ k → logs k = []
  | .cleanup _ log .recovered => NewLog s logs log ∧
      ((∃ m', m'.logNumber = log ∧ Settled σ s.hist m' logs s.db.nextFileNumber ∧
          Pending σ s m' logs j.io) ∨
        Settled σ s.hist m logs s.db.nextFileNumber ∧ Renamed s m log j.io)
  | .recovered => NewLog s logs s.db.logNumber ∧
      Settled σ s.hist m logs s.db.nextFileNumber ∧ Cleaning s m s.db.logNumber j.io
  | _ => True

/-- The files of a database that is open for writes. Under `σ` every memtable holds the groups
of one log. -/
structure RunDisk (σ : Prop) (gh : Ghost) (s : Sys) (m : Manifest) (logs : Nat → List Group) :
    Prop where
  tail : ∃ part, LogTail s.fs s.db.logNumber (logs s.db.logNumber) (s.db.bgError.isOk = true) s.lead
    part
  later : ∀ n, s.db.logNumber < n → logs n = []
  imm_lt : s.db.imm ≠ none → s.db.immLogNumber < s.db.logNumber
  mid : s.db.imm ≠ none → ∀ n, s.db.immLogNumber < n → n < s.db.logNumber → logs n = []
  log_le : m.logNumber ≤ s.db.oldestLiveLog
  aligned : ∃ pre, Aligned σ s.hist m logs s.db.nextFileNumber pre
  swept : s.jobs ≠ [] ∨ s.db.bgError.isOk = true → s.db.committing = false →
    ∀ n, n < s.db.oldestLiveLog → logs n = []
  rotating : s.rotating ≠ none → s.db.bgError.isOk = true
  parts : σ → ∃ base, s.hist = base ++ span logs s.db.oldestLiveLog s.db.nextFileNumber ∧
    gh.flushed = recsOf base ∧ (s.db.imm ≠ none → gh.frozen = recsOf (logs s.db.immLogNumber))

/-- The files while `Recover` runs. -/
structure OpenDisk (σ : Prop) (s : Sys) (m : Manifest) (logs : Nat → List Group) : Prop where
  mem_nil : (s.store.mems s.db.mem).recs = []
  imm : s.db.imm ≠ none → s.db.logNumber = 0 ∧
    ∃ pre, Aligned σ s.hist m logs s.db.nextFileNumber pre

/-- The files of an open database. -/
structure Disk (σ : Prop) (gh : Ghost) (s : Sys) (m : Manifest) (logs : Nat → List Group) :
    Prop where
  onDisk : OnDisk σ s.fs s.hist m logs s.db.nextFileNumber
  jobs : ∀ j ∈ s.jobs, JobDisk σ s m logs j
  running : s.mode = .running → RunDisk σ gh s m logs
  opening : s.mode = .opening → OpenDisk σ s m logs

end LsmKv
