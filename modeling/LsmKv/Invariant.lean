import LsmKv.Capture
import LsmKv.IoProgram
import LsmKv.Outputs

namespace LsmKv
set_option autoImplicit true

open Versioned
open Wal (Group)

/-- The records the leader has put into the memtable. -/
def Lead.inserted (ld : Lead) : List Rec := ld.group.recs.take (ld.seq - ld.base)

/-- Every record that was ever inserted into a memtable, in order. -/
def Sys.visible (s : Sys) : List Rec := recsOf s.done ++ (s.lead.map Lead.inserted).getD []

/-- Where the leader stands: it appends its record, and then inserts its entries. -/
structure LeadOk (done hist : List Group) (last : Nat) (ld : Lead) : Prop where
  batch : ld.batch = .ofEntries ld.entries
  fits : ld.group.Fits
  top : ld.base + ld.entries.length = last + 1
  above : ∀ g ∈ done, g.base + g.entries.length ≤ ld.base
  le : ld.base ≤ ld.seq
  rest : ld.uninserted = ld.entries.drop (ld.seq - ld.base)
  unwritten : ld.unwritten <:+ ld.group.record
  waiting : ld.unwritten ≠ [] → ld.seq = ld.base ∧ hist = done
  unsynced : ld.unsynced = true → ld.seq = ld.base
  logged : ld.unwritten = [] → hist = done ++ [ld.group]

/-- The history and what of it is done. A group that failed after its record was complete is not
done, and stops all later writes. -/
structure Logged (fine : Prop) (done hist : List Group) (last : Nat) (lead : Option Lead) :
    Prop where
  ok : HistOk hist
  pre : done <+: hist
  last_le : last ≤ kMaxSequenceNumber
  tops : ∀ g ∈ hist, g.base + g.entries.length ≤ last + 1
  idle : lead = none → fine → hist = done
  leadOk : ∀ ld, lead = some ld → LeadOk done hist last ld

structure Ids (mem : Nat) (imm : Option Nat) (nextMem : Nat) (mems : Nat → MemTable) : Prop where
  mem_lt : mem < nextMem
  imm_lt : ∀ id, imm = some id → id < nextMem ∧ id ≠ mem
  fresh : ∀ id, nextMem ≤ id → mems id = {}

/-- The tables the process has open; those of the current version are also on disk. -/
structure Tables (fs : DbFs) (current : Version) (next : Nat) (store : Store)
    (opened : List Table) : Prop where
  good : ∀ t ∈ opened, t.Good
  nodup : (opened.map Table.number).Nodup
  number_lt : ∀ t ∈ opened, t.number < next
  serves : store.Serves (· ∈ opened) store.mems
  live : ∀ l, ∀ f ∈ current.levels l, f.table ∈ opened ∧ SstHolds fs f.number f.recs
  names : ∀ name ∈ fs.names, ∀ n, Sys.numberOf name = some n → n < next

/-- How the records are spread: those of the version, of `imm` and of `mem`, oldest first.
Only records up to `floor` may be in two tables. -/
structure Ghost where
  floor : Nat
  flushed : List Rec
  frozen : List Rec
  active : List Rec

structure Layered (gh : Ghost) (visible : List Rec) (mem : Nat) (imm : Option Nat)
    (mems : Nat → MemTable) (current : Version) : Prop where
  split : visible = gh.flushed ++ (gh.frozen ++ gh.active)
  mem_asc : Ascending Rec.pos (mems mem).recs
  mem_iff : ∀ r, r ∈ (mems mem).recs ↔ r ∈ gh.active
  imm_none : imm = none → gh.frozen = []
  imm_asc : ∀ id, imm = some id → Ascending Rec.pos (mems id).recs
  imm_iff : ∀ id, imm = some id → ∀ r, r ∈ (mems id).recs ↔ r ∈ gh.frozen
  wf : current.Wf gh.floor
  content : ∀ x ∈ current.content, x ∈ gh.flushed

/-- `Recover` between its replay and the install of its flush. Tables may hold records that
were replayed as well. -/
structure Replaying (σ : Prop) (done : List Group) (mem imm : Nat) (mems : Nat → MemTable)
    (current : Version) : Prop where
  mem_nil : (mems mem).recs = []
  imm_asc : Ascending Rec.pos (mems imm).recs
  wf : ∃ R, current.Wf R
  content : ∀ x ∈ current.content, x ∈ recsOf done
  split : ∃ older replayed, done = older ++ replayed ∧
    (∀ r, r ∈ (mems imm).recs ↔ r ∈ recsOf replayed) ∧
    (σ → ∃ n, older.length ≤ n ∧ (∀ x ∈ current.content, x ∈ recsOf (done.take n)) ∧
      Agree kMaxSequenceNumber {r | r ∈ recsOf (done.take n)} current.content)

/-- No reader is below the floor or above the last sequence number. -/
structure Pins (floor last : Nat) (snapshots : List Snapshot) : Prop where
  floor_le : floor ≤ last
  snapshot : ∀ sn ∈ snapshots, floor ≤ sn.sequence ∧ sn.sequence ≤ last

structure RotationOk (fs : DbFs) (next logNumber : Nat) (imm : Option Nat) (r : Rotation) :
    Prop where
  number_lt : r.number < next
  log_lt : logNumber < r.number
  imm_none : imm = none
  log : OpeningLog fs r.number r.io

/-- What a read captured is still there, and reads as one sequence of runs. -/
structure CapOk (opened : List Table) (mems : Nat → MemTable) (visible : List Rec)
    (mem nextMem last : Nat) (c : Db.Capture) : Prop where
  tables : ∀ t, c.version.tables t → t ∈ opened
  version : c.version.Ok
  runs : RunsOk (c.runs mems)
  sub : ∀ r ∈ (c.runs mems).flatten, r ∈ visible
  mem_lt : c.mem < nextMem
  imm_lt : ∀ id, c.imm = some id → id < nextMem ∧ id ≠ mem ∧ id ≠ c.mem
  seq_le : c.seq ≤ last

/-- `es` is what a flush of `imm` keeps. -/
def Flushing (σ : Prop) (s : Sys) (es : List Rec) : Prop :=
  ∃ imm S, s.db.imm = some imm ∧ S ≤ s.db.smallestSnapshot ∧ (σ → S < kMaxSequenceNumber) ∧
    (s.mode = .opening → S = s.db.lastSequence) ∧
    es = keepFrom false S {} (s.store.mems imm).recs

structure Compacting (σ : Prop) (floor : Nat) (s : Sys) (c : Compaction) : Prop where
  running : s.mode = .running
  picked : c.Picked s.db.current
  floor_le : floor ≤ c.smallestSnapshot
  smallest : c.smallestSnapshot ≤ s.db.smallestSnapshot
  below : σ → c.smallestSnapshot < kMaxSequenceNumber

/-- A number that a job has taken for a table it has not opened. -/
def NewNumber (s : Sys) (n : Nat) : Prop :=
  n < s.db.nextFileNumber ∧ ∀ t ∈ s.opened, t.number < n

/-- A finished table that is not part of a version yet. -/
structure NewFile (s : Sys) (f : FileMetaData) (es : List Rec) : Prop where
  ok : f.Ok
  recs : f.recs = es
  opened : f.table ∈ s.opened
  sst : SstHolds s.fs f.number es
  fresh : ∀ l, ∀ g ∈ s.db.current.levels l, g.number < f.number

def IsManifest (name : FileName) : Prop := name = .manifest ∨ name = .manifestTmp

/-- A flush, a compaction or `Recover`, at any point of it. -/
inductive JobOk (σ : Prop) (floor : Nat) (s : Sys) : Job → Prop where
  | flushOpen (hc : s.db.committing = false) (hf : Flushing σ s es)
      (hfit : TableFits s.db.options es) (hn : NewNumber s n)
      (hw : Writing s.fs (.sst n) (tableFile s.db.options es) io) :
      JobOk σ floor s ⟨io, .flushOpen n (built s.db.options es)⟩
  | flushInstall (hc : s.db.committing = false) (hf : Flushing σ s es) (hn : NewFile s f es) :
      JobOk σ floor s ⟨[], .flushInstall f⟩
  | compactMerge (hc : s.db.committing = false) (h : Compacting σ floor s c) :
      JobOk σ floor s ⟨[], .compactMerge c⟩
  | compactNext (hc : s.db.committing = false) (h : Compacting σ floor s c)
      (hp : Planned c (outs ++ rest)) (ho : List.Forall₂ (NewFile s) outputs outs)
      (hd : (outputs.map FileMetaData.number).Nodup) :
      JobOk σ floor s ⟨[], .compactNext c (rest.map (built s.db.options)) outputs⟩
  | compactOpen (hc : s.db.committing = false) (h : Compacting σ floor s c)
      (hp : Planned c (outs ++ es :: rest)) (ho : List.Forall₂ (NewFile s) outputs outs)
      (hd : (outputs.map FileMetaData.number).Nodup) (hfit : TableFits s.db.options es)
      (hn : NewNumber s n) (hw : Writing s.fs (.sst n) (tableFile s.db.options es) io) :
      JobOk σ floor s
        ⟨io, .compactOpen c n (built s.db.options es) (rest.map (built s.db.options)) outputs⟩
  | commit (hc : s.db.committing = true) (hi : s.mode = .opening → s.db.imm = none)
      (hlog : log ≤ s.db.logNumber)
      (hio : ∀ name, ¬ IsManifest name → ∀ op ∈ io, name ∉ op.names) :
      JobOk σ floor s ⟨io, .cleanup s.db.current log .commitDone⟩
  | commitDone (hc : s.db.committing = true) (hi : s.mode = .opening → s.db.imm = none)
      (hlog : log ≤ s.db.logNumber)
      (hio : ∀ op ∈ io, ∃ name, op = .unlink name ∧ isObsolete s.db.current log name = true) :
      JobOk σ floor s ⟨io, .commitDone⟩
  | logOpened (hc : s.db.committing = false) (hm : s.mode = .opening) (hi : s.db.imm = none)
      (hn : n < s.db.nextFileNumber) (hio : OpeningLog s.fs n io) :
      JobOk σ floor s ⟨io, .logOpened n⟩
  | recoverCommit (hc : s.db.committing = false) (hm : s.mode = .opening) (hi : s.db.imm = none)
      (hio : ∀ name, ¬ IsManifest name → ∀ op ∈ io, name ∉ op.names) :
      JobOk σ floor s ⟨io, .cleanup s.db.current log .recovered⟩
  | recovered (hc : s.db.committing = false) (hm : s.mode = .opening) (hi : s.db.imm = none)
      (hio : ∀ op ∈ io, ∃ name, op = .unlink name ∧ isObsolete s.db.current log name = true) :
      JobOk σ floor s ⟨io, .recovered⟩

/-- The invariant of an open database with at most one job in flight. Under `σ` no job has
started when a snapshot could be at the largest sequence number. -/
structure Sound (σ : Prop) (gh : Ghost) (s : Sys) : Prop where
  is_open : s.mode ≠ .closed
  failed : s.failed = none
  logged : Logged (s.db.bgError.isOk = true) s.done s.hist s.db.lastSequence s.lead
  writers : ∀ w ∈ s.writers, w.entries ≠ []
  ids : Ids s.db.mem s.db.imm s.nextMem s.store.mems
  tables : Tables s.fs s.db.current s.db.nextFileNumber s.store s.opened
  log_lt : s.db.logNumber < s.db.nextFileNumber
  imm_log : s.db.imm ≠ none → s.db.immLogNumber ≤ s.db.logNumber
  pins : Pins gh.floor s.db.lastSequence s.db.snapshots
  layered : (s.mode = .opening → s.db.imm = none) →
    Layered gh s.visible s.db.mem s.db.imm s.store.mems s.db.current
  covers : (s.mode = .opening → s.db.imm = none) → σ →
    Agree s.db.smallestSnapshot {r | r ∈ gh.flushed} s.db.current.content
  replaying : s.mode = .opening → ∀ imm, s.db.imm = some imm →
    Replaying σ s.done s.db.mem imm s.store.mems s.db.current
  rotating : ∀ r, s.rotating = some r →
    RotationOk s.fs s.db.nextFileNumber s.db.logNumber s.db.imm r
  jobs : s.jobs = [] ∧ s.db.committing = false ∨ ∃ j, s.jobs = [j] ∧ JobOk σ gh.floor s j
  gets : ∀ c ∈ s.gets, CapOk s.opened s.store.mems s.visible s.db.mem s.nextMem
    s.db.lastSequence c.capture ∧ c.key.length + 8 < 2 ^ 32
  opening : s.mode = .opening → s.lead = none ∧ s.writers = [] ∧ s.rotating = none ∧
    s.db.snapshots = [] ∧ s.gets = [] ∧ s.db.bgError.isOk = true

section Records
variable {fine : Prop} {done hist : List Group} {last : Nat} {lead : Option Lead} {ld : Lead}

theorem Lead.inserted_eq (ld : Lead) :
    ld.inserted = numberRecs ld.base (ld.entries.take (ld.seq - ld.base)) :=
  take_numberRecs _ _ _

theorem LeadOk.bound (h : LeadOk done hist last ld) (hl : last ≤ kMaxSequenceNumber) :
    ld.base + ld.entries.length ≤ kMaxSequenceNumber + 1 := by
  have := h.top
  omega

theorem LeadOk.mem_inserted (h : LeadOk done hist last ld) (hl : last ≤ kMaxSequenceNumber)
    (hr : r ∈ ld.inserted) : r.Ok ∧ ld.base ≤ r.seq ∧ r.seq < ld.seq ∧ r.seq ≤ last := by
  have hb := h.bound hl
  have ht := h.top
  rw [ld.inserted_eq] at hr
  have hlen : (ld.entries.take (ld.seq - ld.base)).length ≤ ld.entries.length :=
    List.length_take_le' _ _
  have hlen' : (ld.entries.take (ld.seq - ld.base)).length ≤ ld.seq - ld.base :=
    List.length_take_le _ _
  obtain ⟨h1, h2, h3⟩ := mem_numberRecs (by omega) hr
  exact ⟨h1, h2, by omega, by omega⟩

theorem Logged.done_ok (h : Logged fine done hist last lead) : HistOk done :=
  h.ok.sublist h.pre.sublist

theorem Logged.mem_done (h : Logged fine done hist last lead) (hr : r ∈ recsOf done) :
    r.Ok ∧ r.seq ≤ last := by
  obtain ⟨g, hg, hok, _, hlt⟩ := h.done_ok.mem_recsOf hr
  have := h.tops g (h.pre.subset hg)
  exact ⟨hok, by omega⟩

theorem Logged.mem_visible (h : Logged fine done hist last lead)
    (hr : r ∈ recsOf done ++ (lead.map Lead.inserted).getD []) : r.Ok ∧ r.seq ≤ last := by
  rcases List.mem_append.1 hr with hr | hr
  · exact h.mem_done hr
  · cases lead with
    | none => cases hr
    | some ld =>
      obtain ⟨h1, _, _, h2⟩ := (h.leadOk ld rfl).mem_inserted h.last_le hr
      exact ⟨h1, h2⟩

theorem Logged.seqAsc (h : Logged fine done hist last lead) :
    SeqAsc (recsOf done ++ (lead.map Lead.inserted).getD []) := by
  cases lead with
  | none => simpa using h.done_ok.seqAsc
  | some ld =>
    have hl := h.leadOk ld rfl
    have hb := hl.bound h.last_le
    refine seqAsc_append.2 ⟨h.done_ok.seqAsc, ?_, fun a ha b hb' => ?_⟩
    · rw [Option.map_some, Option.getD_some, ld.inserted_eq]
      have hlen : (ld.entries.take (ld.seq - ld.base)).length ≤ ld.entries.length :=
        List.length_take_le' _ _
      exact seqAsc_numberRecs (by omega)
    · obtain ⟨g, hg, _, _, hlt⟩ := h.done_ok.mem_recsOf ha
      have h1 := hl.above g hg
      have h2 := (hl.mem_inserted h.last_le hb').2.1
      omega

theorem Logged.visible_lt (h : Logged fine done hist last (some ld))
    (hr : r ∈ recsOf done ++ ((some ld).map Lead.inserted).getD []) : r.seq < ld.seq := by
  have hl := h.leadOk ld rfl
  rcases List.mem_append.1 hr with hr | hr
  · obtain ⟨g, hg, _, _, hlt⟩ := h.done_ok.mem_recsOf hr
    have h1 := hl.above g hg
    have h2 := hl.le
    omega
  · exact (hl.mem_inserted h.last_le hr).2.2.1

end Records

section Reading
variable {gh : Ghost} {visible : List Rec} {mem : Nat} {imm : Option Nat} {mems : Nat → MemTable}
  {current : Version}

/-- The runs of a read taken now. -/
theorem Layered.runsOk (h : Layered gh visible mem imm mems current) (ha : SeqAsc visible)
    (hok : ∀ r ∈ visible, r.Ok) :
    RunsOk ((mems mem).recs :: (imm.toList.map fun id => (mems id).recs) ++ current.runs) := by
  have hv := h.wf.runsOk
  have hc : ∀ x ∈ current.runs.flatten, x ∈ gh.flushed := fun x hx =>
    h.content x ((Version.mem_runs h.wf.ok.empty).1 hx)
  rw [h.split] at ha hok
  obtain ⟨_, hfm, h1⟩ := seqAsc_append.1 ha
  obtain ⟨_, _, h2⟩ := seqAsc_append.1 hfm
  have himm : ∀ l ∈ imm.toList.map fun id => (mems id).recs,
      Ascending Rec.pos l ∧ ∀ r, r ∈ l ↔ r ∈ gh.frozen := by
    intro l hl
    obtain ⟨id, hid, rfl⟩ := List.mem_map.1 hl
    have hid := Option.mem_toList.1 hid
    exact ⟨h.imm_asc id hid, h.imm_iff id hid⟩
  have hrun : ∀ l ∈ current.runs, ∀ r ∈ l, r ∈ gh.flushed := fun l hl r hr =>
    hc r (List.mem_flatten.2 ⟨l, hl, hr⟩)
  refine ⟨?_, ?_, ?_⟩
  · intro l hl
    rcases List.mem_append.1 hl with hl | hl
    · rcases List.mem_cons.1 hl with rfl | hl
      · exact h.mem_asc
      · exact (himm l hl).1
    · exact hv.ascending l hl
  · intro l hl r hr
    apply hok
    rcases List.mem_append.1 hl with hl | hl
    · rcases List.mem_cons.1 hl with rfl | hl
      · exact List.mem_append_right _ (List.mem_append_right _ ((h.mem_iff r).1 hr))
      · exact List.mem_append_right _ (List.mem_append_left _ (((himm l hl).2 r).1 hr))
    · exact List.mem_append_left _ (hrun l hl r hr)
  · rw [List.pairwise_append, List.pairwise_cons]
    refine ⟨⟨fun l hl x hx y hy _ => ?_, ?_⟩, hv.shadows, fun l hl m hm x hx y hy _ => ?_⟩
    · exact (h2 y (((himm l hl).2 y).1 hy) x ((h.mem_iff x).1 hx)).le
    · cases imm with
      | none => exact .nil
      | some id => exact List.pairwise_singleton _ _
    · have hyf := hrun m hm y hy
      rcases List.mem_cons.1 hl with rfl | hl
      · exact (h1 y hyf x (List.mem_append_right _ ((h.mem_iff x).1 hx))).le
      · exact (h1 y hyf x (List.mem_append_left _ (((himm l hl).2 x).1 hx))).le

theorem Layered.mem_runs (h : Layered gh visible mem imm mems current)
    (hr : r ∈ ((mems mem).recs :: (imm.toList.map fun id => (mems id).recs) ++
      current.runs).flatten) : r ∈ visible := by
  rw [h.split]
  simp only [List.cons_append, List.flatten_cons, List.flatten_append, List.mem_append] at hr
  rcases hr with hr | hr | hr
  · exact List.mem_append_right _ (List.mem_append_right _ ((h.mem_iff r).1 hr))
  · obtain ⟨l, hl, hr⟩ := List.mem_flatten.1 hr
    obtain ⟨id, hid, rfl⟩ := List.mem_map.1 hl
    have hid := Option.mem_toList.1 hid
    exact List.mem_append_right _ (List.mem_append_left _ ((h.imm_iff id hid r).1 hr))
  · exact List.mem_append_left _ (h.content r ((Version.mem_runs h.wf.ok.empty).1 hr))

end Reading

theorem Tables.tablesOk (h : Tables fs current next store opened) : TablesOk (· ∈ opened) :=
  tablesOk_of_good h.good h.nodup

section Frames
variable {σ : Prop} {floor : Nat} {s s' : Sys}

/-- A step that leaves alone what a job in flight relies on. -/
structure Frame (s s' : Sys) : Prop where
  mode : s'.mode = s.mode
  options : s'.db.options = s.db.options
  current : s'.db.current = s.db.current
  committing : s'.db.committing = s.db.committing
  opened : s'.opened = s.opened
  next : s.db.nextFileNumber ≤ s'.db.nextFileNumber
  logNumber : s.db.logNumber ≤ s'.db.logNumber
  smallest : s.db.smallestSnapshot ≤ s'.db.smallestSnapshot
  last : s.mode = .opening → s'.db.lastSequence = s.db.lastSequence
  imm : ∀ id, s.db.imm = some id → s'.db.imm = some id ∧ s'.store.mems id = s.store.mems id
  imm_none : s.mode = .opening → s.db.imm = none → s'.db.imm = none
  sst : ∀ n, s'.fs.read (.sst n) = s.fs.read (.sst n)
  log : s.mode = .opening → ∀ n, s'.fs.read (.log n) = s.fs.read (.log n)

theorem SstHolds.frame (h : SstHolds fs n es) (hr : fs'.read (.sst n) = fs.read (.sst n)) :
    SstHolds fs' n es := by
  obtain ⟨o, hfit, hread⟩ := h
  exact ⟨o, hfit, hr.trans hread⟩

theorem Flushing.frame (h : Flushing σ s es) (hf : Frame s s') : Flushing σ s' es := by
  obtain ⟨imm, S, hi, hS, hσ, hm, he⟩ := h
  obtain ⟨hi', hmem⟩ := hf.imm imm hi
  refine ⟨imm, S, hi', hS.trans hf.smallest, hσ, fun ho => ?_, by rw [hmem, he]⟩
  rw [hf.mode] at ho
  rw [hm ho, hf.last ho]

theorem Compacting.frame (h : Compacting σ floor s c) (hf : Frame s s') :
    Compacting σ floor s' c where
  running := hf.mode.trans h.running
  picked := hf.current ▸ h.picked
  floor_le := h.floor_le
  smallest := h.smallest.trans hf.smallest
  below := h.below

theorem NewNumber.frame (h : NewNumber s n) (hf : Frame s s') : NewNumber s' n :=
  ⟨h.1.trans_le hf.next, hf.opened ▸ h.2⟩

theorem NewFile.frame (h : NewFile s f es) (hf : Frame s s') : NewFile s' f es where
  ok := h.ok
  recs := h.recs
  opened := hf.opened ▸ h.opened
  sst := h.sst.frame (hf.sst _)
  fresh := hf.current ▸ h.fresh

theorem JobOk.frame (h : JobOk σ floor s j) (hf : Frame s s') : JobOk σ floor s' j := by
  have hc := hf.committing
  have hm := hf.mode
  have himm : (s.mode = .opening → s.db.imm = none) → s'.mode = .opening → s'.db.imm = none :=
    fun hi ho => hf.imm_none (hm ▸ ho) (hi (hm ▸ ho))
  cases h with
  | flushOpen hc' hf' hfit hn hw =>
    rw [← hf.options] at hfit hw ⊢
    exact .flushOpen (hc.trans hc') (hf'.frame hf) hfit (hn.frame hf) (hw.frame (hf.sst _))
  | flushInstall hc' hf' hn => exact .flushInstall (hc.trans hc') (hf'.frame hf) (hn.frame hf)
  | compactMerge hc' h => exact .compactMerge (hc.trans hc') (h.frame hf)
  | compactNext hc' h hp ho hd =>
    rw [← hf.options]
    exact .compactNext (hc.trans hc') (h.frame hf) hp (ho.imp fun _ _ h => h.frame hf) hd
  | compactOpen hc' h hp ho hd hfit hn hw =>
    rw [← hf.options] at hfit hw ⊢
    exact .compactOpen (hc.trans hc') (h.frame hf) hp (ho.imp fun _ _ h => h.frame hf) hd hfit
      (hn.frame hf) (hw.frame (hf.sst _))
  | commit hc' hi hlog hio =>
    rw [← hf.current]
    exact .commit (hc.trans hc') (himm hi) (hlog.trans hf.logNumber) hio
  | commitDone hc' hi hlog hio =>
    rw [← hf.current] at hio
    exact .commitDone (hc.trans hc') (himm hi) (hlog.trans hf.logNumber) hio
  | logOpened hc' hm' hi hn hio =>
    exact .logOpened (hc.trans hc') (hm.trans hm') (hf.imm_none hm' hi) (hn.trans_le hf.next)
      (hio.frame (hf.log hm' _))
  | recoverCommit hc' hm' hi hio =>
    rw [← hf.current]
    exact .recoverCommit (hc.trans hc') (hm.trans hm') (hf.imm_none hm' hi) hio
  | recovered hc' hm' hi hio =>
    rw [← hf.current] at hio
    exact .recovered (hc.trans hc') (hm.trans hm') (hf.imm_none hm' hi) hio

theorem Tables.fresh (h : Tables fs current next store opened) (hn : Sys.numberOf name = some n)
    (hle : next ≤ n) : fs.read name = none := by
  by_contra hr
  have := h.names name (Fs.mem_names.2 hr) n hn
  omega

theorem jobs_frame
    (h : s.jobs = [] ∧ s.db.committing = false ∨ ∃ j, s.jobs = [j] ∧ JobOk σ floor s j)
    (hj : s'.jobs = s.jobs) (hf : Frame s s') :
    s'.jobs = [] ∧ s'.db.committing = false ∨ ∃ j, s'.jobs = [j] ∧ JobOk σ floor s' j := by
  rcases h with ⟨h, hc⟩ | ⟨j, h, hok⟩
  · exact .inl ⟨hj.trans h, hf.committing.trans hc⟩
  · exact .inr ⟨j, hj.trans h, hok.frame hf⟩

theorem Tables.frame (h : Tables fs current next store opened)
    (hs : ∀ l, ∀ f ∈ current.levels l, fs'.read (.sst f.number) = fs.read (.sst f.number))
    (hn : next ≤ next')
    (hnames : ∀ name ∈ fs'.names, name ∈ fs.names ∨ ∀ n, Sys.numberOf name = some n → n < next') :
    Tables fs' current next' store opened where
  good := h.good
  nodup := h.nodup
  number_lt t ht := (h.number_lt t ht).trans_le hn
  serves := h.serves
  live l f hf := ⟨(h.live l f hf).1, (h.live l f hf).2.frame (hs l f hf)⟩
  names name hm n hn' := by
    rcases hnames name hm with hm | hm
    · exact (h.names name hm n hn').trans_le hn
    · exact hm n hn'

end Frames

end LsmKv
