import LsmKv.Manifest

namespace LsmKv
set_option autoImplicit true

/-- A queued `Write` call. Its batch is what the caller's `Put` and `Delete` calls built. -/
structure Writer where
  id : Nat
  entries : List BatchEntry
  sync : Bool

namespace Writer

def batch (w : Writer) : WriteBatch := .ofEntries w.entries

/-- The loop of `BuildBatchGroup`: the writers that join the group, and the merged batch. -/
def growGroup (first : Writer) (budget : Nat) : WriteBatch → List Writer → List Writer × WriteBatch
  | merged, [] => ([], merged)
  | merged, w :: ws =>
    if w.sync && !first.sync then ([], merged)
    else if budget < merged.approximateSize + w.batch.approximateSize then ([], merged)
    else
      let (members, merged) := growGroup first budget (merged.append w.batch) ws
      (w :: members, merged)

def buildBatchGroup : List Writer → List Writer × WriteBatch
  | [] => ([], {})
  | first :: ws =>
    let merged := ({} : WriteBatch).append first.batch
    let budget :=
      if merged.approximateSize ≤ 131072 then merged.approximateSize + 131072 else 1048576
    let (members, merged) := growGroup first budget merged ws
    (first :: members, merged)

theorem growGroup_spec (first : Writer) (budget : Nat) (es : List BatchEntry) (ws : List Writer) :
    (growGroup first budget (.ofEntries es) ws).1 <+: ws ∧
      (growGroup first budget (.ofEntries es) ws).2 =
        .ofEntries (es ++ (growGroup first budget (.ofEntries es) ws).1.flatMap entries) := by
  induction ws generalizing es with
  | nil => simp [growGroup]
  | cons w ws ih =>
    rw [growGroup]
    split
    · simp
    · split
      · simp
      · rw [batch, WriteBatch.append_ofEntries]
        obtain ⟨h1, h2⟩ := ih (es ++ w.entries)
        refine ⟨List.cons_prefix_cons.2 ⟨rfl, h1⟩, ?_⟩
        rw [h2]
        simp

/-- A group is the front of the queue, and its batch holds their entries in order. -/
theorem buildBatchGroup_spec (w : Writer) (ws : List Writer) :
    (buildBatchGroup (w :: ws)).1 <+: w :: ws ∧ w ∈ (buildBatchGroup (w :: ws)).1 ∧
      (buildBatchGroup (w :: ws)).2 =
        .ofEntries ((buildBatchGroup (w :: ws)).1.flatMap entries) := by
  have hm : ({} : WriteBatch).append w.batch = .ofEntries w.entries :=
    WriteBatch.append_ofEntries [] w.entries
  simp only [buildBatchGroup, hm]
  obtain ⟨h1, h2⟩ := growGroup_spec w (if (WriteBatch.ofEntries w.entries).approximateSize ≤ 131072
    then (WriteBatch.ofEntries w.entries).approximateSize + 131072 else 1048576) w.entries ws
  exact ⟨List.cons_prefix_cons.2 ⟨rfl, h1⟩, List.mem_cons_self, by rw [h2]; rfl⟩

end Writer

structure Snapshot where
  handle : Nat
  sequence : Nat

/-- The members of `DB` that `mu_` guards. `mem` and `imm` name memtables of the store. -/
structure Db where
  options : Options := {}
  path : String := ""
  mem : Nat := 0
  imm : Option Nat := none
  current : Version := {}
  snapshots : List Snapshot := []
  compactPointer : Nat → Bytes := fun _ => []
  logNumber : Nat := 0
  immLogNumber : Nat := 0
  nextFileNumber : Nat := 1
  lastSequence : Nat := 0
  committing : Bool := false
  bgError : Status := .ok

namespace Db

def oldestLiveLog (db : Db) : Nat := if db.imm.isSome then db.immLogNumber else db.logNumber

def smallestSnapshot (db : Db) : Nat :=
  db.snapshots.foldl (fun smallest s => min smallest s.sequence) db.lastSequence

theorem le_smallestSnapshot_iff {db : Db} : n ≤ db.smallestSnapshot ↔
    n ≤ db.lastSequence ∧ ∀ sn ∈ db.snapshots, n ≤ sn.sequence := by
  rw [smallestSnapshot]
  generalize db.lastSequence = last
  induction db.snapshots generalizing last with
  | nil => simp
  | cons sn sns ih =>
    rw [List.foldl_cons, ih, le_min_iff, List.forall_mem_cons, and_assoc]

/-- `elapsed` is whether `fsync_interval_ms` have passed since the last sync. -/
def shouldSyncNow (db : Db) (writerWantsSync elapsed : Bool) : Bool :=
  if writerWantsSync then true
  else
    match db.options.syncPolicy with
    | .everyWrite => true
    | .interval => elapsed
    | .never => false

/-- The manifest of the present state, as a commit captures it. -/
def manifest (db : Db) : Manifest where
  version := db.current
  logNumber := db.oldestLiveLog
  nextFileNumber := db.nextFileNumber
  lastSequence := db.lastSequence

/-- What a read takes under `mu_`. -/
structure Capture where
  mem : Nat
  imm : Option Nat
  version : Version
  seq : Nat

def capture (db : Db) (snapshot : Option Snapshot) : Capture where
  mem := db.mem
  imm := db.imm
  version := db.current
  seq := (snapshot.map Snapshot.sequence).getD db.lastSequence

/-- `DB::Get` after its section under `mu_`. -/
def Capture.get (c : Capture) (key : Bytes) : StoreM (Except Status Bytes) := do
  let s ← MonadState.get
  match (s.mems c.mem).get key c.seq with
  | some r => pure r
  | none =>
    match c.imm.bind fun imm => (s.mems imm).get key c.seq with
    | some r => pure r
    | none =>
      match ← c.version.get key c.seq with
      | some r => pure r
      | none => pure (.error .notFound)

/-- The children of the iterator `NewIterator` returns. -/
def Capture.children (c : Capture) : List Iter :=
  Iter.mem { mem := c.mem } :: (c.imm.toList.map fun imm => Iter.mem { mem := imm }) ++
    (c.version.levels 0).map (fun f => Iter.table { table := f.table }) ++
    ((List.range' 1 (kNumLevels - 1)).filter fun l => !(c.version.levels l).isEmpty).map
      fun l => Iter.level { files := c.version.levels l }

def Capture.newIterator (c : Capture) : DBIter where
  inner := { children := c.children }
  seq := c.seq

end Db

/-- What `DoCompaction` decides under `mu_` before it merges. -/
structure Compaction where
  level : Nat
  inputs0 : List FileMetaData
  inputs1 : List FileMetaData
  bottomMost : Bool
  smallestSnapshot : Nat

namespace Compaction

def inputs (c : Compaction) : List FileMetaData := c.inputs0 ++ c.inputs1

def smallestUserKey (f : FileMetaData) (fs : List FileMetaData) : Bytes :=
  fs.foldl (fun k g => if extractUserKey g.smallest < k then extractUserKey g.smallest else k)
    (extractUserKey f.smallest)

def largestUserKey (f : FileMetaData) (fs : List FileMetaData) : Bytes :=
  fs.foldl (fun k g => if k < extractUserKey g.largest then extractUserKey g.largest else k)
    (extractUserKey f.largest)

/-- Every record the merging iterator over the inputs yields, and its status at the end. -/
def drainMerged : Nat → MergingIterator Iter → StoreM (List Rec × Status)
  | 0, it => pure ([], it.status)
  | fuel + 1, it =>
    if it.valid then do
      let it' ← it.next
      let (rest, status) ← drainMerged fuel it'
      pure ((it.key, it.value) :: rest, status)
    else pure ([], it.status)

def merge (c : Compaction) : StoreM (List Rec × Status) := do
  let it : MergingIterator Iter :=
    { children := c.inputs.map fun f => Iter.table { table := f.table } }
  let it ← it.seekToFirst
  let s ← MonadState.get
  drainMerged (it.bound s + 1) it

/-- The version after the outputs replace the inputs. -/
def install (c : Compaction) (v : Version) (outputs : List FileMetaData) : Version :=
  let removed := c.inputs.map (·.number)
  let keep := fun (fs : List FileMetaData) => fs.filter fun f => !removed.contains f.number
  let target := (keep (v.levels (c.level + 1)) ++ outputs).insertionSort fun a b =>
    compareInternalKey a.smallest b.smallest ≠ .gt
  (v.setLevel c.level (keep (v.levels c.level))).setLevel (c.level + 1) target

end Compaction

namespace Db

/-- The round-robin choice among the files of a level below L0. -/
def chooseFile (db : Db) (level : Nat) : Option FileMetaData :=
  let files := db.current.levels level
  (files.find? fun f => (db.compactPointer level).isEmpty ||
    compareInternalKey f.largest (db.compactPointer level) == .gt).or files.head?

/-- `DoCompaction` up to the merge, when there is something to compact. -/
def beginCompaction (db : Db) (level : Nat) : Option (Db × Compaction) :=
  let inputs0 := if level = 0 then db.current.levels 0 else (db.chooseFile level).toList
  match inputs0 with
  | [] => none
  | f :: _ =>
    let smallest := Compaction.smallestUserKey f inputs0
    let largest := Compaction.largestUserKey f inputs0
    let pointer := if level = 0 then db.compactPointer
      else Function.update db.compactPointer level f.largest
    some ({ db with compactPointer := pointer }, {
      level := level
      inputs0 := inputs0
      inputs1 := (db.current.levels (level + 1)).filter fun g => rangesOverlap g smallest largest
      bottomMost := (List.range' (level + 2) (kNumLevels - (level + 2))).all fun l =>
        (db.current.levels l).isEmpty
      smallestSnapshot := db.smallestSnapshot })

end Db

end LsmKv
