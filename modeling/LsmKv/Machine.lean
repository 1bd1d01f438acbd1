import LsmKv.Db
import LsmKv.Wal

namespace LsmKv
set_option autoImplicit true

open Wal (Group)

/-- A system call of a thread that works on files. -/
inductive Io where
  | openFile (name : FileName) (trunc : Bool)
  | append (name : FileName) (bytes : Bytes)
  | fsync (name : FileName)
  | rename (old new : FileName)
  | syncDir
  | unlink (name : FileName)

def Io.run (fs : DbFs) : Io → DbFs
  | openFile name trunc => fs.openFile name trunc
  | append name bytes => fs.append name bytes
  | fsync name => fs.fsync name
  | rename old new => fs.rename old new
  | syncDir => fs.syncDir
  | unlink name => fs.unlink name

/-- The next system call of a straight-line program; a `write` may be short, of `n` bytes. -/
def ioStep (n : Nat) (fs : DbFs) : List Io → Option (DbFs × List Io)
  | [] => none
  | .append name bytes :: rest =>
    if 0 < n ∧ n < bytes.length then
      some (fs.append name (bytes.take n), .append name (bytes.drop n) :: rest)
    else some (fs.append name bytes, rest)
  | op :: rest => some (op.run fs, rest)

def writeTable (number : Nat) (file : Bytes) : List Io :=
  [.openFile (.sst number) true, .append (.sst number) file, .fsync (.sst number)]

def writeManifest (m : Manifest) : List Io :=
  [.openFile .manifestTmp true, .append .manifestTmp m.encode, .fsync .manifestTmp,
    .rename .manifestTmp .manifest, .syncDir]

/-- `WalWriter::Open`: an empty log gets its header. -/
def openLog (fs : DbFs) (number : Nat) : List Io :=
  .openFile (.log number) false ::
    if (fs.read (.log number)).getD [] = [] then [.append (.log number) Wal.fileHeader] else []

/-- What `RemoveObsoleteFiles` deletes. -/
def isObsolete (live : Version) (logNumber : Nat) : FileName → Bool
  | .sst n => !(live.files.map (·.number)).contains n
  | .log n => decide (n < logNumber)
  | _ => false

/-- What a thread in a flush, a compaction or `Recover` does once its system calls are made. -/
inductive Phase where
  | flushOpen (number : Nat) (b : TableBuilder)
  | flushInstall (file : FileMetaData)
  | compactMerge (c : Compaction)
  | compactNext (c : Compaction) (todo : List TableBuilder) (outputs : List FileMetaData)
  | compactOpen (c : Compaction) (number : Nat) (b : TableBuilder) (todo : List TableBuilder)
      (outputs : List FileMetaData)
  | commitWait (version : Version)
  | cleanup (live : Version) (logNumber : Nat) (next : Phase)
  | commitDone
  | logOpened (number : Nat)
  | recovered

structure Job where
  io : List Io := []
  phase : Phase

/-- The leader between the two sections of `Write` under `mu_`. -/
structure Lead where
  base : Nat
  batch : WriteBatch
  members : List Writer
  unwritten : Bytes
  unsynced : Bool
  uninserted : List BatchEntry
  seq : Nat

namespace Lead

def entries (ld : Lead) : List BatchEntry := ld.members.flatMap Writer.entries

def group (ld : Lead) : Group := ⟨ld.base, ld.entries⟩

/-- The record is not written in part. -/
def betweenWrites (ld : Lead) : Bool :=
  ld.unwritten.isEmpty || ld.unwritten == Wal.record ld.base ld.batch

end Lead

/-- A memtable switch, which holds `mu_` while it opens the new log. -/
structure Rotation where
  number : Nat
  byFlush : Bool
  io : List Io

/-- A `Get` between its section under `mu_` and its return. -/
structure GetCall where
  id : Nat
  key : Bytes
  snapshot : Option Snapshot
  capture : Db.Capture
  acked : List Group

structure Answer where
  call : GetCall
  result : Except Status Bytes

/-- An iterator of a client, and the rows it has stood on since it was last positioned. -/
structure Scan where
  id : Nat
  snapshot : Option Snapshot
  it : DBIter
  rows : List (Bytes × Bytes)

inductive Mode where
  | closed
  | opening
  | running
deriving DecidableEq, Repr

/-- The file system, the process that has the database open, and what its clients have seen.
The last group of fields only records the past and is never read. -/
structure Sys where
  fs : DbFs := .empty
  mode : Mode := .closed
  failed : Option Status := none
  db : Db := {}
  store : Store := {}
  nextMem : Nat := 0
  writers : List Writer := []
  lead : Option Lead := none
  rotating : Option Rotation := none
  jobs : List Job := []
  gets : List GetCall := []
  scans : List Scan := []
  nextHandle : Nat := 0
  /-- the tables the process has opened -/
  opened : List Table := []
  /-- the groups whose records are complete in a log -/
  hist : List Group := []
  /-- the groups that are finished, or were found by `Recover` -/
  done : List Group := []
  /-- the groups whose `Write` calls returned OK -/
  acked : List Group := []
  /-- the batches of all calls that became part of a group -/
  batches : List Group := []
  /-- the `Write` calls on the open database -/
  calls : List Writer := []
  /-- the calls that returned, and whether with OK -/
  returned : List (Writer × Bool) := []
  /-- how many groups the last synced group and those before it are -/
  safe : Nat := 0
  answers : List Answer := []

inductive Act where
  | write (id : Nat) (entries : List BatchEntry) (sync : Bool)
  | rotate (byFlush : Bool)
  | rotateIo (n : Nat)
  | rotateSwap
  | begin (elapsed : Bool)
  | append (n : Nat)
  | syncLog
  | insert
  | finish
  | getSnapshot
  | releaseSnapshot (handle : Nat)
  | getBegin (id : Nat) (key : Bytes) (snapshot : Option Nat)
  | getEnd (id : Nat)
  | newIterator (id : Nat) (snapshot : Option Nat)
  | seekToFirst (id : Nat)
  | seek (id : Nat) (target : Bytes)
  | next (id : Nat)
  | startFlush
  | startCompaction (level : Nat)
  | startLog
  | job (i n : Nat) (order : List FileName)
  | failAppend (n : Nat)
  | failSync
  | failRotate (n : Nat)
  | failJob (i n : Nat)
  | kill
  | recover (options : Options) (path : String)
  | powerLoss (keep : List Bool) (cut : FileName → Nat)
  | powerLossData (cut : FileName → Nat)

namespace Sys

/-- `mu_` can be taken. -/
def unlocked (s : Sys) : Bool := s.mode != .closed && s.rotating.isNone

def write (s : Sys) (id : Nat) (entries : List BatchEntry) (sync : Bool) : Option Sys :=
  if s.mode = .running ∧ s.unlocked ∧ entries ≠ [] then
    some { s with
      writers := s.writers ++ [⟨id, entries, sync⟩]
      calls := s.calls ++ [⟨id, entries, sync⟩] }
  else none

/-- The front of the queue, in `MakeRoomForWrite`, or a client in `FlushMemTable` opens a log. Only
the latter leaves an empty memtable alone. -/
def rotate (s : Sys) (byFlush : Bool) : Option Sys :=
  if s.mode = .running ∧ s.unlocked ∧ s.db.bgError.isOk ∧ s.db.imm = none ∧
      (if byFlush then (s.store.mems s.db.mem).isEmpty = false
        else s.lead.isNone ∧ s.writers ≠ []) then
    some { s with
      db := { s.db with nextFileNumber := s.db.nextFileNumber + 1 }
      rotating := some ⟨s.db.nextFileNumber, byFlush, openLog s.fs s.db.nextFileNumber⟩ }
  else none

def rotateIo (s : Sys) (n : Nat) : Option Sys := do
  let r ← s.rotating
  let (fs, io) ← ioStep n s.fs r.io
  some { s with fs := fs, rotating := some { r with io := io } }

/-- What is left of a system call that fails: of a `write`, its first `n` bytes. The result of
`unlink` is not looked at. -/
def failIo (n : Nat) (fs : DbFs) : List Io → Option DbFs
  | [] => none
  | .unlink _ :: _ => none
  | .append name bytes :: _ =>
    if n < bytes.length then some (fs.append name (bytes.take n)) else none
  | _ => some fs

/-- The new log does not open; the `Write` call that wanted it returns the error. -/
def failRotate (s : Sys) (n : Nat) : Option Sys := do
  let r ← s.rotating
  let fs ← failIo n s.fs r.io
  let retired := if r.byFlush then [] else s.writers.take 1
  some { s with
    fs := fs
    rotating := none
    writers := s.writers.drop retired.length
    returned := s.returned ++ retired.map fun w => (w, false) }

def rotateSwap (s : Sys) : Option Sys := do
  let r ← s.rotating
  if r.io.isEmpty ∧ (∀ ld ∈ s.lead, ld.betweenWrites) then
    some { s with
      db := { s.db with
        immLogNumber := s.db.logNumber
        logNumber := r.number
        imm := some s.db.mem
        mem := s.nextMem }
      nextMem := s.nextMem + 1
      rotating := none }
  else none

/-- Each member's batch, with the sequence number of its first entry. -/
def batchesFrom : Nat → List Writer → List Group
  | _, [] => []
  | base, w :: ws => ⟨base, w.entries⟩ :: batchesFrom (base + w.entries.length) ws

/-- The front of the queue takes the lead; after an error it only returns. -/
def begin (s : Sys) (elapsed : Bool) : Option Sys :=
  match s.writers with
  | [] => none
  | w :: ws =>
    if s.mode = .running ∧ s.unlocked ∧ s.lead.isNone then
      if s.db.bgError.isOk then
        let (members, batch) := Writer.buildBatchGroup (w :: ws)
        let base := s.db.lastSequence + 1
        some { s with
          db := { s.db with lastSequence := s.db.lastSequence + batch.count }
          lead := some {
            base := base
            batch := batch
            members := members
            unwritten := Wal.record base batch
            unsynced := s.db.shouldSyncNow w.sync elapsed
            uninserted := batch.forEach.1
            seq := base }
          batches := s.batches ++ batchesFrom base members }
      else some { s with writers := ws, returned := s.returned ++ [(w, false)] }
    else none

/-- `log_->AddRecord`, `n` bytes of it or all that is left. -/
def append (s : Sys) (n : Nat) : Option Sys := do
  let ld ← s.lead
  if ld.unwritten = [] then none
  else if 0 < n ∧ n < ld.unwritten.length then
    some { s with
      fs := s.fs.append (.log s.db.logNumber) (ld.unwritten.take n)
      lead := some { ld with unwritten := ld.unwritten.drop n } }
  else
    some { s with
      fs := s.fs.append (.log s.db.logNumber) ld.unwritten
      lead := some { ld with unwritten := [] }
      hist := s.hist ++ [ld.group] }

def syncLog (s : Sys) : Option Sys := do
  let ld ← s.lead
  if ld.unwritten = [] ∧ ld.unsynced then
    some { s with
      fs := s.fs.fsync (.log s.db.logNumber)
      lead := some { ld with unsynced := false }
      safe := s.hist.length }
  else none

/-- One `mem_->Add`. -/
def insert (s : Sys) : Option Sys := do
  let ld ← s.lead
  match ld.uninserted with
  | [] => none
  | e :: rest =>
    if ld.unwritten = [] ∧ ld.unsynced = false then
      some { s with
        store := { s.store with
          mems := Function.update s.store.mems s.db.mem
            ((s.store.mems s.db.mem).add ld.seq e.type e.key e.value) }
        lead := some { ld with uninserted := rest, seq := ld.seq + 1 } }
    else none

def finish (s : Sys) : Option Sys := do
  let ld ← s.lead
  if s.unlocked ∧ ld.unwritten = [] ∧ ld.unsynced = false ∧ ld.uninserted = [] then
    some { s with
      writers := s.writers.drop ld.members.length
      lead := none
      done := s.hist
      acked := s.acked ++ [ld.group]
      returned := s.returned ++ ld.members.map fun w => (w, true) }
  else none

/-- The leader's group returns an error, which stops all later writes. -/
def failLead (s : Sys) (ld : Lead) (fs : DbFs) (what : String) : Sys :=
  { s with
    fs := fs
    db := { s.db with bgError := .ioError what }
    writers := s.writers.drop ld.members.length
    lead := none
    returned := s.returned ++ ld.members.map fun w => (w, false) }

/-- `log_->AddRecord` fails after `n` bytes. -/
def failAppend (s : Sys) (n : Nat) : Option Sys := do
  let ld ← s.lead
  if s.unlocked ∧ n < ld.unwritten.length then
    some (s.failLead ld (s.fs.append (.log s.db.logNumber) (ld.unwritten.take n)) "write")
  else none

def failSync (s : Sys) : Option Sys := do
  let ld ← s.lead
  if s.unlocked ∧ ld.unwritten = [] ∧ ld.unsynced then some (s.failLead ld s.fs "fsync") else none

def getSnapshot (s : Sys) : Option Sys :=
  if s.mode = .running ∧ s.unlocked then
    some { s with
      db := { s.db with snapshots := s.db.snapshots ++ [⟨s.nextHandle, s.db.lastSequence⟩] }
      nextHandle := s.nextHandle + 1 }
  else none

def releaseSnapshot (s : Sys) (handle : Nat) : Option Sys :=
  if s.mode = .running ∧ s.unlocked then
    some { s with db := { s.db with
      snapshots := s.db.snapshots.filter fun sn => sn.handle != handle } }
  else none

/-- The read point of a call: no snapshot, or a live one. -/
def readPoint (s : Sys) : Option Nat → Option (Option Snapshot)
  | none => some none
  | some handle => (s.db.snapshots.find? fun sn => sn.handle == handle).map some

def getBegin (s : Sys) (id : Nat) (key : Bytes) (snapshot : Option Nat) : Option Sys := do
  let sn ← s.readPoint snapshot
  if s.mode = .running ∧ s.unlocked ∧ s.gets.all fun c => c.id != id then
    some { s with gets := s.gets ++ [⟨id, key, sn, s.db.capture sn, s.acked⟩] }
  else none

def getEnd (s : Sys) (id : Nat) : Option Sys := do
  let call ← s.gets.find? fun c => c.id == id
  let (result, store) := (call.capture.get call.key).run s.store
  some { s with
    store := store
    gets := s.gets.filter fun c => c.id != id
    answers := s.answers ++ [⟨call, result⟩] }

def newIterator (s : Sys) (id : Nat) (snapshot : Option Nat) : Option Sys := do
  let sn ← s.readPoint snapshot
  if s.mode = .running ∧ s.unlocked ∧ s.scans.all fun c => c.id != id then
    some { s with scans := s.scans ++ [⟨id, sn, (s.db.capture sn).newIterator, []⟩] }
  else none

/-- Moves an iterator; `fresh` forgets the rows it stood on before. -/
def moveScan (s : Sys) (id : Nat) (fresh : Bool) (f : DBIter → StoreM DBIter) : Option Sys := do
  let scan ← s.scans.find? fun c => c.id == id
  let (it, store) := (f scan.it).run s.store
  let row := if it.valid then [(it.key, it.value)] else []
  let rows := (if fresh then [] else scan.rows) ++ row
  some { s with
    store := store
    scans := s.scans.map fun c => if c.id == id then { c with it := it, rows := rows } else c }

def next (s : Sys) (id : Nat) : Option Sys := do
  let scan ← s.scans.find? fun c => c.id == id
  if scan.it.valid then s.moveScan id false DBIter.next else none

/-- One background thread runs the jobs, or any client when background work is off. -/
def mayStart (s : Sys) : Bool :=
  s.unlocked && s.db.bgError.isOk && (s.jobs.isEmpty || !s.db.options.backgroundCompaction)

/-- `FlushImmutableMemTable` up to the table's file; the memtable no longer changes. A filter that
cannot be built takes the process down, as `kill` does. -/
def startFlush (s : Sys) : Option Sys := do
  let imm ← s.db.imm
  if s.mayStart then
    let number := s.db.nextFileNumber
    let b := (flushLoop s.db.smallestSnapshot {} (TableBuilder.new s.db.options)
      (s.store.mems imm).recs).finish
    some { s with
      db := { s.db with nextFileNumber := number + 1 }
      jobs := s.jobs ++ [⟨writeTable number b.file, .flushOpen number b⟩] }
  else none

def startCompaction (s : Sys) (level : Nat) : Option Sys := do
  if s.mode = .running ∧ s.mayStart ∧ level + 1 < kNumLevels then
    let (db, c) ← s.db.beginCompaction level
    some { s with db := db, jobs := s.jobs ++ [⟨[], .compactMerge c⟩] }
  else none

/-- `Recover` after its flush: the log of the new process. -/
def startLog (s : Sys) : Option Sys :=
  if s.mode = .opening ∧ s.jobs.isEmpty ∧ s.db.imm = none then
    let number := s.db.nextFileNumber
    some { s with
      db := { s.db with nextFileNumber := number + 1 }
      jobs := [⟨openLog s.fs number, .logOpened number⟩] }
  else none

/-- An error ends `Recover`, and otherwise the background work. -/
def fail (s : Sys) (status : Status) : Sys :=
  if s.mode = .opening then { s with mode := .closed, failed := some status, jobs := [] }
  else { s with db := { s.db with bgError := status } }

/-- The part of `CommitVersion` after the wait. -/
def commitBegin (s : Sys) (version : Version) : Sys × Option Job :=
  let db := { s.db with committing := true, current := version }
  ({ s with db := db },
    some ⟨writeManifest db.manifest, .cleanup version db.oldestLiveLog .commitDone⟩)

def commitVersion (s : Sys) (version : Version) : Sys × Option Job :=
  if s.db.committing then (s, some ⟨[], .commitWait version⟩) else s.commitBegin version

def metaOf (number : Nat) (b : TableBuilder) (t : Table) : FileMetaData where
  number := number
  fileSize := b.fileSize
  smallest := b.smallestKey
  largest := b.largestKey
  table := t

def openJobTable (s : Sys) (number : Nat) : Except Status Table :=
  openTable s.db.path s.db.options s.fs number

/-- The step of a thread whose system calls are made: the new state, and how the thread goes on. -/
def phaseStep (s : Sys) (order : List FileName) : Phase → Option (Sys × Option Job)
  | .flushOpen number b =>
    match s.openJobTable number with
    | .error status => some (s.fail status, none)
    | .ok t => some ({ s with opened := s.opened ++ [t] },
        some ⟨[], .flushInstall (metaOf number b t)⟩)
  | .flushInstall file =>
    if s.unlocked then
      let version := s.db.current.setLevel 0 (file :: s.db.current.levels 0)
      some ({ s with db := { s.db with imm := none, immLogNumber := 0 } }.commitVersion version)
    else none
  | .compactMerge c =>
    let ((recs, status), store) := c.merge.run s.store
    let s := { s with store := store }
    if status.isOk then
      let todo := compactLoop s.db.options c.bottomMost c.smallestSnapshot {} none recs
      some (s, some ⟨[], .compactNext c todo []⟩)
    else some (s.fail status, none)
  | .compactNext c [] outputs =>
    if s.unlocked then some (s.commitVersion (c.install s.db.current outputs)) else none
  | .compactNext c (b :: todo) outputs =>
    if s.unlocked then
      let number := s.db.nextFileNumber
      some ({ s with db := { s.db with nextFileNumber := number + 1 } },
        some ⟨writeTable number b.file, .compactOpen c number b todo outputs⟩)
    else none
  | .compactOpen c number b todo outputs =>
    match s.openJobTable number with
    | .error status => some (s.fail status, none)
    | .ok t => some ({ s with opened := s.opened ++ [t] },
        some ⟨[], .compactNext c todo (outputs ++ [metaOf number b t])⟩)
  | .commitWait version =>
    if s.unlocked ∧ s.db.committing = false then some (s.commitBegin version) else none
  | .cleanup live logNumber next =>
    if order.isPerm s.fs.names then
      some (s, some ⟨(order.filter (isObsolete live logNumber)).map Io.unlink, next⟩)
    else none
  | .commitDone =>
    if s.unlocked then some ({ s with db := { s.db with committing := false } }, none) else none
  | .logOpened number =>
    let db := { s.db with logNumber := number }
    some ({ s with db := db },
      some ⟨writeManifest db.manifest, .cleanup db.current db.oldestLiveLog .recovered⟩)
  | .recovered => some ({ s with mode := .running }, none)

/-- The jobs with the `i`-th one replaced, or gone. -/
def setJob (jobs : List Job) (i : Nat) : Option Job → List Job
  | some j => jobs.set i j
  | none => jobs.eraseIdx i

def jobStep (s : Sys) (i n : Nat) (order : List FileName) : Option Sys := do
  let j ← s.jobs[i]?
  if j.io.isEmpty then
    let (s, next) ← s.phaseStep order j.phase
    some { s with jobs := setJob s.jobs i next }
  else
    let (fs, io) ← ioStep n s.fs j.io
    some { s with fs := fs, jobs := s.jobs.set i { j with io := io } }

/-- `TableBuilder::Abandon`: an unfinished table is deleted. -/
def abandon (number : Nat) (fs : DbFs) : List Io → DbFs
  | [] => fs
  | .openFile _ _ :: _ => fs
  | _ => fs.unlink (.sst number)

/-- The end of a job whose next system call, or the open of its table, has failed. -/
def failPhase (s : Sys) (io : List Io) : Phase → Option Sys
  | .flushOpen number _ =>
    some ({ s with fs := abandon number s.fs io }.fail (.ioError "table"))
  | .compactOpen _ number _ _ _ =>
    some ({ s with fs := abandon number s.fs io }.fail (.ioError "table"))
  | .cleanup _ _ .commitDone =>
    if io.isEmpty then none
    else some ({ s with db := { s.db with committing := false } }.fail (.ioError "manifest"))
  | .cleanup _ _ _ => if io.isEmpty then none else some (s.fail (.ioError "manifest"))
  | .logOpened _ => if io.isEmpty then none else some (s.fail (.ioError "open"))
  | _ => none

/-- The files after the failure of a job's next call; with no call left it is a read that fails. -/
def failCall (n : Nat) (fs : DbFs) (io : List Io) : Option DbFs :=
  if io.isEmpty then some fs else failIo n fs io

def failJob (s : Sys) (i n : Nat) : Option Sys := do
  let j ← s.jobs[i]?
  if s.unlocked then
    let fs ← failCall n s.fs j.io
    let s ← { s with fs := fs }.failPhase j.io j.phase
    some { s with jobs := s.jobs.eraseIdx i }
  else none

/-- The process is gone; the file system stays as it is. -/
def kill (s : Sys) : Sys :=
  { fs := s.fs, nextHandle := s.nextHandle, hist := s.hist, done := s.hist, acked := s.acked,
    batches := s.batches, safe := s.safe, answers := s.answers }

def loadManifest (options : Options) (path : String) (fs : DbFs) : Except Status Manifest :=
  match fs.read .manifest with
  | none => .ok {}
  | some bytes => Manifest.load (openTable path options fs) bytes

def logNumberOf : FileName → Option Nat
  | .log n => some n
  | _ => none

def numberOf : FileName → Option Nat
  | .log n => some n
  | .sst n => some n
  | _ => none

/-- The logs at or after a number, oldest first. -/
def liveLogs (fs : DbFs) (logNumber : Nat) : List Nat :=
  ((fs.names.filterMap logNumberOf).filter fun n => decide (logNumber ≤ n)).insertionSort (· ≤ ·)

/-- The counter past every numbered file. -/
def bumpFileNumber (fs : DbFs) (next : Nat) : Nat :=
  (fs.names.filterMap numberOf).foldl (fun next n => if next ≤ n then n + 1 else next) next

/-- The replay of the logs in order, which stops at the first that is corrupt. -/
def replayLogs (path : String) (fs : DbFs) : List Nat → Except Status (List Wal.Entry)
  | [] => .ok []
  | n :: rest =>
    let r := Wal.replay (logPath path n) ((fs.read (.log n)).getD [])
    if r.status.isOk then (replayLogs path fs rest).map (r.entries ++ ·) else .error r.status

def replayInto (m : MemTable) (es : List Wal.Entry) : MemTable :=
  es.foldl (fun m e => m.add e.seq e.type e.key e.value) m

def maxSequence (last : Nat) (es : List Wal.Entry) : Nat :=
  es.foldl (fun last e => if last < e.seq then e.seq else last) last

/-- `Recover` up to its flush: it has only read so far. -/
def recover (s : Sys) (options : Options) (path : String) : Option Sys :=
  if s.mode = .closed then
    match loadManifest options path s.fs with
    | .error status => some { s with failed := some status }
    | .ok m =>
      match replayLogs path s.fs (liveLogs s.fs m.logNumber) with
      | .error status => some { s with failed := some status }
      | .ok es =>
        let mem := replayInto {} es
        some { s with
          mode := .opening
          failed := none
          db := {
            options := options
            path := path
            mem := if mem.isEmpty then 0 else 1
            imm := if mem.isEmpty then none else some 0
            current := m.version
            nextFileNumber := bumpFileNumber s.fs m.nextFileNumber
            lastSequence := maxSequence m.lastSequence es }
          store := {
            mems := fun id => if id = 0 then mem else {}
            cache := if 0 < options.blockCacheBytes then
              some (BlockCache.new options.blockCacheBytes 16) else none }
          nextMem := 2
          opened := m.version.files.map (·.table) }
  else none

/-- The groups of the history before the first whose record a power loss took. -/
def survivors (fs fs' : DbFs) (hist : List Group) : List Group :=
  let logged := fun (fs : DbFs) => (fs.names.filterMap logNumberOf).flatMap fun n =>
    (Wal.replay "" ((fs.read (.log n)).getD [])).entries.map (·.seq)
  hist.takeWhile fun g => !((logged fs).contains g.base && !(logged fs').contains g.base)

def powerLoss (s : Sys) (fs : DbFs) : Sys :=
  let hist := survivors s.fs fs s.hist
  { s.kill with fs := fs, hist := hist, done := hist, safe := hist.length }

end Sys

/-- One step of the system. -/
def step (s : Sys) : Act → Option Sys
  | .write id entries sync => s.write id entries sync
  | .rotate byFlush => s.rotate byFlush
  | .rotateIo n => s.rotateIo n
  | .rotateSwap => s.rotateSwap
  | .begin elapsed => s.begin elapsed
  | .append n => s.append n
  | .syncLog => s.syncLog
  | .insert => s.insert
  | .finish => s.finish
  | .getSnapshot => s.getSnapshot
  | .releaseSnapshot handle => s.releaseSnapshot handle
  | .getBegin id key snapshot => s.getBegin id key snapshot
  | .getEnd id => s.getEnd id
  | .newIterator id snapshot => s.newIterator id snapshot
  | .seekToFirst id => s.moveScan id true DBIter.seekToFirst
  | .seek id target => s.moveScan id true (DBIter.seek · target)
  | .next id => s.next id
  | .startFlush => s.startFlush
  | .startCompaction level => s.startCompaction level
  | .startLog => s.startLog
  | .job i n order => s.jobStep i n order
  | .failAppend n => s.failAppend n
  | .failSync => s.failSync
  | .failRotate n => s.failRotate n
  | .failJob i n => s.failJob i n
  | .kill => some s.kill
  | .recover options path => s.recover options path
  | .powerLoss keep cut => some (s.powerLoss (s.fs.powerLoss keep cut))
  | .powerLossData cut => some (s.powerLoss (s.fs.powerLossData cut))

end LsmKv
