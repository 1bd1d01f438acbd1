import LsmKv.Library.Heap
import LsmKv.Version

namespace LsmKv
set_option autoImplicit true

/-- A skip-list position: the memtable, and the node it stands on. -/
structure MemTableIterator where
  mem : Nat
  node : Option Bytes := none

namespace MemTableIterator

def valid (it : MemTableIterator) : Bool := it.node.isSome
def key (it : MemTableIterator) : Bytes := MemTable.decodeEntryKey (it.node.getD [])
def value (it : MemTableIterator) : Bytes := MemTable.decodeEntryValue (it.node.getD [])

def seekToFirst (it : MemTableIterator) : StoreM MemTableIterator := do
  let s ← get
  pure { it with node := (s.mems it.mem).entries.head? }

def seek (it : MemTableIterator) (target : Bytes) : StoreM MemTableIterator := do
  let s ← get
  pure { it with node := ((s.mems it.mem).seek target).head? }

/-- Follows the node's link in the list as it is now. -/
def next (it : MemTableIterator) : StoreM MemTableIterator := do
  let s ← get
  match it.node with
  | none => pure it
  | some e =>
    pure { it with node := (((s.mems it.mem).entries.dropWhile (· != e)).tail).head? }

end MemTableIterator

/-- Concatenation of the files of one level below L0. -/
structure LevelIterator where
  files : List FileMetaData
  index : Nat := 0
  iter : Option TableIterator := none
  status : Status := .ok

namespace LevelIterator

def valid (it : LevelIterator) : Bool :=
  match it.iter with
  | some t => t.valid
  | none => false

def key (it : LevelIterator) : Bytes := (it.iter.map TableIterator.key).getD []
def value (it : LevelIterator) : Bytes := (it.iter.map TableIterator.value).getD []

def getStatus (it : LevelIterator) : Status :=
  if !it.status.isOk then it.status else (it.iter.map TableIterator.status).getD .ok

/-- Steps over exhausted files; the argument is what follows `files_[index_]`. -/
def skipEmptyFilesForward (it : LevelIterator) : List FileMetaData → StoreM LevelIterator
  | [] =>
    match it.iter with
    | none => pure it
    | some t =>
      if t.valid then pure it
      else if !t.status.isOk then pure { it with status := t.status }
      else pure { it with index := it.index + 1, iter := none }
  | f :: rest =>
    match it.iter with
    | none => pure it
    | some t =>
      if t.valid then pure it
      else if !t.status.isOk then pure { it with status := t.status }
      else do
        let t ← ({ table := f.table } : TableIterator).seekToFirst
        { it with index := it.index + 1, iter := some t }.skipEmptyFilesForward rest

def rest (it : LevelIterator) : List FileMetaData := it.files.drop (it.index + 1)

/-- Opens `files_[index]`, positions its cursor with `start`, and skips what is exhausted. -/
def openAt (it : LevelIterator) (index : Nat) (start : TableIterator → StoreM TableIterator) :
    StoreM LevelIterator := do
  match it.files[index]? with
  | none => pure { it with index := index, iter := none }
  | some f =>
    let t ← start { table := f.table }
    { it with index := index, iter := some t }.skipEmptyFilesForward (it.files.drop (index + 1))

def seekToFirst (it : LevelIterator) : StoreM LevelIterator :=
  it.openAt 0 TableIterator.seekToFirst

def seek (it : LevelIterator) (target : Bytes) : StoreM LevelIterator :=
  it.openAt (lowerBoundOf (fun f => compareInternalKey f.largest target == .lt) it.files)
    (TableIterator.seek · target)

def next (it : LevelIterator) : StoreM LevelIterator := do
  match it.iter with
  | none => pure it
  | some t =>
    let t ← t.next
    { it with iter := some t }.skipEmptyFilesForward it.rest

end LevelIterator

/-- The `Iterator` implementations a merge runs over. -/
inductive Iter where
  | mem (it : MemTableIterator)
  | table (it : TableIterator)
  | level (it : LevelIterator)

namespace Iter

instance : Inhabited Iter := ⟨.mem { mem := 0 }⟩

def valid : Iter → Bool
  | mem it => it.valid
  | table it => it.valid
  | level it => it.valid

def key : Iter → Bytes
  | mem it => it.key
  | table it => it.key
  | level it => it.key

def value : Iter → Bytes
  | mem it => it.value
  | table it => it.value
  | level it => it.value

def status : Iter → Status
  | mem _ => .ok
  | table it => it.status
  | level it => it.getStatus

def seekToFirst : Iter → StoreM Iter
  | mem it => mem <$> it.seekToFirst
  | table it => table <$> it.seekToFirst
  | level it => level <$> it.seekToFirst

def seek (target : Bytes) : Iter → StoreM Iter
  | mem it => mem <$> it.seek target
  | table it => table <$> it.seek target
  | level it => level <$> it.seek target

def next : Iter → StoreM Iter
  | mem it => mem <$> it.next
  | table it => table <$> it.next
  | level it => level <$> it.next

/-- At least as many as the entries the iterator can yield. -/
def bound (s : Store) : Iter → Nat
  | mem it => (s.mems it.mem).entries.length
  | table it => (it.table.index.map IndexEntry.size).sum
  | level it => (it.files.map fun f => (f.table.index.map IndexEntry.size).sum).sum

end Iter

/-- The interface of the cursors over sorted sequences of internal keys and values. -/
class Iterator (ι : Type) where
  valid : ι → Bool
  key : ι → Bytes
  value : ι → Bytes
  status : ι → Status
  seekToFirst : ι → StoreM ι
  seek : Bytes → ι → StoreM ι
  next : ι → StoreM ι

instance : Iterator Iter where
  valid := Iter.valid
  key := Iter.key
  value := Iter.value
  status := Iter.status
  seekToFirst := Iter.seekToFirst
  seek := Iter.seek
  next := Iter.next

structure MergingIterator (ι : Type) where
  children : List ι
  heap : List Nat := []

namespace MergingIterator

section Merge
variable {ι : Type} [Iterator ι] [Inhabited ι]

def child (it : MergingIterator ι) (i : Nat) : ι := it.children.getD i default

def valid (it : MergingIterator ι) : Bool := !it.heap.isEmpty

/-- The child at the root of the heap. -/
def top (it : MergingIterator ι) : ι := it.child (it.heap.headD 0)

def key (it : MergingIterator ι) : Bytes := Iterator.key it.top
def value (it : MergingIterator ι) : Bytes := Iterator.value it.top

def status (it : MergingIterator ι) : Status :=
  match it.children.find? fun c => !(Iterator.status c).isOk with
  | some c => Iterator.status c
  | none => .ok

def greater (children : List ι) (a b : Nat) : Bool :=
  match compareInternalKey (Iterator.key (children.getD a default))
      (Iterator.key (children.getD b default)) with
  | .lt => false
  | .gt => true
  | .eq => decide (b < a)

def buildHeap (children : List ι) : MergingIterator ι where
  children := children
  heap := LsmKv.buildHeap (greater children)
    ((List.range children.length).filter fun i => Iterator.valid (children.getD i default))

def seekToFirst (it : MergingIterator ι) : StoreM (MergingIterator ι) :=
  buildHeap <$> it.children.mapM Iterator.seekToFirst

def seek (it : MergingIterator ι) (target : Bytes) : StoreM (MergingIterator ι) :=
  buildHeap <$> it.children.mapM (Iterator.seek target)

/-- Takes the last element into the root. -/
def popRoot (heap : List Nat) : List Nat := (heap.set 0 (heap.getLastD 0)).dropLast

def next (it : MergingIterator ι) : StoreM (MergingIterator ι) := do
  let root := it.heap.headD 0
  let c ← Iterator.next (it.child root)
  let children := it.children.set root c
  let heap := if Iterator.valid c then it.heap else popRoot it.heap
  pure { children := children, heap := siftDown (greater children) heap 0 }

end Merge

def bound (s : Store) (it : MergingIterator Iter) : Nat := (it.children.map (Iter.bound s)).sum

end MergingIterator

structure DBIter where
  inner : MergingIterator Iter
  seq : Nat
  key : Bytes := []
  value : Bytes := []
  valid : Bool := false

namespace DBIter

def status (it : DBIter) : Status := it.inner.status

def skipLoop (key : Bytes) : Nat → MergingIterator Iter → StoreM (MergingIterator Iter)
  | 0, m => pure m
  | fuel + 1, m =>
    if m.valid ∧ extractUserKey m.key = key then do
      let m ← m.next
      skipLoop key fuel m
    else pure m

/-- Every step of the loop uses up an entry, so the number of entries bounds it. -/
def skipRestOfCurrentKey (it : DBIter) : StoreM DBIter := do
  let s ← get
  let m ← skipLoop it.key (it.inner.bound s) it.inner
  pure { it with inner := m }

def advanceLoop : Nat → DBIter → StoreM DBIter
  | 0, it => pure { it with valid := false }
  | fuel + 1, it =>
    if !it.inner.valid then pure { it with valid := false }
    else if it.seq < extractSequence it.inner.key then do
      let m ← it.inner.next
      advanceLoop fuel { it with inner := m }
    else
      let it := { it with key := extractUserKey it.inner.key }
      if extractValueType it.inner.key = ValueType.kDeletion.code then do
        let it ← it.skipRestOfCurrentKey
        advanceLoop fuel it
      else pure { it with value := it.inner.value, valid := true }

def advanceToNextLiveKey (it : DBIter) : StoreM DBIter := do
  let s ← get
  advanceLoop (it.inner.bound s + 1) it

def seekToFirst (it : DBIter) : StoreM DBIter := do
  let m ← it.inner.seekToFirst
  { it with inner := m }.advanceToNextLiveKey

def seek (it : DBIter) (target : Bytes) : StoreM DBIter := do
  let m ← it.inner.seek (lookupKey target it.seq)
  { it with inner := m }.advanceToNextLiveKey

def next (it : DBIter) : StoreM DBIter := do
  let it ← it.skipRestOfCurrentKey
  it.advanceToNextLiveKey

end DBIter

end LsmKv
