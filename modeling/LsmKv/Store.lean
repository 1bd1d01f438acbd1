import LsmKv.Library.StateLogic
import LsmKv.MemTable
import LsmKv.SsTableLayout

namespace LsmKv
set_option autoImplicit true

/-- How the file read of a block can fail although the file is sound: `pread` fails, or what it
returns does not match its checksum. -/
inductive ReadFault where
  | io
  | checksum
deriving DecidableEq, Repr

def ReadFault.status (path : String) : ReadFault → Status
  | io => .ioError "pread"
  | checksum => .corruption (path ++ ": block checksum mismatch")

/-- What readers reach through shared pointers: the memtables, by allocation number, and the block
cache, which is null when `block_cache_bytes` is zero. `faults` says which of the coming file reads
fail. -/
structure Store where
  mems : Nat → MemTable := fun _ => {}
  cache : Option BlockCache := none
  faults : List (Option ReadFault) := []

abbrev StoreM := StateM Store

namespace Table

/-- One file read of a block, which may be the one that fails. -/
def fetch (t : Table) (entry : IndexEntry) : StoreM (Except Status Bytes) := do
  let s ← get
  match s.faults with
  | [] => pure (t.readFile entry)
  | fault :: rest => do
    set { s with faults := rest }
    match fault with
    | none => pure (t.readFile entry)
    | some fault => pure (.error (fault.status t.path))

def readBlock (t : Table) (entry : IndexEntry) : StoreM (Except Status Bytes) := do
  let s ← get
  match s.cache with
  | none => t.fetch entry
  | some c =>
    match c.lookup t.number entry.offset with
    | (some v, c) => do
      set { s with cache := some c }
      pure (.ok v)
    | (none, c) => do
      match ← t.fetch entry with
      | .error e => pure (.error e)
      | .ok buf => do
        let (v, c) := c.insert t.number entry.offset buf
        modify fun s => { s with cache := some c }
        pure (.ok v)

/-- What `Get` does with the one block that can hold the key. -/
def getInBlock (contents key target : Bytes) : Option (Except Status Bytes) :=
  let block := BlockReader.new contents
  if !block.status.isOk then some (.error block.status)
  else
    let block := block.seek target
    if !block.status.isOk then some (.error block.status)
    else if !block.valid then none
    else if extractUserKey block.key ≠ key then none
    else if extractValueType block.key = ValueType.kDeletion.code then some (.error .notFound)
    else some (.ok block.value)

/-- The blocks from the first one whose largest key is at or after `target`. -/
def blocksFrom (t : Table) (target : Bytes) : Nat :=
  lowerBoundOf (fun e => compareInternalKey e.lastKey target == .lt) t.index

def get (t : Table) (key : Bytes) (seq : Nat) : StoreM (Option (Except Status Bytes)) :=
  if !BloomFilter.mayContain t.bloom key then pure none
  else
    let target := lookupKey key seq
    match t.index.drop (t.blocksFrom target) with
    | [] => pure none
    | entry :: _ => do
      match ← t.readBlock entry with
      | .error s => pure (some (.error s))
      | .ok contents => pure (getInBlock contents key target)

end Table

structure TableIterator where
  table : Table
  blockIndex : Nat := 0
  reader : BlockReader := {}
  valid : Bool := false
  status : Status := .ok

namespace TableIterator

def key (it : TableIterator) : Bytes := it.reader.key
def value (it : TableIterator) : Bytes := it.reader.value

/-- A freshly opened block is positioned at the target, or at its first entry when there is none. -/
def position (reader : BlockReader) : Option Bytes → BlockReader
  | some target => reader.seek target
  | none => reader.seekToFirst

/-- `LoadBlock` over the index entries from `block_index_` on. -/
def loadBlocks (it : TableIterator) : Option Bytes → List IndexEntry → StoreM TableIterator
  | _, [] => pure { it with valid := false, blockIndex := it.table.index.length }
  | target, entry :: rest => do
    let it := { it with blockIndex := it.table.index.length - (rest.length + 1) }
    match ← it.table.readBlock entry with
    | .error s => pure { it with status := s, valid := false }
    | .ok contents =>
      let reader := BlockReader.new contents
      if !reader.status.isOk then
        pure { it with reader := reader, status := reader.status, valid := false }
      else
        let reader := position reader target
        let it := { it with reader := reader, status := .ok }
        if !reader.status.isOk then pure { it with status := reader.status, valid := false }
        else if reader.valid then pure { it with valid := true }
        else it.loadBlocks none rest

def loadBlock (it : TableIterator) (target : Option Bytes) : StoreM TableIterator :=
  if it.blockIndex < it.table.index.length then
    it.loadBlocks target (it.table.index.drop it.blockIndex)
  else pure { it with valid := false }

def seekToFirst (it : TableIterator) : StoreM TableIterator :=
  { it with blockIndex := 0 }.loadBlock none

def seek (it : TableIterator) (target : Bytes) : StoreM TableIterator :=
  { it with blockIndex := it.table.blocksFrom target }.loadBlock (some target)

def next (it : TableIterator) : StoreM TableIterator :=
  if !it.valid then pure it
  else
    let reader := it.reader.advance
    let it := { it with reader := reader }
    if reader.valid then pure it
    else if !reader.status.isOk then pure { it with status := reader.status, valid := false }
    else { it with blockIndex := it.blockIndex + 1 }.loadBlock none

end TableIterator

end LsmKv
