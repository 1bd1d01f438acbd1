import LsmKv.Record

namespace LsmKv
set_option autoImplicit true

structure BlockBuilder where
  restartInterval : Nat
  buffer : Bytes := []
  restarts : List Nat := [0]
  lastKey : Bytes := []
  sinceRestart : Nat := 0
  entries : Nat := 0

namespace BlockBuilder

def new (restartInterval : Int) : BlockBuilder where
  restartInterval := if restartInterval < 1 then 1 else restartInterval.toNat

/-- How many leading bytes two keys share. -/
def sharedLength : Bytes → Bytes → Nat
  | a :: as, b :: bs => if a = b then sharedLength as bs + 1 else 0
  | _, _ => 0

def encodeEntry (shared : Nat) (key value : Bytes) : Bytes :=
  putVarint32 (shared % 2 ^ 32) ++ (putVarint32 ((key.length - shared) % 2 ^ 32) ++
    (putVarint32 (value.length % 2 ^ 32) ++ (key.drop shared ++ value)))

/-- The prefix of `key` that is left out of the entry: none when a restart run begins. -/
def sharedFor (b : BlockBuilder) (key : Bytes) : Nat :=
  if b.sinceRestart < b.restartInterval then sharedLength b.lastKey key else 0

def add (b : BlockBuilder) (key value : Bytes) : BlockBuilder where
  restartInterval := b.restartInterval
  buffer := b.buffer ++ encodeEntry (b.sharedFor key) key value
  restarts := if b.sinceRestart < b.restartInterval then b.restarts
    else b.restarts ++ [b.buffer.length % 2 ^ 32]
  lastKey := key
  sinceRestart := (if b.sinceRestart < b.restartInterval then b.sinceRestart else 0) + 1
  entries := b.entries + 1

def reset (b : BlockBuilder) : BlockBuilder where
  restartInterval := b.restartInterval

/-- The finished block; the builder itself is `reset`. -/
def finish (b : BlockBuilder) : Bytes :=
  b.buffer ++ (b.restarts.flatMap putFixed32 ++ putFixed32 b.restarts.length)

def isEmpty (b : BlockBuilder) : Bool := b.entries == 0

def currentSizeEstimate (b : BlockBuilder) : Nat := b.buffer.length + (b.restarts.length + 1) * 4

end BlockBuilder

/-- A cursor over one block. The contents are borrowed from the caller; `rejected` is the state
with a null `data_` that a malformed restart array leaves behind. -/
structure BlockReader where
  contents : Bytes := []
  rejected : Bool := true
  entriesSize : Nat := 0
  numRestarts : Nat := 0
  current : Nat := 0
  next : Nat := 0
  key : Bytes := []
  value : Bytes := []
  valid : Bool := false
  status : Status := .ok

namespace BlockReader

def restartOffset (r : BlockReader) (index : Nat) : Nat :=
  decodeFixed32 (r.contents.drop (r.entriesSize + index * 4))

def new (contents : Bytes) : BlockReader :=
  if contents.length < 4 then
    { status := .corruption "data block shorter than its restart count" }
  else
    let numRestarts := decodeFixed32 (contents.drop (contents.length - 4))
    let trailer := (numRestarts + 1) * 4
    if numRestarts = 0 ∨ contents.length < trailer then
      { status := .corruption "data block has a malformed restart array" }
    else
      let r : BlockReader :=
        { contents := contents, rejected := false, numRestarts := numRestarts,
          entriesSize := (contents.length - trailer) % 2 ^ 32 }
      if (List.range numRestarts).any fun i => r.entriesSize < r.restartOffset i then
        { r with rejected := true
                 status := .corruption "data block restart offset out of range" }
      else r

/-- The bytes from `offset` to the end of the entry region. -/
def region (r : BlockReader) (offset : Nat) : Bytes := (r.contents.take r.entriesSize).drop offset

/-- The three lengths in front of an entry. -/
def parseLengths (p : Bytes) : Option (Nat × Nat × Nat × Bytes) :=
  match getVarint32Ptr p with
  | none => none
  | some (shared, p) =>
    match getVarint32Ptr p with
    | none => none
    | some (nonShared, p) =>
      match getVarint32Ptr p with
      | none => none
      | some (valueLen, p) => some (shared, nonShared, valueLen, p)

/-- Decodes the entry at `offset` against the key of the entry before it. The sum of the two
lengths is a `uint32_t` sum. -/
def parseEntryAt (r : BlockReader) (offset : Nat) : BlockReader :=
  if r.entriesSize ≤ offset then { r with valid := false }
  else
    match parseLengths (r.region offset) with
    | none => { r with status := .corruption "truncated data block entry", valid := false }
    | some (shared, nonShared, valueLen, p) =>
      if p.length < (nonShared + valueLen) % 2 ^ 32 then
        { r with status := .corruption "truncated data block entry", valid := false }
      else if r.key.length < shared then
        { r with status := .corruption "data block entry shares more than it can", valid := false }
      else
        { r with
          key := r.key.take shared ++ p.take nonShared
          value := (p.drop nonShared).take valueLen
          current := offset
          next := (r.entriesSize - p.length + nonShared + valueLen) % 2 ^ 32
          valid := true }

def seekToRestart (r : BlockReader) (index : Nat) : BlockReader :=
  { r with key := [] }.parseEntryAt (r.restartOffset index)

def seekToFirst (r : BlockReader) : BlockReader :=
  if r.rejected then r else r.seekToRestart 0

def advance (r : BlockReader) : BlockReader :=
  if r.valid then r.parseEntryAt r.next else r

/-- Binary search for the last restart point before `target`: the point, and the reader as the
probes leave it, or none when a probe fails to parse. -/
def searchRestarts (r : BlockReader) (target : Bytes) (left right : Nat) :
    BlockReader × Option Nat :=
  if left < right then
    let mid := left + (right - left + 1) / 2
    let r := r.seekToRestart mid
    if r.valid then
      if compareInternalKey r.key target = .lt then r.searchRestarts target mid right
      else r.searchRestarts target left (mid - 1)
    else ({ r with valid := false }, none)
  else (r, some left)
termination_by right - left

/-- Each step moves to a later entry, so the size of the region bounds the walk. -/
def walkTo (target : Bytes) : Nat → BlockReader → BlockReader
  | 0, r => r
  | fuel + 1, r =>
    if r.valid ∧ compareInternalKey r.key target = .lt then walkTo target fuel r.advance else r

def seek (r : BlockReader) (target : Bytes) : BlockReader :=
  if r.rejected then r
  else
    match r.searchRestarts target 0 (r.numRestarts - 1) with
    | (r, none) => r
    | (r, some left) => walkTo target r.entriesSize (r.seekToRestart left)

end BlockReader

end LsmKv
