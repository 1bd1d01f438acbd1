import LsmKv.Block
import LsmKv.Bloom
import LsmKv.Cache
import LsmKv.Crc32c

namespace LsmKv
set_option autoImplicit true

def kFooterSize : Nat := 40
def kTableMagic : Nat := 0x4c534d5442aa5502
def kBlockTrailerSize : Nat := 4

/-- The writer of one table. `file` is what has been written to the descriptor. -/
structure TableBuilder where
  options : Options
  block : BlockBuilder
  indexBlock : Bytes := []
  lastKeyInBlock : Bytes := []
  filterKeys : List Bytes := []
  file : Bytes := []
  fileSize : Nat := 0
  numEntries : Nat := 0
  smallestKey : Bytes := []
  largestKey : Bytes := []

namespace TableBuilder

def new (options : Options) : TableBuilder where
  options := options
  block := BlockBuilder.new options.blockRestartInterval

/-- A block on disk: its contents and their checksum. -/
def withTrailer (contents : Bytes) : Bytes := contents ++ putFixed32 (Crc32c.value contents).toNat

def writeBlock (b : TableBuilder) (contents : Bytes) : TableBuilder :=
  { b with
    file := b.file ++ withTrailer contents
    fileSize := b.fileSize + (contents.length + kBlockTrailerSize) }

def encodeHandle (lastKey : Bytes) (offset size : Nat) : Bytes :=
  putLengthPrefixed lastKey ++ (putFixed64 offset ++ putFixed64 size)

def flushDataBlock (b : TableBuilder) : TableBuilder :=
  if b.block.isEmpty then b
  else
    let contents := b.block.finish
    { b.writeBlock contents with
      block := b.block.reset
      indexBlock := b.indexBlock ++ encodeHandle b.lastKeyInBlock b.fileSize contents.length }

def add (b : TableBuilder) (internalKey value : Bytes) : TableBuilder :=
  let b := { b with
    smallestKey := if b.numEntries = 0 then internalKey else b.smallestKey
    largestKey := internalKey
    lastKeyInBlock := internalKey
    numEntries := b.numEntries + 1
    filterKeys := b.filterKeys ++ [extractUserKey internalKey]
    block := b.block.add internalKey value }
  if b.options.blockSizeBytes ≤ b.block.currentSizeEstimate then b.flushDataBlock else b

def footer (indexOffset indexSize bloomOffset bloomSize : Nat) : Bytes :=
  putFixed64 indexOffset ++ (putFixed64 indexSize ++ (putFixed64 bloomOffset ++
    (putFixed64 bloomSize ++ putFixed64 kTableMagic)))

def finish (b : TableBuilder) : TableBuilder :=
  let b := b.flushDataBlock
  let bloom := BloomFilter.build b.filterKeys b.options.bloomBitsPerKey
  let b₁ := b.writeBlock bloom
  let b₂ := b₁.writeBlock b.indexBlock
  let foot := footer b₁.fileSize b.indexBlock.length b.fileSize bloom.length
  { b₂ with file := b₂.file ++ foot, fileSize := b₂.fileSize + foot.length }

end TableBuilder

structure IndexEntry where
  lastKey : Bytes
  offset : Nat
  size : Nat
deriving DecidableEq

/-- An open table. `file` is the file behind the descriptor, which nothing writes to any more. -/
structure Table where
  path : String
  file : Bytes
  number : Nat
  verifyChecksums : Bool
  index : List IndexEntry := []
  bloom : Bytes := []
deriving DecidableEq

namespace Table

/-- `ReadFullyAt`: `pread` refuses a read whose end is not an `off_t`. -/
def readFullyAt (file : Bytes) (offset n : Nat) : Except Status Bytes :=
  if n = 0 then .ok []
  else if 2 ^ 63 ≤ offset + n then .error (.ioError "pread")
  else if file.length < offset + n then .error (.corruption "unexpected end of SSTable")
  else .ok ((file.drop offset).take n)

/-- `ReadBlock` past the cache. -/
def readFile (t : Table) (entry : IndexEntry) : Except Status Bytes :=
  match readFullyAt t.file entry.offset ((entry.size + kBlockTrailerSize) % 2 ^ 64) with
  | .error s => .error s
  | .ok buf =>
    if t.verifyChecksums ∧
        (Crc32c.value (buf.take entry.size)).toNat ≠ decodeFixed32 (buf.drop entry.size) then
      .error (.corruption (t.path ++ ": block checksum mismatch"))
    else .ok (buf.take entry.size)

/-- The loop over the index block; `fuel` bounds the entries by the bytes that hold them. -/
def parseIndex (path : String) : Nat → Bytes → Except Status (List IndexEntry)
  | _, [] => .ok []
  | 0, _ => .ok []
  | fuel + 1, rest =>
    match getLengthPrefixed rest with
    | none => .error (.corruption (path ++ ": malformed index block"))
    | some (lastKey, rest) =>
      if rest.length < 16 then .error (.corruption (path ++ ": malformed index block"))
      else
        match parseIndex path fuel (rest.drop 16) with
        | .error s => .error s
        | .ok index =>
          .ok (⟨lastKey, decodeFixed64 rest, decodeFixed64 (rest.drop 8)⟩ :: index)

def openFile (path : String) (file : Bytes) (options : Options) (number : Nat) :
    Except Status Table :=
  if file.length < kFooterSize then .error (.corruption (path ++ ": file shorter than footer"))
  else
    let footer := file.drop (file.length - kFooterSize)
    let indexOffset := decodeFixed64 footer
    let indexSize := decodeFixed64 (footer.drop 8)
    let bloomOffset := decodeFixed64 (footer.drop 16)
    let bloomSize := decodeFixed64 (footer.drop 24)
    if decodeFixed64 (footer.drop 32) ≠ kTableMagic then
      .error (.corruption (path ++ ": bad table magic"))
    else if file.length < (indexOffset + indexSize + kBlockTrailerSize) % 2 ^ 64 ∨
        file.length < (bloomOffset + bloomSize + kBlockTrailerSize) % 2 ^ 64 then
      .error (.corruption (path ++ ": footer points past end of file"))
    else
      let t : Table := ⟨path, file, number, options.verifyChecksums, [], []⟩
      match t.readFile ⟨[], bloomOffset, bloomSize⟩ with
      | .error s => .error s
      | .ok bloom =>
        match t.readFile ⟨[], indexOffset, indexSize⟩ with
        | .error s => .error s
        | .ok contents =>
          match parseIndex path contents.length contents with
          | .error s => .error s
          | .ok index => .ok { t with index := index, bloom := bloom }

end Table

end LsmKv
