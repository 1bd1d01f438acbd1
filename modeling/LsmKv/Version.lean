import LsmKv.Store

namespace LsmKv
set_option autoImplicit true

def kNumLevels : Nat := 7

structure FileMetaData where
  number : Nat
  fileSize : Nat
  smallest : Bytes
  largest : Bytes
  table : Table

/-- Which files live at which level; only the levels below `kNumLevels` are used. -/
structure Version where
  levels : Nat → List FileMetaData := fun _ => []

namespace Version

def levelBytes (v : Version) (level : Nat) : Nat := ((v.levels level).map (·.fileSize)).sum

/-- All files, level by level. -/
def files (v : Version) : List FileMetaData := (List.range kNumLevels).flatMap v.levels

def setLevel (v : Version) (level : Nat) (fs : List FileMetaData) : Version where
  levels := fun l => if l = level then fs else v.levels l

end Version

def rangesOverlap (f : FileMetaData) (smallestUser largestUser : Bytes) : Bool :=
  if extractUserKey f.largest < smallestUser then false
  else if largestUser < extractUserKey f.smallest then false
  else true

namespace Version

/-- The `probe` of `DB::Get`. -/
def probe (f : FileMetaData) (key : Bytes) (seq : Nat) : StoreM (Option (Except Status Bytes)) :=
  if key < extractUserKey f.smallest ∨ extractUserKey f.largest < key then pure none
  else f.table.get key seq

def getLevel0 (key : Bytes) (seq : Nat) :
    List FileMetaData → StoreM (Option (Except Status Bytes))
  | [] => pure none
  | f :: fs => do
    match ← probe f key seq with
    | some r => pure (some r)
    | none => getLevel0 key seq fs

/-- One level below L0: the only file that can hold the key. -/
def getLevel (files : List FileMetaData) (key : Bytes) (seq : Nat) :
    StoreM (Option (Except Status Bytes)) :=
  match files.drop (lowerBoundOf (fun f => decide (extractUserKey f.largest < key)) files) with
  | [] => pure none
  | f :: _ => probe f key seq

def getDeeper (v : Version) (key : Bytes) (seq : Nat) :
    List Nat → StoreM (Option (Except Status Bytes))
  | [] => pure none
  | level :: rest => do
    match ← getLevel (v.levels level) key seq with
    | some r => pure (some r)
    | none => getDeeper v key seq rest

/-- The part of `DB::Get` below the memtables. -/
def get (v : Version) (key : Bytes) (seq : Nat) : StoreM (Option (Except Status Bytes)) := do
  match ← getLevel0 key seq (v.levels 0) with
  | some r => pure (some r)
  | none => v.getDeeper key seq (List.range' 1 (kNumLevels - 1))

end Version

end LsmKv
