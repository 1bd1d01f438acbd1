import Mathlib

namespace LsmKv
set_option autoImplicit true

inductive Code where
  | ok
  | notFound
  | corruption
  | ioError
  | invalidArgument
  | notSupported
deriving DecidableEq, Repr

/-- A success value, or a failure code with a message. -/
structure Status where
  code : Code := .ok
  message : String := ""
deriving DecidableEq, Repr

namespace Status

def ok : Status := {}
def notFound (msg : String := "") : Status := ⟨.notFound, msg⟩
def corruption (msg : String) : Status := ⟨.corruption, msg⟩
def ioError (msg : String) : Status := ⟨.ioError, msg⟩
def invalidArgument (msg : String) : Status := ⟨.invalidArgument, msg⟩

def isOk (s : Status) : Bool := s.code == .ok

@[simp] theorem isOk_ok : ok.isOk = true := rfl

end Status

inductive SyncPolicy where
  | everyWrite
  | interval
  | never
deriving DecidableEq, Repr

/-- The options the modelled functions read. Sizes are `size_t` and `uint64_t` values;
`blockRestartInterval`, `bloomBitsPerKey` and `l0CompactionTrigger` are `int`s. -/
structure Options where
  blockSizeBytes : Nat := 4096
  blockRestartInterval : Int := 16
  bloomBitsPerKey : Int := 10
  blockCacheBytes : Nat := 8388608
  l0CompactionTrigger : Int := 4
  targetFileSize : Nat := 2097152
  syncPolicy : SyncPolicy := .everyWrite
  backgroundCompaction : Bool := true
  verifyChecksums : Bool := true

end LsmKv
