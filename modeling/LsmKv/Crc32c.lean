import LsmKv.Coding

namespace LsmKv.Crc32c
set_option autoImplicit true

/-- Bit-reflected Castagnoli polynomial. -/
def kPoly : UInt32 := 0x82f63b78

def shiftBit (crc : UInt32) : UInt32 :=
  if crc &&& 1 ≠ 0 then (crc >>> 1) ^^^ kPoly else crc >>> 1

/-- `table[0][i]` of `MakeTables`. -/
def table0 (i : UInt32) : UInt32 := shiftBit^[8] i

/-- `table[k][i]`: folds in a byte that is `k` positions further ahead. -/
def table : Nat → UInt32 → UInt32
  | 0, i => table0 i
  | k + 1, i => (table k i >>> 8) ^^^ table0 (table k i &&& 0xff)

def loadLE32 (p : Bytes) : UInt32 := UInt32.ofNat (decodeFixed32 p)

def sliceStep (c : UInt32) (p : Bytes) : UInt32 :=
  let c := c ^^^ loadLE32 p
  let high := loadLE32 (p.drop 4)
  table 7 (c &&& 0xff) ^^^ table 6 ((c >>> 8) &&& 0xff) ^^^ table 5 ((c >>> 16) &&& 0xff) ^^^
    table 4 ((c >>> 24) &&& 0xff) ^^^ table 3 (high &&& 0xff) ^^^
    table 2 ((high >>> 8) &&& 0xff) ^^^ table 1 ((high >>> 16) &&& 0xff) ^^^
    table 0 ((high >>> 24) &&& 0xff)

def byteStep (c : UInt32) (p : UInt8) : UInt32 :=
  table 0 ((c ^^^ p.toUInt32) &&& 0xff) ^^^ (c >>> 8)

/-- The two loops of `ExtendSoftware`: eight bytes at a time, then what is left. -/
def sliceLoop (c : UInt32) (p : Bytes) : UInt32 :=
  match p with
  | b0 :: b1 :: b2 :: b3 :: b4 :: b5 :: b6 :: b7 :: rest =>
    sliceLoop (sliceStep c [b0, b1, b2, b3, b4, b5, b6, b7]) rest
  | p => p.foldl byteStep c

def extendSoftware (crc : UInt32) (data : Bytes) : UInt32 := ~~~ sliceLoop (~~~ crc) data

def value (data : Bytes) : UInt32 := extendSoftware 0 data

end LsmKv.Crc32c
