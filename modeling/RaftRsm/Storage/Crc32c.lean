/-
  File:      RaftRsm/Storage/Crc32c.lean
  Subject:   The checksum of the durable files (`storage/crc32c.cpp`).

  CRC32C, reflected and table-driven. An entry of the table is computed where it is looked up.
-/
import RaftRsm.Rpc.Messages
import Mathlib.Logic.Function.Iterate

namespace Rsm.Storage

open Rsm.Rpc

def kPoly : BitVec 32 := 0x82F63B78#32

/-- One round of the inner loop of `makeTable`. -/
def tableRound (c : BitVec 32) : BitVec 32 :=
  if c &&& 1#32 ≠ 0#32 then kPoly ^^^ (c >>> 1) else c >>> 1

/-- The entry `i` of the table that `makeTable` makes. -/
def kTable (i : BitVec 32) : BitVec 32 := tableRound^[8] i

/-- One round of the loop of `crc32c`. -/
def crcRound (crc : BitVec 32) (b : UInt8) : BitVec 32 :=
  kTable ((crc ^^^ b.toBitVec.setWidth 32) &&& 0xFF#32) ^^^ (crc >>> 8)

/-- `crc` is the checksum of what came before, 0 at the start. -/
def crc32c (data : Bytes) (crc : BitVec 32 := 0#32) : BitVec 32 :=
  ~~~ data.foldl crcRound (~~~ crc)

-- the published check value, for the digits from 1 to 9
example : crc32c [49, 50, 51, 52, 53, 54, 55, 56, 57] = 0xE3069283#32 := by decide +kernel

end Rsm.Storage
