import Mathlib.Algebra.Order.Ring.Int
import Pterodon.Lib.CString

/-!
# Writing an MTD partition

The writer of `mtdutils.c` goes through the erase blocks of a partition in order. It skips a block
that is marked bad, and one that it could not write: it erases what it can of it and goes on,
without marking it.

Positions are always at the start of an erase block, so they are block numbers here.
-/

namespace Pterodon.Mtd

open Lib

/-- What a read of an erase block gives, and by how much it raises the count of ECC
failures. -/
structure Reading where
  /-- `none` if fewer bytes were read than a block has. -/
  bytes : Option Bytes
  failed : Nat
deriving DecidableEq, Repr

/-- The answer to `MEMGETBADBLOCK`. -/
inductive Mark where
  /-- 0. -/
  | clean
  /-- A positive number, or an error other than the next. -/
  | bad
  /-- `EOPNOTSUPP`. -/
  | unsupported
deriving DecidableEq, Repr

/-- How the erase blocks of a device behave. -/
structure Flash where
  mark : Nat → Mark
  /-- Whether a block, erased and written, reads back as the data; by block and attempt. -/
  verifies : Nat → Nat → Bytes → Bool
  /-- How a block reads that was given up while it was to hold the data. -/
  leftover : Nat → Bytes → Reading

/-- `MtdPartition`. -/
structure Partition where
  eraseSize : Nat
  size : Nat
  eraseSize_pos : 0 < eraseSize

/-- The blocks of the partition: `pos + size <= (int) partition->size` holds for these. -/
def Partition.blocks (p : Partition) : Nat := if p.size < 2 ^ 31 then p.size / p.eraseSize else 0

/-- `MtdWriteContext`, and how the blocks of the device read. -/
structure WriteContext where
  /-- The first `stored` bytes of the buffer. -/
  stored : Bytes
  pos : Nat
  badBlockOffsets : List Nat
  cells : Nat → Reading

/-- The loop of `write_block` over the blocks that are left. -/
def writeLoop (f : Flash) (data : Bytes) : Nat → WriteContext → Bool × WriteContext
  | 0, w => (false, w)
  | left + 1, w =>
    if f.mark w.pos = .bad then
      writeLoop f data left
        { w with badBlockOffsets := w.badBlockOffsets ++ [w.pos], pos := w.pos + 1 }
    else if f.verifies w.pos 0 data || f.verifies w.pos 1 data then
      (true, { w with cells := Function.update w.cells w.pos ⟨some data, 0⟩, pos := w.pos + 1 })
    else
      -- given up, and not marked
      writeLoop f data left
        { w with
          badBlockOffsets := w.badBlockOffsets ++ [w.pos]
          cells := Function.update w.cells w.pos (f.leftover w.pos data)
          pos := w.pos + 1 }

def writeBlock (p : Partition) (f : Flash) (data : Bytes) (w : WriteContext) :
    Bool × WriteContext :=
  writeLoop f data (p.blocks - w.pos) w

def mtdWritePartition (cells : Nat → Reading) : WriteContext := ⟨[], 0, [], cells⟩

end Pterodon.Mtd
