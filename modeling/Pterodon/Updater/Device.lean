import Mathlib.Logic.Function.Basic
import Pterodon.Lib.Crash
import Pterodon.ApplyPatch.ImgPatch
import Pterodon.Updater.RangeSet

/-!
# The device and the stash

What a block image update works on: the blocks of the device it updates, and the stash,
a directory of files on the cache partition that hold source data under the name of its
hash. Both survive the updater. `Event` lists everything the updater does to them.

A block is one word of 8 * 4096 bits, the first byte lowest. Most commands handle whole
blocks; only patches and the new data write parts of one.

System calls can fail. The outcomes to come are a list in the volatile state, and `sys`
takes the next; where the list is empty calls succeed.
-/

namespace Pterodon.Updater

open Lib ApplyPatch
open Prog (disk emit fail)

def BLOCKSIZE : Nat := 4096

/-! ## Blocks -/

abbrev Block : Type := BitVec (8 * 4096)

namespace Block

def toBytes (b : Block) : Bytes := leBytes BLOCKSIZE b.toNat

def ofBytes (bytes : Bytes) : Block := BitVec.ofNat _ (leNat bytes)

/-- `b` with `data` from byte `offset` on. -/
def splice (b : Block) (offset : Nat) (data : Bytes) : Block :=
  ofBytes (b.toBytes.take offset ++ data ++ b.toBytes.drop (offset + data.length))

def zero : Block := 0

end Block

def toBytes (blocks : List Block) : Bytes := blocks.flatMap Block.toBytes

/-! ## What survives -/

/-- A file of the stash: whole blocks, or a size that is no multiple of the block size. -/
inductive StashFile where
  | whole (blocks : List Block)
  | ragged
  deriving DecidableEq

/-- The device, whether the stash directory is there, and its files. -/
structure Disk where
  device : Nat → Block
  stashDir : Bool
  stash : Text → Option StashFile

/-- Who unlinks a file of the stash. -/
inductive Cause where
  /-- The `freestash` of a `move`, `bsdiff` or `imgdiff`. -/
  | freestash
  /-- A `free` command. -/
  | free
  /-- `LoadStash`, on a file with the wrong contents. -/
  | corrupt
  /-- `CreateStash`, on a file that was not completed. -/
  | partialFile
  /-- `DeleteStash`. -/
  | stashDir
  deriving DecidableEq

inductive Event where
  /-- Bytes from a byte address on, within one block. -/
  | write (address : Nat) (data : Bytes)
  | writeBlock (block : Nat) (data : Block)
  /-- `BLKDISCARD`, which leaves `data` in the block. -/
  | discard (block : Nat) (data : Block)
  /-- A successful `fsync` of the device. -/
  | fsync
  | stashWrite (name : Text) (file : StashFile)
  | stashRename (name target : Text)
  | unlink (name : Text) (cause : Cause)
  | mkdir
  | rmdir
  deriving DecidableEq

namespace Event

def block? : Event → Option Nat
  | .write address _ => some (address / BLOCKSIZE)
  | .writeBlock block _ => some block
  | .discard block _ => some block
  | _ => none

def act : Event → Disk → Disk
  | .write address data, d =>
    { d with
      device := Function.update d.device (address / BLOCKSIZE)
        ((d.device (address / BLOCKSIZE)).splice (address % BLOCKSIZE) data) }
  | .writeBlock block data, d => { d with device := Function.update d.device block data }
  | .discard block data, d => { d with device := Function.update d.device block data }
  | .fsync, d => d
  | .stashWrite name file, d => { d with stash := Function.update d.stash name (some file) }
  | .stashRename name target, d =>
    { d with
      stash := Function.update (Function.update d.stash name none) target (d.stash name) }
  | .unlink name _, d => { d with stash := Function.update d.stash name none }
  | .mkdir, d => { d with stashDir := true }
  | .rmdir, d => { d with stashDir := false }

end Event

instance : Effect Event Disk := ⟨Event.act⟩

/-! ## The updater's own state -/

/-- `CommandParameters` and the `stash_map`. -/
structure Params where
  buffer : List Block
  /-- Empty for none. -/
  freestash : Text
  stashMap : Text → Option RangeSet
  createdstash : Bool
  isunresumable : Bool
  /-- The pieces of new data that the receiver thread has not handed out yet. -/
  newData : List Bytes
  /-- The outcomes of the system calls to come. -/
  faults : List Bool

/-- How a command can end other than by returning 0. -/
inductive Halt where
  /-- It returns -1. -/
  | error
  /-- A `CHECK` fails and the process dies. -/
  | check
  /-- It accesses a buffer outside its bounds. -/
  | memory
  deriving DecidableEq

/-- What does not change during a run. -/
structure Config where
  /-- `print_sha1` of the SHA-1 of some blocks. -/
  sha1 : List Block → Text
  /-- `android::base::ParseUint` with an upper bound. -/
  parseUint : Nat → Text → Option Nat
  lib : PatchLib
  patchData : Bytes
  /-- False for `block_image_verify`. -/
  canwrite : Bool
  isRetry : Bool
  /-- `CacheSizeCheck(bytes) == 0`. -/
  cacheSizeCheck : Nat → Bool
  isBlk : Bool
  deviceBlocks : Nat
  /-- What `BLKDISCARD` leaves in a block. -/
  discarded : Nat → Block
  /-- The names that `readdir` yields for the files of the stash. -/
  readdir : (Text → Option StashFile) → List Text
  /-- The file that a path from the stash directory leads to. The ids of stashes are used as such
  paths, and a transfer list may have any text there. -/
  entryOf : Text → Text
  /-- A hash in hexadecimal is the name of a file. -/
  entryOf_sha1 : ∀ blocks, entryOf (sha1 blocks) = sha1 blocks

variable (cfg : Config)

theorem Config.entryOf_hash {blocks : List Block} {id : Text}
    (h : cfg.sha1 blocks = id) : cfg.entryOf id = id := by
  rw [← h]
  exact cfg.entryOf_sha1 blocks

abbrev Blk (α : Type) : Type := Prog Event Disk Params Halt α

/-- What is said of a result, with the events so far, the parameters and the disk. -/
abbrev Post (α : Type) : Type := α → List Event → Params → Disk → Prop

def pop : List Bool → Bool × List Bool
  | [] => (true, [])
  | ok :: rest => (ok, rest)

/-- Make a system call: whether it succeeds. -/
def sys : Blk Bool := fun v _ => ⟨[], { v with faults := (pop v.faults).2 }, .ok (pop v.faults).1⟩

/-- Return -1 unless `ok`. -/
def require (ok : Bool) : Blk Unit := if ok then pure () else fail .error

def check (ok : Bool) : Blk Unit := if ok then pure () else fail .check

/-- A system call whose failure makes the command return -1. -/
def call : Blk Unit := do
  let ok ← sys
  require ok

def parseRange (text : Text) : Blk RangeSet :=
  match RangeSet.parse cfg.parseUint text with
  | none => fail .check
  | some r => pure r

/-! ## Blocks of the device -/

def RangeSet.contents (r : RangeSet) (device : Nat → Block) : List Block := r.blockList.map device

/-- Whether all blocks of `r` are on the device. -/
def onDevice (r : RangeSet) : Bool :=
  r.ranges.all (fun p => decide (p.2 ≤ cfg.deviceBlocks))

/-- `ReadBlocks`: the new buffer, or `none` for -1. -/
def readBlocks (src : RangeSet) (buffer : List Block) : Blk (Option (List Block)) := do
  let ok ← sys
  if !ok || !onDevice cfg src then pure none
  else if buffer.length < src.blocks then fail .memory
  else do
    let d ← disk
    pure (some (src.contents d.device ++ buffer.drop src.blocks))

/-- `ReadBlocks` where -1 makes the command return -1. -/
def readBlocksOrFail (src : RangeSet) (buffer : List Block) : Blk (List Block) := do
  match ← readBlocks cfg src buffer with
  | none => fail .error
  | some buffer => pure buffer

/-- `discard_blocks` on some blocks. -/
def discardAll : List Nat → Blk Unit
  | [] => pure ()
  | b :: bs => do
    emit (.discard b (cfg.discarded b))
    discardAll bs

def discardBlocks (p : Nat × Nat) : Blk Unit :=
  if !cfg.isRetry then pure ()
  else do
    call
    discardAll cfg (numbers p)

/-- Write whole blocks one after the other, from block `b` on. -/
def writeRun : Nat → List Block → Blk Unit
  | _, [] => pure ()
  | b, x :: xs => do
    call
    require (decide (b < cfg.deviceBlocks))
    emit (.writeBlock b x)
    writeRun (b + 1) xs

/-- The loop of `WriteBlocks`; the rest of the buffer goes to the rest of the ranges. -/
def writeRanges : Pairs → List Block → Blk Unit
  | [], _ => pure ()
  | p :: ps, buffer =>
    if buffer.length < p.2 - p.1 then fail .memory
    else do
      discardBlocks cfg p
      writeRun cfg p.1 (buffer.take (p.2 - p.1))
      writeRanges ps (buffer.drop (p.2 - p.1))

def writeBlocks (tgt : RangeSet) (buffer : List Block) : Blk Unit :=
  writeRanges cfg tgt.ranges buffer

end Pterodon.Updater
