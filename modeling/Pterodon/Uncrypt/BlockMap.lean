import Pterodon.Lib.Fallible
import Pterodon.Lib.Scan

/-!
# Block maps

A package on an encrypted or unmounted file system is installed through a block map: a
text that lists the blocks of the device that hold the file. `uncrypt` writes it before the
reboot (`produce_block_map`), and recovery maps the blocks it lists into memory, one range
after the other (`MemMapping::MapBlockFile`).

Every system call is answered by a record of answers, so that any of them may fail. `FIBMAP`
answers may change from call to call: a block that is not allocated yet is answered with 0.
The progress messages to the socket are left out, since their result is not looked at.
-/

namespace Pterodon.Uncrypt

open Lib

/-- `UncryptErrorCode`: the codes `produce_block_map` returns. -/
inductive UncryptErrorCode where
  | fileRemoveError
  | fileOpenError
  | socketWriteError
  | fileStatError
  | blockOpenError
  | ioctlError
  | readError
  | writeError
  | fileSyncError
  | fileCloseError
  | fileRenameError
  deriving DecidableEq

def WINDOW_SIZE : Nat := 5

def FIBMAP_RETRY_LIMIT : Nat := 3

/-- What `stat` says of a file: its size and the size of its blocks. -/
structure Stat where
  size : Nat
  blksize : Nat
  size_lt : size < 2 ^ 63
  blksize_pos : 0 < blksize
  blksize_lt : blksize < 2 ^ 32

/-- The path of a block device, a field of a line of the fstab. -/
structure BlockDevice where
  path : Bytes
  nonempty : path ≠ []
  no_space : ∀ b ∈ path, b ≠ 0 ∧ isSpace b = false

/-- The answers of the system calls of `produce_block_map`. -/
structure System where
  mapRemoved : Bool
  tmpOpened : Bool
  statusWritten : Bool
  /-- `none` is a `stat` that fails. -/
  stat : Option Stat
  fileOpened : Bool
  deviceOpened : Bool
  /-- `F2FS_IOC_SET_DONTMOVE`. -/
  dontMove : Bool
  /-- The answer to a `FIBMAP` for a block, by the number of `FIBMAP` calls before it. -/
  fibmap : Nat → Int → Option Int
  /-- The `fsync` of the file before a `FIBMAP` is repeated. -/
  fileSynced : Nat → Bool
  /-- What `ReadFully` reads at a position of the file. -/
  read : Nat → Nat → Option Bytes
  /-- Whether `write_at_offset` succeeds, by the position in the device. -/
  deviceWritten : Int → Bool
  /-- How many bytes of a string a failing write at a position of the map still writes. -/
  mapWritten : Nat → Option Nat
  mapSynced : Bool
  mapClosed : Bool
  deviceSynced : Bool
  deviceClosed : Bool
  renamed : Bool
  dirOpened : Bool
  dirSynced : Bool
  dirClosed : Bool

variable (sys : System)

/-- The files of `produce_block_map`, and the position of the descriptor of the map. -/
structure Session where
  map : Option Bytes
  /-- The temporary map file; empty if there is none. -/
  tmp : Bytes
  offset : Nat
  /-- The number of `FIBMAP` calls so far. -/
  ioctls : Nat
  /-- What was written to the block device, and where. -/
  device : List (Int × Bytes)

abbrev Procedure : Type → Type := Fallible UncryptErrorCode Session

/-- The bytes of a file after some are written at an offset of it. -/
def overwrite (file : Bytes) (offset : Nat) (s : Bytes) : Bytes :=
  file.take offset ++ s ++ file.drop (offset + s.length)

/-- `WriteStringToFd` to the temporary map file. -/
def writeString (s : Bytes) : Procedure Unit := do
  let session ← get
  let failed := sys.mapWritten session.offset
  let bytes := match failed with
    | none => s
    | some n => s.take n
  modify fun session => { session with
    tmp := overwrite session.tmp session.offset bytes
    offset := session.offset + bytes.length }
  check failed.isNone .writeError

/-- The result of `int` arithmetic. -/
def int32 (n : Int) : Int := n.bmod (2 ^ 32)

def addBlockToRanges (ranges : List Int) (newBlock : Int) : List Int :=
  if ranges.getLast? = some newBlock then ranges.dropLast ++ [int32 (newBlock + 1)]
  else ranges ++ [newBlock, int32 (newBlock + 1)]

/-- The `FIBMAP` ioctl: the argument is a logical block and the answer a physical one. -/
def fibmap (block : Int) : Procedure Int := do
  let session ← get
  modify fun session => { session with ioctls := session.ioctls + 1 }
  match sys.fibmap session.ioctls block with
  | none => throw .ioctlError
  | some block => pure block

/-- `retry_fibmap`: the block it asks for is the last answer. -/
def retryFibmap : Nat → Int → Procedure Int
  | 0, _ => throw .ioctlError
  | tries + 1, block => do
    let session ← get
    check (sys.fileSynced session.ioctls) .fileSyncError
    let block ← fibmap sys block
    if block ≠ 0 then pure block else retryFibmap tries block

/-- The physical block of a logical one. -/
def findBlock (headBlock : Int) : Procedure Int := do
  let block ← fibmap sys headBlock
  if block = 0 then retryFibmap sys FIBMAP_RETRY_LIMIT block else pure block

def writeAtOffset (buffer : Bytes) (offset : Int) : Procedure Unit := do
  modify fun session => { session with device := session.device ++ [(offset, buffer)] }
  check (sys.deviceWritten offset) .writeError

/-- The decrypted block replaces the encrypted one; without encryption it stays. -/
def writeBack (encrypted : Bool) (buffer : Bytes) (offset : Int) : Procedure Unit :=
  if encrypted then writeAtOffset sys buffer offset else pure ()

/-- The variables of the loops of `produce_block_map`. The buffers between `head` and `tail`
hold blocks that were read and whose place on the device is still to be found. -/
structure Window where
  pos : Nat
  head : Nat
  tail : Nat
  headBlock : Int
  ranges : List Int
  buffers : List Bytes

def writeHead (sb : Stat) (encrypted : Bool) (w : Window) : Procedure Window := do
  let block ← findBlock sys w.headBlock
  writeBack sys encrypted (w.buffers.getD w.head []) (sb.blksize * block)
  pure { w with
    ranges := addBlockToRanges w.ranges block
    head := (w.head + 1) % WINDOW_SIZE
    headBlock := int32 (w.headBlock + 1) }

/-- Read the next block to the tail; without encryption the file is not read. -/
def readTail (sb : Stat) (encrypted : Bool) (w : Window) : Procedure Window :=
  if encrypted then
    let toRead := min sb.blksize (sb.size - w.pos)
    match sys.read w.pos toRead with
    | none => throw .readError
    | some bytes =>
      pure { w with
        buffers := w.buffers.modify w.tail fun buffer => overwrite buffer 0 bytes
        pos := w.pos + toRead
        tail := (w.tail + 1) % WINDOW_SIZE }
  else pure { w with pos := w.pos + sb.blksize, tail := (w.tail + 1) % WINDOW_SIZE }

/-- A full window makes room for a block. -/
def makeRoom (sb : Stat) (encrypted : Bool) (w : Window) : Procedure Window :=
  if (w.tail + 1) % WINDOW_SIZE = w.head then writeHead sys sb encrypted w else pure w

def stepBlock (sb : Stat) (encrypted : Bool) (w : Window) : Procedure Window := do
  let w ← makeRoom sys sb encrypted w
  readTail sys sb encrypted w

/-- The loop over the file. Every round advances `pos`, so as many rounds as the file has
bytes are enough. -/
def readBlocks (sb : Stat) (encrypted : Bool) : Nat → Window → Procedure Window
  | 0, w => pure w
  | rounds + 1, w =>
    if w.pos < sb.size then do
      let w ← stepBlock sys sb encrypted w
      readBlocks sb encrypted rounds w
    else pure w

/-- The loop that writes out what is left in the window. -/
def writeBlocks (sb : Stat) (encrypted : Bool) : Nat → Window → Procedure Window
  | 0, w => pure w
  | rounds + 1, w =>
    if w.head ≠ w.tail then do
      let w ← writeHead sys sb encrypted w
      writeBlocks sb encrypted rounds w
    else pure w

/-- A `%d`. -/
def intBytes (n : Int) : Bytes :=
  if n < 0 then 45 :: natBytes n.natAbs else natBytes n.natAbs

/-- The first two lines of the map. -/
def header (blkDev : BlockDevice) (sb : Stat) : Bytes :=
  blkDev.path ++ [10] ++ natBytes sb.size ++ [32] ++ natBytes sb.blksize ++ [10]

/-- The lines of the ranges. -/
def writeRanges : List Int → Procedure Unit
  | first :: last :: ranges => do
    writeString sys (intBytes first ++ [32] ++ intBytes last ++ [10])
    writeRanges ranges
  | _ => pure ()

def statFile : Procedure Stat :=
  match sys.stat with
  | none => throw .fileStatError
  | some sb => pure sb

/-- `produce_block_map`; its end is a result of 0. -/
def produceBlockMap (blkDev : BlockDevice) (encrypted f2fs : Bool) : Procedure Unit := do
  check sys.mapRemoved .fileRemoveError
  modify fun session => { session with map := none }
  check sys.tmpOpened .fileOpenError
  -- the file is opened with `O_WRONLY | O_CREAT`: what it holds stays
  modify fun session => { session with offset := 0 }
  check sys.statusWritten .socketWriteError
  let sb ← statFile sys
  writeString sys (header blkDev sb)
  check sys.fileOpened .fileOpenError
  check (!encrypted || sys.deviceOpened) .blockOpenError
  check (!f2fs || sys.dontMove) .ioctlError
  let buffers := if encrypted then List.replicate WINDOW_SIZE (List.replicate sb.blksize 0) else []
  let w ← readBlocks sys sb encrypted sb.size ⟨0, 0, 0, 0, [], buffers⟩
  let w ← writeBlocks sys sb encrypted WINDOW_SIZE w
  writeString sys (natBytes (w.ranges.length / 2) ++ [10])
  writeRanges sys w.ranges
  check sys.mapSynced .fileSyncError
  check sys.mapClosed .fileCloseError
  check (!encrypted || sys.deviceSynced) .fileSyncError
  check (!encrypted || sys.deviceClosed) .fileCloseError
  check sys.renamed .fileRenameError
  modify fun session => { session with map := some session.tmp, tmp := [] }
  check sys.dirOpened .fileOpenError
  check sys.dirSynced .fileSyncError
  check sys.dirClosed .fileCloseError

/-! ## Reading the map -/

/-- The width of a `size_t`; an `off_t` has 64 bits in both builds. -/
inductive Abi where
  | ilp32
  | lp64
  deriving DecidableEq

def Abi.bits : Abi → Nat
  | .ilp32 => 32
  | .lp64 => 64

def Abi.sizeMax (abi : Abi) : Nat := 2 ^ abi.bits - 1

/-- The answers of the system calls of `MapBlockFile`. -/
structure Memory where
  readable : Bool
  /-- Whether so much address space can be reserved. -/
  reserve : Nat → Bool
  opens : Bytes → Bool
  /-- Whether the device can be mapped: at which place of the reserved addresses, how many
  bytes, and from which offset of the device on. -/
  mmap : Nat → Nat → Int → Bool

/-- A range of the device in memory. Its address counts from the start of the mapping. -/
structure MappedRange where
  addr : Nat
  length : Nat
  offset : Int
  deriving DecidableEq

/-- `MemMapping` after a successful `MapBlockFile`. -/
structure MemMapping where
  blockDev : Bytes
  ranges : List MappedRange
  length : Nat
  deriving DecidableEq

/-- The offset of the device that an address shows. -/
def showsAt (ranges : List MappedRange) (i : Nat) : Option Int :=
  ranges.findSome? fun r =>
    if r.addr ≤ i ∧ i < r.addr + r.length then some (r.offset + (i - r.addr : Nat)) else none

/-- The value of an `off_t`. -/
def offT (n : Int) : Int := n.bmod (2 ^ 64)

/-- What `MapBlockFile` has when it comes to its loop. -/
structure Reservation where
  blockDev : Bytes
  size : Nat
  blksize : Nat
  blocks : Nat
  lines : List Bytes

/-- `MapBlockFile` up to `ranges_.clear()`. -/
def reserveSpace (abi : Abi) (mem : Memory) (content : Bytes) : Option Reservation :=
  if mem.readable then
    let lines := (trim content).splitOn 10
    if lines.length < 4 then none
    else
      match scanSizes abi.bits (cstr (lines.getD 1 [])),
        scanSize abi.bits (cstr (lines.getD 2 [])) with
      | some (size, blksize), some (rangeCount, _) =>
        let blocks := (size - 1) / blksize + 1
        let blockDev := cstr (lines.getD 0 [])
        if size = 0 ∨ blksize = 0 ∨ abi.sizeMax / blksize < blocks ∨ rangeCount = 0 ∨
            lines.length ≠ (3 + rangeCount) % 2 ^ abi.bits then none
        else if mem.reserve (blocks * blksize) && mem.opens blockDev then
          some ⟨blockDev, size, blksize, blocks, lines.drop 3⟩
        else none
      | _, _ => none
  else none

/-- One round of the loop: the range that is mapped and recorded. -/
def mapRange (abi : Abi) (mem : Memory) (blksize : Nat) (line : Bytes) (next remaining : Nat) :
    Option MappedRange :=
  match scanSizes abi.bits (cstr line) with
  | none => none
  | some (first, last) =>
    let rangeSize := (last - first) * blksize % 2 ^ abi.bits
    let offset := offT (first * blksize)
    if last ≤ first ∨ abi.sizeMax / blksize < last - first ∨ remaining < rangeSize then none
    else if mem.mmap next rangeSize offset then some ⟨next, rangeSize, offset⟩
    else none

/-- The loop: `ranges_` after it, and `remaining_size` unless a round failed. -/
def mapRanges (abi : Abi) (mem : Memory) (blksize : Nat) :
    List Bytes → Nat → Nat → List MappedRange × Option Nat
  | [], _, remaining => ([], some remaining)
  | line :: lines, next, remaining =>
    match mapRange abi mem blksize line next remaining with
    | none => ([], none)
    | some r =>
      let rest := mapRanges abi mem blksize lines (next + r.length) (remaining - r.length)
      (r :: rest.1, rest.2)

/-- `MemMapping::MapBlockFile` on a new object, for the content of the map file: what is mapped if
it returns true, and `ranges_` after it. -/
def mapBlockFile (abi : Abi) (mem : Memory) (content : Bytes) :
    Option MemMapping × List MappedRange :=
  match reserveSpace abi mem content with
  | none => (none, [])
  | some s =>
    let r := mapRanges abi mem s.blksize s.lines 0 (s.blocks * s.blksize)
    (if r.2 = some 0 then some ⟨s.blockDev, r.1, s.size⟩ else none, r.1)

end Pterodon.Uncrypt
