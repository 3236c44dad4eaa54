import Mathlib.Data.List.DropRight
import Pterodon.Updater.RangeSet

/-!
# The care map

After an A/B update the first boot of the new slot reads every block the care map lists
through the device mapper, so that dm-verity checks each of them, and only then marks the
boot successful. `verifyImage` returns its verdict together with the `read` calls it made.

The system answers each call as it likes: the list of dm devices and their names may change
between two partitions, and every thread sees its own `open`, `lseek` and `read` results. A
`read` that is interrupted by a signal is repeated by the library, so it is not an answer.
The care map counts as existing when it can be opened: this is how the code tells.
The progress messages are left out.
-/

namespace Pterodon.UpdateVerifier

open Lib Updater

/-- `isspace` in the C locale. -/
def isSpaceChar (c : Char) : Bool := c = ' ' || (9 ≤ c.toNat && c.toNat ≤ 13)

/-- `android::base::Trim`. -/
def trimText (s : Text) : Text := (s.dropWhile isSpaceChar).rdropWhile isSpaceChar

section Split

/--
The inner loop of `RangeSet::Split`: one group of `needed` blocks, and the ranges left for
the next group. The head of the list is the range the iterator stands at, without the blocks
that earlier groups took from it.
-/
def fillGroup : Nat → Pairs → Pairs × Pairs
  | _, [] => ([], [])
  | needed, range :: rest =>
    if needed = 0 then ([], range :: rest)
    else if range.2 - range.1 > needed then
      ([(range.1, range.1 + needed)], (range.1 + needed, range.2) :: rest)
    else
      let filled := fillGroup (needed - (range.2 - range.1)) rest
      (range :: filled.1, filled.2)

/-- The outer loop of `RangeSet::Split`. -/
def fillGroups : List Nat → Pairs → List Pairs
  | [], _ => []
  | blocks :: more, ranges =>
    let filled := fillGroup blocks ranges
    filled.1 :: fillGroups more filled.2

/-- `blocks_per_group`: an even distribution, where the first groups may have one more. -/
def blocksPerGroup (blocks groups : Nat) : List Nat :=
  List.replicate (blocks % groups) (blocks / groups + 1) ++
    List.replicate (groups - blocks % groups) (blocks / groups)

/-- `RangeSet::Split`. -/
def splitRanges (r : RangeSet) (groups : Nat) : List Pairs :=
  if groups = 0 then []
  else
    let groups := if r.blocks < groups then r.blocks else groups
    fillGroups (blocksPerGroup r.blocks groups) r.ranges

end Split

/-- A directory `/sys/block/dm-X`, with what its file `dm/name` holds, if it can be read. -/
structure DmEntry where
  name : Text
  content : Option Text

/-- The answers one reading thread gets. -/
structure ThreadAnswers where
  opened : Bool
  /-- Whether the `lseek` to the i-th range succeeds. -/
  seek : Nat → Bool
  /-- The i-th `read`: `none` fails or finds the end, `some n` reads at most `n + 1` bytes. -/
  read : Nat → Option Nat

structure System where
  /-- `BOARD_AVB_ENABLE`. -/
  avb : Bool
  /-- `std::thread::hardware_concurrency`. -/
  hardwareConcurrency : Nat
  /-- `android::base::ParseUint` with a maximum. -/
  parseUint : Nat → Text → Option Nat
  /-- The dm directories in alphabetical order, when the i-th pair is checked. -/
  scandir : Nat → Option (List DmEntry)
  /-- The answers for the i-th pair and the j-th group. -/
  thread : Nat → Nat → ThreadAnswers

variable (sys : System)

/-- A call of `read`, with the number of bytes it read. -/
structure Read where
  device : Text
  offset : Nat
  count : Nat
  got : Option Nat

/-- The read brought the byte at an offset of a device. -/
def Read.Brought (rd : Read) (device : Text) (o : Nat) : Prop :=
  rd.device = device ∧ ∃ n, rd.got = some n ∧ rd.offset ≤ o ∧ o < rd.offset + n

/-- Where a thread stands: what it returns, its `read` calls so far and which they were. -/
structure Outcome where
  ok : Bool
  calls : Nat
  reads : List Read

/-- The next part of a thread runs only when the one before it succeeded. -/
def Outcome.andThen (r : Outcome) (next : Nat → Outcome) : Outcome :=
  if r.ok then ⟨(next r.calls).ok, (next r.calls).calls, r.reads ++ (next r.calls).reads⟩ else r

section Thread

variable (answers : ThreadAnswers) (device : Text)

/-- `android::base::ReadFully`; as every `read` makes progress, `count` rounds are enough. -/
def readFullyRounds : Nat → Nat → Nat → Nat → Outcome
  | 0, _, count, calls => ⟨count = 0, calls, []⟩
  | fuel + 1, pos, count, calls =>
    if count = 0 then ⟨true, calls, []⟩
    else
      match answers.read calls with
      | none => ⟨false, calls + 1, [⟨device, pos, count, none⟩]⟩
      | some n =>
        Outcome.andThen ⟨true, calls + 1, [⟨device, pos, count, some (min (n + 1) count)⟩]⟩
          (readFullyRounds fuel (pos + min (n + 1) count) (count - min (n + 1) count))

def readFully (pos count calls : Nat) : Outcome :=
  readFullyRounds answers device count pos count calls

def kBlockSize : Nat := 4096

/-- The loop over a range in pieces of at most 1024 blocks; `remain` rounds are enough. -/
def readPieces : Nat → Nat → Nat → Nat → Outcome
  | 0, _, remain, calls => ⟨remain = 0, calls, []⟩
  | fuel + 1, pos, remain, calls =>
    if remain = 0 then ⟨true, calls, []⟩
    else
      (readFully answers device pos (min remain (1024 * kBlockSize)) calls).andThen
        (readPieces fuel (pos + min remain (1024 * kBlockSize))
          (remain - min remain (1024 * kBlockSize)))

/-- The loop over the ranges of a group, from the i-th on. -/
def readGroup : Nat → Pairs → Nat → Outcome
  | _, [], calls => ⟨true, calls, []⟩
  | i, range :: rest, calls =>
    if answers.seek i then
      (readPieces answers device ((range.2 - range.1) * kBlockSize) (range.1 * kBlockSize)
        ((range.2 - range.1) * kBlockSize) calls).andThen (readGroup (i + 1) rest)
    else ⟨false, calls, []⟩

def threadFunc (group : Pairs) : Outcome :=
  if answers.opened then readGroup answers device 0 group 0 else ⟨false, 0, []⟩

end Thread

/-- The name of a dm device; AVB uses `vroot` for the root block device. -/
def dmBlockName (avb : Bool) (content : Text) : Text :=
  if avb && trimText content = "vroot".toList then "system".toList else trimText content

/-- The device of a partition: the last one in alphabetical order that has its name. -/
def dmBlockDevice (pair : Nat) (partition : Text) : Option Text :=
  match sys.scandir pair with
  | none => none
  | some entries =>
    let found := entries.reverse.find? fun entry =>
      match entry.content with
      | none => false
      | some content => dmBlockName sys.avb content = partition
    found.map fun entry => "/dev/block/".toList ++ entry.name

def threadNum : Nat :=
  if sys.hardwareConcurrency = 0 then 4 else sys.hardwareConcurrency

/-- The threads of `read_blocks`, one for each group. -/
def runThreads (pair : Nat) (device : Text) (ranges : RangeSet) : List Outcome :=
  (splitRanges ranges (threadNum sys)).mapIdx fun j group =>
    threadFunc (sys.thread pair j) device group

/--
`read_blocks`. `RangeSet::Parse` of `otautil` gives an empty set where the updater's fails a
`CHECK`; on all other texts the two give the same ranges.
-/
def readBlocks (pair : Nat) (partition rangeStr : Text) : Bool × List Read :=
  if partition ≠ "system".toList ∧ partition ≠ "vendor".toList ∧ partition ≠ "product".toList then
    (false, [])
  else
    match dmBlockDevice sys pair partition with
    | none => (false, [])
    | some device =>
      match RangeSet.parse sys.parseUint rangeStr with
      | none => (false, [])
      | some ranges =>
        ((runThreads sys pair device ranges).all Outcome.ok,
          (runThreads sys pair device ranges).flatMap Outcome.reads)

/-- The care map file: one that cannot be opened, one that cannot be read, or its content. -/
inductive CareMapFile where
  | missing
  | unreadable
  | content (text : Text)
  deriving DecidableEq

/-- A care map of an older release names its partitions by their device. -/
def legacyLine (line : Text) : Bool := "/dev/block/".toList.isPrefixOf line

/-- The loop over the lines of the care map, from the i-th pair on. -/
def verifyPairs : Nat → List Text → Bool × List Read
  | pair, partition :: ranges :: rest =>
    if legacyLine partition then (true, [])
    else if (readBlocks sys pair partition ranges).1 then
      ((verifyPairs (pair + 1) rest).1,
        (readBlocks sys pair partition ranges).2 ++ (verifyPairs (pair + 1) rest).2)
    else (false, (readBlocks sys pair partition ranges).2)
  | _, _ => (true, [])

def careMapLines (text : Text) : List Text := (trimText text).splitOn '\n'

/-- `verify_image`, with the reads it makes. -/
def verifyImage : CareMapFile → Bool × List Read
  | .missing => (true, [])
  | .unreadable => (false, [])
  | .content text =>
    let lines := careMapLines text
    if lines.length ≠ 2 ∧ lines.length ≠ 4 ∧ lines.length ≠ 6 then (false, [])
    else verifyPairs sys 0 lines

/-- The lines two by two: a partition and the text of its ranges. -/
def pairsOf : List Text → List (Text × Text)
  | partition :: ranges :: rest => (partition, ranges) :: pairsOf rest
  | _ => []

def careMapPairs : CareMapFile → List (Text × Text)
  | .content text => pairsOf (careMapLines text)
  | _ => []

end Pterodon.UpdateVerifier
