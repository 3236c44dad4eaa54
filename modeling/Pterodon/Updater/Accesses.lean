import Pterodon.Lib.Logged
import Pterodon.Updater.Assemble

/-!
# The bytes that a command accesses

What a command reads and writes in its buffers, byte by byte. The functions here are those of
`BlockImg.lean` again, with the contents left out and the sizes kept: a buffer is the number of its
bytes, and every access is logged with the buffer it goes to, whether it lies inside or not. Sizes
are of type `size_t`, so the number of bytes of some blocks is taken modulo `2 ^ 64`.

The contents decide only how far a command goes. So do the system calls; all such outcomes are the
answers of an environment, and 0 is a failure or a check that does not hold. A read or write that
comes to its end early has accessed as many bytes as it answers.

The block count, the source ranges, the places and the stashes of a command are parsed one by one,
and nothing compares them. `Consistent` says what it takes for them to fit together.
-/

namespace Pterodon.Updater

open Lib Lib.Logged

variable (cfg : Config)

namespace Buffers

/-- What is accessed. -/
inductive Region where
  /-- `params.buffer`. -/
  | buffer
  /-- `tgtbuffer`. -/
  | target
  /-- The `stash` of `LoadSourceBlocks`. -/
  | stash
  /-- The buffer of `PrintHashForMissingStashedBlocks`. -/
  | missing
  | patch
  deriving DecidableEq

/-- The bytes from `start` on, `count` of them, in a region of `size` bytes. -/
structure Access where
  region : Region
  size : Nat
  start : Nat
  count : Nat
  deriving DecidableEq

/-- Every index that is accessed is inside. -/
def Access.InBounds (a : Access) : Prop := ∀ i, a.start ≤ i → i < a.start + a.count → i < a.size

theorem Access.inBounds_iff {a : Access} : a.InBounds ↔ a.count = 0 ∨
    a.start + a.count ≤ a.size := by
  unfold Access.InBounds
  constructor
  · intro h
    by_cases hzero : a.count = 0
    · exact .inl hzero
    · have := h (a.start + a.count - 1) (by omega) (by omega)
      omega
  · omega

theorem Access.inBounds_of_le {a : Access} (h : a.start + a.count ≤ a.size) : a.InBounds :=
  Access.inBounds_iff.mpr (.inr h)

/-- Code that accesses buffers and asks for the outcomes of its calls and checks. -/
abbrev Track (α : Type) : Type := Logged (List Nat) Access α

/-- What a command finds. -/
structure Sizes where
  canwrite : Bool
  /-- The bytes of `params.buffer`. -/
  buffer : Nat
  patch : Nat
  stashMap : Text → Option RangeSet
  file : Text → Option Nat
  buffer_lt : buffer < 2 ^ 64
  /-- The range sets of the `stash_map` were read into a buffer when they were recorded. -/
  recorded : ∀ id src, stashMap id = some src → src.blocks * BLOCKSIZE < 2 ^ 64

variable (sizes : Sizes)

/-- `blocks * BLOCKSIZE`. -/
def bytesOf (blocks : Nat) : Nat := blocks * BLOCKSIZE % 2 ^ 64

theorem bytesOf_of_lt {blocks : Nat} (h : blocks * BLOCKSIZE < 2 ^ 64) :
    bytesOf blocks = blocks * BLOCKSIZE := Nat.mod_eq_of_lt h

theorem bytesOf_lt (blocks : Nat) : bytesOf blocks < 2 ^ 64 := Nat.mod_lt _ (by decide)

def allocate (size buffer : Nat) : Nat := max buffer size

/-! ## The functions -/

/-- Whether a call succeeds or a check holds. -/
def succeeds : Track Bool := do
  let answer ← ask
  pure (decide (answer ≠ 0))

/-- `read_all` or `write_all` of `n` bytes at `p`. -/
def transferAll (region : Region) (size p n : Nat) : Track Bool := do
  let done ← ask
  log ⟨region, size, p, min done n⟩
  pure (decide (n ≤ done))

/-- The loop of `ReadBlocks` and of `WriteBlocks` over the ranges; `ready` are the calls that come
before the transfer of a range. A position in the buffer is not reduced, since it is outside before
it reaches `2 ^ 64`. -/
def transferRanges (ready : Track Bool) (region : Region) (size : Nat) : Nat → Pairs → Track Bool
  | _, [] => pure true
  | p, range :: ranges => do
    let ok ← ready
    if ok then do
      let ok ← transferAll region size p ((range.2 - range.1) * BLOCKSIZE)
      if ok then transferRanges ready region size (p + (range.2 - range.1) * BLOCKSIZE) ranges
      else pure false
    else pure false

/-- `ReadBlocks`: after `check_lseek`. -/
def readBlocks (region : Region) (size : Nat) (src : RangeSet) : Track Bool :=
  transferRanges succeeds region size 0 src.ranges

/-- `discard_blocks` and `check_lseek`. -/
def discardAndSeek : Track Bool := do
  let ok ← succeeds
  if ok then succeeds else pure false

def writeBlocks (region : Region) (size : Nat) (tgt : RangeSet) : Track Bool :=
  transferRanges discardAndSeek region size 0 tgt.ranges

def verifyBlocks (region : Region) (size blocks : Nat) : Track Bool := do
  log ⟨region, size, 0, bytesOf blocks⟩
  succeeds

/-- `MoveRange`, the last range first; `start` blocks are to be moved. -/
def moveRange (dest : Region) (destSize : Nat) (source : Region) (sourceSize : Nat) :
    Pairs → Nat → List Access
  | [], _ => []
  | p :: ps, start =>
    ⟨source, sourceSize, (start - (p.2 - p.1)) * BLOCKSIZE, (p.2 - p.1) * BLOCKSIZE⟩ ::
      ⟨dest, destSize, p.1 * BLOCKSIZE, (p.2 - p.1) * BLOCKSIZE⟩ ::
      moveRange dest destSize source sourceSize ps (start - (p.2 - p.1))

/-- `PrintHashForCorruptedStashedBlocks`, which dies unless the buffer has the size of the
blocks. -/
def printHashForCorruptedStashedBlocks (region : Region) (buffer : Nat) (src : RangeSet) :
    Track Unit :=
  if bytesOf src.blocks = buffer then
    logAll ((List.range src.blocks).map (fun i => ⟨region, buffer, i * BLOCKSIZE, BLOCKSIZE⟩))
  else fail

def printHashForMissingStashedBlocks (id : Text) : Track Unit :=
  match sizes.stashMap id with
  | none => pure ()
  | some src => do
    let ok ← readBlocks .missing (bytesOf src.blocks) src
    if ok then printHashForCorruptedStashedBlocks .missing (bytesOf src.blocks) src else pure ()

/-- `LoadStash` from the source blocks in the `stash_map`: the new size of the buffer, and whether
it returns 0. -/
def loadMapped (region : Region) (src : RangeSet) (buffer : Nat) : Track (Nat × Bool) := do
  let ok ← readBlocks region (allocate (bytesOf src.blocks) buffer) src
  if ok then do
    let ok ← verifyBlocks region (allocate (bytesOf src.blocks) buffer) src.blocks
    if ok then pure (allocate (bytesOf src.blocks) buffer, true)
    else do
      printHashForCorruptedStashedBlocks region (allocate (bytesOf src.blocks) buffer) src
      pure (allocate (bytesOf src.blocks) buffer, false)
  else pure (allocate (bytesOf src.blocks) buffer, false)

/-- What `LoadStash` prints for a file with unexpected contents. -/
def printHashIfRecorded (id : Text) (region : Region) (buffer : Nat) : Track Unit :=
  match sizes.stashMap id with
  | none => pure ()
  | some src => printHashForCorruptedStashedBlocks region buffer src

/-- `LoadStash` from a file of `n` bytes. -/
def loadFile (id : Text) (verify : Bool) (region : Region) (buffer n : Nat) :
    Track (Nat × Bool) := do
  let opened ← succeeds
  if opened then do
    let ok ← transferAll region (allocate n buffer) 0 n
    if ok then
      if verify then do
        let ok ← verifyBlocks region (allocate n buffer) (n / BLOCKSIZE)
        if ok then pure (allocate n buffer, true)
        else do
          printHashIfRecorded sizes id region (allocate n buffer)
          pure (allocate n buffer, false)
      else pure (allocate n buffer, true)
    else pure (allocate n buffer, false)
  else pure (buffer, false)

/-- `LoadStash`: the new size of the buffer, and whether it returns 0. -/
def loadStash (id : Text) (verify : Bool) (region : Region) (buffer : Nat) : Track (Nat × Bool) :=
  match if sizes.canwrite then none else sizes.stashMap id with
  | some src => loadMapped region src buffer
  | none =>
    match sizes.file id with
    | none => do
      printHashForMissingStashedBlocks sizes id
      pure (buffer, false)
    | some n =>
      if n % BLOCKSIZE ≠ 0 then pure (buffer, false)
      else loadFile sizes id verify region buffer n

/-- The loop over `<[stash_id:stash_range] ...>`, with a buffer of `room` bytes. -/
def loadStashes (room : Nat) : List (Text × RangeSet) → Track Unit
  | [] => pure ()
  | (id, locs) :: refs => do
    let stash ← loadStash sizes id false .stash 0
    if stash.2 then do
      logAll (moveRange .buffer room .stash stash.1 locs.ranges.reverse locs.blocks)
      loadStashes room refs
    else loadStashes room refs

/-- The bytes of the buffer once `LoadSourceBlocks` has allocated it. -/
def room (count : Nat) : Nat := allocate (bytesOf count) sizes.buffer

/-- `LoadSourceBlocks` with a buffer of `room` bytes. -/
def loadSourceBlocks (room : Nat) : Source → Track Bool
  | .stashes refs => do
    loadStashes sizes room refs
    pure true
  | .range src => readBlocks .buffer room src
  | .mixed src locs refs => do
    let ok ← readBlocks .buffer room src
    if ok then do
      logAll (moveRange .buffer room .buffer room locs.ranges.reverse locs.blocks)
      loadStashes sizes room refs
      pure true
    else pure false

/-- `LoadSrcTgtVersion3` once the target was read and found to be different: the size of the buffer
if it returns 0. -/
def loadSource (t : Transfer) (count : Nat) (source : Source) : Track (Option Nat) := do
  let ok ← loadSourceBlocks sizes (room sizes count) source
  if ok then do
    let same ← verifyBlocks .buffer (room sizes count) count
    if same then
      if t.overlaps cfg && sizes.canwrite then do
        -- `WriteStash`
        let ok ← succeeds
        pure (if ok then some (room sizes count) else none)
      else pure (some (room sizes count))
    else if t.overlaps cfg then do
      let loaded ← loadStash sizes t.srchash true .buffer (room sizes count)
      pure (if loaded.2 then some loaded.1 else none)
    else pure none
  else pure none

/-- Write the target from a buffer of `size` bytes. The patch is copied out of its entry, and the
patcher is handed the source blocks. -/
def writeTarget (t : Transfer) (count size : Nat) : Track Unit :=
  match t.method with
  | .move => do
    let _ ← writeBlocks .buffer size t.tgt
    pure ()
  | .diff _ offset len =>
    logAll [⟨.patch, sizes.patch, offset, len⟩, ⟨.buffer, size, 0, bytesOf count⟩]

/-- `PerformCommandMove` and `PerformCommandDiff`. -/
def transfer (t : Transfer) (count : Nat) (source : Source) : Track Unit := do
  let ok ← readBlocks .target (bytesOf t.tgt.blocks) t.tgt
  if ok then do
    let same ← verifyBlocks .target (bytesOf t.tgt.blocks) t.tgt.blocks
    if same then pure ()
    else do
      match ← loadSource cfg sizes t count source with
      | none => pure ()
      | some size => if sizes.canwrite then writeTarget sizes t count size else pure ()
  else pure ()

/-- `PerformCommandStash`. -/
def stash (id : Text) (src : RangeSet) : Track Unit := do
  let loaded ← loadStash sizes id true .buffer sizes.buffer
  if loaded.2 then pure ()
  else do
    let ok ← readBlocks .buffer (allocate (bytesOf src.blocks) loaded.1) src
    if ok then do
      let _ ← verifyBlocks .buffer (allocate (bytesOf src.blocks) loaded.1) src.blocks
      pure ()
    else pure ()

/-- The accesses of a command. The other commands load no blocks and compare none. -/
def accesses : Command → Track Unit
  | .transfer t =>
    match parseSize cfg t.count, parseSource cfg t.source with
    | some count, some source => transfer cfg sizes t count source
    | _, _ => pure ()
  | .stash id src => stash sizes id src
  | _ => pure ()

/-- The accesses of a line that the parsers accept. -/
def lineAccesses (line : Text) : Track Unit :=
  match parseCommand cfg line with
  | none => pure ()
  | some cmd => accesses cfg sizes cmd

/-! ## Commands that fit together -/

/-- The packed blocks of a move and the places where they go are inside their buffers. -/
structure Placed (locs : RangeSet) (dest source : Nat) : Prop where
  places : ∀ p ∈ locs.ranges, p.2 * BLOCKSIZE ≤ dest
  packed : locs.blocks * BLOCKSIZE ≤ source

/-- The bytes that `LoadStash` loads if nothing fails. -/
def stashBytes (id : Text) : Option Nat :=
  match if sizes.canwrite then none else sizes.stashMap id with
  | some src => some (src.blocks * BLOCKSIZE)
  | none => (sizes.file id).filter (fun n => n % BLOCKSIZE = 0)

/-- What the ranges of a source and its block count have to do with each other. -/
structure Fits (sizes : Sizes) (room : Nat) (source : Source) : Prop where
  read : ∀ src, source.src? = some src → src.blocks * BLOCKSIZE ≤ room
  placed : ∀ src locs refs, source = .mixed src locs refs → Placed locs room room
  stashes : ∀ ref ∈ source.refs, ∀ n, stashBytes sizes ref.1 = some n → Placed ref.2 room n

/-- The target of a transfer can be written from the buffer and the patch entry. -/
def Writable (t : Transfer) (room : Nat) : Prop :=
  match t.method with
  | .move => t.tgt.blocks * BLOCKSIZE ≤ room
  | .diff _ offset len => len = 0 ∨ offset + len ≤ sizes.patch

/-- All that the parsers do not compare. -/
def Consistent : Command → Prop
  | .transfer t => ∀ count source,
      parseSize cfg t.count = some count → parseSource cfg t.source = some source →
      t.tgt.blocks * BLOCKSIZE < 2 ^ 64 ∧ Fits sizes (room sizes count) source ∧
        (sizes.canwrite = true → Writable sizes t (room sizes count))
  | .stash _ src => src.blocks * BLOCKSIZE < 2 ^ 64
  | _ => True

end Buffers

end Pterodon.Updater
