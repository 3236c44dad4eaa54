import Pterodon.Updater.Sink

/-!
# Block image updates

`PerformBlockImageUpdate` and the commands of a transfer list, versions 3 and 4. The
tokens of a line are consumed from the front; functions take those from `cpos` on.

A function of the source that returns -1 ends with `Halt.error` here, unless its callers
go on after it, and then its result says so. Logging is left out, but not the `CHECK`s in
the functions that print hashes. So are the counters `written` and `stashed`, which only
feed the progress bar, and the lookup of the arguments and of the package's entries.
-/

namespace Pterodon.Updater

open Lib ApplyPatch
open Prog (attempt disk emit fail)

variable (cfg : Config)

/-- `ParseUint<size_t>`. -/
def parseSize (text : Text) : Option Nat := cfg.parseUint (2 ^ 64 - 1) text

/-- `allocate`: the buffer grows if it has to. -/
def allocate (blocks : Nat) (buffer : List Block) : List Block :=
  buffer ++ List.replicate (blocks - buffer.length) Block.zero

def setBuffer (buffer : List Block) : Blk Unit := Prog.modify (fun v => { v with buffer := buffer })

/-! ## The stash -/

/-- `.partial`. -/
def partialSuffix : Text := ".partial".toList

/-- `DeleteFile`; errors are only logged. -/
def deleteFile (name : Text) (cause : Cause) : Blk Unit := do
  let ok ← sys
  let d ← disk
  if ok && (d.stash name).isSome then emit (.unlink name cause) else pure ()

def deleteAll (cause : Cause) : List Text → Blk Unit
  | [] => pure ()
  | name :: names => do
    deleteFile name cause
    deleteAll cause names

def deleteStash : Blk Unit := do
  let d ← disk
  deleteAll .stashDir (cfg.readdir d.stash)
  let ok ← sys
  let d ← disk
  if ok && d.stashDir && (cfg.readdir d.stash).isEmpty then emit .rmdir else pure ()

/-- The `CHECK` of `PrintHashForCorruptedStashedBlocks`. -/
def checkStashedBlocks (src : RangeSet) (buffer : List Block) : Blk Unit :=
  check (src.blocks = buffer.length)

/-- `LoadStash` from the source blocks in the `stash_map`. -/
def loadMapped (id : Text) (src : RangeSet) (buffer : List Block) : Blk (List Block × Bool) := do
  let buffer := allocate src.blocks buffer
  match ← readBlocks cfg src buffer with
  | none => pure (buffer, false)
  | some buffer =>
    if cfg.sha1 (buffer.take src.blocks) = id then pure (buffer, true)
    else do
      checkStashedBlocks src buffer
      pure (buffer, false)

/-- `LoadStash` from a file, with what the `stash_map` has under the id. -/
def loadStashFile (id : Text) (entry : Option RangeSet) (verify : Bool)
    (buffer : List Block) : Blk (List Block × Bool) := do
  let ok ← sys
  let d ← disk
  match d.stash (cfg.entryOf id) with
  | none => pure (buffer, false)
  | some .ragged => pure (buffer, false)
  | some (.whole blocks) =>
    if !ok then pure (buffer, false)
    else do
      let buffer := blocks ++ (allocate blocks.length buffer).drop blocks.length
      if verify && cfg.sha1 blocks ≠ id then do
        match entry with
        | none => pure ()
        | some src => checkStashedBlocks src buffer
        deleteFile (cfg.entryOf id) .corrupt
        pure (buffer, false)
      else pure (buffer, true)

/-- `LoadStash`: the new contents of the buffer, and whether it returns 0. -/
def loadStash (id : Text) (verify : Bool) (buffer : List Block) : Blk (List Block × Bool) := do
  let v ← Prog.get
  match if cfg.canwrite then none else v.stashMap id with
  | some src => loadMapped cfg id src buffer
  | none => loadStashFile cfg id (v.stashMap id) verify buffer

/-- `WriteStash` from the point on where the file has to be written. Its callers have checked that
`id` is the hash of the blocks, so it is the name of the file. -/
def createStashFile (id : Text) (blocks : List Block) : Blk Unit := do
  let d ← disk
  require d.stashDir
  call
  emit (.stashWrite (id ++ partialSuffix) (.whole []))
  call
  emit (.stashWrite (id ++ partialSuffix) (.whole blocks))
  call
  emit (.stashRename (id ++ partialSuffix) id)
  call

/-- `WriteStash` with `exists`: whether the file was there already. -/
def writeStash (id : Text) (blocks : List Block) : Blk Bool := do
  require (cfg.cacheSizeCheck (blocks.length * BLOCKSIZE))
  let d ← disk
  if (d.stash id).isSome then pure true
  else do
    createStashFile id blocks
    pure false

def freeStash (id : Text) (cause : Cause) : Blk Unit :=
  if id = [] then fail .error else deleteFile (cfg.entryOf id) cause

/-- The total size in bytes of some files. -/
def stashSize (stash : Text → Option StashFile) (names : List Text) : Nat :=
  (names.map (fun name =>
    match stash name with
    | some (.whole blocks) => blocks.length * BLOCKSIZE
    | _ => 0)).sum

/-- `CreateStash`: whether the directory was created. -/
def createStash (maxblocks : Nat) : Blk Bool := do
  let d ← disk
  if !d.stashDir then do
    call
    emit .mkdir
    require (cfg.cacheSizeCheck (maxblocks * BLOCKSIZE))
    pure true
  else do
    deleteAll .partialFile
      ((cfg.readdir d.stash).filter (fun name => partialSuffix.isSuffixOf name))
    let d ← disk
    let existing := stashSize d.stash (cfg.readdir d.stash)
    require (decide (maxblocks * BLOCKSIZE ≤ existing)
      || cfg.cacheSizeCheck (maxblocks * BLOCKSIZE - existing))
    pure false

/-! ## Loading sources -/

/-- `memmove` of `blocks` blocks from `start` in `source` to `first` in `dest`. -/
def memmove (dest source : List Block) (first start blocks : Nat) : Option (List Block) :=
  if first + blocks ≤ dest.length ∧ start + blocks ≤ source.length then
    some (dest.take first ++ (source.drop start).take blocks ++ dest.drop (first + blocks))
  else none

/-- `MoveRange` between two buffers, the last range first; `start` blocks are to be moved.
`none` if an access is out of bounds. -/
def moveRangeFrom (source : List Block) : Pairs → Nat → List Block →
    Option (List Block)
  | [], _, dest => some dest
  | p :: ps, start, dest =>
    let start := start - (p.2 - p.1)
    (memmove dest source p.1 start (p.2 - p.1)).bind (moveRangeFrom source ps start)

/-- `MoveRange` within one buffer. -/
def moveRangeWithin : Pairs → Nat → List Block → Option (List Block)
  | [], _, buffer => some buffer
  | p :: ps, start, buffer =>
    let start := start - (p.2 - p.1)
    (memmove buffer buffer p.1 start (p.2 - p.1)).bind (moveRangeWithin ps start)

/-- Die if a buffer access was out of bounds. -/
def inBounds (buffer : Option (List Block)) : Blk (List Block) :=
  match buffer with
  | none => fail .memory
  | some buffer => pure buffer

/-- The loop over `<[stash_id:stash_range] ...>`. -/
def loadStashes : List Text → List Block → Blk (List Block)
  | [], buffer => pure buffer
  | token :: rest, buffer =>
    match token.splitOn ':' with
    | [id, range] => do
      let stash ← loadStash cfg id false []
      if !stash.2 then loadStashes rest buffer
      else do
        let locs ← parseRange cfg range
        let buffer ← inBounds (moveRangeFrom stash.1 locs.ranges.reverse locs.blocks buffer)
        loadStashes rest buffer
    | _ => fail .error

/-- `LoadSourceBlocks` behind the block count: the buffer, and whether source and target
overlap. -/
def loadSourceRange (tgt : RangeSet) (rest : List Text) (buffer : List Block) :
    Blk (List Block × Bool) :=
  match rest with
  | [] => fail .memory
  | range :: rest =>
    if range = ['-'] then do
      let buffer ← loadStashes cfg rest buffer
      pure (buffer, false)
    else do
      let src ← parseRange cfg range
      let buffer ← readBlocksOrFail cfg src buffer
      match rest with
      | [] => pure (buffer, src.overlaps tgt)
      | locs :: rest => do
        let locs ← parseRange cfg locs
        let buffer ← inBounds (moveRangeWithin locs.ranges.reverse locs.blocks buffer)
        let buffer ← loadStashes cfg rest buffer
        pure (buffer, src.overlaps tgt)

/-- `LoadSourceBlocks`: the number of source blocks and whether source and target overlap.
The loaded data is in the buffer. Counts whose bytes wrap around are left to `Accesses`. -/
def loadSourceBlocks (tgt : RangeSet) (rest : List Text) : Blk (Nat × Bool) :=
  match rest with
  | [] => fail .memory
  | count :: rest =>
    match parseSize cfg count with
    | none => fail .error
    | some srcBlocks =>
      if 2 ^ 64 ≤ srcBlocks * BLOCKSIZE then fail .memory
      else do
        let v ← Prog.get
        let r ← loadSourceRange cfg tgt rest (allocate srcBlocks v.buffer)
        setBuffer r.1
        pure (srcBlocks, r.2)

/-- The `CHECK`s of `PrintHashForCorruptedSourceBlocks`, given the tokens from the source
range on. -/
def checkSourceBlocks (rest : List Text) (buffer : List Block) : Blk Unit :=
  match rest with
  | [] => pure ()
  | range :: rest =>
    if range = ['-'] then pure ()
    else do
      let src ← parseRange cfg range
      match rest with
      | [] => check (decide (src.blocks ≤ buffer.length))
      | locs :: _ => do
        let locs ← parseRange cfg locs
        check (src.blocks = locs.blocks)
        check (locs.blockList.all (fun i => decide (i < buffer.length)))

/-- How `LoadSrcTgtVersion3` ends if it does not return -1. -/
inductive Loaded where
  /-- It returns 1: the target blocks have the expected contents already. -/
  | already
  /-- It returns 0 with so many source blocks in the buffer. -/
  | ready (srcBlocks : Nat)
  deriving DecidableEq

/-- `LoadSrcTgtVersion3` once the target was read and found to be different. -/
def loadSource (srchash : Text) (tgt : RangeSet) (rest : List Text) : Blk Loaded := do
  let (srcBlocks, overlap) ← loadSourceBlocks cfg tgt rest
  let v ← Prog.get
  if cfg.sha1 (v.buffer.take srcBlocks) = srchash then
    if overlap && cfg.canwrite then do
      let stashExists ← writeStash cfg srchash (v.buffer.take srcBlocks)
      if stashExists then pure (.ready srcBlocks)
      else do
        Prog.modify (fun v => { v with freestash := srchash })
        pure (.ready srcBlocks)
    else pure (.ready srcBlocks)
  else do
    let loaded ← if overlap then loadStash cfg srchash true v.buffer else pure (v.buffer, false)
    setBuffer loaded.1
    if loaded.2 then pure (.ready srcBlocks)
    else do
      -- "partition has unexpected contents"
      checkSourceBlocks cfg rest.tail loaded.1
      Prog.modify (fun v => { v with isunresumable := true })
      fail .error

/-- `LoadSrcTgtVersion3` behind the hashes: what was loaded, and the target. -/
def loadTarget (srchash tgthash : Text) (rest : List Text) : Blk (Loaded × RangeSet) :=
  match rest with
  | target :: count :: range :: more => do
    let tgt ← parseRange cfg target
    let tgtbuffer ← readBlocksOrFail cfg tgt (List.replicate tgt.blocks Block.zero)
    if cfg.sha1 (tgtbuffer.take tgt.blocks) = tgthash then pure (.already, tgt)
    else do
      let loaded ← loadSource cfg srchash tgt (count :: range :: more)
      pure (loaded, tgt)
  | _ => fail .error

def loadSrcTgtVersion3 (onehash : Bool) (rest : List Text) : Blk (Loaded × RangeSet) :=
  match onehash, rest with
  | true, hash :: rest => loadTarget cfg hash hash rest
  | false, srchash :: tgthash :: rest => loadTarget cfg srchash tgthash rest
  | _, _ => fail .error

/-! ## Commands -/

/-- Free the implicit stash of a command. -/
def releaseFreestash : Blk Unit := do
  let v ← Prog.get
  if v.freestash = [] then pure ()
  else do
    freeStash cfg v.freestash .freestash
    Prog.modify (fun v => { v with freestash := [] })

def performCommandMove (rest : List Text) : Blk Unit := do
  let (loaded, tgt) ← loadSrcTgtVersion3 cfg true rest
  match loaded with
  | .already => pure ()
  | .ready _ => do
    let v ← Prog.get
    if cfg.canwrite then writeBlocks cfg tgt v.buffer else pure ()
  releaseFreestash cfg

/-- Record source blocks in the `stash_map`, or erase them from it. -/
def recordStash (id : Text) (entry : Option RangeSet) : Blk Unit :=
  Prog.modify (fun v => { v with stashMap := Function.update v.stashMap id entry })

/-- What a `stash` does after `LoadStash` has failed. -/
def stashBlocks (id : Text) (src : RangeSet) (buffer : List Block) : Blk Unit := do
  let buffer ← readBlocksOrFail cfg src (allocate src.blocks buffer)
  setBuffer buffer
  recordStash id (some src)
  if cfg.sha1 (buffer.take src.blocks) ≠ id then pure ()
  else if !cfg.canwrite then pure ()
  else createStashFile id (buffer.take src.blocks)

def performCommandStash (rest : List Text) : Blk Unit :=
  match rest with
  | id :: range :: _ => do
    let v ← Prog.get
    let loaded ← loadStash cfg id true v.buffer
    setBuffer loaded.1
    if loaded.2 then pure ()
    else do
      let src ← parseRange cfg range
      stashBlocks cfg id src loaded.1
  | _ => fail .error

def performCommandFree (rest : List Text) : Blk Unit :=
  match rest with
  | id :: _ => do
    recordStash id none
    let v ← Prog.get
    if v.createdstash || cfg.canwrite then freeStash cfg id .free else pure ()
  | [] => fail .error

/-- The loop of `zero` over the ranges. -/
def zeroRanges : Pairs → Blk Unit
  | [] => pure ()
  | p :: ps => do
    discardBlocks cfg p
    writeRun cfg p.1 (List.replicate (p.2 - p.1) Block.zero)
    zeroRanges ps

def performCommandZero (rest : List Text) : Blk Unit :=
  match rest with
  | range :: _ => do
    let tgt ← parseRange cfg range
    let v ← Prog.get
    setBuffer (Block.zero :: (allocate 1 v.buffer).drop 1)
    if cfg.canwrite then zeroRanges cfg tgt.ranges else pure ()
  | [] => fail .error

def performCommandNew (rest : List Text) : Blk Unit :=
  match rest with
  | range :: _ => do
    let tgt ← parseRange cfg range
    if !cfg.canwrite then pure ()
    else do
      let v ← Prog.get
      match ← withSink tgt (receiveNewData cfg v.newData) with
      | none => fail .error
      | some newData => Prog.modify (fun v => { v with newData := newData })
  | [] => fail .error

/-- The patch of a command applied to `data`, with a sink. -/
def applyPatch {σ : Type} (cfg : Config) (imgdiff : Bool) (sink : Sink σ) (data : List Block)
    (offset len : Nat) (s : σ) : σ × PatchStatus :=
  if imgdiff then
    applyImagePatch cfg.lib sink (toBytes data) (sliceOf cfg.patchData offset len) none s
  else applyBSDiffPatch cfg.lib sink (toBytes data) (sliceOf cfg.patchData offset len) 0 s

def performCommandDiff (imgdiff : Bool) (rest : List Text) : Blk Unit :=
  match rest with
  | offset :: len :: rest =>
    match parseSize cfg offset, parseSize cfg len with
    | some offset, some len => do
      let (loaded, tgt) ← loadSrcTgtVersion3 cfg false rest
      match loaded with
      | .already => pure ()
      | .ready srcBlocks => do
        let v ← Prog.get
        if cfg.canwrite then do
          match ← withSink tgt (applyPatch cfg imgdiff (rangeSink cfg)
              (v.buffer.take srcBlocks) offset len) with
          | .failure => fail .error
          | .abort => fail .check
          -- a writer that is not finished is only logged
          | .success => pure ()
        else pure ()
      releaseFreestash cfg
    | _, _ => fail .error
  | _ => fail .error

/-- The loop of `erase` over the ranges. -/
def eraseRanges : Pairs → Blk Unit
  | [] => pure ()
  | p :: ps => do
    call
    discardAll cfg (numbers p)
    eraseRanges ps

def performCommandErase (rest : List Text) : Blk Unit := do
  call
  require cfg.isBlk
  match rest with
  | range :: _ => do
    let tgt ← parseRange cfg range
    if cfg.canwrite then eraseRanges cfg tgt.ranges else pure ()
  | [] => fail .error

inductive CommandName where
  | bsdiff
  | erase
  | free
  | imgdiff
  | move
  | new
  | stash
  | zero
  deriving DecidableEq

def commandName (name : Text) : Option CommandName :=
  if name = "bsdiff".toList then some .bsdiff
  else if name = "erase".toList then some .erase
  else if name = "free".toList then some .free
  else if name = "imgdiff".toList then some .imgdiff
  else if name = "move".toList then some .move
  else if name = "new".toList then some .new
  else if name = "stash".toList then some .stash
  else if name = "zero".toList then some .zero
  else none

/-- The function of a command; `block_image_verify` skips three of them. -/
def performNamed (name : CommandName) (rest : List Text) : Blk Unit :=
  match name with
  | .bsdiff => performCommandDiff cfg false rest
  | .imgdiff => performCommandDiff cfg true rest
  | .move => performCommandMove cfg rest
  | .stash => performCommandStash cfg rest
  | .free => performCommandFree cfg rest
  | .erase => if cfg.canwrite then performCommandErase cfg rest else pure ()
  | .new => if cfg.canwrite then performCommandNew cfg rest else pure ()
  | .zero => if cfg.canwrite then performCommandZero cfg rest else pure ()

def performCommand (line : Text) : Blk Unit :=
  match line.splitOn ' ' with
  | [] => fail .error
  | name :: rest =>
    match commandName name with
    | none => fail .error
    | some name => performNamed cfg name rest

/-- `fsync` of the device after a command. -/
def syncDevice : Blk Unit :=
  if !cfg.canwrite then pure ()
  else do
    call
    emit .fsync

def performCommands : List Text → Blk Unit
  | [] => pure ()
  | line :: lines =>
    if line = [] then performCommands lines
    else do
      performCommand cfg line
      syncDevice cfg
      performCommands lines

/-- The end of `PerformBlockImageUpdate`, with the return value. -/
def dropStash (rc : Bool) : Blk Bool := do
  let v ← Prog.get
  if v.isunresumable || (!cfg.canwrite && v.createdstash) then deleteStash cfg else pure ()
  pure rc

/-- From `pbiudone` on. -/
def finish (rc : Bool) : Blk Bool := do
  let ok ← sys
  if ok then emit .fsync else pure ()
  dropStash cfg rc

/-- The part of `PerformBlockImageUpdate` behind `CreateStash`. -/
def performTransfers (lines : List Text) : Blk Bool := do
  let result ← attempt (performCommands cfg lines)
  match result with
  | .ok () => do
    if cfg.canwrite then deleteStash cfg else pure ()
    finish cfg true
  | .error .error => finish cfg false
  | .error h => fail h

/-- `PerformBlockImageUpdate` from `CreateStash` on. -/
def runList (maxblocks : Nat) (lines : List Text) : Blk Bool := do
  match ← attempt (createStash cfg maxblocks) with
  | .error .error => pure false
  | .error h => fail h
  | .ok created => do
    Prog.modify (fun v => { v with createdstash := created })
    performTransfers cfg lines

/-- `PerformBlockImageUpdate` on a transfer list: whether it returns `t`. -/
def performBlockImageUpdate (transferList : Text) : Blk Bool :=
  match transferList.splitOn '\n' with
  | version :: total :: lines =>
    match cfg.parseUint 4 version, parseSize cfg total with
    | some version, some total =>
      if version < 3 then pure false
      else if total = 0 then pure true
      else
        match lines with
        | _ :: maxblocks :: lines =>
          match parseSize cfg maxblocks with
          | none => pure false
          | some maxblocks => runList cfg maxblocks lines
        | _ => pure false
    | _, _ => pure false
  | _ => pure false

/-- The state at the begin of a call, in a process whose earlier calls left a `stash_map`. -/
def Params.entering (stashMap : Text → Option RangeSet) (newData : List Bytes)
    (faults : List Bool) : Params :=
  ⟨[], [], stashMap, false, false, newData, faults⟩

/-- The state of a process that has just started. -/
def Params.start (newData : List Bytes) (faults : List Bool) : Params :=
  ⟨[], [], fun _ => none, false, false, newData, faults⟩

end Pterodon.Updater
