import Pterodon.ApplyPatch.ImgPatch

/-!
# Chunks

`imgdiff` cuts both files into chunks, makes a patch for every chunk of the target and
writes the patches into one file. This module has what both of its modes share:
`ImageChunk`, `PatchChunk` and the patch file.

A chunk points into the file it was cut from. Reading its bytes is a `CHECK` that they
lie inside the file; `none` below is that `CHECK`, or a library call that failed. In
both cases no patch comes out.
-/

namespace Pterodon.ImgDiff

open Lib ApplyPatch

/-- The library functions that `imgdiff` needs beside those of `applypatch`. -/
structure DiffLib extends PatchLib where
  /-- `bsdiff::bsdiff(old, new)`. -/
  bsdiff : Bytes → Bytes → Option Bytes
  /-- `inflate` until `Z_STREAM_END`: the contents of the raw deflate stream at the start of a
  byte string and the number of bytes the stream takes up. -/
  inflateStream : Bytes → Option (Bytes × Nat)

variable (lib : DiffLib)

/-- Images have normal and deflate chunks, patches raw ones too. -/
inductive ChunkType where
  | normal
  | deflate
  | raw
  deriving DecidableEq

def ChunkType.code : ChunkType → Int
  | .normal => CHUNK_NORMAL
  | .deflate => CHUNK_DEFLATE
  | .raw => CHUNK_RAW

/-! ## Image chunks -/

/-- `ImageChunk`, with the file it is in. -/
structure ImageChunk where
  type : ChunkType
  start : Nat
  inputFile : Bytes
  rawDataLen : Nat
  entryName : Bytes := []
  compressLevel : Int := 6
  /-- For deflate chunks only. -/
  uncompressedData : Bytes := []
  deriving DecidableEq

variable (c : ImageChunk)

/-- Chunks in the order of a file. -/
abbrev Chunks : Type := List ImageChunk

namespace ImageChunk

def METHOD : Int := 8
def WINDOWBITS : Int := -15
def MEMLEVEL : Int := 8
def STRATEGY : Int := 0

/-- What `deflateInit2` is given for a level. -/
def deflateParams (level : Int) : DeflateParams :=
  ⟨level, METHOD, WINDOWBITS, MEMLEVEL, STRATEGY⟩

/-- `GetRawData`, with the length. -/
def getRawData : Option Bytes :=
  if c.start + c.rawDataLen ≤ c.inputFile.length then
    some (sliceOf c.inputFile c.start c.rawDataLen)
  else none

def dataForPatch : Option Bytes :=
  if c.type = .deflate then some c.uncompressedData else c.getRawData

def dataLengthForPatch : Nat :=
  if c.type = .deflate then c.uncompressedData.length else c.rawDataLen

/-- `operator==`. -/
def equals (c other : ImageChunk) : Option Bool :=
  if c.type ≠ other.type then some false
  else if c.rawDataLen ≠ other.rawDataLen then some false
  else do
    let data ← c.getRawData
    let otherData ← other.getRawData
    some (decide (data = otherData))

/-- `none` when the chunk is not deflated. -/
def setBonusData (bonusData : Bytes) : Option ImageChunk :=
  if c.type ≠ .deflate then none
  else some { c with uncompressedData := c.uncompressedData ++ bonusData }

def changeDeflateChunkToNormal : ImageChunk :=
  if c.type ≠ .deflate then c else { c with type := .normal, uncompressedData := [] }

def isAdjacentNormal (c other : ImageChunk) : Bool :=
  decide (c.type = .normal ∧ other.type = .normal ∧ other.start = c.start + c.rawDataLen)

def mergeAdjacentNormal (c other : ImageChunk) : ImageChunk :=
  { c with rawDataLen := c.rawDataLen + other.rawDataLen }

/-- `MakePatch`. The suffix array that `bsdiff` may keep between calls with one source does not
show in its result. -/
def makePatch (tgt src : ImageChunk) : Option Bytes := do
  let old ← src.dataForPatch
  let new ← tgt.dataForPatch
  lib.bsdiff old new

/-- The loop of `TryReconstruction` over the buffers that `deflate` fills: how far the file
agrees with them, or `none` at the first difference. -/
def compareBuffers (file : Bytes) (start : Nat) : Nat → List Bytes → Option Nat
  | offset, [] => some offset
  | offset, buffer :: rest =>
    if sliceOf file (start + offset) buffer.length = buffer then
      compareBuffers file start (offset + buffer.length) rest
    else none

def tryReconstruction (level : Int) : Bool :=
  if !lib.deflateInit (deflateParams level) then false
  else
    -- `avail_in` has 32 bits.
    match lib.deflate (deflateParams level) []
        (c.uncompressedData.take (c.uncompressedData.length % 2 ^ 32)) true with
    | none => false
    | some buffers => decide (compareBuffers c.inputFile c.start 0 buffers = some c.rawDataLen)

/-- `ReconstructDeflateChunk`: the chunk with the first of the levels 6 and 9 that gives back its
bytes. -/
def reconstructDeflateChunk : Option ImageChunk :=
  if c.type ≠ .deflate then none
  else
    match [6, 9].find? (fun level => tryReconstruction lib c level) with
    | none => none
    | some level => some { c with compressLevel := level }

/--
What both `CheckAndProcessChunks` do with a deflate chunk and its source: the chunk stays
deflated, or, with `some none`, both become normal. They do if they are identical, as a patch of
the compressed bytes is then trivial, and if the chunk cannot be rebuilt.
-/
def keepDeflated (tgt src : ImageChunk) : Option (Option ImageChunk) :=
  match tgt.equals src with
  | none => none
  | some true => some none
  | some false => some (reconstructDeflateChunk lib tgt)

end ImageChunk

open ImageChunk

/-- `ImageChunk(CHUNK_NORMAL, start, &file, length)`. -/
def normalChunk (file : Bytes) (start length : Nat) : ImageChunk :=
  { type := .normal, start := start, inputFile := file, rawDataLen := length }

/-- The run of chunks from `cur` on, with each adjacent normal chunk merged into the one
before it. -/
def mergeFrom (cur : ImageChunk) : Chunks → Chunks
  | [] => [cur]
  | next :: rest =>
    if cur.isAdjacentNormal next then mergeFrom (cur.mergeAdjacentNormal next) rest
    else cur :: mergeFrom next rest

/-- What `MergeAdjacentNormalChunks` makes of the chunks; the loop itself is
`Image.mergeAdjacentNormalChunks`. -/
def mergeAdjacentNormalChunks : Chunks → Chunks
  | [] => []
  | c :: rest => mergeFrom c rest

namespace Image

/-- The vector `chunks_`; a slot is `none` once its chunk was moved away. -/
abbrev Slots : Type := List (Option ImageChunk)

/-- The inner loop, with the chunks from `to_check` on that are merged into the one at `cur`. A
chunk that was moved away is not read. -/
def absorb (cur : Nat) : Nat → Slots → Nat → Option (Slots × Nat)
  | 0, slots, toCheck => some (slots, toCheck)
  | fuel + 1, slots, toCheck =>
    if toCheck < slots.length then do
      let c ← slots.getD cur none
      let d ← slots.getD toCheck none
      if c.isAdjacentNormal d then
        absorb cur fuel (slots.set cur (some (c.mergeAdjacentNormal d))) (toCheck + 1)
      else some (slots, toCheck)
    else some (slots, toCheck)

/-- `chunks_[last] = std::move(chunks_[cur])`. -/
def moveChunk (slots : Slots) (last cur : Nat) : Slots :=
  (slots.set last (slots.getD cur none)).set cur none

/-- The outer loop: the slots, and `merged_last`. -/
def compact : Nat → Slots → Nat → Nat → Option (Slots × Nat)
  | 0, slots, mergedLast, _ => some (slots, mergedLast)
  | fuel + 1, slots, mergedLast, cur =>
    if cur < slots.length then do
      let (slots, toCheck) ← absorb cur slots.length slots (cur + 1)
      compact fuel (if mergedLast ≠ cur then moveChunk slots mergedLast cur else slots)
        (mergedLast + 1) toCheck
    else some (slots, mergedLast)

/-- `MergeAdjacentNormalChunks`; `none` where a chunk that was moved away is read or left. -/
def mergeAdjacentNormalChunks (cs : Chunks) : Option Chunks := do
  let (slots, mergedLast) ← compact cs.length (cs.map some) 0 0
  -- the slots from `merged_last` on are erased
  (slots.take mergedLast).mapM id

end Image

/-! ## Patch chunks -/

/-- `PatchChunk`, less the target's place, which only the log shows. -/
structure PatchChunk where
  type : ChunkType
  sourceStart : Nat
  sourceLen : Nat
  sourceUncompressedLen : Nat
  targetUncompressedLen : Nat
  targetCompressLevel : Int
  data : Bytes
  deriving DecidableEq

namespace PatchChunk

/-- `PatchChunk(tgt, src, data)`. -/
def ofPatch (tgt src : ImageChunk) (data : Bytes) : PatchChunk :=
  { type := tgt.type
    sourceStart := src.start
    sourceLen := src.rawDataLen
    sourceUncompressedLen := src.dataLengthForPatch
    targetUncompressedLen := tgt.dataLengthForPatch
    targetCompressLevel := tgt.compressLevel
    data := data }

/-- `PatchChunk(tgt)`. -/
def ofTarget (tgt : ImageChunk) : Option PatchChunk := do
  let data ← tgt.dataForPatch
  some
    { type := .raw
      sourceStart := 0
      sourceLen := 0
      sourceUncompressedLen := 0
      targetUncompressedLen := tgt.dataLengthForPatch
      targetCompressLevel := tgt.compressLevel
      data := data }

def rawDataIsSmaller (tgt : ImageChunk) (patchSize : Nat) : Bool :=
  decide (tgt.type = .normal ∧ (tgt.rawDataLen ≤ 160 ∨ tgt.rawDataLen < patchSize))

/-- The body of the loops of both `GeneratePatches`: the patch for `tgt` against `src`. -/
def generate (tgt src : ImageChunk) : Option PatchChunk :=
  if rawDataIsSmaller tgt 0 then ofTarget tgt
  else
    match makePatch lib tgt src with
    | none => none
    | some data =>
      if rawDataIsSmaller tgt data.length then ofTarget tgt
      else some (ofPatch tgt src data)

def getHeaderSize (p : PatchChunk) : Nat :=
  match p.type with
  | .normal => 4 + 8 * 3
  | .deflate => 4 + 8 * 5 + 4 * 5
  | .raw => 4 + 4 + p.data.length

/-- `Write4` of an `int`. -/
def write4 (value : Int) : Bytes := leBytes 4 (unsigned 4 value)

/-- `Write4(static_cast<int32_t>(...))` of a size. -/
def write4Size (size : Nat) : Bytes := leBytes 4 size

/-- `Write8` of a size. -/
def write8 (size : Nat) : Bytes := leBytes 8 size

/-- What follows the type in a header. -/
def headerFields (p : PatchChunk) (offset : Nat) : Bytes :=
  match p.type with
  | .normal => write8 p.sourceStart ++ (write8 p.sourceLen ++ write8 offset)
  | .deflate =>
    write8 p.sourceStart ++ (write8 p.sourceLen ++ (write8 offset ++
      (write8 p.sourceUncompressedLen ++ (write8 p.targetUncompressedLen ++
        (write4 p.targetCompressLevel ++ (write4 METHOD ++ (write4 WINDOWBITS ++
          (write4 MEMLEVEL ++ write4 STRATEGY))))))))
  | .raw => write4Size p.data.length ++ p.data

/-- The part of a chunk's data that comes after all headers. -/
def body (p : PatchChunk) : Bytes := if p.type = .raw then [] else p.data

/-- `WriteHeaderToFd`: what is written, and the offset of the next patch. -/
def writeHeaderToFd (p : PatchChunk) (offset : Nat) : Bytes × Nat :=
  (write4 p.type.code ++ p.headerFields offset, offset + p.body.length)

def patchSize (p : PatchChunk) : Nat :=
  if p.type = .raw then p.getHeaderSize else p.getHeaderSize + p.data.length

/-- The headers, the first patch being at `offset`. -/
def headers : Nat → List PatchChunk → Bytes
  | _, [] => []
  | offset, p :: rest =>
    (p.writeHeaderToFd offset).1 ++ headers (p.writeHeaderToFd offset).2 rest

def bodies (ps : List PatchChunk) : Bytes := ps.flatMap body

def writePatchDataToFd (ps : List PatchChunk) : Bytes :=
  let totalHeaderSize := 12 + (ps.map getHeaderSize).sum
  imgdiffMagic ++ (write4Size ps.length ++ (headers totalHeaderSize ps ++ bodies ps))

end PatchChunk

end Pterodon.ImgDiff
