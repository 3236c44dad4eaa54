import Mathlib.Data.List.Sort
import Pterodon.Lib.CString
import Pterodon.ImgDiff.Chunk

/-!
# Zip mode

`ZipModeImage` without the splitting. The deflated entries of a zip file are its deflate
chunks. The chunks of the target cover the whole file; those of the source are only the
entries and what comes after the last one. A target entry is matched with a source entry
by name, and everything else is patched against the whole source file.

With a limit, stored entries become chunks too and an entry that is longer than the
limit becomes several normal chunks, named after the entry with `-0`, `-1` and so on. The
name lookup accepts `-0` as a match in both directions.

libziparchive is a parameter. It sees the file up to the end of the zip data only.
-/

namespace Pterodon.ImgDiff.ZipMode

open Lib ApplyPatch ImageChunk

variable (lib : DiffLib)

/-! ## Zip files -/

/-- `ZipEntry`, the part used here. -/
structure ZipEntry where
  /-- `method == kCompressDeflated`. -/
  deflated : Bool
  offset : Nat
  compressedLength : Nat
  uncompressedLength : Nat
  deriving DecidableEq

structure ZipLib where
  /-- `OpenArchiveFromMemory`, and the names and entries that the iteration runs over. -/
  entries : Bytes → Option (List (Bytes × ZipEntry))
  extractToMemory : Bytes → ZipEntry → Option Bytes

/-- `0x06054b50` in memory. -/
def eocdSignature : Bytes := [0x50, 0x4b, 0x05, 0x06]

/-- The loop of `GetZipFileSize` from `i` down: the end of the zip data, from the last record of
the end of the central directory. -/
def findEocd (file : Bytes) : Nat → Option Nat
  | 0 => eocdAt file 0
  | i + 1 => if sliceOf file (i + 1) 4 = eocdSignature then eocdAt file (i + 1) else findEocd file i
where
  /-- What is done with position `i`; the two `CHECK`s are failures. -/
  eocdAt (file : Bytes) (i : Nat) : Option Nat :=
    if sliceOf file i 4 ≠ eocdSignature then none
    else if leNat (sliceOf file (i + 4) 2) ≠ 0 then none
    else
      -- an `int`; a negative one is a `size_t` that is larger than any file
      let fileSize := signed 4 ((i + 22 + leNat (sliceOf file (i + 20) 2)) % 2 ^ 32)
      if fileSize < 0 ∨ file.length < fileSize then none else some fileSize.toNat

/-- `GetZipFileSize`. The position it starts from is an `int`. -/
def getZipFileSize (file : Bytes) : Option Nat :=
  if file.length < 22 then none
  else
    let i := signed 4 ((file.length - 22) % 2 ^ 32)
    if i < 0 then none else findEocd file i.toNat

/-! ## The chunks of a zip file -/

/-- The chunks of an entry that is longer than the limit. -/
def splitEntry (file name : Bytes) (entry : ZipEntry) (limit : Nat) : Chunks :=
  (List.range ((entry.compressedLength + limit - 1) / limit)).map fun count =>
    { type := .normal
      start := entry.offset + limit * count
      inputFile := file
      rawDataLen := min limit (entry.compressedLength - limit * count)
      entryName := name ++ 0x2d :: natBytes count }

/-- `AddZipEntryToChunks`: the chunks that are added. -/
def addZipEntryToChunks (zip : ZipLib) (data file : Bytes) (limit : Nat)
    (named : Bytes × ZipEntry) : Option Chunks :=
  let (name, entry) := named
  let chunk : ImageChunk :=
    { type := .normal, start := entry.offset, inputFile := file,
      rawDataLen := entry.compressedLength, entryName := name }
  if entry.compressedLength = 0 then some []
  else if 0 < limit ∧ limit < entry.compressedLength then some (splitEntry file name entry limit)
  else if entry.deflated then
    match zip.extractToMemory data entry with
    | none => none
    | some contents => some [{ chunk with type := .deflate, uncompressedData := contents }]
  else some [chunk]

def addAll (zip : ZipLib) (data file : Bytes) (limit : Nat) :
    List (Bytes × ZipEntry) → Option Chunks
  | [] => some []
  | named :: rest =>
    match addZipEntryToChunks zip data file limit named, addAll zip data file limit rest with
    | some chunks, some more => some (chunks ++ more)
    | _, _ => none

def entriesEnd (named : List (Bytes × ZipEntry)) : Nat :=
  match named.getLast? with
  | none => 0
  | some (_, entry) => entry.offset + entry.compressedLength

def sourceChunks (zip : ZipLib) (data file : Bytes) (limit : Nat)
    (named : List (Bytes × ZipEntry)) : Option Chunks :=
  match addAll zip data file limit named with
  | none => none
  | some chunks =>
    if entriesEnd named < file.length then
      some (chunks ++ [normalChunk file (entriesEnd named) (file.length - entriesEnd named)])
    else none

/-- The target's chunks from `pos` on: the entries and what is between them. The length of what is
between is a `size_t`. -/
def targetChunks (zip : ZipLib) (data file : Bytes) (limit : Nat) :
    Nat → List (Bytes × ZipEntry) → Option Chunks
  | pos, [] => some (if pos < file.length then [normalChunk file pos (file.length - pos)] else [])
  | pos, named :: rest =>
    if file.length ≤ pos then some []
    else
      let offset := named.2.offset
      let before :=
        if pos = offset then []
        else [normalChunk file pos ((offset + 2 ^ 64 - pos) % 2 ^ 64)]
      if file.length ≤ offset then some before
      else
        match addZipEntryToChunks zip data file limit named,
            targetChunks zip data file limit (offset + named.2.compressedLength) rest with
        | some chunks, some more => some (before ++ (chunks ++ more))
        | _, _ => none

def sortedEntries (limit : Nat) (entries : List (Bytes × ZipEntry)) : List (Bytes × ZipEntry) :=
  (entries.filter fun named => named.2.deflated || decide (0 < limit)).insertionSort
    (fun a b => a.2.offset ≤ b.2.offset)

/-- `Initialize`, for the source or the target. -/
def initializeZip (zip : ZipLib) (isSource : Bool) (limit : Nat) (file : Bytes) : Option Chunks :=
  match getZipFileSize file with
  | none => none
  | some size =>
    match zip.entries (file.take size) with
    | none => none
    | some entries =>
      let named := sortedEntries limit entries
      if isSource then sourceChunks zip (file.take size) file limit named
      else targetChunks zip (file.take size) file limit 0 named

/-! ## Matching by name -/

/-- `-0`. -/
def firstPart : Bytes := [0x2d, 0x30]

/-- The names that `FindChunkByName` takes for the same. -/
def sameName (name chunkName : Bytes) : Bool :=
  decide (name ≠ [] ∧
    (chunkName = name ∨ name = chunkName ++ firstPart ∨ chunkName = name ++ firstPart))

/-- `FindChunkByName`: the index of the chunk it points to. -/
def findChunkByName (chunks : Chunks) (name : Bytes) (findNormal : Bool) : Option Nat :=
  chunks.findIdx? fun c =>
    (decide (c.type = .deflate) || findNormal) && sameName name c.entryName

/-- One round of `CheckAndProcessChunks`: the target chunk and the chunks of the source. -/
def processChunk (srcs : Chunks) (tgt : ImageChunk) : Option (ImageChunk × Chunks) :=
  if tgt.type ≠ .deflate then some (tgt, srcs)
  else
    match findChunkByName srcs tgt.entryName false with
    | none => some (tgt.changeDeflateChunkToNormal, srcs)
    | some i =>
      match srcs[i]?.bind (keepDeflated lib tgt) with
      | none => none
      | some (some tgt) => some (tgt, srcs)
      | some none =>
        some (tgt.changeDeflateChunkToNormal, srcs.modify i changeDeflateChunkToNormal)

def processChunks : Chunks → Chunks → Option (Chunks × Chunks)
  | srcs, [] => some ([], srcs)
  | srcs, tgt :: tgts =>
    match processChunk lib srcs tgt with
    | none => none
    | some (tgt, srcs) =>
      match processChunks srcs tgts with
      | none => none
      | some (tgts, srcs) => some (tgt :: tgts, srcs)

/-- `CheckAndProcessChunks`: the chunks of the target and of the source. -/
def checkAndProcessChunks (limit : Nat) (tgts srcs : Chunks) : Option (Chunks × Chunks) :=
  match processChunks lib srcs tgts with
  | none => none
  | some (tgts, srcs) =>
    some (if limit = 0 then mergeAdjacentNormalChunks tgts else tgts, srcs)

/-! ## The patch -/

def pseudoSource (src : Bytes) : ImageChunk := normalChunk src 0 src.length

/-- The chunk that a target chunk is patched against. -/
def sourceFor (src : Bytes) (srcs : Chunks) (tgt : ImageChunk) : ImageChunk :=
  if tgt.type ≠ .deflate then pseudoSource src
  else
    match (findChunkByName srcs tgt.entryName false).bind (srcs[·]?) with
    | none => pseudoSource src
    | some c => c

/-- `GeneratePatchesInternal`, for a source with the given contents. -/
def generatePatchesInternal (src : Bytes) (srcs : Chunks) : Chunks → Option (List PatchChunk)
  | [] => some []
  | tgt :: tgts =>
    match PatchChunk.generate lib tgt (sourceFor src srcs tgt),
        generatePatchesInternal src srcs tgts with
    | some p, some ps => some (p :: ps)
    | _, _ => none

/-- `imgdiff -z` without a limit, on the contents of its files. A failure inside
`GeneratePatchesInternal` is not looked at, but leaves the chunks too few for the `CHECK` after
it. -/
def imgdiff (zip : ZipLib) (src tgt : Bytes) : Option Bytes :=
  match initializeZip zip true 0 src, initializeZip zip false 0 tgt with
  | some srcs, some tgts =>
    match checkAndProcessChunks lib 0 tgts srcs with
    | none => none
    | some (tgts, srcs) =>
      (generatePatchesInternal lib src srcs tgts).map PatchChunk.writePatchDataToFd
  | _, _ => none

end Pterodon.ImgDiff.ZipMode
