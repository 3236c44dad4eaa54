import Pterodon.ImgDiff.SortedRangeSet
import Pterodon.ImgDiff.ZipMode

/-!
# Zip mode with a limit

With a limit, the source and the target are split into pieces and a patch is made for
each pair. A piece of the source is a set of blocks of the file, no larger than the
limit; it collects the entries that the chunks of the target ask for. When the next
entry does not fit, the chunks gathered so far become a pair of pieces. Pieces of the
target are aligned to blocks: what a piece lacks to the end of its last block is added
to it and taken from the front of the next.

A failed `CHECK` is `none`.
-/

namespace Pterodon.ImgDiff

open Lib

namespace ZipMode

open ApplyPatch ImageChunk

/-! ## Alignment -/

def BLOCK_SIZE : Nat := 4096

/-- `AlignHead`: start and length without what is before the first whole block; `none` if nothing
is left, which sets the length to zero. -/
def alignHead (start length : Nat) : Option (Nat × Nat) :=
  let residual := if start % BLOCK_SIZE = 0 then 0 else BLOCK_SIZE - start % BLOCK_SIZE
  if length ≤ residual then none else some (start + residual, length - residual)

def alignTail (start length : Nat) : Option (Nat × Nat) :=
  let residual := (start + length) % BLOCK_SIZE
  if length ≤ residual then none else some (start, length - residual)

/-- `RemoveUsedBlocks`. After a failed `AlignHead` the length is zero, and `AlignTail` fails too. -/
def removeUsedBlocks (start length : Nat) (used : SortedRangeSet) : Option (Nat × Nat) :=
  if !used.overlaps start length then some (start, length)
  else
    match alignHead start length with
    | none => none
    | some (start, length) =>
      if !used.overlaps start length then some (start, length)
      else
        match alignTail start length with
        | none => none
        | some (start, length) =>
          if !used.overlaps start length then some (start, length) else none

/-! ## Pieces -/

/-- A pair of split images. The file of the source piece is made of its ranges. -/
structure SplitImage where
  tgtChunks : Chunks
  srcChunks : Chunks
  srcRanges : SortedRangeSet
  srcContent : Bytes

/-- The chunks from the first that reaches over a block boundary on, that one cut at the
boundary. -/
def alignChunks (tgt : Bytes) : Chunks → Option Chunks
  | [] => none
  | c :: rest =>
    match alignHead c.start c.rawDataLen with
    | some (start, length) => some (normalChunk tgt start length :: rest)
    | none => alignChunks tgt rest

/-- The normal chunk up to the end of the last block. -/
def tailChunk (tgt : Bytes) (chunks : Chunks) : Chunks :=
  match chunks.getLast? with
  | none => []
  | some c =>
    let endOffset := c.start + c.rawDataLen
    if endOffset % BLOCK_SIZE ≠ 0 ∧ endOffset < tgt.length then
      [normalChunk tgt endOffset
        (min (tgt.length - endOffset) (BLOCK_SIZE - endOffset % BLOCK_SIZE))]
    else []

/-- `AddSplitImageFromChunkList`: the image that is added, or `some none` if nothing is left of
the chunks. -/
def addSplitImageFromChunkList (src tgt : Bytes) (srcRanges : SortedRangeSet)
    (tgtChunks srcChunks : Chunks) : Option (Option SplitImage) :=
  if tgtChunks = [] then none
  else
    match alignChunks tgt tgtChunks with
    | none => some none
    | some aligned =>
      let content := srcRanges.contents src
      if content = [] then none
      else
        some (some
          { tgtChunks := mergeAdjacentNormalChunks (aligned ++ tailChunk tgt aligned)
            srcChunks := srcChunks
            srcRanges := srcRanges
            srcContent := content })

/-- The variables of `SplitZipModeImageWithLimit`. -/
structure SplitState where
  usedSrcRanges : SortedRangeSet
  srcRanges : SortedRangeSet
  srcChunks : Chunks
  tgtChunks : Chunks
  images : List SplitImage

inductive Placed where
  | added (st : SplitState)
  /-- There is no room for its source. -/
  | full

/-- The chunk without a source of its own. -/
def SplitState.pushNormal (st : SplitState) (tgtFile : Bytes) (tgt : ImageChunk) : SplitState :=
  { st with tgtChunks := st.tgtChunks ++ [normalChunk tgtFile tgt.start tgt.rawDataLen] }

/-- The body of the loop, up to the case in which there is no room. -/
def placeChunk (limit : Nat) (srcs : Chunks) (tgtFile : Bytes) (st : SplitState)
    (tgt : ImageChunk) : Option Placed :=
  match (findChunkByName srcs tgt.entryName true).bind (srcs[·]?) with
  | none => some (.added (st.pushNormal tgtFile tgt))
  | some src =>
    if src.rawDataLen = 0 ∨ limit < src.rawDataLen then none
    else
      match removeUsedBlocks src.start src.rawDataLen st.usedSrcRanges with
      | none => some (.added (st.pushNormal tgtFile tgt))
      | some (srcOffset, srcLength) =>
        if st.srcRanges.blocks * BLOCK_SIZE + srcLength ≤ limit then
          let st := { st with srcRanges := st.srcRanges.insert srcOffset srcLength }
          if src.type = .deflate ∧ srcLength = src.rawDataLen then
            some (.added { st with
              srcChunks := st.srcChunks ++ [src], tgtChunks := st.tgtChunks ++ [tgt] })
          else some (.added (st.pushNormal tgtFile tgt))
        else some .full

/-- What is done when there is no room: a pair of pieces, and a fresh start. -/
def startNext (src tgtFile : Bytes) (st : SplitState) : Option SplitState :=
  match addSplitImageFromChunkList src tgtFile st.srcRanges st.tgtChunks st.srcChunks with
  | none => none
  | some none => some { st with srcRanges := .empty, srcChunks := [], tgtChunks := [] }
  | some (some image) =>
    some
      { usedSrcRanges := st.usedSrcRanges.insertSet st.srcRanges
        srcRanges := .empty, srcChunks := [], tgtChunks := []
        images := st.images ++ [image] }

/-- How far a number of rounds of the loop get. -/
inductive LoopResult where
  | running
  /-- A `CHECK` fails. -/
  | aborted
  | done (st : SplitState)

/-- Rounds of the loop over the target chunks. With `tgt--`, the next round has the same chunk
again. -/
def splitLoop (limit : Nat) (srcs : Chunks) (src tgtFile : Bytes) :
    Nat → SplitState → Chunks → LoopResult
  | _, st, [] => .done st
  | 0, _, _ :: _ => .running
  | rounds + 1, st, tgt :: tgts =>
    match placeChunk limit srcs tgtFile st tgt with
    | none => .aborted
    | some (.added st) => splitLoop limit srcs src tgtFile rounds st tgts
    | some .full =>
      match startNext src tgtFile st with
      | none => .aborted
      | some st => splitLoop limit srcs src tgtFile rounds st (tgt :: tgts)

/-- The first half of `ValidateSplitImages`: the chunks of the pieces follow on each other from
`lastOffset` to the end. -/
def chunksContinue (lastOffset : Nat) : Chunks → Option Nat
  | [] => some lastOffset
  | c :: rest =>
    if c.start = lastOffset then chunksContinue (lastOffset + c.rawDataLen) rest else none

def piecesContinue (totalTgtSize : Nat) : Nat → List SplitImage → Bool
  | lastOffset, [] => decide (totalTgtSize = lastOffset)
  | lastOffset, image :: rest =>
    if image.tgtChunks = [] ∨ lastOffset % BLOCK_SIZE ≠ 0 then false
    else
      match chunksContinue lastOffset image.tgtChunks with
      | none => false
      | some lastOffset => piecesContinue totalTgtSize lastOffset rest

/-- The second half: no block is used twice. -/
def rangesExclusive : SortedRangeSet → List SplitImage → Bool
  | _, [] => true
  | used, image :: rest =>
    !used.overlapsSet image.srcRanges && rangesExclusive (used.insertSet image.srcRanges) rest

def validateSplitImages (images : List SplitImage) (totalTgtSize : Nat) : Bool :=
  piecesContinue totalTgtSize 0 images && rangesExclusive .empty images

/-- The loop from its start, when the central directory is reserved for the last piece. -/
def runLoop (limit : Nat) (src tgtFile : Bytes) (tgts srcs : Chunks)
    (centralDirectory : ImageChunk) (rounds : Nat) : LoopResult :=
  splitLoop limit srcs src tgtFile rounds
    ⟨SortedRangeSet.empty.insert centralDirectory.start centralDirectory.dataLengthForPatch,
      .empty, [], [], []⟩ tgts

/-- What `SplitZipModeImageWithLimit` hands to `ValidateSplitImages`: `none` when a `CHECK` fails
before. Two rounds for each chunk are enough. -/
def splitPieces (limit : Nat) (src tgtFile : Bytes) (tgts srcs : Chunks) :
    Option (List SplitImage) :=
  match srcs.getLast? with
  | none => none
  | some centralDirectory =>
    if centralDirectory.type ≠ .normal then none
    else
      match runLoop limit src tgtFile tgts srcs centralDirectory (2 * tgts.length) with
      | .done st =>
        let ranges := st.srcRanges.insert centralDirectory.start
          centralDirectory.dataLengthForPatch
        match addSplitImageFromChunkList src tgtFile ranges st.tgtChunks st.srcChunks with
        | none => none
        | some none => some st.images
        | some (some image) => some (st.images ++ [image])
      | _ => none

def splitZipModeImageWithLimit (limit : Nat) (src tgtFile : Bytes)
    (tgts srcs : Chunks) : Option (List SplitImage) :=
  match splitPieces limit src tgtFile tgts srcs with
  | none => none
  | some images => if validateSplitImages images tgtFile.length then some images else none

/-- The pieces, once both files are cut into chunks. -/
def splitFrom (lib : DiffLib) (limit : Nat) (src tgt : Bytes) :
    Option Chunks → Option Chunks → Option (List SplitImage)
  | some srcs, some tgts =>
    match checkAndProcessChunks lib limit tgts srcs with
    | none => none
    | some (tgts, srcs) => splitZipModeImageWithLimit limit src tgt tgts srcs
  | _, _ => none

/-- The pieces of two zip files, for a limit in blocks. -/
def splitImages (lib : DiffLib) (zip : ZipLib) (blocksLimit : Nat) (src tgt : Bytes) :
    Option (List SplitImage) :=
  let limit := blocksLimit * BLOCK_SIZE % 2 ^ 64
  splitFrom lib limit src tgt (initializeZip zip true limit src) (initializeZip zip false limit tgt)

/-! ## The patches of the pieces -/

def updateSourceOffset (srcRange : SortedRangeSet) (p : PatchChunk) : Option PatchChunk :=
  if p.type = .deflate then
    (srcRange.getOffsetInRangeSet p.sourceStart).map fun start => { p with sourceStart := start }
  else some p

def updateSourceOffsets (srcRange : SortedRangeSet) : List PatchChunk → Option (List PatchChunk)
  | [] => some []
  | p :: ps =>
    match updateSourceOffset srcRange p, updateSourceOffsets srcRange ps with
    | some p, some ps => some (p :: ps)
    | _, _ => none

/-- What is written for a pair of pieces: the patch, and its line of the split info. -/
structure SplitPatch where
  patch : Bytes
  totalPatchSize : Nat
  splitTgtSize : Nat
  srcRange : SortedRangeSet

/-- The extent of a list of chunks, from the start of the first to the end of the last. -/
def extent (chunks : Chunks) : Nat :=
  match chunks.head?, chunks.getLast? with
  | some first, some last => last.start + last.rawDataLen - first.start
  | _, _ => 0

/-- The loop of `GeneratePatches` over the pieces, for one of them. -/
def generateSplitPatch (lib : DiffLib) (image : SplitImage) : Option SplitPatch :=
  match generatePatchesInternal lib image.srcContent image.srcChunks image.tgtChunks with
  | none => none
  | some ps =>
    match updateSourceOffsets image.srcRanges ps with
    | none => none
    | some ps =>
      some
        { patch := PatchChunk.writePatchDataToFd ps
          totalPatchSize := 12 + (ps.map PatchChunk.patchSize).sum
          splitTgtSize := extent image.tgtChunks
          srcRange := image.srcRanges }

end ZipMode

end Pterodon.ImgDiff
