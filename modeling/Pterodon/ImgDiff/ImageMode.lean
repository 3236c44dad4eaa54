import Pterodon.ImgDiff.Chunk

/-!
# Image mode

`ImageModeImage`: an image is searched for gzip streams; the body of each is a deflate
chunk, and what lies between is cut into normal chunks. Source and target must have the
same sequence of chunks, and each chunk of the target is patched against the chunk with
the same number.

Bonus data is appended to the contents of source chunk number 1.
-/

namespace Pterodon.ImgDiff.ImageMode

open Lib ApplyPatch ImageChunk

variable (lib : DiffLib)

def GZIP_HEADER_LEN : Nat := 10
def GZIP_FOOTER_LEN : Nat := 8

/-- `0x00088b1f` in memory. -/
def gzipMagic : Bytes := [0x1f, 0x8b, 0x08, 0x00]

/-! ## Reading an image -/

/-- How many bytes there are before the next gzip header. -/
def untilGzip : Bytes → Nat
  | [] => 0
  | b :: rest => if (b :: rest).take 4 = gzipMagic then 0 else untilGzip rest + 1

/--
The body of a gzip stream that starts at `pos`: its contents and its length. There is none if
the data does not inflate or the footer disagrees with what came out. `sz - footer_index` is a
`size_t`.
-/
def gzipBody (file : Bytes) (pos : Nat) : Option (Bytes × Nat) :=
  match lib.inflateStream (file.drop pos) with
  | none => none
  | some (contents, rawDataLen) =>
    let footerIndex := pos + rawDataLen + GZIP_FOOTER_LEN - 4
    if (file.length + 2 ^ 64 - footerIndex) % 2 ^ 64 < 4 then none
    else if leNat (sliceOf file footerIndex 4) ≠ contents.length then none
    else some (contents, rawDataLen)

/-- The loop of `Initialize`. Every round moves `pos`, so that the size of the file bounds the
rounds. -/
def chunksFrom (file : Bytes) : Nat → Nat → Chunks
  | 0, _ => []
  | rounds + 1, pos =>
    if file.length ≤ pos then []
    else if sliceOf file pos 4 = gzipMagic then
      if file.length - pos < GZIP_HEADER_LEN + GZIP_FOOTER_LEN then
        [normalChunk file pos (file.length - pos)]
      else
        let body := pos + GZIP_HEADER_LEN
        normalChunk file pos GZIP_HEADER_LEN ::
          match gzipBody lib file body with
          | none => chunksFrom file rounds body
          | some (contents, rawDataLen) =>
            { type := .deflate, start := body, inputFile := file, rawDataLen := rawDataLen,
              uncompressedData := contents } ::
            normalChunk file (body + rawDataLen) GZIP_FOOTER_LEN ::
            chunksFrom file rounds (body + rawDataLen + GZIP_FOOTER_LEN)
    else
      let dataLen := untilGzip (file.drop pos)
      normalChunk file pos dataLen :: chunksFrom file rounds (pos + dataLen)

/-- `Initialize`. -/
def initializeImage (file : Bytes) : Chunks :=
  chunksFrom lib file file.length 0

/-! ## Matching the chunks -/

def setBonusData (bonusData : Bytes) : Chunks → Option Chunks
  | c :: d :: rest => (d.setBonusData bonusData).map (fun d => c :: d :: rest)
  | _ => none

/-- One round of `CheckAndProcessChunks`. -/
def processPair (tgt src : ImageChunk) : Option (ImageChunk × ImageChunk) :=
  if tgt.type ≠ .deflate then some (tgt, src)
  else
    match keepDeflated lib tgt src with
    | none => none
    | some (some tgt) => some (tgt, src)
    | some none => some (tgt.changeDeflateChunkToNormal, src.changeDeflateChunkToNormal)

def processPairs : Chunks → Chunks → Option (Chunks × Chunks)
  | tgt :: tgts, src :: srcs =>
    match processPair lib tgt src, processPairs tgts srcs with
    | some (tgt, src), some (tgts, srcs) => some (tgt :: tgts, src :: srcs)
    | _, _ => none
  | _, _ => some ([], [])

/-- `CheckAndProcessChunks`: the chunks of the target and of the source. -/
def checkAndProcessChunks (tgt src : Chunks) : Option (Chunks × Chunks) :=
  let tgt := mergeAdjacentNormalChunks tgt
  let src := mergeAdjacentNormalChunks src
  if tgt.length ≠ src.length then none
  else if tgt.map ImageChunk.type ≠ src.map ImageChunk.type then none
  else
    match processPairs lib tgt src with
    | none => none
    | some (tgt, src) =>
      let tgt := mergeAdjacentNormalChunks tgt
      let src := mergeAdjacentNormalChunks src
      if tgt.length ≠ src.length then none else some (tgt, src)

/-! ## The patch -/

/-- The loop of `GeneratePatches`. -/
def patchChunks : Chunks → Chunks → Option (List PatchChunk)
  | [], _ => some []
  | _ :: _, [] => none
  | tgt :: tgts, src :: srcs =>
    match PatchChunk.generate lib tgt src, patchChunks tgts srcs with
    | some p, some ps => some (p :: ps)
    | _, _ => none

def generatePatches (tgt src : Chunks) : Option Bytes :=
  (patchChunks lib tgt src).map PatchChunk.writePatchDataToFd

/-- `imgdiff` in image mode, on the contents of its files. -/
def imgdiff (src tgt : Bytes) (bonus : Option Bytes) : Option Bytes :=
  match checkAndProcessChunks lib (initializeImage lib tgt) (initializeImage lib src) with
  | none => none
  | some (tgt, src) =>
    match bonus with
    | none => generatePatches lib tgt src
    | some bonusData =>
      match setBonusData bonusData src with
      | none => none
      | some src => generatePatches lib tgt src

end Pterodon.ImgDiff.ImageMode
