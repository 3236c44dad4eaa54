import Pterodon.Lib.LittleEndian

/-!
# Applying patches

`ApplyBSDiffPatch` and `ApplyImagePatch`. A patch is applied towards a *sink*, a function
that is handed the output piece by piece and says how much of each piece it took; a
piece that is not taken whole ends the patch. The sink's own state is threaded through.

`bspatch`, `inflate` and `deflate` are library functions and parameters here. What
`bspatch` hands to its sink is a list of pieces together with its verdict on the patch.
`deflate` is a stream: it is told what it was fed so far, the next input and whether
that is the last, and yields the buffers it fills on the way, or an error. The stream
has ended once the last input is in.
-/

namespace Pterodon.ApplyPatch

open Lib

/-- How `ApplyImagePatch` and its helpers end; `abort` is a failed `CHECK`. -/
inductive PatchStatus where
  | success
  | failure
  | abort
  deriving DecidableEq

/-- The vectors of bytes that can be allocated; none is longer than `max_size`. A vector that
cannot be allocated throws, and nothing catches that. -/
structure Heap where
  allocates : Nat → Bool
  max_size : ∀ size, allocates size = true → size < 2 ^ 63

/-- A device with 4 GiB for a vector. -/
def Sample.heap : Heap := ⟨fun size => size ≤ 2 ^ 32, fun size h => by
  have := of_decide_eq_true h
  omega⟩

/-- `SinkFn`: the number of bytes taken. -/
abbrev Sink (σ : Type) : Type := σ → Bytes → σ × Nat

/-- Parameters of `deflateInit2`. -/
structure DeflateParams where
  level : Int
  method : Int
  windowBits : Int
  memLevel : Int
  strategy : Int
  deriving DecidableEq

/-- The library functions that patches rest on. -/
structure PatchLib where
  /-- `bsdiff::bspatch(old, patch)`: pieces for the sink, and whether the patch was good. -/
  bspatch : Bytes → Bytes → List Bytes × Bool
  /-- The contents of the raw deflate stream at the start of a byte string. -/
  inflate : Bytes → Option Bytes
  /-- Whether `deflateInit2` accepts the parameters. -/
  deflateInit : DeflateParams → Bool
  /-- `deflate` on a stream that was fed the first list, with the second as its next input;
  `true` is `Z_FINISH`. -/
  deflate : DeflateParams → Bytes → Bytes → Bool → Option (List Bytes)

variable (lib : PatchLib)

variable {σ : Type}

/-- Hand pieces to a sink until it refuses one. A sink that is handed nothing does nothing, so
empty pieces are passed over. -/
def feed (sink : Sink σ) : List Bytes → σ → σ × Bool
  | [], s => (s, true)
  | x :: xs, s =>
    if x = [] then feed sink xs s
    else
      let r := sink s x
      if r.2 = x.length then feed sink xs r.1 else (r.1, false)

def applyBSDiffPatch (sink : Sink σ) (old patch : Bytes)
    (patchOffset : Nat) (s : σ) : σ × PatchStatus :=
  if patch.length < patchOffset then (s, .abort)
  else
    let (pieces, ok) := lib.bspatch old (patch.drop patchOffset)
    let (s, taken) := feed sink pieces s
    (s, if taken && ok then .success else .failure)

/-! ## Deflated output -/

/-- What the sink that compresses keeps: the input so far, whether `deflate` last returned
`Z_STREAM_END`, and the state of the sink behind it. -/
structure Compression (σ : Type) where
  fed : Bytes
  ended : Bool
  inner : σ

/-- The lambda `compression_sink`. -/
def compressionSink (params : DeflateParams) (expected : Nat) (sink : Sink σ) :
    Sink (Compression σ) := fun st data =>
  let finish := !decide (st.fed.length + data.length < expected)
  match lib.deflate params st.fed data finish with
  | none => ({ st with ended := false }, 0)
  | some pieces =>
    match feed sink pieces st.inner with
    | (s, true) => (⟨st.fed ++ data, finish, s⟩, data.length)
    | (s, false) => (⟨st.fed, false, s⟩, 0)

def applyBSDiffPatchAndStreamOutput (sink : Sink σ) (src patch : Bytes)
    (patchOffset expected : Nat) (params : DeflateParams) (s : σ) : σ × PatchStatus :=
  if !lib.deflateInit params then (s, .failure)
  else
    let (st, result) := applyBSDiffPatch lib (compressionSink lib params expected sink) src patch
      patchOffset ⟨[], false, s⟩
    match result with
    | .success =>
      (st.inner, if st.ended ∧ st.fed.length = expected then .success else .failure)
    | r => (st.inner, r)

/-! ## The chunks of an image patch -/

def CHUNK_NORMAL : Int := 0
def CHUNK_DEFLATE : Int := 2
def CHUNK_RAW : Int := 3

/-- `IMGDIFF2`. -/
def imgdiffMagic : Bytes := [0x49, 0x4d, 0x47, 0x44, 0x49, 0x46, 0x46, 0x32]

/-- The bytes `[start, start + size)`; cut off at the end. -/
def sliceOf (data : Bytes) (start size : Nat) : Bytes := (data.drop start).take size

def read4 (data : Bytes) (pos : Nat) : Int := signed 4 (leNat (sliceOf data pos 4))

/-- `static_cast<size_t>(Read8(...))`. -/
def read8 (data : Bytes) (pos : Nat) : Nat := leNat (sliceOf data pos 8)

/-- `src_start + src_len > old_size`, in `size_t`. -/
def tooShort (old : Bytes) (srcStart srcLen : Nat) : Bool :=
  decide (old.length < (srcStart + srcLen) % 2 ^ 64)

/-- A `CHUNK_NORMAL` with its header at `pos`. -/
def applyNormalChunk (sink : Sink σ) (old patch : Bytes) (pos : Nat) (s : σ) : σ × PatchStatus :=
  let srcStart := read8 patch pos
  let srcLen := read8 patch (pos + 8)
  let patchOffset := read8 patch (pos + 16)
  if tooShort old srcStart srcLen then (s, .failure)
  else applyBSDiffPatch lib sink (sliceOf old srcStart srcLen) patch patchOffset s

/--
The decompressed source of a `CHUNK_DEFLATE`, with the bonus data at the end of its vector.
`avail_in` and `avail_out` of a stream have 32 bits: what a longer vector has in between is zeros.
-/
def expandSource (src bonus : Bytes) (expandedLen : Nat) : Option Bytes :=
  if expandedLen = 0 then some []
  else
    match lib.inflate (src.take (src.length % 2 ^ 32)) with
    | none => none
    | some contents =>
      if contents.length ≤ expandedLen % 2 ^ 32
          ∧ expandedLen % 2 ^ 32 - contents.length = bonus.length then
        some (contents ++ List.replicate (expandedLen - contents.length - bonus.length) 0 ++ bonus)
      else none

/-- A `CHUNK_DEFLATE` with its header at `pos`. -/
def applyDeflateChunk (sink : Sink σ) (old patch bonus : Bytes) (pos : Nat)
    (s : σ) : σ × PatchStatus :=
  let srcStart := read8 patch pos
  let srcLen := read8 patch (pos + 8)
  let patchOffset := read8 patch (pos + 16)
  let expandedLen := read8 patch (pos + 24)
  if tooShort old srcStart srcLen then (s, .failure)
  else
    match expandSource lib (sliceOf old srcStart srcLen) bonus expandedLen with
    | none => (s, .failure)
    | some expanded =>
      applyBSDiffPatchAndStreamOutput lib sink expanded patch patchOffset
        (read8 patch (pos + 32))
        ⟨read4 patch (pos + 40), read4 patch (pos + 44), read4 patch (pos + 48),
          read4 patch (pos + 52), read4 patch (pos + 56)⟩ s

/-- `static_cast<size_t>(Read4(raw_header))`. -/
def rawLength (patch : Bytes) (pos : Nat) : Nat := unsigned 8 (read4 patch pos)

/-- A `CHUNK_RAW` whose data is at `pos`. -/
def applyRawChunk (sink : Sink σ) (patch : Bytes) (pos dataLen : Nat) (s : σ) : σ × PatchStatus :=
  if patch.length < (pos + dataLen) % 2 ^ 64 then (s, .failure)
  else
    let r := feed sink [sliceOf patch pos dataLen] s
    (r.1, if r.2 then .success else .failure)

/-- Chunk number `i` at `pos`: the sink's state, the outcome, and where the next chunk is. -/
def applyChunk (sink : Sink σ) (old patch : Bytes)
    (bonus : Option Bytes) (i pos : Nat) (s : σ) : (σ × PatchStatus) × Nat :=
  if patch.length < pos + 4 then ((s, .failure), pos)
  else if read4 patch pos = CHUNK_NORMAL then
    if patch.length < pos + 4 + 24 then ((s, .failure), pos)
    else (applyNormalChunk lib sink old patch (pos + 4) s, pos + 4 + 24)
  else if read4 patch pos = CHUNK_RAW then
    if patch.length < pos + 4 + 4 then ((s, .failure), pos)
    else
      let dataLen := rawLength patch (pos + 4)
      (applyRawChunk sink patch (pos + 4 + 4) dataLen s, (pos + 4 + 4 + dataLen) % 2 ^ 64)
  else if read4 patch pos = CHUNK_DEFLATE then
    if patch.length < pos + 4 + 60 then ((s, .failure), pos)
    else
      (applyDeflateChunk lib sink old patch (if i = 1 then bonus.getD [] else []) (pos + 4) s,
        pos + 4 + 60)
  else ((s, .failure), pos)

/-- The loop over the chunks: `n` more, the next one being number `i`, at `pos`. -/
def applyChunks (sink : Sink σ) (old patch : Bytes)
    (bonus : Option Bytes) : Nat → Nat → Nat → σ → σ × PatchStatus
  | 0, _, _, s => (s, .success)
  | n + 1, i, pos, s =>
    match applyChunk lib sink old patch bonus i pos s with
    | ((s, .success), pos) => applyChunks sink old patch bonus n (i + 1) pos s
    | (r, _) => r

def applyImagePatch (sink : Sink σ) (old patch : Bytes)
    (bonus : Option Bytes) (s : σ) : σ × PatchStatus :=
  if patch.length < 12 then (s, .failure)
  else if patch.take 8 ≠ imgdiffMagic then (s, .failure)
  else applyChunks lib sink old patch bonus (read4 patch 8).toNat 0 12 s

/-- The sink that appends to a string. -/
def memorySink : Sink Bytes := fun s data => (s ++ data, data.length)

end Pterodon.ApplyPatch
