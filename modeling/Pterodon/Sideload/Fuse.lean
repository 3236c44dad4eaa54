import Mathlib.Algebra.Order.Ring.Int
import Pterodon.Lib.CString

/-!
# The sideload filesystem

`fuse_sideload.cpp` serves one file, `/sideload/package.zip`, whose contents come
block by block from a provider: the adb host, or a file on the sdcard. Nothing is
kept of the package but the block fetched last and a SHA-256 digest for every block
that has been accepted once.

The provider is not trusted. A call of `read_block` may leave any bytes in any part
of the buffer it is handed, and may then report success or failure. It is a function
of the number of calls made so far, so it can follow any strategy it likes.

Machine integers are `Nat`; the places where the code computes in `uint32_t` carry
an explicit `% 2 ^ 32`.
-/

namespace Pterodon.Sideload

open Lib

def eio : Int := 5

def enoent : Int := 2

/-- `FUSE_ROOT_ID + 1`. -/
def PACKAGE_FILE_ID : Nat := 2

/-- What a handler returns once it has replied itself. -/
def NO_STATUS : Int := 1

/-- `curr_block` when no block is cached: `-1` as a `uint32_t`. -/
def NO_BLOCK : Nat := 2 ^ 32 - 1

/-- The part of `provider_vtab` that matters for reads. -/
structure Provider where
  /--
  `read_block`, at its `call`-th invocation: the bytes it stores into the buffer, by
  position, and its return value.
  -/
  readBlock : (call block fetchSize : Nat) → (Nat → Option UInt8) × Int

/-- `fuse_data`, less the file descriptor, the ids and the scratch block. -/
structure FuseData (δ : Type) where
  fileSize : Nat
  blockSize : Nat
  fileBlocks : Nat
  /-- The block most recently read from the host. -/
  currBlock : Nat
  blockData : Bytes
  /-- The digest of each block, `zero` if the block has not been read yet. -/
  hashes : List δ
  /-- How often `read_block` has been called. -/
  calls : Nat

/-- A `FUSE_READ` request. -/
structure ReadRequest where
  nodeid : Nat
  offset : Nat
  size : Nat
  deriving DecidableEq

/-- The buffer, from position `i` on, after the provider stored the bytes `w` in it. -/
def scribble (w : Nat → Option UInt8) : Nat → Bytes → Bytes
  | _, [] => []
  | i, b :: buffer => (w i).getD b :: scribble w (i + 1) buffer

variable {δ : Type} [DecidableEq δ]

/-- The start of a block as the code computes it, in 32 bits. -/
def FuseData.blockStart (fd : FuseData δ) (block : Nat) : Nat :=
  block * fd.blockSize % 2 ^ 32

/-- Whether `fetch_block` takes `block` for the last, partial one. -/
def FuseData.isPartial (fd : FuseData δ) (block : Nat) : Bool :=
  fd.fileSize < fd.blockStart block + fd.blockSize

/-- How many bytes `fetch_block` asks the host for. -/
def FuseData.fetchSize (fd : FuseData δ) (block : Nat) : Nat :=
  if fd.isPartial block then fd.fileSize - fd.blockStart block else fd.blockSize

/-- The buffer `read_block` is handed: the tail of a partial block is zeroed first. -/
def FuseData.padded (fd : FuseData δ) (block : Nat) : Bytes :=
  if fd.isPartial block then
    fd.blockData.take (fd.fetchSize block)
      ++ List.replicate (fd.blockSize - fd.fetchSize block) 0
  else fd.blockData

/-- The state right after `read_block` returned, whatever it returned. -/
def FuseData.fetched (fd : FuseData δ) (vtab : Provider) (block : Nat) : FuseData δ :=
  { fd with
    blockData := scribble (vtab.readBlock fd.calls block (fd.fetchSize block)).1 0 (fd.padded block)
    calls := fd.calls + 1 }

/-- `fetch_block`: get a block from the host into `blockData`. -/
def fetchBlock (sha256 : Bytes → δ) (zero : δ) (vtab : Provider)
    (fd : FuseData δ) (block : Nat) : Int × FuseData δ :=
  if block = fd.currBlock then (0, fd)
  else if fd.fileBlocks ≤ block then
    (0, { fd with blockData := List.replicate fd.blockSize 0, currBlock := block })
  else
    let result := (vtab.readBlock fd.calls block (fd.fetchSize block)).2
    let fd' := fd.fetched vtab block
    if result < 0 then (result, fd')
    else
      let hash := sha256 fd'.blockData
      let blockhash := fd'.hashes.getD block zero
      if hash = blockhash then (0, { fd' with currBlock := block })
      else if blockhash ≠ zero then (-eio, { fd' with currBlock := NO_BLOCK })
      else (0, { fd' with currBlock := block, hashes := fd'.hashes.set block hash })

def FuseData.firstBlock (fd : FuseData δ) (req : ReadRequest) : Nat :=
  req.offset / fd.blockSize % 2 ^ 32

def FuseData.blockOffset (fd : FuseData δ) (req : ReadRequest) : Nat :=
  (req.offset - fd.blockStart (fd.firstBlock req)) % 2 ^ 32

/-- Whether the request spills over into the next block. -/
def FuseData.spills (fd : FuseData δ) (req : ReadRequest) : Bool :=
  fd.blockSize < (req.size + fd.blockOffset req) % 2 ^ 32

/-- `handle_read`: its status, the bytes of the reply if one is sent, the new state. -/
def handleRead (sha256 : Bytes → δ) (zero : δ) (vtab : Provider)
    (fd : FuseData δ) (req : ReadRequest) : Int × Option Bytes × FuseData δ :=
  if req.nodeid ≠ PACKAGE_FILE_ID then (-enoent, none, fd)
  else
    let r₁ := fetchBlock sha256 zero vtab fd (fd.firstBlock req)
    if r₁.1 ≠ 0 then (r₁.1, none, r₁.2)
    else if fd.spills req then
      -- the first part of the reply is saved in `extra_block` before the next fetch
      let extra := (r₁.2.blockData.drop (fd.blockOffset req)).take
        (fd.blockSize - fd.blockOffset req)
      let r₂ := fetchBlock sha256 zero vtab r₁.2 ((fd.firstBlock req + 1) % 2 ^ 32)
      if r₂.1 ≠ 0 then (r₂.1, none, r₂.2)
      else
        (NO_STATUS,
          some (extra ++ r₂.2.blockData.take (req.size - (fd.blockSize - fd.blockOffset req))),
          r₂.2)
    else (NO_STATUS, some ((r₁.2.blockData.drop (fd.blockOffset req)).take req.size), r₁.2)

/-- The number of blocks of the package, before it is stored in a `uint32_t`. -/
def packageBlocks (fileSize blockSize : Nat) : Nat :=
  if fileSize = 0 then 0 else (fileSize - 1) / blockSize + 1

/--
`run_fuse_sideload` up to its request loop: the sizes it accepts and the state it
starts from. `memory` is what `malloc` returned for `block_data`.
-/
def runFuseSideload (zero : δ) (fileSize blockSize : Nat) (memory : Bytes) : Option (FuseData δ) :=
  let fileBlocks := packageBlocks fileSize blockSize % 2 ^ 32
  if blockSize < 4096 then none
  else if blockSize > 2 ^ 22 then none
  else if fileBlocks > 2 ^ 18 then none
  else some
    { fileSize := fileSize
      blockSize := blockSize
      fileBlocks := fileBlocks
      currBlock := NO_BLOCK
      blockData := memory
      hashes := List.replicate fileBlocks zero
      calls := 0 }

/--
The request loop over a finite sequence of reads: every successful reply, in order,
and the state left behind.
-/
def serve (sha256 : Bytes → δ) (zero : δ) (vtab : Provider) :
    FuseData δ → List ReadRequest → List (ReadRequest × Bytes) × FuseData δ
  | fd, [] => ([], fd)
  | fd, req :: reqs =>
    let r := handleRead sha256 zero vtab fd req
    let rest := serve sha256 zero vtab r.2.2 reqs
    match r.2.1 with
    | some data => ((req, data) :: rest.1, rest.2)
    | none => rest

end Pterodon.Sideload
