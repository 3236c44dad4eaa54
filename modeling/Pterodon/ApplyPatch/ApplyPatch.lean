import Mathlib.Data.Char
import Mathlib.Data.List.Sort
import Mathlib.Data.List.Lex
import Mathlib.Data.Prod.Lex
import Mathlib.Logic.Function.Basic
import Pterodon.Lib.Crash
import Pterodon.Lib.Text
import Pterodon.ApplyPatch.ImgPatch

/-!
# Partitions as files

`applypatch` names a partition with the sizes and digests that its contents may have, loads the
part of it that matches one of them, and writes it with a check of what it wrote.

Writes go byte by byte. System calls succeed, except that nothing can be written past the end of a
partition; the crypto and string libraries, and the sizes of vectors that can be allocated, are
parameters.
-/

namespace Pterodon.ApplyPatch

open Lib

/-- What survives: partitions by device, files by path. -/
structure Storage where
  partition : Text → Option Bytes
  file : Text → Option Bytes

/-- One byte on its way to a partition. -/
structure Write where
  device : Text
  offset : Nat
  byte : UInt8
  deriving DecidableEq

def Write.act (w : Write) (d : Storage) : Storage :=
  { d with
    partition := Function.update d.partition w.device
      ((d.partition w.device).map fun data => data.set w.offset w.byte) }

instance : Effect Write Storage := ⟨Write.act⟩

/-- What ends the process. -/
inductive Abort where
  | badAlloc
  deriving DecidableEq

abbrev Apply (α : Type) : Type := Prog Write Storage Unit Abort α

/-- The libraries of a run. -/
structure Env where
  sha1 : Bytes → Bytes
  /-- `ParseUint<size_t>`. -/
  parseUint : Text → Option Nat
  heap : Heap

def SHA_DIGEST_LENGTH : Nat := 20

/-- `/cache/saved.file`. -/
def cacheTempSource : Text := "/cache/saved.file".toList

def emmc : Text := "EMMC".toList

/-- Whether a file name starts with `EMMC:`. -/
def isEmmc (filename : Text) : Bool := (emmc ++ [':']).isPrefixOf filename

/-! ## Digests as text -/

def hexDigit (c : Char) : Option Nat :=
  if '0' ≤ c ∧ c ≤ '9' then some (c.toNat - '0'.toNat)
  else if 'a' ≤ c ∧ c ≤ 'f' then some (c.toNat - 'a'.toNat + 10)
  else if 'A' ≤ c ∧ c ≤ 'F' then some (c.toNat - 'A'.toNat + 10)
  else none

/-- `n` bytes from `2 * n` hex digits, and nothing behind them. -/
def parseHex : Nat → Text → Option Bytes
  | 0, [] => some []
  | n + 1, hi :: lo :: rest => do
    let hi ← hexDigit hi
    let lo ← hexDigit lo
    let bytes ← parseHex n rest
    pure (UInt8.ofNat (hi * 16 + lo) :: bytes)
  | _, _ => none

def parseSha1 (str : Text) : Option Bytes := parseHex SHA_DIGEST_LENGTH str

/-! ## Reading -/

/-- The pairs of sizes and digests behind the device name. -/
def parsePairs (env : Env) : List Text → Option (List (Nat × Text))
  | [] => some []
  | [_] => none
  | size :: sha1 :: rest =>
    match env.parseUint size with
    | none => none
    | some 0 => none
    | some size => (parsePairs env rest).map ((size, sha1) :: ·)

/-- `EMMC:<device>:<size>:<sha1>...` as a device and a list of pairs. -/
def parsePartition (env : Env) (filename : Text) : Option (Text × List (Nat × Text)) :=
  match filename.splitOn ':' with
  | tag :: device :: size :: sha1 :: rest =>
    if tag = emmc then (parsePairs env (size :: sha1 :: rest)).map (device, ·) else none
  | _ => none

/-- `std::sort` on the pairs. -/
def sortPairs (pairs : List (Nat × Text)) : List (Nat × Text) :=
  pairs.insertionSort (fun a b => toLex a ≤ toLex b)

/-- The loop over the sorted pairs; `buffer` is what was read from `dev` so far. -/
def loadLoop (env : Env) (dev : Bytes) : Bytes → List (Nat × Text) → Option Bytes
  | _, [] => none
  | buffer, (size, sha1) :: rest =>
    let next := size - buffer.length
    let read := (dev.drop buffer.length).take next
    if read.length ≠ next then none
    else
      match parseSha1 sha1 with
      | none => none
      | some digest =>
        if env.sha1 (buffer ++ read) = digest then some (buffer ++ read)
        else loadLoop env dev (buffer ++ read) rest

/-- The size of the buffer of `LoadPartitionContents`: the last of the sorted pairs has it. -/
def largestSize (pairs : List (Nat × Text)) : Nat := ((sortPairs pairs).getLastD (0, [])).1

/-- `LoadPartitionContents`: the data if it returns 0. -/
def loadPartitionContents (env : Env) (filename : Text) (d : Storage) :
    Except Abort (Option Bytes) :=
  match parsePartition env filename with
  | none => .ok none
  | some (device, pairs) =>
    match d.partition device with
    | none => .ok none
    | some dev =>
      if env.heap.allocates (largestSize pairs) then .ok (loadLoop env dev [] (sortPairs pairs))
      else .error .badAlloc

def loadFileContents (env : Env) (filename : Text) (d : Storage) : Except Abort (Option Bytes) :=
  if isEmmc filename then loadPartitionContents env filename d
  else
    match d.file filename with
    | none => .ok none
    | some data =>
      if env.heap.allocates data.length then .ok (some data) else .error .badAlloc

/-! ## Writing -/

/-- The `while (start < len)` loop of `WriteToPartition`: `false` if a write fails. -/
def writeFrom (device : Text) : Nat → Bytes → Apply Bool
  | _, [] => pure true
  | offset, b :: bs => do
    let d ← Prog.disk
    if offset < ((d.partition device).getD []).length then do
      Prog.emit ⟨device, offset, b⟩
      writeFrom device (offset + 1) bs
    else pure false

/-- The verification in steps of 4096 bytes: where the first step that differs starts. -/
def firstMismatch (dev data : Bytes) : Nat → Nat → Option Nat
  | 0, _ => none
  | fuel + 1, p =>
    if p < data.length then
      if (dev.drop p).take (min 4096 (data.length - p)) = (data.drop p).take 4096 then
        firstMismatch dev data fuel (p + 4096)
      else some p
    else none

/-- The attempts of `WriteToPartition`, the next one starting at `start`. -/
def writeAttempts (device : Text) (data : Bytes) : Nat → Nat → Apply Bool
  | 0, _ => pure false
  | attempts + 1, start => do
    let written ← writeFrom device start (data.drop start)
    if !written then pure false
    else do
      let d ← Prog.disk
      match firstMismatch ((d.partition device).getD []) data data.length 0 with
      | none => pure true
      | some p => writeAttempts device data attempts p

/-- `WriteToPartition`: whether it returns 0. -/
def writeToPartition (data : Bytes) (target : Text) : Apply Bool :=
  match target.splitOn ':' with
  | tag :: device :: _ => do
    let d ← Prog.disk
    if tag ≠ emmc then pure false
    else if (d.partition device).isNone then pure false
    else writeAttempts device data 2 0
  | _ => pure false

end Pterodon.ApplyPatch
