import Mathlib.Algebra.BigOperators.Group.List.Basic
import Pterodon.ApplyPatch.ApplyPatch

/-!
# `freecache`

`MakeFreeSpaceOnCache` deletes files from `/cache` until enough room is free there. Any
unopened regular file directly under `/cache` or `/cache/recovery/otatest` may go, except
`cache_temp_source`, on which a restarted installation can depend.

The loop over these files stops as soon as a deletion leaves *less* than what is needed,
and goes on while there is enough. `makeFreeSpaceOnCache_iff` says for which caches the
function still does what it is for.
-/

namespace Pterodon.ApplyPatch.FreeCache

open Lib List

inductive FileType where
  /-- `S_ISREG` holds. -/
  | regular
  | other
  deriving DecidableEq

/-- What the file system keeps of a path: its type, and the blocks its data takes. -/
structure Inode where
  type : FileType
  blocks : Nat
  deriving DecidableEq

/-- A directory of `/proc`: its name, and the links under `fd/` where that can be opened. A
link that cannot be read is `none`. -/
structure ProcDir where
  name : Text
  fds : Option (List (Option Text))

/-- What a run finds and does not change. -/
structure System where
  /-- `ParseUint<unsigned int>`. -/
  parseUint : Text → Option Nat
  /-- The names in a directory that can be opened. -/
  readdir : Text → Option (List Text)
  /-- The entries of `/proc`, where it can be opened. -/
  proc : Option (List ProcDir)
  /-- Whether `statfs("/cache")` succeeds. -/
  statfs : Bool
  /-- `f_bsize`. -/
  bsize : Nat

variable (sys : System)

/-- The cache partition: its files, and `f_bavail`. -/
structure Cache where
  inode : Text → Option Inode
  bavail : Nat

/-- `FreeSpaceForFile("/cache")`, a `size_t` that is `-1` when `statfs` fails. -/
def freeSpaceForFile (cache : Cache) : Nat :=
  if sys.statfs then sys.bsize * cache.bavail % 2 ^ 64 else 2 ^ 64 - 1

/-- `unlink`: the blocks of the file become available. -/
def unlink (cache : Cache) (path : Text) : Cache :=
  match cache.inode path with
  | none => cache
  | some node =>
    { inode := Function.update cache.inode path none, bavail := cache.bavail + node.blocks }

/-! ## The expendable files -/

/-- `std::set::insert`. -/
def insertFile (files : List Text) (path : Text) : List Text :=
  if path ∈ files then files else files.orderedInsert (· ≤ ·) path

/-- `/cache`. -/
def cacheDir : Text := "/cache".toList

/-- `/cache/recovery/otatest`. -/
def otatestDir : Text :=
  cacheDir ++ "/recovery/otatest".toList

def dirs : List Text := [cacheDir, otatestDir]

/-- Looks at one entry of `dir`. -/
def scanEntry (cache : Cache) (dir : Text) (files : List Text) (name : Text) : List Text :=
  let path := dir ++ '/' :: name
  if path = cacheTempSource then files
  else
    match cache.inode path with
    | some ⟨.regular, _⟩ => insertFile files path
    | _ => files

/-- Looks for regular files in `dir`, not in its subdirectories. -/
def scanDir (cache : Cache) (files : List Text) (dir : Text) : List Text :=
  match sys.readdir dir with
  | none => files
  | some names => names.foldl (scanEntry cache dir) files

def FILENAME_MAX : Nat := 4096

/-- Takes what a link under `fd/` names out of the set; `readlink` cuts long links. -/
def eraseLink (files : List Text) : Option Text → List Text
  | none => files
  | some target =>
    let link := target.take (FILENAME_MAX - 1)
    if (cacheDir ++ ['/']).isPrefixOf link then files.erase link else files

/-- Takes what a process has open out of the set. -/
def eraseOpen (files : List Text) (p : ProcDir) : List Text :=
  match sys.parseUint p.name with
  | none => files
  | some _ =>
    match p.fds with
    | none => files
    | some links => links.foldl eraseLink files

def eliminateOpenFiles (files : List Text) : Option (List Text) :=
  sys.proc.map (fun ps => ps.foldl (eraseOpen sys) files)

def findExpendableFiles (cache : Cache) : List Text :=
  match eliminateOpenFiles sys (dirs.foldl (scanDir sys cache) []) with
  | none => []
  | some files => files

/-! ## Making room -/

/-- What a run leaves: the last `free_now`, the files unlinked in order, and the cache. -/
structure Cleaned where
  freeNow : Nat
  unlinked : List Text
  cache : Cache

/-- The loop over the files. It breaks when there is *not* enough room. -/
def unlinkLoop (bytesNeeded : Nat) : List Text → Nat → Cache → Cleaned
  | [], freeNow, cache => ⟨freeNow, [], cache⟩
  | file :: files, _, cache =>
    let cache := unlink cache file
    let freeNow := freeSpaceForFile sys cache
    if freeNow < bytesNeeded then ⟨freeNow, [file], cache⟩
    else
      let rest := unlinkLoop bytesNeeded files freeNow cache
      { rest with unlinked := file :: rest.unlinked }

/-- `MakeFreeSpaceOnCache` on a device: what it returns, and what it did. -/
def makeFreeSpaceOnCache (bytesNeeded : Nat) (cache : Cache) : Int × Cleaned :=
  let freeNow := freeSpaceForFile sys cache
  if freeNow ≥ bytesNeeded then (0, ⟨freeNow, [], cache⟩)
  else
    match findExpendableFiles sys cache with
    | [] => (-1, ⟨freeNow, [], cache⟩)
    | files =>
      let out := unlinkLoop sys bytesNeeded files freeNow cache
      (if out.freeNow ≥ bytesNeeded then 0 else -1, out)

/-! ## The room a deletion makes -/

/-- The blocks that the data of a file takes. -/
def Cache.blocksAt (cache : Cache) (path : Text) : Nat := (cache.inode path).elim 0 Inode.blocks

/-- The bytes that deleting `files` gives back. -/
def bytesOf (cache : Cache) (files : List Text) : Nat :=
  sys.bsize * (files.map cache.blocksAt).sum

section Room

variable {sys : System} {cache : Cache} {bytesNeeded : Nat}

theorem unlink_bavail (cache : Cache) (path : Text) :
    (unlink cache path).bavail = cache.bavail + cache.blocksAt path := by
  unfold unlink Cache.blocksAt
  cases cache.inode path <;> rfl

/-- `free_now` counts every byte, while the partition is smaller than a `size_t` can say. -/
theorem freeSpaceForFile_eq (hstatfs : sys.statfs = true)
    (hsize : sys.bsize * cache.bavail < 2 ^ 64) :
    freeSpaceForFile sys cache = sys.bsize * cache.bavail := by
  rw [freeSpaceForFile, if_pos hstatfs, Nat.mod_eq_of_lt hsize]

end Room

/-! ## When the cleanup works -/

/-- What the cleanup is for: it succeeds if deleting everything expendable would, and no file
is deleted while there is room enough. -/
structure Cleanup (sys : System) (bytesNeeded : Nat) (cache : Cache) (ret : Int)
    (unlinked : List Text) : Prop where
  enough : bytesNeeded ≤
    freeSpaceForFile sys cache + bytesOf sys cache (findExpendableFiles sys cache) → ret = 0
  onlyNeeded : ∀ before file after, unlinked = before ++ file :: after →
    freeSpaceForFile sys (before.foldl unlink cache) < bytesNeeded

section Iff

variable {sys : System} {cache : Cache} {bytesNeeded : Nat}

theorem unlinkLoop_cons_cons (file next : Text) (files : List Text) (freeNow : Nat)
    (h : bytesNeeded ≤ freeSpaceForFile sys (unlink cache file)) :
    ∃ after, (unlinkLoop sys bytesNeeded (file :: next :: files) freeNow cache).unlinked =
      [file] ++ next :: after := by
  simp only [unlinkLoop]
  rw [if_neg (Nat.not_lt.2 h)]
  split <;> exact ⟨_, rfl⟩

theorem onlyNeeded_singleton (hshort : ¬bytesNeeded ≤ freeSpaceForFile sys cache) (file : Text) :
    ∀ before x after, [file] = before ++ x :: after →
      freeSpaceForFile sys (before.foldl unlink cache) < bytesNeeded := by
  intro before x after heq
  obtain ⟨rfl, -, -⟩ | ⟨_, rfl, hnil⟩ := append_eq_cons_iff.1 heq.symm
  · exact Nat.not_le.1 hshort
  · simp at hnil

/-- With `statfs` working and a partition whose size a `size_t` can say, the cleanup does what
it is for exactly when there is room already, when there is at most one file to delete, or
when all of them would not do. -/
theorem makeFreeSpaceOnCache_iff (sys : System) (bytesNeeded : Nat) (cache : Cache)
    (hstatfs : sys.statfs = true)
    (hsize : sys.bsize * cache.bavail + bytesOf sys cache (findExpendableFiles sys cache) <
      2 ^ 64) :
    Cleanup sys bytesNeeded cache (makeFreeSpaceOnCache sys bytesNeeded cache).1
        (makeFreeSpaceOnCache sys bytesNeeded cache).2.unlinked ↔
      bytesNeeded ≤ freeSpaceForFile sys cache ∨ (findExpendableFiles sys cache).length ≤ 1 ∨
        freeSpaceForFile sys cache + bytesOf sys cache (findExpendableFiles sys cache)
          < bytesNeeded := by
  have hfree : freeSpaceForFile sys cache = sys.bsize * cache.bavail :=
    freeSpaceForFile_eq hstatfs (by omega)
  by_cases henough : bytesNeeded ≤ freeSpaceForFile sys cache
  · simp only [makeFreeSpaceOnCache, henough, true_or, iff_true]
    exact ⟨fun _ => rfl, by simp⟩
  simp only [makeFreeSpaceOnCache, henough, false_or]
  cases hfiles : findExpendableFiles sys cache with
  | nil =>
    simp only [length_nil, Nat.zero_le, true_or, iff_true]
    refine ⟨fun h => absurd h ?_, by simp⟩
    simpa [hfiles, bytesOf] using henough
  | cons file files =>
    have hbytes : bytesOf sys cache (file :: files) =
        sys.bsize * cache.blocksAt file + bytesOf sys cache files := by
      simp [bytesOf, Nat.mul_add]
    have hone : freeSpaceForFile sys (unlink cache file) =
        freeSpaceForFile sys cache + sys.bsize * cache.blocksAt file := by
      rw [freeSpaceForFile_eq hstatfs, hfree, unlink_bavail, Nat.mul_add]
      rw [unlink_bavail, Nat.mul_add]
      rw [hfiles] at hsize
      omega
    by_cases hshort : freeSpaceForFile sys (unlink cache file) < bytesNeeded
    · -- the loop gives up after one file, which is right when all of them would not do
      have hret : ¬bytesNeeded ≤ freeSpaceForFile sys (unlink cache file) := Nat.not_le.2 hshort
      simp only [unlinkLoop, hshort, if_true, hret, if_false]
      refine ⟨fun h => .inr (Nat.not_le.1 fun hall => ?_),
        fun h => ⟨fun hall => ?_, onlyNeeded_singleton henough file⟩⟩
      · exact absurd (h.enough (by rwa [hfiles])) (by decide)
      · rw [hfiles] at hall
        rcases h with hlen | hless
        · obtain rfl : files = [] := by simpa using hlen
          rw [hbytes] at hall
          simp only [bytesOf, map_nil, sum_nil] at hall
          omega
        · omega
    · cases files with
      | nil =>
        simp only [unlinkLoop, hshort, length_cons, length_nil, Nat.le_refl, true_or, iff_true]
        exact ⟨fun _ => if_pos (Nat.not_lt.1 hshort), onlyNeeded_singleton henough file⟩
      | cons next files =>
        -- the second file goes although the first one made room enough
        refine iff_of_false (fun h => ?_) ?_
        · obtain ⟨after, hafter⟩ := unlinkLoop_cons_cons file next files
            (freeSpaceForFile sys cache) (Nat.not_lt.1 hshort)
          exact hshort (h.onlyNeeded [file] next after hafter)
        · simp only [length_cons, not_or]
          exact ⟨by omega, by omega⟩

end Iff

namespace Sample

def fileA : Text := cacheDir ++ ['/', 'a']

def fileB : Text := cacheDir ++ ['/', 'b']

/-- `/cache` lists itself and two files; nothing is open. -/
def system : System where
  parseUint _ := none
  readdir dir := if dir = cacheDir then some [['.'], ['b'], ['a']] else none
  proc := some []
  statfs := true
  bsize := 4096

def cache : Cache where
  inode path := if path = fileA ∨ path = fileB then some ⟨.regular, 1⟩ else none
  bavail := 0

/-- Two blocks are needed, and the two files have two. The first deletion leaves too little,
so the loop stops and the function fails. Where one block is needed, it deletes both. -/
theorem makeFreeSpaceOnCache_gives_up : (8192 ≤ freeSpaceForFile system cache +
        bytesOf system cache (findExpendableFiles system cache) ∧
      (makeFreeSpaceOnCache system 8192 cache).1 = -1 ∧
      (makeFreeSpaceOnCache system 8192 cache).2.unlinked = [fileA]) ∧
    ((makeFreeSpaceOnCache system 4096 cache).2.unlinked = [fileA] ++ [fileB] ∧
      4096 ≤ freeSpaceForFile system (unlink cache fileA)) := by
  decide +kernel

/-- Three blocks are more than the files have, and the function rightly fails. -/
theorem makeFreeSpaceOnCache_three :
    Cleanup system 12288 cache (makeFreeSpaceOnCache system 12288 cache).1
      (makeFreeSpaceOnCache system 12288 cache).2.unlinked :=
  (makeFreeSpaceOnCache_iff system 12288 cache rfl (by decide +kernel)).2
    (.inr (.inr (by decide +kernel)))

end Sample

end Pterodon.ApplyPatch.FreeCache
