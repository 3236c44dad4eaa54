import Mathlib.Algebra.Order.Ring.Int
import Mathlib.Data.List.Infix
import Pterodon.Lib.CString

/-!
# Walking through directories

`readdir` reports the type of an entry or leaves it open, and then `lstat` is asked; neither follows
a link. A size is summed up over the whole tree, and a listing takes the entries of one type whose
names end with an extension. The search for a file reads a directory twice: the first time only for
the files in it, the second time only for the directories.

The test for the extension is made with pointers: the extension is compared with what begins at
the end of the name minus its own length. In front of a shorter name there is something else.
-/

namespace Pterodon.Framework.Directories

open Lib List

variable (before : Nat → UInt8)

/-- The types that `d_type` has, and `st_mode`. -/
inductive DType where
  | unknown | fifo | chr | dir | blk | reg | lnk | sock
deriving DecidableEq, Repr

structure Entry where
  name : Bytes
  /-- What `lstat` says. -/
  type : DType
  size : Nat
  /-- Whether `readdir` reports the type. -/
  typed : Bool
  /-- Whether `lstat` succeeds. -/
  stats : Bool
  name_proper : name ≠ [46] ∧ name ≠ [46, 46]
  type_known : type ≠ .unknown

/-- What `readdir` returns for a directory, one after the other. -/
inductive Listing where
  | nil
  /-- `opendir` or `readdir` fails. -/
  | failed
  /-- `.` or `..`. -/
  | dots (rest : Listing)
  /-- An entry, and what is in it if it is a directory. -/
  | entry (e : Entry) (inside rest : Listing)

/-- `d_type` after `Get_D_Type_By_Path`; `none` is `PTERO_DT_NOTFOUND`. -/
def Entry.dType (e : Entry) : Option DType := if e.typed || e.stats then some e.type else none

/-- No call fails. -/
def Listing.Readable : Listing → Prop
  | nil => True
  | failed => False
  | dots rest => rest.Readable
  | entry e inside rest => e.stats = true ∧ (e.type = .dir → inside.Readable) ∧ rest.Readable

def Listing.entries : Listing → List Entry
  | nil | failed => []
  | dots rest => rest.entries
  | entry e _ rest => e :: rest.entries

theorem Entry.dType_eq {e : Entry} (h : e.stats = true) : e.dType = some e.type := by
  simp [dType, h]

namespace Sample

/-- An entry called by one letter; the types of regular files are not reported. -/
def entry (letter : UInt8) (type : DType) (size : Nat) (h : letter ≠ 46 ∧ type ≠ .unknown) :
    Entry :=
  ⟨[letter], type, size, type ≠ .reg, true, by simp [h.1], h.2⟩

/-- A directory `d` with a regular file `a` and a link `l`, and a directory `a` beside it. -/
def tree : Listing :=
  .dots <| .entry (entry 97 .dir 0 (by decide)) .nil <|
    .entry (entry 100 .dir 0 (by decide))
      (.entry (entry 97 .reg 5 (by decide)) .nil <| .entry (entry 108 .lnk 2 (by decide)) .nil .nil)
      .nil

theorem tree_readable : tree.Readable := by
  simp [tree, Listing.Readable, entry]

end Sample

open Sample

/-! ## The size -/

/-- What an entry adds to the size; `inside` is the size of the directory it is. Without a type the
decision is made on `st_mode`. -/
def Entry.added (e : Entry) (inside : Nat) : Nat :=
  if e.typed then
    if e.type = .dir then inside
    else if (e.type = .reg ∨ e.type = .lnk) ∧ e.stats then e.size else 0
  else if e.stats then
    match e.type with
    | .reg | .lnk => e.size
    | .dir => inside
    | _ => 0
  else 0

/-- The loop of `Get_Directory_Stat_Size`, with `full_size`. -/
def statSize : Nat → Listing → Nat
  | full, .nil => full
  | _, .failed => 0
  | full, .dots rest => statSize full rest
  | full, .entry e inside rest => statSize ((full + e.added (statSize 0 inside)) % 2 ^ 64) rest

def getDirectoryStatSize (l : Listing) : Nat := statSize 0 l

/-- The sizes of the regular files and links in a tree. -/
def Listing.sizes : Listing → List Nat
  | nil | failed => []
  | dots rest => rest.sizes
  | entry e inside rest =>
    (if e.type = .dir then inside.sizes
      else if e.type = .reg ∨ e.type = .lnk then [e.size] else []) ++ rest.sizes

/-- The tree as a file system lists it that reports no types. -/
def Listing.untyped : Listing → Listing
  | nil => nil
  | failed => failed
  | dots rest => dots rest.untyped
  | entry e inside rest => entry { e with typed := false } inside.untyped rest.untyped

theorem sizes_untyped (l : Listing) : l.untyped.sizes = l.sizes := by
  induction l with
  | nil | failed => rfl
  | dots rest ih => exact ih
  | entry e inside rest ihin ih => simp [Listing.untyped, Listing.sizes, ihin, ih]

theorem Entry.added_eq {e : Entry} (hstats : e.stats = true) (inside : Nat) : e.added inside =
    if e.type = .dir then inside else if e.type = .reg ∨ e.type = .lnk then e.size else 0 := by
  cases ht : e.typed <;> cases htype : e.type <;> simp [added, hstats, htype]

theorem statSize_eq {l : Listing} (hl : l.Readable) {full : Nat} (hfull : full < 2 ^ 64) :
    statSize full l = (full + l.sizes.sum) % 2 ^ 64 := by
  induction l generalizing full with
  | nil => exact (Nat.mod_eq_of_lt hfull).symm
  | failed => exact absurd hl id
  | dots rest ih => exact ih hl hfull
  | entry e inside rest ihin ih =>
    obtain ⟨hstats, hinside, hrest⟩ := hl
    rw [statSize, ih hrest (Nat.mod_lt _ (by decide)), e.added_eq hstats, Listing.sizes, sum_append,
      Nat.mod_add_mod, ← Nat.add_assoc]
    split
    · next hdir =>
      rw [ihin (hinside hdir) (by decide), Nat.zero_add, Nat.add_right_comm, Nat.add_mod_mod,
        Nat.add_right_comm]
    · split <;> simp

/-- The size is the sum over all regular files and links, whichever types are reported. -/
theorem getDirectoryStatSize_eq (l : Listing) (hl : l.Readable) :
    getDirectoryStatSize l = l.sizes.sum % 2 ^ 64 ∧
    ∀ l' : Listing, l'.Readable → l'.untyped = l.untyped →
      getDirectoryStatSize l' = getDirectoryStatSize l := by
  have hsize : ∀ l : Listing, l.Readable → getDirectoryStatSize l = l.sizes.sum % 2 ^ 64 := by
    intro l hl
    rw [getDirectoryStatSize, statSize_eq hl (by decide), Nat.zero_add]
  refine ⟨hsize l hl, fun l' hl' hsame => ?_⟩
  rw [hsize l hl, hsize l' hl', ← sizes_untyped l', hsame, sizes_untyped]

theorem tree_size : getDirectoryStatSize tree = 7 :=
  (getDirectoryStatSize_eq tree tree_readable).1

/-! ## The search -/

/-- The first pass of `find_file_in_path`; `none` if `readdir` fails. -/
def firstPass (filename path : Bytes) : Listing → Option (Option Bytes)
  | .nil => some none
  | .failed => none
  | .dots rest => firstPass filename path rest
  | .entry e _ rest =>
    if e.name = filename ∧ e.dType = some .reg then some (some (path ++ 47 :: e.name))
    else firstPass filename path rest

/-- The second pass follows one that came to the end without a file. -/
def rewind (second : Bytes) : Option (Option Bytes) → Bytes
  | none => []
  | some none => second
  | some (some found) => found

def secondPass (filename : Bytes) : Bytes → Listing → Bytes
  | _, .nil | _, .failed => []
  | path, .dots rest => secondPass filename path rest
  | path, .entry e inside rest =>
    let fullPath := path ++ 47 :: e.name
    if e.dType = some .dir then
      let found := rewind (secondPass filename fullPath inside) (firstPass filename fullPath inside)
      if found ≠ [] then found else secondPass filename path rest
    else secondPass filename path rest

def findFileInPath (path filename : Bytes) (l : Listing) : Bytes :=
  rewind (secondPass filename path l) (firstPass filename path l)

/-- The paths of the regular files of a name in a tree. -/
def filesCalled (filename : Bytes) : Bytes → Listing → List Bytes
  | _, .nil | _, .failed => []
  | path, .dots rest => filesCalled filename path rest
  | path, .entry e inside rest =>
    (if e.type = .dir then filesCalled filename (path ++ 47 :: e.name) inside
      else if e.type = .reg ∧ e.name = filename then [path ++ 47 :: e.name] else []) ++
      filesCalled filename path rest

section Search

variable {filename path found : Bytes} {l : Listing}

/-- A file, if there is one. -/
def Finds (found : Bytes) (files : List Bytes) : Prop :=
  found ∈ files ∧ found ≠ [] ∨ found = [] ∧ files = []

/-- The directory itself has the file. -/
def Listing.Holds (filename : Bytes) (l : Listing) : Prop :=
  ∃ e ∈ l.entries, e.type = .reg ∧ e.name = filename

theorem firstPass_eq (hl : l.Readable) : firstPass filename path l = some none ∧
      ¬ l.Holds filename ∨
    firstPass filename path l = some (some (path ++ 47 :: filename)) ∧ l.Holds filename ∧
      path ++ 47 :: filename ∈ filesCalled filename path l := by
  induction l with
  | nil => exact .inl ⟨rfl, by simp [Listing.Holds, Listing.entries]⟩
  | failed => exact absurd hl id
  | dots rest ih => exact ih hl
  | entry e inside rest _ ih =>
    obtain ⟨hstats, -, hrest⟩ := hl
    rw [firstPass, Entry.dType_eq hstats]
    by_cases hfile : e.type = .reg ∧ e.name = filename
    · refine .inr ⟨?_, ⟨e, mem_cons_self, hfile⟩, ?_⟩
      · simp [hfile.1, hfile.2]
      · simp [filesCalled, hfile.1, hfile.2]
    · rw [if_neg fun h => hfile ⟨Option.some.inj h.2, h.1⟩]
      rcases ih hrest with ⟨hpass, hnot⟩ | ⟨hpass, ⟨e', he', hfile'⟩, hmem⟩
      · refine .inl ⟨hpass, ?_⟩
        rintro ⟨e', he', hfile'⟩
        rcases mem_cons.mp he' with rfl | he'
        · exact hfile hfile'
        · exact hnot ⟨e', he', hfile'⟩
      · exact .inr ⟨hpass, ⟨e', mem_cons_of_mem _ he', hfile'⟩, mem_append_right _ hmem⟩

/-- Both passes find a file if the second one does where the directory itself has none. -/
theorem rewind_finds (hl : l.Readable)
    (h : ¬ l.Holds filename → Finds (secondPass filename path l) (filesCalled filename path l)) :
    Finds (findFileInPath path filename l) (filesCalled filename path l) := by
  rw [findFileInPath]
  rcases @firstPass_eq filename path l hl with ⟨hpass, hnot⟩ | ⟨hpass, -, hmem⟩
  · rw [hpass]
    exact h hnot
  · rw [hpass]
    exact .inl ⟨hmem, by simp [rewind]⟩

theorem secondPass_finds (hl : l.Readable) (hnot : ¬ l.Holds filename) :
    Finds (secondPass filename path l) (filesCalled filename path l) := by
  induction l generalizing path with
  | nil => exact .inr ⟨rfl, rfl⟩
  | failed => exact absurd hl id
  | dots rest ih => exact ih hl hnot
  | entry e inside rest ihin ih =>
    obtain ⟨hstats, hinside, hrest⟩ := hl
    have hnext := @ih path hrest fun ⟨e', he', h⟩ => hnot ⟨e', mem_cons_of_mem _ he', h⟩
    have hfile : ¬ (e.type = .reg ∧ e.name = filename) := fun h => hnot ⟨e, mem_cons_self, h⟩
    rw [secondPass, filesCalled, Entry.dType_eq hstats]
    by_cases hdir : e.type = .dir
    · have hin := rewind_finds (hinside hdir) (@ihin (path ++ 47 :: e.name) (hinside hdir))
      rw [hdir]
      show Finds (if findFileInPath _ filename inside ≠ [] then _ else _) _
      rcases hin with ⟨hmem, hne⟩ | ⟨hnone, hnil⟩
      · rw [if_pos hne]
        exact .inl ⟨mem_append_left _ hmem, hne⟩
      · rw [if_neg (not_not.mpr hnone), hnil]
        exact hnext
    · rw [if_neg fun h => hdir (Option.some.inj h), if_neg hdir, if_neg hfile]
      exact hnext

end Search

/-- The search returns a regular file of the name if there is one in the tree, and that of the
directory itself if it has one. -/
theorem findFileInPath_shallow (path filename : Bytes) (l : Listing) (hl : l.Readable) :
    (findFileInPath path filename l ≠ [] ↔ filesCalled filename path l ≠ []) ∧
    (findFileInPath path filename l ≠ [] →
      findFileInPath path filename l ∈ filesCalled filename path l) ∧
    (l.Holds filename → findFileInPath path filename l = path ++ 47 :: filename) := by
  have hfinds : Finds (findFileInPath path filename l) _ := rewind_finds hl (secondPass_finds hl)
  refine ⟨?_, ?_, fun hholds => ?_⟩
  · rcases hfinds with ⟨hmem, hne⟩ | ⟨hnone, hnil⟩
    · exact iff_of_true hne (ne_nil_of_mem hmem)
    · simp [hnone, hnil]
  · exact fun hne => hfinds.elim And.left fun h => absurd h.1 hne
  · rcases @firstPass_eq filename path l hl with ⟨-, hnot⟩ | ⟨hpass, -⟩
    · exact absurd hholds hnot
    · rw [findFileInPath, hpass, rewind]

/-- The directory `a` is passed over, and `d/a` is found. -/
theorem deep_file_found : findFileInPath [47] [97] tree ∈ filesCalled [97] [47] tree :=
  (findFileInPath_shallow [47] [97] tree tree_readable).2.1 (by decide)

/-! ## The listing -/

/-- `EndsWith` of two `std::string`s. -/
def endsWith (start search : Bytes) : Bool :=
  search.length ≤ start.length && start.drop (start.length - search.length) = search

/-- The bytes around a C string; `before` has those in front of it. -/
def memory (start : Bytes) (i : Int) : UInt8 :=
  if i < 0 then before i.natAbs else start.getD i.toNat 0

/-- `strcmp` of what is at a position with a C string: whether it returns 0, and the positions that
it inspects. -/
def strcmpAt (mem : Int → UInt8) : Int → Bytes → Bool × List Int
  | i, [] => (mem i = 0, [i])
  | i, c :: cs =>
    if mem i = c then ((strcmpAt mem (i + 1) cs).1, i :: (strcmpAt mem (i + 1) cs).2)
    else (false, [i])

/-- `EndsWith` of two C strings. -/
def endsWithC (start search : Bytes) : Bool × List Int :=
  strcmpAt (memory before start) (start.length - search.length) search

/-- The loop of `ListDirectoryToSettings`: the names, and the positions that `EndsWith` inspects;
`before` is what is in front of the names. -/
def listed (before : Entry → Nat → UInt8) (fileType : DType) (extension : Bytes) :
    Listing → List Bytes × List Int
  | .nil | .failed => ([], [])
  | .dots rest => listed before fileType extension rest
  | .entry e _ rest =>
    let later := listed before fileType extension rest
    if fileType ≠ .unknown ∧ e.dType ≠ some fileType then later
    else if extension = [] then (e.name :: later.1, later.2)
    else
      let test := endsWithC (before e) e.name extension
      (if test.1 then e.name :: later.1 else later.1, test.2 ++ later.2)

/-- `Framework::ListDirectoryToSettings`. -/
def listDirectoryToSettings (before : Entry → Nat → UInt8) (fileType : DType)
    (extension : Bytes) (l : Listing) : Bytes :=
  (listed before fileType extension l).1.flatMap (· ++ [59])

theorem strcmpAt_memory {start search : Bytes} {k : Nat} (h : k + search.length = start.length) :
    (strcmpAt (memory before start) k search).1 = decide (start.drop k = search) ∧
    ∀ i ∈ (strcmpAt (memory before start) k search).2, 0 ≤ i := by
  induction search generalizing k with
  | nil =>
    have hend : start.length ≤ k := Nat.le_of_eq h.symm
    simp [strcmpAt, memory, hend]
  | cons c cs ih =>
    have hk : k < start.length := by simp at h; omega
    obtain ⟨hrest, hpos⟩ := ih (k := k + 1) (by simp at h; omega)
    have hmem : memory before start k = start[k] := by
      rw [memory]
      simp [hk]
    rw [strcmpAt, hmem]
    simp only [drop_eq_getElem_cons hk, cons.injEq]
    split
    · next hc => simpa [hc] using ⟨hrest, hpos⟩
    · next hc => simp [hc]

/-- The two tests agree, and nothing in front of the string is inspected, for an end that is not
longer than the string. -/
theorem endsWithC_eq {start search : Bytes} (h : search.length ≤ start.length) :
    (endsWithC before start search).1 = endsWith start search ∧
    ∀ i ∈ (endsWithC before start search).2, 0 ≤ i := by
  have hat := strcmpAt_memory before (Nat.sub_add_cancel h)
  simpa [endsWithC, endsWith, h] using hat

theorem endsWith_iff {start search : Bytes} : endsWith start search = true ↔ search <:+ start := by
  rw [suffix_iff_eq_drop, endsWith, Bool.and_eq_true, decide_eq_true_eq, decide_eq_true_eq, eq_comm]
  exact ⟨And.right, fun h => ⟨by rw [h, length_drop]; omega, h⟩⟩

/-- The first position is inspected whatever is there. -/
theorem mem_strcmpAt (mem : Int → UInt8) (i : Int) (search : Bytes) :
    i ∈ (strcmpAt mem i search).2 := by
  cases search with
  | nil => simp [strcmpAt]
  | cons c cs =>
    rw [strcmpAt]
    split <;> simp

theorem endsWithC_inside_iff (start search : Bytes) :
    (∀ i ∈ (endsWithC before start search).2, 0 ≤ i) ↔ search.length ≤ start.length := by
  refine ⟨fun h => ?_, fun h => (endsWithC_eq before h).2⟩
  have := h _ (mem_strcmpAt _ _ search)
  omega

section Listing

variable {before : Entry → Nat → UInt8} {fileType : DType} {extension : Bytes} {l : Listing}

/-- The entry is of the type that is asked for. -/
def Entry.Asked (fileType : DType) (e : Entry) : Prop := fileType = .unknown ∨ e.type = fileType

instance (fileType : DType) (e : Entry) : Decidable (e.Asked fileType) :=
  inferInstanceAs (Decidable (_ ∨ _))

/-- One round for an entry of the type. -/
theorem listed_asked {e : Entry} {inside rest : Listing} (hstats : e.stats = true)
    (h : e.Asked fileType) : listed before fileType extension (.entry e inside rest) =
      if extension = [] then (e.name :: (listed before fileType extension rest).1,
        (listed before fileType extension rest).2)
      else (if (endsWithC (before e) e.name extension).1 then
          e.name :: (listed before fileType extension rest).1
        else (listed before fileType extension rest).1,
        (endsWithC (before e) e.name extension).2 ++ (listed before fileType extension
          rest).2) := by
  have hpass : ¬ (fileType ≠ .unknown ∧ some e.type ≠ some fileType) := by
    simpa [or_iff_not_imp_left, Entry.Asked] using h
  rw [listed, Entry.dType_eq hstats, if_neg hpass]

theorem listed_other {e : Entry} {inside rest : Listing} (hstats : e.stats = true)
    (h : ¬ e.Asked fileType) : listed before fileType extension (.entry e inside rest) =
      listed before fileType extension rest := by
  obtain ⟨hknown, hother⟩ := not_or.mp h
  rw [listed, Entry.dType_eq hstats, if_pos ⟨hknown, fun h => hother (Option.some.inj h)⟩]

theorem listed_exact (hl : l.Readable)
    (hlong : ∀ e ∈ l.entries, e.Asked fileType → extension.length ≤ e.name.length) :
    (listed before fileType extension l).1 =
      (l.entries.filter fun e => e.Asked fileType ∧ extension <:+ e.name).map Entry.name := by
  induction l with
  | nil => rfl
  | failed => exact absurd hl id
  | dots rest ih => exact ih hl hlong
  | entry e inside rest _ ih =>
    obtain ⟨hstats, -, hrest⟩ := hl
    obtain ⟨he, hlong⟩ := forall_mem_cons.mp hlong
    by_cases hasked : e.Asked fileType
    · have hend := @endsWith_iff e.name extension
      rw [← (endsWithC_eq (before e) (he hasked)).1] at hend
      rw [listed_asked hstats hasked, Listing.entries, ih hrest hlong]
      split
      · next hnil => simp [hasked, hnil]
      · by_cases hsuffix : extension <:+ e.name
        · simp [hasked, hsuffix, hend.mpr hsuffix]
        · simp [hsuffix, Bool.eq_false_iff.mpr (mt hend.mp hsuffix)]
    · simp [listed_other hstats hasked, Listing.entries, hasked, ih hrest hlong]

theorem listed_inside_iff (hl : l.Readable) :
    (∀ i ∈ (listed before fileType extension l).2, 0 ≤ i) ↔
      ∀ e ∈ l.entries, e.Asked fileType → extension.length ≤ e.name.length := by
  induction l with
  | nil => simp [listed, Listing.entries]
  | failed => exact absurd hl id
  | dots rest ih => exact ih hl
  | entry e inside rest _ ih =>
    obtain ⟨hstats, -, hrest⟩ := hl
    rw [Listing.entries, forall_mem_cons, ← ih hrest]
    by_cases hasked : e.Asked fileType
    · rw [listed_asked hstats hasked]
      split
      · next hnil => simp [hnil]
      · rw [forall_mem_append, endsWithC_inside_iff]
        simp [hasked]
    · rw [listed_other hstats hasked]
      simp [hasked]

end Listing

/-- The listing has the entries of the type whose names end with the extension, in the order of
the directory, and nothing in front of a name is inspected for it, exactly if no entry of that type
has a name shorter than the extension. So it is with the test itself. -/
theorem listDirectoryToSettings_exact_iff (before : Entry → Nat → UInt8) (fileType : DType)
    (extension : Bytes) (l : Listing) (hl : l.Readable) :
    ((listDirectoryToSettings before fileType extension l =
        ((l.entries.filter fun e => e.Asked fileType ∧
          extension <:+ e.name).map Entry.name).flatMap (· ++ [59]) ∧
      ∀ i ∈ (listed before fileType extension l).2, 0 ≤ i) ↔
      ∀ e ∈ l.entries, e.Asked fileType → extension.length ≤ e.name.length) ∧
    ∀ before start search,
      ((endsWithC before start search).1 = endsWith start search ∧
        ∀ i ∈ (endsWithC before start search).2, 0 ≤ i) ↔ search.length ≤ start.length := by
  refine ⟨⟨fun h => (listed_inside_iff hl).mp h.2, fun hlong => ?_⟩, fun before start search =>
    ⟨fun h => (endsWithC_inside_iff ..).mp h.2, endsWithC_eq before⟩⟩
  exact ⟨congrArg (flatMap _) (listed_exact hl hlong), (listed_inside_iff hl).mpr hlong⟩

/-- Of the directories `a` and `d` one ends with the letter. -/
theorem tree_listed : listDirectoryToSettings (fun _ _ => 0) .dir [100] tree = [100, 59] :=
  (((listDirectoryToSettings_exact_iff (fun _ _ => 0) .dir [100] tree
    tree_readable).1.mpr (by decide)).1).trans (by decide)

/-- The byte in front of the name `a` is inspected for `.a`, and the name is listed if it is the
one that is looked for. -/
theorem short_name_listed :
    endsWithC (fun _ => 46) [97] [46, 97] = (true, [-1, 0, 1]) ∧ endsWith [97] [46, 97] = false ∧
    listDirectoryToSettings (fun _ _ => 46) .dir [46, 97] tree = [97, 59] := by
  decide

end Pterodon.Framework.Directories
