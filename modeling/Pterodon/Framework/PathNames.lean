import Mathlib.Data.List.Induction
import Pterodon.Lib.CString

/-!
# The two parts of a path

`Framework::BaseName` and `Framework::DirName` cut a path at its last slash. Where that is the
last character, a loop takes the slashes off the end first. It compares the position of the last
slash with the length minus one, and both are `npos` for the empty string: of a path of two or
more slashes the loop takes everything off and goes on. And `DirName` takes care of a path without
a slash, or with one at the beginning only, before the loop and not behind it.
-/

namespace Pterodon.Framework

open Lib List

/-- `find_last_of("/")`; `none` is `npos`. -/
def lastSlash (path : Bytes) : Option Nat :=
  (path.reverse.findIdx? (· = 47)).map (path.length - 1 - ·)

/-- `size() - 1`, a `size_t`. -/
def lastPos (path : Bytes) : Option Nat := if path = [] then none else some (path.length - 1)

/-- The loop that takes the slashes off; `none` where a character of the empty string is taken. -/
def stripSlashes (path : Bytes) : Option Bytes :=
  if lastSlash path = lastPos path then
    if path = [] then none else stripSlashes path.dropLast
  else some path
termination_by path.length
decreasing_by
  have hpos : 0 < path.length := length_pos_iff.mpr ‹path ≠ []›
  rw [length_dropLast]
  omega

/-- `Framework::BaseName`. -/
def baseName (path : Bytes) : Option Bytes :=
  match lastSlash path with
  | none => some path
  | some pos =>
    if pos = 0 then some (path.drop 1)
    else if some pos = lastPos path then
      -- `npos + 1` is 0
      (stripSlashes path).map fun newPath =>
        newPath.drop (((lastSlash newPath).map (· + 1)).getD 0)
    else some (path.drop (pos + 1))

/-- `Framework::DirName`. -/
def dirName (path : Bytes) : Option Bytes :=
  match lastSlash path with
  | none => some [46]
  | some pos =>
    if pos = 0 then some [47]
    else if some pos = lastPos path then
      (stripSlashes path).map fun newPath => newPath.take ((lastSlash newPath).getD newPath.length)
    else some (path.take pos)

/-- The names in a path. The empty name and `.` lead nowhere. -/
def components (path : Bytes) : List Bytes :=
  (path.splitOn 47).filter fun name => name ≠ [] ∧ name ≠ [46]

/-- The path begins with a slash. -/
def isAbsolute (path : Bytes) : Bool := path.head? = some 47

variable {base path : Bytes}

theorem lastSlash_append (dir : Bytes) (hb : 47 ∉ base) :
    lastSlash (dir ++ 47 :: base) = some dir.length := by
  have hnone : base.reverse.findIdx? (· = 47) = none :=
    findIdx?_eq_none_iff.mpr fun b hmem => decide_eq_false fun h => hb (h ▸ mem_reverse.mp hmem)
  rw [lastSlash, reverse_append, reverse_cons, append_assoc, findIdx?_append, hnone]
  simp [findIdx?_cons]

theorem lastSlash_slash (path : Bytes) : lastSlash (path ++ [47]) = some path.length :=
  lastSlash_append path not_mem_nil

theorem lastPos_slash (path : Bytes) : lastPos (path ++ [47]) = some path.length := by
  simp [lastPos]

theorem stripSlashes_slash (path : Bytes) : stripSlashes (path ++ [47]) = stripSlashes path := by
  rw [stripSlashes, lastSlash_slash, lastPos_slash]
  simp

theorem stripSlashes_slashes (path : Bytes) (n : Nat) :
    stripSlashes (path ++ List.replicate n 47) = stripSlashes path := by
  induction n with
  | zero => rw [replicate_zero, append_nil]
  | succ n ih => rw [replicate_succ', ← append_assoc, stripSlashes_slash, ih]

/-- A character of the empty string is taken. -/
theorem stripSlashes_replicate (n : Nat) : stripSlashes (List.replicate n 47) = none := by
  have h := stripSlashes_slashes [] n
  rwa [stripSlashes.eq_1 [], if_pos (by rfl), nil_append] at h

theorem components_slashes (path : Bytes) (n : Nat) :
    components (path ++ List.replicate n 47) = components path := by
  induction n with
  | zero => rw [replicate_zero, append_nil]
  | succ n ih =>
    rw [replicate_succ', ← append_assoc, ← ih, components, splitOn_append_cons_self]
    simp [components]

theorem components_join (dir base : Bytes) :
    components (dir ++ 47 :: base) = components dir ++ components base := by
  rw [components, splitOn_append_cons_self, filter_append]
  rfl

theorem components_name (hslash : 47 ∉ base) : components base = [] ↔ base = [] ∨ base = [46] := by
  rw [components, splitOn_eq_singleton hslash]
  simp [filter_cons, or_iff_not_imp_left]

/-- Both parts are returned, they do not change with slashes at the end, and put together they lead
to the same place. -/
structure Parts (path : Bytes) : Prop where
  returned : baseName path ≠ none ∧ dirName path ≠ none
  slashes : (∃ c ∈ path, c ≠ 47) → ∀ m,
    baseName (path ++ List.replicate m 47) = baseName path ∧
    dirName (path ++ List.replicate m 47) = dirName path
  joined : ∀ base ∈ baseName path, ∀ dir ∈ dirName path,
    components (dir ++ 47 :: base) = components path ∧
    isAbsolute (dir ++ 47 :: base) = isAbsolute path

/-- A path is one without a slash at its end, and slashes. -/
theorem exists_stripped (path : Bytes) :
    ∃ stem n, path = stem ++ List.replicate n 47 ∧ stem.getLast? ≠ some 47 := by
  induction path using List.reverseRecOn with
  | nil => exact ⟨[], 0, rfl, by simp⟩
  | append_singleton path c ih =>
    by_cases hc : c = 47
    · obtain ⟨stem, n, rfl, hstem⟩ := ih
      exact ⟨stem, n + 1, by rw [hc, replicate_succ', append_assoc], hstem⟩
    · exact ⟨path ++ [c], 0, by simp, by simpa using hc⟩

theorem exists_last_slash {stem : Bytes} (h : 47 ∈ stem) :
    ∃ dir base, stem = dir ++ 47 :: base ∧ 47 ∉ base := by
  obtain ⟨base, dir, hstem, hbase⟩ := eq_append_cons_of_mem (mem_reverse.mpr h)
  refine ⟨dir.reverse, base.reverse, ?_, by simpa using hbase⟩
  rw [← reverse_reverse stem, hstem]
  simp

/-- With slashes at the end both parts are those around the last slash of the rest. -/
theorem parts_slashes {stem : Bytes} (h : lastSlash stem ≠ lastPos stem) (k : Nat) :
    baseName (stem ++ List.replicate (k + 1) 47) =
      some (stem.drop (((lastSlash stem).map (· + 1)).getD 0)) ∧
    dirName (stem ++ List.replicate (k + 1) 47) =
      some (stem.take ((lastSlash stem).getD stem.length)) := by
  have hne : stem ≠ [] := by
    rintro rfl
    exact h rfl
  have hstrip := stripSlashes_slashes stem (k + 1)
  rw [stripSlashes.eq_1 stem, if_neg h] at hstrip
  rw [baseName, dirName, hstrip, replicate_succ', ← append_assoc, lastSlash_slash, lastPos_slash]
  simp [hne]

theorem lastSlash_none {stem : Bytes} (h : 47 ∉ stem) : lastSlash stem = none := by
  rw [lastSlash, Option.map_eq_none_iff]
  exact findIdx?_eq_none_iff.mpr fun b hb => decide_eq_false fun e => h (e ▸ mem_reverse.mp hb)

theorem Parts.of_eq {path base dir : Bytes}
    (h : ∀ m, baseName (path ++ List.replicate m 47) = some base ∧
      dirName (path ++ List.replicate m 47) = some dir)
    (hjoin : components (dir ++ 47 :: base) = components path ∧
      isAbsolute (dir ++ 47 :: base) = isAbsolute path) : Parts path := by
  have hplain := h 0
  rw [replicate_zero, append_nil] at hplain
  refine ⟨by simp [hplain], fun _ m => by rw [(h m).1, (h m).2, hplain.1, hplain.2]; simp, ?_⟩
  rw [hplain.1, hplain.2]
  intro _ hbase _ hdir
  cases hbase
  cases hdir
  exact hjoin

/-- A path of slashes alone. -/
theorem slashes_parts (n : Nat) : Parts (List.replicate (n + 1) 47) ↔ n = 0 := by
  constructor
  · rintro ⟨⟨hbase, -⟩, -, -⟩
    cases n with
    | zero => rfl
    | succ n =>
      rw [baseName, stripSlashes_replicate, replicate_succ', lastSlash_slash,
        lastPos_slash] at hbase
      simp at hbase
  · rintro rfl
    refine ⟨by decide, fun h => ?_, by decide⟩
    simp at h

/-- A name without a directory. -/
theorem name_parts {name : Bytes} (hne : name ≠ []) (hslash : 47 ∉ name) (n : Nat) :
    Parts (name ++ List.replicate n 47) ↔ name = [46] := by
  have hlast := lastSlash_none hslash
  have hpos : lastSlash name ≠ lastPos name := by simp [hlast, lastPos, hne]
  have hmore := parts_slashes hpos
  simp only [hlast, Option.map_none, Option.getD_none, drop_zero, take_length] at hmore
  have hplain : baseName name = some name ∧ dirName name = some [46] := by
    simp [baseName, dirName, hlast]
  constructor
  · rintro ⟨-, hslashes, hjoined⟩
    cases n with
    | zero =>
      rw [replicate_zero, append_nil] at hslashes
      obtain ⟨c, hc⟩ := exists_mem_of_ne_nil _ hne
      have hdir := (hslashes ⟨c, hc, fun e => hslash (e ▸ hc)⟩ 1).2
      rw [(hmore 0).2, hplain.2] at hdir
      exact Option.some.inj hdir
    | succ n =>
      have hjoin := (hjoined name (hmore n).1 name (hmore n).2).1
      rw [components_join, components_slashes, append_right_eq_self,
        components_name hslash] at hjoin
      exact hjoin.resolve_left hne
  · rintro rfl
    have hparts : ∀ m, baseName ([46] ++ List.replicate m 47) = some [46] ∧
        dirName ([46] ++ List.replicate m 47) = some [46] := fun m => by
      cases m with
      | zero => exact hplain
      | succ m => exact hmore m
    refine @Parts.of_eq _ [46] [46] (fun m => ?_) ⟨?_, rfl⟩
    · rw [append_assoc, replicate_append_replicate]
      exact hparts (n + m)
    · rw [components_slashes]
      decide

/-- A name in a directory. -/
theorem nested_parts {dir base : Bytes} (hbase : base ≠ []) (hslash : 47 ∉ base) (n : Nat) :
    Parts (dir ++ 47 :: base ++ List.replicate n 47) ↔ dir ≠ [] ∨ 0 < n := by
  have hlast := lastSlash_append dir hslash
  have hpos : lastSlash (dir ++ 47 :: base) ≠ lastPos (dir ++ 47 :: base) := by
    simp [hlast, lastPos, hbase]
  have hmore := parts_slashes hpos
  simp only [hlast, Option.map_some, Option.getD_some, take_left', drop_append] at hmore
  simp only [drop_of_length_le (Nat.le_succ _), Nat.add_sub_cancel_left, drop_succ_cons,
    drop_zero, nil_append] at hmore
  constructor
  · rintro ⟨-, hslashes, -⟩
    by_contra! h
    obtain ⟨rfl, hn⟩ := h
    obtain rfl : n = 0 := by omega
    obtain ⟨c, hc⟩ := exists_mem_of_ne_nil _ hbase
    have hdir := (hslashes ⟨c, by simp [hc], fun e => hslash (e ▸ hc)⟩ 1).2
    rw [replicate_zero, append_nil, (hmore 0).2, dirName, hlast] at hdir
    cases hdir
  · intro h
    refine .of_eq (fun m => ?_) ⟨(components_slashes _ n).symm, ?_⟩
    · rw [append_assoc, replicate_append_replicate]
      cases hm : n + m with
      | zero =>
        have hdir : dir ≠ [] := h.resolve_right (by omega)
        rw [replicate_zero, append_nil, baseName, dirName, hlast]
        simp [hlast ▸ hpos, hdir]
      | succ k => exact hmore k
    · cases dir with
      | nil => rfl
      | cons b dir => rfl

/-- The paths whose parts are as they should be: a slash, the directory itself, and a name in a
directory, which must have a name or a slash behind it. -/
theorem parts_iff (path : Bytes) (hne : path ≠ []) : Parts path ↔
    path = [47] ∨ (∃ n, path = [46] ++ List.replicate n 47) ∨
    ∃ dir base n, path = dir ++ 47 :: base ++ List.replicate n 47 ∧ base ≠ [] ∧ 47 ∉ base ∧
      (dir ≠ [] ∨ 0 < n) := by
  constructor
  · intro h
    obtain ⟨stem, n, rfl, hstem⟩ := exists_stripped path
    by_cases hslash : 47 ∈ stem
    · obtain ⟨dir, base, rfl, hbase⟩ := exists_last_slash hslash
      have hbase' : base ≠ [] := by
        rintro rfl
        simp at hstem
      exact .inr (.inr ⟨dir, base, n, rfl, hbase', hbase, (nested_parts hbase' hbase n).mp h⟩)
    · rcases eq_or_ne stem [] with rfl | hstem'
      · cases n with
        | zero => exact absurd rfl hne
        | succ n =>
          obtain rfl := (slashes_parts n).mp h
          exact .inl rfl
      · obtain rfl := (name_parts hstem' hslash n).mp h
        exact .inr (.inl ⟨n, rfl⟩)
  · rintro (rfl | ⟨n, rfl⟩ | ⟨dir, base, n, rfl, hbase, hslash, h⟩)
    · exact (slashes_parts 0).mpr rfl
    · exact (name_parts (by decide) (by decide) n).mpr rfl
    · exact (nested_parts hbase hslash n).mpr h

/-- `a/b//` has the parts `a` and `b`. -/
theorem two_parts : baseName [97, 47, 98, 47, 47] ≠ none ∧
    (∀ m, dirName ([97, 47, 98, 47, 47] ++ List.replicate m 47) = dirName [97, 47, 98, 47, 47]) :=
  have h := (parts_iff [97, 47, 98, 47, 47] (by decide)).mpr
    (.inr (.inr ⟨[97], [98], 2, rfl, by decide, by decide, .inr (by decide)⟩))
  ⟨h.returned.1, fun m => (h.slashes (by decide) m).2⟩

/-- Of `//` more characters are taken than it has, and a slash at the end of `a` changes the
directory that it is in. -/
theorem no_parts : baseName [47, 47] = none ∧ dirName [97] = some [46] ∧
    dirName [97, 47] = some [97] := by
  refine ⟨?_, rfl, (parts_slashes (by decide) 0 : _ ∧ dirName ([97] ++ [47]) = _).2⟩
  rw [baseName, show ([47, 47] : Bytes) = List.replicate 2 47 from rfl, stripSlashes_replicate]
  rfl

end Pterodon.Framework
