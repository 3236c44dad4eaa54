import Mathlib.Data.List.TakeWhile
import Mathlib.Data.Prod.Basic
import Pterodon.Lib.CString

/-!
# Properties in a file

`PropertyManager::FileSetProperty` renames the file away and copies it back line by line
through an `std::ofstream`. A line of the property is replaced on the way. If there was
none, the line is added by `AppendStringToFile`, which opens the file a second time and
closes it again, while the first stream is still open. What the first stream has not
written out yet by then goes to its own offset when it is closed, and that is where the
new line was put.

So the added line survives only if there was nothing left to write out. In every case
the other properties keep their values.

A call that fails after the renaming does not rename the file back.
-/

namespace Pterodon.Framework

open Lib List Function

variable {line : Bytes}

abbrev Path : Type := Bytes

/-- What the kernel answers in one call of `FileSetProperty`, and how far the stream is. -/
structure SetCalls where
  /-- The spare name can be unlinked, or does not exist. -/
  unlinks : Bool
  renames : Bool
  oldOpens : Bool
  newOpens : Bool
  appendOpens : Bool
  /-- The renamed file can be unlinked at the end. -/
  cleans : Bool
  /-- How many bytes the stream has written out when the loop is over. -/
  flushed : Nat
deriving DecidableEq, Repr

/-- The lines that `std::getline` yields. -/
def getlines : Bytes → List Bytes
  | [] => []
  | b :: rest =>
    if b = 10 then [] :: getlines rest
    else
      match getlines rest with
      | [] => [[b]]
      | l :: ls => (b :: l) :: ls

def startsWith (start search : Bytes) : Bool := search.isPrefixOf start

def getFirstEntry (files : Path → Option Bytes) (path : Path) : Path :=
  (((List.range 1000).map fun i => path ++ natBytes i).find?
    fun ret => (files ret).isNone).getD path

/-- `data` written at `offset`. -/
def writeAt (content : Bytes) (offset : Nat) (data : Bytes) : Bytes :=
  content.take offset ++ (data ++ content.drop (offset + data.length))

/-- `prop` and `=`. -/
def whatWeWant (prop : Bytes) : Bytes := prop ++ [61]

/-- The line of a property, without the newline. -/
def wantedLine (prop value : Bytes) : Bytes := whatWeWant prop ++ value

/-- What the loop writes for a line, without the newline. -/
def setLine (prop value line : Bytes) : Bytes :=
  if startsWith line (whatWeWant prop) then wantedLine prop value else line

/-- What the loop hands to the stream. -/
def copied (prop value old : Bytes) : Bytes :=
  (getlines old).flatMap fun line => setLine prop value line ++ [10]

/-- The file when the stream is closed, if `AppendStringToFile` was called before. -/
def appendedBehind (calls : SetCalls) (out line : Bytes) : Bytes :=
  let flushed := min calls.flushed out.length
  let file := out.take flushed
  writeAt (if calls.appendOpens then file ++ line else file) flushed (out.drop flushed)

def newContent (calls : SetCalls) (prop value old : Bytes) : Bytes :=
  if (getlines old).any fun line => startsWith line (whatWeWant prop) then copied prop value old
  else appendedBehind calls (copied prop value old) (wantedLine prop value ++ [10])

def fileSetProperty (calls : SetCalls) (files : Path → Option Bytes) (path : Path)
    (prop value : Bytes) : Bool × (Path → Option Bytes) :=
  if (files path).isNone then (false, files)
  else
    let renamed := getFirstEntry files path
    if !calls.unlinks then (false, files)
    else
      let files := update files renamed none
      if !calls.renames then (false, files)
      else
        -- a file that is not there is no error for `rename_file`
        let files :=
          match files path with
          | none => files
          | some content => update (update files path none) renamed (some content)
        let old := if calls.oldOpens then files renamed else none
        let files := if calls.newOpens then update files path (some []) else files
        match old with
        | none => (false, files)
        | some old =>
          if !calls.newOpens then (false, files)
          else
            let files := if calls.cleans then update files renamed none else files
            (true, update files path (some (newContent calls prop value old)))

/-- The test of `FileGetProperty` on a line. The first character of an empty string is 0. -/
def isLineOf (prop line : Bytes) : Bool :=
  decide (prop.headD 0 = line.headD 0) && line.contains 61
    && decide (line.takeWhile (· ≠ 61) = prop)

/-- What is behind the first `=` of a line. -/
def valueOf (line : Bytes) : Bytes := (line.dropWhile (· ≠ 61)).tail

/-- `PropertyManager::FileGetProperty`: the value it finds, `none` if it returns false. -/
def fileGetProperty (files : Path → Option Bytes) (path : Path) (prop : Bytes) : Option Bytes :=
  match files path with
  | none => none
  | some content => ((getlines content).find? (isLineOf prop)).map valueOf

/-! ## Lines -/

theorem getlines_cons_of_ne {b : UInt8} (hb : b ≠ 10) {rest : Bytes} {l : Bytes}
    {ls : List Bytes} (h : getlines rest = l :: ls) :
    getlines (b :: rest) = (b :: l) :: ls := by
  rw [getlines, if_neg hb, h]

theorem getlines_line (h : 10 ∉ line) (rest : Bytes) :
    getlines (line ++ 10 :: rest) = line :: getlines rest := by
  induction line with
  | nil => rw [nil_append, getlines, if_pos rfl]
  | cons b line ih =>
    rw [mem_cons, not_or] at h
    exact getlines_cons_of_ne (Ne.symm h.1) (ih h.2)

theorem getlines_lines {lines : List Bytes} (h : ∀ l ∈ lines, 10 ∉ l) (rest : Bytes) :
    getlines (lines.flatMap (· ++ [10]) ++ rest) = lines ++ getlines rest := by
  induction lines with
  | nil => rfl
  | cons l lines ih =>
    rw [flatMap_cons, append_assoc, append_assoc, singleton_append,
      getlines_line (h l mem_cons_self), ih (forall_mem_cons.mp h).2, cons_append]

theorem not_mem_of_mem_getlines : ∀ {content line : Bytes}, line ∈ getlines content → 10 ∉ line
  | [], line, h => absurd h not_mem_nil
  | b :: rest, line, h => by
    rw [getlines] at h
    split at h
    · rcases mem_cons.mp h with rfl | h
      · exact not_mem_nil
      · exact not_mem_of_mem_getlines h
    · rename_i hb
      split at h
      · rw [mem_singleton.mp h, mem_singleton]
        exact Ne.symm hb
      · rename_i l ls hrest
        rcases mem_cons.mp h with rfl | h
        · rw [mem_cons, not_or]
          exact ⟨Ne.symm hb, not_mem_of_mem_getlines (hrest ▸ mem_cons_self)⟩
        · exact not_mem_of_mem_getlines (hrest ▸ mem_cons_of_mem _ h)

/-! ## The two tests

`FileSetProperty` looks for `prop=` at the start of a line, `FileGetProperty` compares
what is in front of the first `=`. They agree on names that are not empty and have no `=`. -/

section Names

variable {prop : Bytes}

theorem before_equals (hprop : 61 ∉ prop) : ∀ b ∈ prop, decide (b ≠ 61) = true :=
  fun _ hb => decide_eq_true fun h => hprop (h ▸ hb)

theorem takeWhile_wanted (hprop : 61 ∉ prop) (value : Bytes) :
    (wantedLine prop value).takeWhile (· ≠ 61) = prop := by
  rw [wantedLine, whatWeWant, append_assoc, takeWhile_append_of_pos (before_equals hprop)]
  simp

theorem valueOf_wanted (hprop : 61 ∉ prop) (value : Bytes) :
    valueOf (wantedLine prop value) = value := by
  rw [valueOf, wantedLine, whatWeWant, append_assoc, dropWhile_append_of_pos (before_equals hprop)]
  simp

theorem wantedLine_of_contains (h : line.contains 61 = true) :
    line = wantedLine (line.takeWhile (· ≠ 61)) (valueOf line) := by
  have hsplit := takeWhile_append_dropWhile (p := fun b : UInt8 => decide (b ≠ 61)) (l := line)
  have hne : line.dropWhile (fun b : UInt8 => decide (b ≠ 61)) ≠ [] := by
    intro hnil
    have := dropWhile_eq_nil_iff.mp hnil 61 (by simpa using h)
    simp at this
  have hhead := head_dropWhile_not (fun b : UInt8 => decide (b ≠ 61)) hne
  have heq : (line.dropWhile (fun b : UInt8 => decide (b ≠ 61))).head hne = 61 := by
    simpa using hhead
  have hcons := cons_head_tail hne
  rw [heq] at hcons
  rw [wantedLine, whatWeWant, valueOf, append_assoc, singleton_append, hcons]
  exact hsplit.symm

theorem isLineOf_iff :
    isLineOf prop line = true ↔ prop ≠ [] ∧ 61 ∉ prop ∧ ∃ value, line = wantedLine prop value := by
  unfold isLineOf
  rw [Bool.and_eq_true, Bool.and_eq_true, decide_eq_true_eq, decide_eq_true_eq]
  constructor
  · rintro ⟨⟨hfirst, hcontains⟩, hname⟩
    have hline := wantedLine_of_contains hcontains
    rw [hname] at hline
    refine ⟨?_, ?_, valueOf line, hline⟩
    · rintro rfl
      rw [hline] at hfirst
      have hfirst : (0 : UInt8) = 61 := hfirst
      exact absurd hfirst (by decide)
    · intro hmem
      rw [← hname] at hmem
      simpa using mem_takeWhile_imp hmem
  · rintro ⟨hne, hprop, value, rfl⟩
    obtain ⟨b, bs, rfl⟩ := exists_cons_of_ne_nil hne
    exact ⟨⟨rfl, by simp [wantedLine, whatWeWant]⟩, takeWhile_wanted hprop value⟩

theorem startsWith_iff :
    startsWith line (whatWeWant prop) = true ↔ ∃ value, line = wantedLine prop value := by
  unfold startsWith
  rw [ isPrefixOf_iff_prefix]
  exact ⟨fun ⟨value, h⟩ => ⟨value, h.symm⟩, fun ⟨value, h⟩ => ⟨value, h.symm⟩⟩

theorem wantedLine_name {other value value' : Bytes} (hprop : 61 ∉ prop) (hother : 61 ∉ other)
    (h : wantedLine prop value = wantedLine other value') : prop = other := by
  rw [← takeWhile_wanted hprop value, h, takeWhile_wanted hother]

end Names

/-! ## What the new file says -/

section Set

variable {prop value old : Bytes}

theorem not_mem_wantedLine (hprop : 10 ∉ prop) (hvalue : 10 ∉ value) :
    10 ∉ wantedLine prop value := by
  simp only [wantedLine, whatWeWant, mem_append]
  rintro ((h | h) | h)
  · exact hprop h
  · exact absurd h (by decide)
  · exact hvalue h

theorem not_mem_setLine (hprop : 10 ∉ prop) (hvalue : 10 ∉ value) (hline : 10 ∉ line) :
    10 ∉ setLine prop value line := by
  unfold setLine
  split
  · exact not_mem_wantedLine hprop hvalue
  · exact hline

theorem getlines_copied (hprop : 10 ∉ prop) (hvalue : 10 ∉ value) (rest : Bytes) :
    getlines (copied prop value old ++ rest)
      = (getlines old).map (setLine prop value) ++ getlines rest := by
  have hflat : copied prop value old
      = ((getlines old).map (setLine prop value)).flatMap (· ++ [10]) := by
    rw [copied, flatMap_map]
  rw [hflat, getlines_lines]
  intro l hl
  obtain ⟨line, hline, rfl⟩ := mem_map.mp hl
  exact not_mem_setLine hprop hvalue (not_mem_of_mem_getlines hline)

/-- The new file is the copy, and behind it what is left of the line that was appended. -/
theorem newContent_eq (calls : SetCalls) (prop value old : Bytes) :
    ∃ rest, newContent calls prop value old = copied prop value old ++ rest ∧
    rest = if (getlines old).any fun line => startsWith line (whatWeWant prop) then []
      else if calls.appendOpens then (wantedLine prop value ++ [10]).drop
        ((copied prop value old).length - calls.flushed)
      else [] := by
  unfold newContent
  split
  · exact ⟨[], by rw [append_nil], rfl⟩
  · refine ⟨_, ?_, rfl⟩
    unfold appendedBehind writeAt
    generalize copied prop value old = out
    have hlen : (out.take (min calls.flushed out.length)).length =
        min calls.flushed out.length := by
      rw [length_take]
      omega
    have hall : out.take (min calls.flushed out.length) ++ out.drop (min calls.flushed out.length)
        = out := take_append_drop _ _
    have hrest : (out.drop (min calls.flushed out.length)).length = out.length - calls.flushed := by
      rw [length_drop]
      omega
    dsimp only
    split
    · rw [take_append_of_le_length (by omega), take_take, Nat.min_self,
        ← append_assoc, hall, drop_append, drop_of_length_le (by omega), hlen, hrest,
        nil_append, Nat.add_sub_cancel_left]
    · rw [take_take, Nat.min_self, ← append_assoc, hall, drop_of_length_le (by omega)]

theorem find_setLine_other {other : Bytes} (hprop : 61 ∉ prop) (hne : other ≠ prop) :
    ∀ lines : List Bytes,
      (lines.map (setLine prop value)).find? (isLineOf other) = lines.find? (isLineOf other)
  | [] => rfl
  | line :: lines => by
    -- A line of `prop` is no line of `other`, before and after.
    have hnot : ∀ w, isLineOf other (wantedLine prop w) = false := by
      intro w
      refine Bool.eq_false_iff.mpr fun h => ?_
      obtain ⟨_, hother, w', hw'⟩ := isLineOf_iff.mp h
      exact hne (wantedLine_name hprop hother hw').symm
    rw [map_cons, find?_cons, find?_cons, find_setLine_other hprop hne lines]
    by_cases hline : startsWith line (whatWeWant prop) = true
    · obtain ⟨w, rfl⟩ := startsWith_iff.mp hline
      rw [setLine, if_pos hline, hnot, hnot]
    · rw [setLine, if_neg hline]

theorem find_setLine_self (hprop : 61 ∉ prop) (hne : prop ≠ []) :
    ∀ lines : List Bytes, (lines.map (setLine prop value)).find? (isLineOf prop)
      = if lines.any fun line => startsWith line (whatWeWant prop) then some (wantedLine prop value)
        else none
  | [] => rfl
  | line :: lines => by
    have hself : isLineOf prop (wantedLine prop value) = true :=
      isLineOf_iff.mpr ⟨hne, hprop, value, rfl⟩
    rw [map_cons, find?_cons, any_cons]
    by_cases hline : startsWith line (whatWeWant prop) = true
    · rw [setLine, if_pos hline, hself, hline, Bool.true_or, if_pos rfl]
    · have hnot : isLineOf prop line = false := by
        refine Bool.eq_false_iff.mpr fun h => hline ?_
        obtain ⟨_, _, w, hw⟩ := isLineOf_iff.mp h
        exact startsWith_iff.mpr ⟨w, hw⟩
      rw [setLine, if_neg hline, hnot, Bool.eq_false_iff.mpr hline]
      exact find_setLine_self hprop hne lines

/-- The value is found in what is left of the appended line only if all of it is left. -/
theorem find_leftOver (hname : 61 ∉ prop ∧ 10 ∉ prop) (hvalue : 10 ∉ value) (hne : prop ≠ [])
    (n : Nat) :
    ((getlines ((wantedLine prop value ++ [10]).drop n)).find? (isLineOf prop)).map valueOf
      = some value ↔ n = 0 := by
  have hline := not_mem_wantedLine hname.2 hvalue
  constructor
  · intro hfound
    obtain ⟨found, hfind, hval⟩ := Option.map_eq_some_iff.mp hfound
    obtain ⟨_, _, w, hw⟩ := isLineOf_iff.mp (find?_some hfind)
    rw [hw, valueOf_wanted hname.1] at hval
    have hmem := mem_of_find?_eq_some hfind
    rw [hw, hval] at hmem
    rcases Nat.lt_or_ge (wantedLine prop value).length n with hlong | hshort
    · rw [drop_of_length_le (by rw [length_append, length_singleton]; omega)] at hmem
      cases hmem
    · rw [drop_append_of_le_length hshort,
        getlines_line (fun h => hline (mem_of_mem_drop h))] at hmem
      -- A line is no proper end of itself.
      have heq : wantedLine prop value = (wantedLine prop value).drop n := by
        rcases mem_cons.mp hmem with h | h
        · exact h
        · cases h
      have hlen := congrArg List.length heq
      rw [length_drop] at hlen
      omega
  · rintro rfl
    have hself : isLineOf prop (wantedLine prop value) = true :=
      isLineOf_iff.mpr ⟨hne, hname.1, value, rfl⟩
    rw [drop_zero, getlines_line hline, find?_cons, hself]
    exact congrArg some (valueOf_wanted hname.1 value)

end Set

theorem fileSetProperty_true {calls : SetCalls} {files files' : Path → Option Bytes}
    {path : Path} {prop value : Bytes}
    (h : fileSetProperty calls files path prop value = (true, files')) :
    ∃ old, files path = some old ∧ files' path = some (newContent calls prop value old) := by
  unfold fileSetProperty at h
  split at h
  · cases h
  rename_i hsome
  obtain ⟨old, hold⟩ := Option.ne_none_iff_exists'.mp (fun h => hsome
    (Option.isNone_iff_eq_none.mpr h))
  dsimp only at h
  split at h
  · cases h
  split at h
  · cases h
  split at h
  · cases h
  rename_i content hcontent
  split at h
  · cases h
  obtain ⟨-, rfl⟩ := Prod.mk.inj h
  refine ⟨old, hold, ?_⟩
  rw [update_self]
  split at hcontent
  · by_cases hp : path = getFirstEntry files path
    · -- All thousand spare names are taken, and the file itself was deleted.
      rw [← hp] at hcontent
      exact absurd hcontent (by simp)
    · rw [update_of_ne hp, hold] at hcontent
      dsimp only at hcontent
      rw [update_self] at hcontent
      rw [Option.some.inj hcontent]
  · cases hcontent

/--
If `FileSetProperty` returns true, `FileGetProperty` then finds the value exactly if the name is
not empty and the property had a line, or the line could be appended and the stream had nothing
left to write out. All other properties keep their values.
-/
theorem file_set_property_law (calls : SetCalls) (files files' : Path → Option Bytes)
    (path : Path) (prop value old : Bytes) (hname : 61 ∉ prop ∧ 10 ∉ prop)
    (hvalue : 10 ∉ value) (hold : files path = some old)
    (h : fileSetProperty calls files path prop value = (true, files')) :
    (fileGetProperty files' path prop = some value ↔
      prop ≠ [] ∧ ((∃ line ∈ getlines old, startsWith line (whatWeWant prop) = true) ∨
        calls.appendOpens = true ∧ (copied prop value old).length ≤ calls.flushed)) ∧
    ∀ other w, other ≠ prop → fileGetProperty files path other = some w →
      fileGetProperty files' path other = some w := by
  obtain ⟨old', hold', hnew⟩ := fileSetProperty_true h
  obtain rfl : old' = old := Option.some.inj (hold'.symm.trans hold)
  obtain ⟨rest, hcontent, hrest⟩ := newContent_eq calls prop value old'
  have hget : ∀ other, fileGetProperty files' path other
      = (((getlines old').map (setLine prop value) ++ getlines rest).find? (isLineOf other)).map
          valueOf := by
    intro other
    rw [fileGetProperty, hnew, hcontent]
    dsimp only
    rw [getlines_copied hname.2 hvalue]
  refine ⟨?_, fun other w hne hw => ?_⟩
  · rw [hget, find?_append]
    by_cases hnil : prop = []
    · -- No line is a line of the empty name.
      have hnot : ∀ lines : List Bytes, lines.find? (isLineOf prop) = none := by
        intro lines
        rw [find?_eq_none]
        intro line _ hline
        exact (isLineOf_iff.mp hline).1 hnil
      rw [hnot, hnot]
      exact ⟨nofun, fun h => absurd hnil h.1⟩
    · rw [find_setLine_self hname.1 hnil]
      by_cases hany : (getlines old').any (fun line => startsWith line (whatWeWant prop)) = true
      · rw [if_pos hany, Option.some_or, Option.map_some, valueOf_wanted hname.1]
        exact ⟨fun _ => ⟨hnil, .inl (any_eq_true.mp hany)⟩, fun _ => rfl⟩
      · have hno : ¬ ∃ line ∈ getlines old', startsWith line (whatWeWant prop) = true :=
          fun h => hany (any_eq_true.mpr h)
        rw [if_neg hany] at hrest
        rw [if_neg hany, Option.none_or, hrest, and_iff_right hnil, or_iff_right hno]
        by_cases hopens : calls.appendOpens = true
        · rw [if_pos hopens, find_leftOver hname hvalue hnil, Nat.sub_eq_zero_iff_le,
            and_iff_right hopens]
        · rw [if_neg hopens]
          exact iff_of_false (by simp [getlines]) fun hdoes => hopens hdoes.1
  · rw [fileGetProperty, hold] at hw
    obtain ⟨line, hfind, hval⟩ := Option.map_eq_some_iff.mp hw
    rw [hget, find?_append, find_setLine_other hname.1 hne, hfind, Option.some_or,
      Option.map_some, hval]

/-- Where `FileSetProperty` returns false, the file is as before exactly if the failure was that of
the `unlink`, or that of the `rename` and the spare name was not the file's own. A file that was
truncated is as before if it was empty. -/
theorem file_set_property_failed_iff (calls : SetCalls) (files files' : Path → Option Bytes)
    (path : Path) (prop value old : Bytes) (hold : files path = some old)
    (h : fileSetProperty calls files path prop value = (false, files')) :
    files' path = some old ↔ calls.unlinks = false ∨
      calls.renames = false ∧ getFirstEntry files path ≠ path ∨
      calls.renames = true ∧ calls.newOpens = true ∧ old = [] := by
  unfold fileSetProperty at h
  rw [hold, Option.isNone_some] at h
  cases hu : calls.unlinks with
  | false =>
    rw [hu] at h
    cases h
    simp [hold]
  | true =>
    rw [hu] at h
    cases hr : calls.renames with
    | false =>
      rw [hr] at h
      cases h
      by_cases hp : path = getFirstEntry files path
      · simp [← hp]
      · simp [hp, hold, Ne.symm hp]
    | true =>
      rw [hr] at h
      simp only [Bool.not_true, Bool.false_eq_true, if_false] at h
      -- whether it was deleted or renamed, the file is gone
      have hgone : (match update files (getFirstEntry files path) none path with
          | none => update files (getFirstEntry files path) none
          | some content => update (update (update files
              (getFirstEntry files path) none) path none) (getFirstEntry files path)
              (some content)) path = none := by
        by_cases hp : path = getFirstEntry files path
        · simp [← hp]
        · simp [hp, hold]
      cases hn : calls.newOpens with
      | false =>
        rw [hn] at h
        split at h
        · cases h
          simp [hgone]
        · cases h
          simp [hgone]
      | true =>
        rw [hn] at h
        split at h
        · cases h
          simp [eq_comm]
        · cases h

/-! ## A file with one property -/

/-- A file `f` with the line `a=1`. -/
def BuildProp.files : Path → Option Bytes := fun path =>
  if path = [102] then some [97, 61, 49, 10] else none

/-- Every call succeeds, and the stream has a buffer. -/
def BuildProp.smooth : SetCalls := ⟨true, true, true, true, true, true, 0⟩

open BuildProp

/-- It cannot be renamed, and stays. -/
theorem file_not_renamed_kept :
    (fileSetProperty { smooth with renames := false } files [102] [97] [50]).2
      [102] = some [97, 61, 49, 10] := by
  have hspare : getFirstEntry files [102] ≠ [102] := by decide +kernel
  have hfalse : (fileSetProperty { smooth with renames := false } files [102]
      [97] [50]).1 = false := by decide +kernel
  exact (file_set_property_failed_iff _ _ _ [102] [97] [50] [97, 61, 49, 10] rfl
    (Prod.fst_eq_iff.mp hfalse)).mpr (.inr (.inl ⟨rfl, hspare⟩))

/-- It is renamed, and the new file cannot be opened: there is no file of that name any more. -/
theorem file_not_opened_lost :
    (fileSetProperty { smooth with newOpens := false } files [102] [97] [50]).1 = false ∧
    (fileSetProperty { smooth with newOpens := false } files [102] [97] [50]).2
      [102] = none := by
  decide +kernel

/-- Its property is set to `2`. -/
theorem present_property_set :
    (fileSetProperty smooth files [102] [97] [50]).1 = true ∧
    fileGetProperty (fileSetProperty smooth files [102] [97] [50]).2 [102] [97] = some [50] := by
  have h : (fileSetProperty smooth files [102] [97] [50]).1 = true := by
    decide +kernel
  exact ⟨h, (file_set_property_law smooth files _ [102] [97] [50]
    [97, 61, 49, 10] (by decide) (by decide) rfl (Prod.fst_eq_iff.mp h)).1.mpr
      ⟨by decide, .inl ⟨[97, 61, 49], by decide, by decide⟩⟩⟩

/-- A second property `b` is set to `2`: the call returns true, and there is no property `b`. -/
theorem absent_property_lost :
    (fileSetProperty smooth files [102] [98] [50]).1 = true ∧
    fileGetProperty (fileSetProperty smooth files [102] [98] [50]).2 [102] [98] = none := by
  decide +kernel

end Pterodon.Framework
