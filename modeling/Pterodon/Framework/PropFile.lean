import Pterodon.Framework.DataBase
import Pterodon.Framework.PropertyFile

/-!
# A data base as a property file

`DataBase::SaveToPropFile` writes a line `name=value` for each variable, in the order of the
map's iterator, and `DataBase::LoadFromPropFile` cuts each line at its first `=`. It skips the
lines that begin with `#`, a blank or `=`, and those without a `=`; a line that a variable was
written to is none of them if its name is fit for it.
-/

namespace Pterodon.Framework.DataBase

open Lib List

/-- The loop of `DataBase::SaveToPropFile`. A line that is too long for a string is an exception:
there is no result. -/
def saveLines : List (Str × Str) → Out → Option (Bool × Out)
  | [], out => some (true, out)
  | e :: es, out =>
    if (wantedLine e.1.val e.2.val ++ [10]).length + 1 < 256 ^ 8 then
      match out.write (wantedLine e.1.val e.2.val ++ [10]) with
      | none => none
      | some (none, out) => some (false, out)
      -- a short count is no error
      | some (some _, out) => saveLines es out
    else none

/-- `DataBase::SaveToPropFile`: what it returns, and the file, if there is one afterwards. -/
def saveToPropFile (db : DataBase) (opens : Bool) (writes : List Write) :
    Option (Bool × Option Bytes) :=
  if opens then
    (saveLines db.data ⟨[], writes⟩).map fun (ok, out) =>
      if ok then (true, some out.file) else (false, none)
  else some (false, none)

/-- The loop of `DataBase::LoadFromPropFile`. -/
def loadLines : List Bytes → DataBase → DataBase
  | [], db => db
  | line :: lines, db =>
    if h : line.length + 1 < 256 ^ 8 then
      if line.headD 0 = 35 ∨ line.headD 0 = 32 ∨ line.headD 0 = 61 then loadLines lines db
      else if line.contains 61 then
        have hname : (line.takeWhile (· ≠ 61)).length + 1 < 256 ^ 8 :=
          Nat.lt_of_le_of_lt (Nat.succ_le_succ ( takeWhile_prefix _).length_le) h
        have hvalue : (valueOf line).length + 1 < 256 ^ 8 :=
          Nat.lt_of_le_of_lt (Nat.succ_le_succ
            ((tail_suffix _).trans (dropWhile_suffix _)).length_le) h
        loadLines lines (db.setVar ⟨line.takeWhile (· ≠ 61), hname⟩ ⟨valueOf line, hvalue⟩)
      else loadLines lines db
    -- `getline` fails on a line that is too long for a string
    else db

/-- `DataBase::LoadFromPropFile` of a file that opens. -/
def loadFromPropFile (file : Bytes) (db : DataBase) : DataBase := loadLines (getlines file) db

/-- A name that its line can be told by. -/
structure PropName (name : Bytes) : Prop where
  nonempty : name ≠ []
  noEquals : 61 ∉ name
  noNewline : 10 ∉ name
  noComment : name.headD 0 ≠ 35
  noBlank : name.headD 0 ≠ 32

theorem saveLines_complete {es : List (Str × Str)} {out out' : Out}
    (hw : ∀ w ∈ out.writes, w = .complete) (h : saveLines es out = some (true, out')) :
    out'.file = out.file ++ (es.map fun e => wantedLine e.1.val e.2.val).flatMap (· ++ [10]) ∧
      ∀ e ∈ es, (wantedLine e.1.val e.2.val).length + 1 < 256 ^ 8 := by
  induction es generalizing out with
  | nil =>
    cases h
    exact ⟨(append_nil _).symm, nofun⟩
  | cons e es ih =>
    obtain ⟨file, writes⟩ := out
    rw [saveLines] at h
    split at h
    · next hfits =>
      cases writes with
      | nil => cases h
      | cons w ws =>
        obtain ⟨rfl, hws⟩ := forall_mem_cons.mp hw
        obtain ⟨hfile, hall⟩ := ih hws h
        refine ⟨by rw [hfile, map_cons, flatMap_cons, append_assoc], forall_mem_cons.mpr ⟨?_, hall⟩⟩
        rw [length_append] at hfits
        omega
    · cases h

theorem loadLines_wanted {es : List (Str × Str)} (hname : ∀ e ∈ es, PropName e.1.val)
    (hfits : ∀ e ∈ es, (wantedLine e.1.val e.2.val).length + 1 < 256 ^ 8) (db : DataBase) :
    loadLines (es.map fun e => wantedLine e.1.val e.2.val) db =
      es.foldl (fun db e => db.setVar e.1 e.2) db := by
  induction es generalizing db with
  | nil => rfl
  | cons e es ih =>
    obtain ⟨hn, hnames⟩ := forall_mem_cons.mp hname
    obtain ⟨hf, hfits⟩ := forall_mem_cons.mp hfits
    have hhead : (wantedLine e.1.val e.2.val).headD 0 = e.1.val.headD 0 := by
      obtain ⟨b, bs, hb⟩ := exists_cons_of_ne_nil hn.nonempty
      rw [hb]
      rfl
    have hequals : e.1.val.headD 0 ≠ 61 := by
      obtain ⟨b, bs, hb⟩ := exists_cons_of_ne_nil hn.nonempty
      intro h
      exact hn.noEquals (h ▸ hb ▸ mem_cons_self)
    have hcontains : (wantedLine e.1.val e.2.val).contains 61 = true := by
      simp [wantedLine, whatWeWant]
    rw [map_cons, loadLines, dif_pos hf, hhead,
      if_neg (not_or.mpr ⟨hn.noComment, not_or.mpr ⟨hn.noBlank, hequals⟩⟩), if_pos hcontains,
      ih hnames hfits, foldl_cons]
    congr 2
    · exact Subtype.ext (takeWhile_wanted hn.noEquals _)
    · exact Subtype.ext (valueOf_wanted hn.noEquals _)

/-- What `SaveToPropFile` wrote, `LoadFromPropFile` reads back, in whatever order the map was
iterated. -/
theorem loadFromPropFile_saved (db : DataBase) (opens : Bool) (writes : List Write)
    (file : Bytes) (hnames : ∀ e ∈ db.data, PropName e.1.val)
    (hvalues : ∀ e ∈ db.data, 10 ∉ e.2.val) (hw : ∀ w ∈ writes, w = .complete)
    (h : db.saveToPropFile opens writes = some (true, some file)) :
    (loadFromPropFile file empty).equal db = true ∧
      ∀ name, (loadFromPropFile file empty).find name = db.find name := by
  have hload : loadFromPropFile file empty = db := by
    unfold saveToPropFile at h
    split at h
    · obtain ⟨⟨ok, out⟩, hsave, hout⟩ := Option.map_eq_some_iff.mp h
      cases ok with
      | false => cases hout
      | true =>
        obtain ⟨hfile, hfits⟩ := saveLines_complete hw hsave
        have hlines := getlines_lines (forall_mem_map.mpr fun e (he : e ∈ db.data) =>
          not_mem_wantedLine (hnames e he).noNewline (hvalues e he)) []
        rw [append_nil, getlines, append_nil] at hlines
        cases hout
        rw [loadFromPropFile, hfile, nil_append, hlines, loadLines_wanted hnames hfits]
        exact DataBase.ext (foldl_setVar_data db.data empty db.nodup)
    · cases h
  rw [hload]
  exact ⟨equal_self db, fun _ => rfl⟩

/-- `a` is `=#`, `b` is empty and `c` is `#`. -/
def Sample.marks : DataBase where
  data := [(one 97, ⟨[61, 35], by decide⟩), (one 98, nothing), (one 99, one 35)]
  nodup := by decide

theorem marks_reloaded :
    Sample.marks.saveToPropFile true (List.replicate 3 .complete) =
      some (true, some [97, 61, 61, 35, 10, 98, 61, 10, 99, 61, 35, 10]) ∧
    (loadFromPropFile [97, 61, 61, 35, 10, 98, 61, 10, 99, 61, 35, 10] empty).equal
      Sample.marks = true := by
  have hsaved : Sample.marks.saveToPropFile true (List.replicate 3 .complete) =
      some (true, some [97, 61, 61, 35, 10, 98, 61, 10, 99, 61, 35, 10]) := by decide +kernel
  have hplain : ∀ e ∈ Sample.marks.data, e.1.val ≠ [] ∧ 61 ∉ e.1.val ∧ 10 ∉ e.1.val ∧
      e.1.val.headD 0 ≠ 35 ∧ e.1.val.headD 0 ≠ 32 := by decide
  refine ⟨hsaved, (loadFromPropFile_saved Sample.marks true _ _ ?_ (by decide) ?_ hsaved).1⟩
  · intro e he
    obtain ⟨hne, hequals, hnewline, hcomment, hblank⟩ := hplain e he
    exact ⟨hne, hequals, hnewline, hcomment, hblank⟩
  · exact fun w hw => eq_of_mem_replicate hw

end Pterodon.Framework.DataBase
