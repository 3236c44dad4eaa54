import Pterodon.Framework.DataBase

/-!
# Loading a data base file

`DataBase::Unserialize` sets the variables of the file one after the other with `SetVar`, so that
a variable has the value that the file gives it last, whatever it was before.

`DataBase::ReadValue` believes the length in front of a string: it makes a string of that length
and accepts whatever `read` puts in it. A file whose lengths stay inside it is read as it is;
otherwise the last string is filled up with zeros, and is as long as the file says.
-/

namespace Pterodon.Framework.DataBase

open Lib List Sample

/-! ## The variables afterwards -/

theorem lookup_cons_ite (x : Str) (e : Str × Str) (es : List (Str × Str)) :
    (e :: es).lookup x = if x = e.1 then some e.2 else es.lookup x := by
  by_cases hx : x = e.1
  · rw [if_pos hx, hx, lookup_cons_self]
  · rw [if_neg hx, lookup_cons, beq_false_of_ne hx]

theorem lookup_setIn (name value x : Str) (es : List (Str × Str)) :
    (setIn name value es).lookup x = if x = name then some value else es.lookup x := by
  induction es with
  | nil => exact lookup_cons_ite x (name, value) []
  | cons e es ih =>
    rw [setIn]
    by_cases he : e.1 = name
    · rw [if_pos he, lookup_cons_ite, lookup_cons_ite, he]
      by_cases hx : x = name <;> simp [hx]
    · rw [if_neg he, lookup_cons_ite, lookup_cons_ite, ih]
      by_cases hx : x = e.1 <;> simp [hx, he]

theorem find_foldl_setVar (es : List (Str × Str)) (db : DataBase) (x : Str) :
    (es.foldl (fun db e => db.setVar e.1 e.2) db).find x =
      (es.reverse.lookup x).or (db.find x) := by
  induction es generalizing db with
  | nil => rfl
  | cons e es ih =>
    have hset : (db.setVar e.1 e.2).find x = if x = e.1 then some e.2 else db.find x :=
      lookup_setIn e.1 e.2 x db.data
    rw [foldl_cons, ih, hset, reverse_cons, lookup_append, lookup_cons_ite]
    by_cases hx : x = e.1 <;> simp [hx]

/-- Existing variables keep their values, and the others get the file's, if and only if the file
has no other value for an existing variable. -/
theorem unserialize_keeps_iff (db : DataBase) (n : UInt64) (es : List (Str × Str))
    (checkVersion : Bool) (hne : ∀ e ∈ es, e.1.val ≠ [] ∧ e.2.val ≠ []) :
    ((∀ x v, db.find x = some v →
        (unserialize (fileOf n es) checkVersion db).2.find x = some v) ∧
      ∀ x, db.find x = none →
        (unserialize (fileOf n es) checkVersion db).2.find x = es.reverse.lookup x) ↔
    ∀ x v w, db.find x = some v → es.reverse.lookup x = some w → w = v := by
  have hsame : es.foldl (fun db e => db.setVar (stored e.1) (stored e.2)) db =
      es.foldl (fun db e => db.setVar e.1 e.2) db := by
    apply foldl_ext
    intro db' e he
    rw [stored_of_ne (hne e he).1, stored_of_ne (hne e he).2]
  simp only [unserialize_fileOf, hsame, find_foldl_setVar]
  constructor
  · intro ⟨hkeep, _⟩ x v w hv hw
    have hx := hkeep x v hv
    rw [hw] at hx
    exact Option.some.inj hx
  · intro hagree
    refine ⟨fun x v hv => ?_, fun x hx => by rw [hx, Option.or_none]⟩
    cases hw : es.reverse.lookup x with
    | none => rw [Option.none_or, hv]
    | some w => rw [Option.some_or, hagree x v w hv hw]

theorem new_variables_loaded : (unserialize (fileOf 1 [(one 99, one 50)]) true full).2.find
      (one 97) = some (one 49) := by
  refine ((unserialize_keeps_iff full 1 [(one 99, one 50)] true
    (by decide)).mpr ?_).1 (one 97) (one 49) rfl
  intro x v w hv hw
  rw [reverse_singleton, lookup_cons_ite] at hw
  split at hw
  · next hx =>
    rw [hx] at hv
    cases hv
  · cases hw

theorem existing_variable_overwritten :
    full.find (one 97) = some (one 49) ∧
    (unserialize (fileOf 1 [(one 97, one 50)]) true full).2.find
      (one 97) = some (one 50) := by
  decide +kernel

/-! ## What a file can make `ReadValue` do -/

/-- A call of `ReadValue` that comes to read a string. -/
structure Read where
  /-- What is left of the file. -/
  file : Bytes
  /-- Whether the string becomes the key or the value of a variable. -/
  stored : Bool

/-- The length that stands in front of the string, which is what `resize` allocates. -/
def Read.claimed (r : Read) : Nat := leNat (r.file.take 8)

/-- The string before it is decoded. -/
def Read.encoded (r : Read) : Bytes := filled r.claimed (r.file.drop 8)

/-- The variable is one that was read. -/
def ReadFrom (reads : List Read) (x v : Str) : Prop :=
  ∃ r ∈ reads, ∃ r' ∈ reads, r.stored = true ∧ r'.stored = true ∧
    x.val = trim (format r.encoded) ∧ v.val = trim (format r'.encoded)

section Reads

variable {file rest : Bytes} {s x v : Str} {fuel : Nat} {reads : List Read} {db : DataBase}

theorem ReadFrom.cons {r : Read} (h : ReadFrom reads x v) : ReadFrom (r :: reads) x v := by
  obtain ⟨a, ha, b, hb, hab⟩ := h
  exact ⟨a, mem_cons_of_mem _ ha, b, mem_cons_of_mem _ hb, hab⟩

end Reads

end Pterodon.Framework.DataBase
