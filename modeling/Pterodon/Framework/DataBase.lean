import Pterodon.Lib.LittleEndian
import Pterodon.Lib.Scan

/-!
# The data base file

`DataBase::Serialize` writes a version, the number of variables, and then each variable's
name and value, every one of them as a record: the length of the string plus one in a
`size_t`, the string under an exclusive or with a fixed key, and a terminating zero that
is not encrypted. `DataBase::ReadValue` decrypts the terminator with the rest and drops
the last byte of what it gets, but only from a record of more than one byte. The record of
the empty string is one byte long: it comes back as the first byte of the key.
-/

namespace Pterodon.Framework

open Lib List

/-- A `std::string`: its length and a terminator fit a `size_t`. -/
abbrev Str : Type := { s : Bytes // s.length + 1 < 256 ^ 8 }

/-- The map of a `DataBase` in the order of its iterator, one entry a name. -/
@[ext] structure DataBase where
  data : List (Str × Str)
  nodup : (data.map Prod.fst).Nodup

variable (db : DataBase)

namespace DataBase

/-- The key of `DataBase::Format`. -/
def key : Bytes :=
  [111, 100, 88, 96, 96, 77, 74, 93, 102, 73, 89, 95, 101, 44, 113, 74, 55, 76, 78, 47, 35,
   56, 122, 55, 42, 113, 119, 57, 102, 120, 70, 124, 111, 79, 98, 123, 90, 86, 81, 122, 80,
   97, 59, 84, 36, 94, 104, 104, 75, 36, 57, 54, 69, 35, 76, 73, 78, 52, 113, 56, 40, 50, 86]

/-- `DataBase::Format`: encrypts, and decrypts. -/
def format (s : Bytes) : Bytes := s.mapIdx fun i b => b ^^^ key.getD (i % 63) 0

/-- `PTERODON_DATABASE_VERSION`, expanded. -/
def version : Str := ⟨[50], by decide⟩

/-- `std::to_string` of a `size_t`. -/
def toString (n : UInt64) : Str :=
  ⟨natBytes n.toNat, by
    have hlen : (Nat.toDigits 10 n.toNat).length ≤ 20 :=
      (Nat.length_toDigits_le_iff (by decide) (by decide)).mpr
        (Nat.lt_of_lt_of_le n.toNat_lt (by decide))
    rw [natBytes, ascii, length_map]
    exact Nat.lt_of_le_of_lt (Nat.succ_le_succ hlen) (by decide)⟩

/-- `Framework::is_numeric`. The difference is an `int`, so what stands before `0` passes. -/
def isNumeric (s : Str) : Bool := !s.val.isEmpty && s.val.all fun b => b.toNat ≤ 57

/-! ## The variables -/

def find (name : Str) : Option Str := db.data.lookup name

/-- `DataBase::contains` of a name and a value. -/
def contains (name value : Str) : Bool := db.find name == some value

/-- `DataBase::size`, a `size_t`. -/
def size : UInt64 := UInt64.ofNat db.data.length

/-- `DataBase::operator==`. -/
def equal (db other : DataBase) : Bool :=
  db.size == other.size && other.data.all fun e => db.contains e.1 e.2

def setIn (name value : Str) : List (Str × Str) → List (Str × Str)
  | [] => [(name, value)]
  | e :: es => if e.1 = name then (name, value) :: es else e :: setIn name value es

variable {name value : Str} {es : List (Str × Str)}

theorem mem_setIn {x : Str} :
    x ∈ (setIn name value es).map Prod.fst ↔ x = name ∨ x ∈ es.map Prod.fst := by
  induction es with
  | nil => simp [setIn]
  | cons e es ih =>
    rw [setIn]
    by_cases he : e.1 = name
    · simp [he]
    · rw [if_neg he, map_cons, mem_cons, map_cons, mem_cons]
      tauto

theorem setIn_nodup (h : (es.map Prod.fst).Nodup) : ((setIn name value es).map Prod.fst).Nodup := by
  induction es with
  | nil => simp [setIn]
  | cons e es ih =>
    rw [map_cons, nodup_cons] at h
    rw [setIn]
    by_cases he : e.1 = name
    · rw [if_pos he, map_cons, nodup_cons]
      exact ⟨he ▸ h.1, h.2⟩
    · rw [if_neg he, map_cons, nodup_cons, mem_setIn]
      exact ⟨fun hx => hx.elim he h.1, ih h.2⟩

def setVar (name value : Str) : DataBase where
  data := setIn name value db.data
  nodup := setIn_nodup db.nodup

/-- A `DataBase` with no variables. -/
def empty : DataBase where
  data := []
  nodup := nodup_nil

/-! ## Writing -/

/-- The result of one `write`, after interrupted calls were repeated. -/
inductive Write where
  | complete
  /-- The first `n` bytes only. -/
  | short (n : Nat)
  | failed
deriving DecidableEq

/-- The open file and the results of the calls to come. -/
structure Out where
  file : Bytes
  writes : List Write

/-- One `write`; the result is `none` where the call returns -1. -/
def Out.write (bytes : Bytes) (out : Out) : Option (Option Nat × Out) :=
  match out.writes with
  | [] => none
  | .complete :: ws => some (some bytes.length, ⟨out.file ++ bytes, ws⟩)
  | .short n :: ws => some (some (min n bytes.length), ⟨out.file ++ bytes.take n, ws⟩)
  | .failed :: ws => some (none, ⟨out.file, ws⟩)

def writeValue (value : Str) (out : Out) : Option (Bool × Out) :=
  match out.write (leBytes 8 (value.val.length + 1)) with
  | none => none
  | some (n, out) =>
    if n ≠ some 8 then some (false, out)
    else
      match out.write (format value.val ++ [0]) with
      | none => none
      | some (none, out) => some (false, out)
      -- a short count is no error
      | some (some _, out) => some (true, out)

/-- `WriteValue` of one string after the other, until one fails. -/
def writeValues : List Str → Out → Option (Bool × Out)
  | [], out => some (true, out)
  | v :: vs, out =>
    match writeValue v out with
    | none => none
    | some (false, out) => some (false, out)
    | some (true, out) => writeValues vs out

/-- The strings of a data base file, in the order they are written. -/
def records : List Str :=
  version :: toString db.size :: db.data.flatMap fun e => [e.1, e.2]

/-- `DataBase::Serialize`: what it returns, and the file, if there is one afterwards. -/
def serialize (opens : Bool) (writes : List Write) : Option (Bool × Option Bytes) :=
  if opens then
    (writeValues db.records ⟨[], writes⟩).map fun (ok, out) =>
      if ok then (true, some out.file) else (false, none)
  else some (false, none)

/-! ## Reading -/

/-- What `read` leaves in a string that was resized to `len`. -/
def filled (len : Nat) (bytes : Bytes) : Bytes :=
  bytes.take len ++ List.replicate (len - bytes.length) 0

theorem filled_length (len : Nat) (bytes : Bytes) : (filled len bytes).length = len := by
  rw [filled, length_append, length_take, length_replicate]
  omega

/-- The last byte goes, unless it is the only one. -/
def trim (s : Bytes) : Bytes := if s.length > 1 then s.take (s.length - 1) else s

/-- The string of a record whose length says `len`. -/
def decoded (len : Nat) (bytes : Bytes) : Bytes := trim (format (filled len bytes))

theorem decoded_fits {len : Nat} (h : len < 256 ^ 8) (bytes : Bytes) :
    (decoded len bytes).length + 1 < 256 ^ 8 := by
  have hlen : (format (filled len bytes)).length = len := by
    rw [format, length_mapIdx, filled_length]
  rw [decoded, trim]
  by_cases hs : (format (filled len bytes)).length > 1
  · rw [if_pos hs, length_take]
    omega
  · rw [if_neg hs]
    have hone : (format (filled len bytes)).length ≤ 1 := by omega
    exact Nat.lt_of_le_of_lt (Nat.succ_le_succ hone) (by decide)

/-- `DataBase::ReadValue`: the string and the rest of the file. -/
def readValue (file : Bytes) : Option (Str × Bytes) :=
  if file.length < 8 then none
  else
    have hlen : leNat (file.take 8) < 256 ^ 8 :=
      Nat.lt_of_lt_of_le (leNat_lt _) (Nat.pow_le_pow_right (by decide) (length_take_le ..))
    some (⟨decoded (leNat (file.take 8)) (file.drop 8), decoded_fits hlen _⟩,
      (file.drop 8).drop (leNat (file.take 8)))

/-- The loop of `DataBase::Unserialize` after the two header records. Every round reads a
length of eight bytes. -/
def readVars : Nat → Bytes → DataBase → DataBase
  | 0, _, db => db
  | fuel + 1, file, db =>
    match readValue file with
    | none => db
    | some (name, file) =>
      match readValue file with
      | none => db
      | some (value, file) => readVars fuel file (db.setVar name value)

/-- `DataBase::Unserialize` of a file that opens. -/
def unserialize (file : Bytes) (checkVersion : Bool) (db : DataBase) : Bool × DataBase :=
  match readValue file with
  | none => (true, db)
  | some (vers, file) =>
    if !isNumeric vers then (false, db)
    else if checkVersion && vers != version then (false, db)
    else
      match readValue file with
      | none => (true, db)
      | some (size, file) =>
        if !isNumeric size then (false, db)
        else (true, readVars file.length file db)

/-! ## A record is read back -/

theorem format_length (s : Bytes) : (format s).length = s.length := length_mapIdx

/-- The terminator is not encrypted, but it is decrypted. -/
theorem format_terminated (s : Bytes) :
    format (format s ++ [0]) = s ++ [key.getD (s.length % 63) 0] := by
  have hback : format (format s) = s := by
    apply ext_getElem
    · rw [format_length, format_length]
    · intro i h₁ h₂
      simp only [format, getElem_mapIdx, UInt8.xor_assoc, UInt8.xor_self, UInt8.xor_zero]
  have happend : ∀ t : Bytes, format (t ++ [0]) = format t ++ [key.getD (t.length % 63) 0] := by
    simp [format]
  rw [happend, hback, format_length]

/-- A string as it stands in the file. -/
def record (s : Str) : Bytes := leBytes 8 (s.val.length + 1) ++ (format s.val ++ [0])

/-- What comes back of a string: the empty one is lost. -/
def stored (s : Str) : Str := if s.val = [] then ⟨[111], by decide⟩ else s

theorem trim_terminated (s : Str) :
    trim (s.val ++ [key.getD (s.val.length % 63) 0]) = (stored s).val := by
  rw [trim, stored]
  by_cases hs : s.val = []
  · rw [hs]
    rfl
  · have hlen : 0 < s.val.length := length_pos_iff.mpr hs
    rw [if_neg hs, length_append, length_singleton, if_pos (by omega), Nat.add_sub_cancel,
      take_left]

theorem readValue_record (s : Str) (rest : Bytes) :
    readValue (record s ++ rest) = some (stored s, rest) := by
  have hbody : (format s.val ++ [0]).length = s.val.length + 1 := by
    rw [length_append, format_length, length_singleton]
  have hlen : leNat ((record s ++ rest).take 8) = s.val.length + 1 := by
    rw [record, append_assoc, take_left' (leBytes_length 8 _), leNat_leBytes s.property]
  have hdrop : (record s ++ rest).drop 8 = (format s.val ++ [0]) ++ rest := by
    rw [record, append_assoc, drop_left' (leBytes_length 8 _)]
  have hfilled : filled (s.val.length + 1) ((format s.val ++ [0]) ++ rest) =
      format s.val ++ [0] := by
    rw [filled, take_left' hbody, length_append, hbody,
      Nat.sub_eq_zero_of_le (Nat.le_add_right ..), replicate_zero, append_nil]
  have hlong : ¬ (record s ++ rest).length < 8 := by
    rw [length_append, record, length_append, leBytes_length]
    omega
  have hrest : ((record s ++ rest).drop 8).drop (leNat ((record s ++ rest).take 8)) = rest := by
    rw [hlen, hdrop, drop_left' hbody]
  have hstored : decoded (leNat ((record s ++ rest).take 8)) ((record s ++ rest).drop 8) =
      (stored s).val := by
    rw [hlen, hdrop, decoded, hfilled, format_terminated, trim_terminated]
  rw [readValue, if_neg hlong]
  simp only [hrest, hstored]

/-! ## What is written -/

/-- Whether the call wrote all of `len` bytes. -/
def Write.whole (len : Nat) : Write → Bool
  | .complete => true
  | .short n => decide (len ≤ n)
  | .failed => false

/-- Of the two writes of every string, the second is whole: the one that is not checked. -/
def WholeData : List Str → List Write → Prop
  | v :: vs, _ :: w :: ws => w.whole (v.val.length + 1) = true ∧ WholeData vs ws
  | _, _ => True

variable {out out' : Out}

theorem Out.write_count {bytes : Bytes} {n : Nat} (h : out.write bytes = some (some n, out')) :
    ∃ w, out.writes = w :: out'.writes ∧ out'.file = out.file ++ bytes.take n ∧
      n ≤ bytes.length ∧ (w.whole bytes.length = true ↔ n = bytes.length) := by
  obtain ⟨file, writes⟩ := out
  rcases writes with _ | ⟨w | n | _, ws⟩
  · cases h
  · cases h
    exact ⟨_, rfl, by rw [take_length], Nat.le_refl _, by simp [Write.whole]⟩
  · cases h
    refine ⟨_, rfl, by rw [take_eq_take_min], Nat.min_le_right .., ?_⟩
    rw [Write.whole, decide_eq_true_iff]
    omega
  · cases h

theorem record_length (s : Str) : (record s).length = 8 + (s.val.length + 1) := by
  rw [record, length_append, leBytes_length, length_append, format_length, length_singleton]

/-- A record that `WriteValue` reports as written may lack its end. -/
theorem writeValue_true (h : writeValue value out = some (true, out')) :
    ∃ w₁ w₂ n, out.writes = w₁ :: w₂ :: out'.writes ∧ out'.file =
      out.file ++ (record value).take n ∧
      n ≤ (record value).length ∧
      (w₂.whole (value.val.length + 1) = true ↔ n = (record value).length) := by
  rw [writeValue] at h
  split at h
  · cases h
  · next n₁ out₁ hlen =>
    split at h
    · cases h
    · next hn =>
      rw [not_not.mp hn] at hlen
      obtain ⟨w₁, hw₁, hfile₁, -, -⟩ := Out.write_count hlen
      split at h
      · cases h
      · cases h
      · next n out₂ hdata =>
        cases h
        obtain ⟨w₂, hw₂, hfile₂, hle, hwhole⟩ := Out.write_count hdata
        rw [length_append, format_length, length_singleton] at hle hwhole
        refine ⟨w₁, w₂, 8 + n, by rw [hw₁, hw₂], ?_, by rw [record_length]; omega, ?_⟩
        · have hlen8 : (leBytes 8 (value.val.length + 1)).length = 8 := leBytes_length ..
          have htake : (record value).take (8 + n) =
              leBytes 8 (value.val.length + 1) ++ (format value.val ++ [0]).take n := by
            rw [record, take_append, take_of_length_le (by omega), hlen8, Nat.add_sub_cancel_left]
          rw [hfile₂, hfile₁, htake, take_of_length_le (Nat.le_of_eq hlen8), append_assoc]
        · rw [hwhole, record_length]
          omega

theorem writeValues_true {values : List Str} (h : writeValues values out = some (true, out')) :
    out'.file.length ≤ out.file.length + (values.flatMap record).length ∧
    (out'.file = out.file ++ values.flatMap record ↔ WholeData values out.writes) := by
  induction values generalizing out with
  | nil =>
    cases h
    simp [WholeData]
  | cons v vs ih =>
    rw [writeValues] at h
    split at h
    · cases h
    · cases h
    · next out₁ hv =>
      obtain ⟨w₁, w₂, n, hw, hfile, hle, hwhole⟩ := writeValue_true hv
      obtain ⟨hlen, hiff⟩ := ih h
      have hlen₁ : out₁.file.length = out.file.length + n := by
        rw [hfile, length_append, length_take, Nat.min_eq_left hle]
      rw [hw, WholeData, hwhole, flatMap_cons, length_append]
      refine ⟨by omega, ?_⟩
      by_cases hn : n = (record v).length
      · rw [hn, take_length] at hfile
        rw [← hiff, hfile, append_assoc]
        exact (and_iff_right hn).symm
      · -- bytes that are missing once are missing at the end
        refine iff_of_false (fun heq => hn ?_) fun hand => hn hand.1
        have := congrArg List.length heq
        rw [length_append, length_append] at this
        omega

variable {db : DataBase} {writes : List Write}

theorem serialize_cases {opens ok : Bool} {file : Option Bytes}
    (h : db.serialize opens writes = some (ok, file)) :
    (ok = false ∧ file = none) ∨
    ∃ out, ok = true ∧ file = some out.file ∧
      writeValues db.records ⟨[], writes⟩ = some (true, out) := by
  cases opens with
  | false =>
    cases h
    exact .inl ⟨rfl, rfl⟩
  | true =>
    obtain ⟨⟨ok', out⟩, hout, hres⟩ := Option.map_eq_some_iff.mp h
    cases ok' with
    | false =>
      cases hres
      exact .inl ⟨rfl, rfl⟩
    | true =>
      cases hres
      exact .inr ⟨out, rfl, rfl, hout⟩

theorem wholeData_complete {values : List Str} (hw : ∀ w ∈ writes, w = .complete) :
    WholeData values writes := by
  induction values generalizing writes with
  | nil => exact trivial
  | cons v vs ih =>
    rcases writes with _ | ⟨w₁, _ | ⟨w₂, ws⟩⟩
    · exact trivial
    · exact trivial
    · rw [hw w₂ (by simp)]
      exact ⟨rfl, ih fun w hmem => hw w (by simp [hmem])⟩

theorem serialize_complete {opens : Bool} {file : Bytes} (hw : ∀ w ∈ writes, w = .complete)
    (h : db.serialize opens writes = some (true, some file)) :
    file = db.records.flatMap record := by
  obtain ⟨hok, -⟩ | ⟨out, -, hfile, hout⟩ := serialize_cases h
  · cases hok
  · rw [Option.some.inj hfile, (writeValues_true hout).2.mpr (wholeData_complete hw), nil_append]

/-- `Serialize` leaves no file when it reports a failure; when it reports success, the file is
complete if and only if no write of a string's bytes was short. -/
theorem serialize_complete_iff (db : DataBase) (opens : Bool) (writes : List Write) (ok : Bool)
    (file : Option Bytes) (h : db.serialize opens writes = some (ok, file)) :
    (ok = false → file = none) ∧
    (ok = true → (file = some (db.records.flatMap record) ↔ WholeData db.records writes)) := by
  obtain ⟨rfl, rfl⟩ | ⟨out, rfl, rfl, hout⟩ := serialize_cases h
  · exact ⟨fun _ => rfl, nofun⟩
  · refine ⟨nofun, fun _ => ?_⟩
    rw [← (writeValues_true hout).2, nil_append, Option.some.injEq]

namespace Sample

def one (b : UInt8) : Str := ⟨[b], by simp⟩

def nothing : Str := ⟨[], by decide⟩

def full : DataBase where
  data := [(one 97, one 49), (one 98, one 0)]
  nodup := by decide

def unset : DataBase where
  data := [(one 97, nothing)]
  nodup := by decide

end Sample

open Sample

theorem full_written : WholeData full.records (List.replicate 12 .complete) :=
  ((serialize_complete_iff full true (List.replicate 12 .complete) true
    (some (full.records.flatMap record)) (by decide +kernel)).2 rfl).mp rfl

/-- The last write is short by a byte: nobody notices. -/
theorem short_write_reported_complete :
    full.serialize true (List.replicate 11 .complete ++ [.short 1]) =
      some (true, some (full.records.flatMap record).dropLast) := by
  decide +kernel

/-! ## What is read -/

theorem toString_numeric (n : UInt64) : isNumeric (toString n) = true := by
  have hne : (toString n).val.isEmpty = false := isEmpty_eq_false_iff.mpr (natBytes_ne_nil _)
  rw [isNumeric, hne, Bool.not_false, Bool.true_and, all_eq_true]
  intro b hb
  exact decide_eq_true (isDigitByte_iff.mp (isDigitByte_of_mem_natBytes hb)).2

theorem stored_of_ne {s : Str} (h : s.val ≠ []) : stored s = s := if_neg h

theorem stored_ne (s : Str) : (stored s).val ≠ [] := by
  rw [stored]
  by_cases hs : s.val = []
  · rw [if_pos hs]
    decide
  · rw [if_neg hs]
    exact hs

theorem readVars_records (es : List (Str × Str)) (fuel : Nat) (db : DataBase)
    (hfuel : es.length ≤ fuel) :
    readVars fuel ((es.flatMap fun e => [e.1, e.2]).flatMap record) db =
      es.foldl (fun db e => db.setVar (stored e.1) (stored e.2)) db := by
  induction es generalizing fuel db with
  | nil => cases fuel <;> rfl
  | cons e es ih =>
    obtain ⟨fuel, rfl⟩ : ∃ n, fuel = n + 1 := ⟨fuel - 1, by rw [length_cons] at hfuel; omega⟩
    rw [flatMap_cons, cons_append, cons_append, nil_append, flatMap_cons, flatMap_cons, readVars]
    simp only [readValue_record]
    rw [ih fuel _ (by rw [length_cons] at hfuel; omega), foldl_cons]

/-- The file of some variables, in any order and with repetitions. -/
def fileOf (n : UInt64) (es : List (Str × Str)) : Bytes :=
  (version :: toString n :: es.flatMap fun e => [e.1, e.2]).flatMap record

theorem unserialize_fileOf (n : UInt64) (es : List (Str × Str)) (checkVersion : Bool)
    (db : DataBase) : unserialize (fileOf n es) checkVersion db =
      (true, es.foldl (fun db e => db.setVar (stored e.1) (stored e.2)) db) := by
  have hfuel : es.length ≤ ((es.flatMap fun e => [e.1, e.2]).flatMap record).length := by
    induction es with
    | nil => exact Nat.zero_le _
    | cons e es ih =>
      simp only [flatMap_cons, cons_append, nil_append, length_append, length_cons, record] at ih ⊢
      omega
  have hsize : stored (toString n) = toString n := stored_of_ne (natBytes_ne_nil _)
  have hversion : isNumeric (stored version) = true ∧ (stored version != version) = false := by
    decide
  rw [fileOf, flatMap_cons, flatMap_cons, unserialize]
  simp only [hversion.1, hversion.2, Bool.not_true, Bool.and_false, Bool.false_eq_true, if_false,
    readValue_record, hsize, toString_numeric]
  rw [readVars_records _ _ _ hfuel]

/-! ## What is lost -/

theorem setIn_append (h : name ∉ es.map Prod.fst) :
    setIn name value es = es ++ [(name, value)] := by
  induction es with
  | nil => rfl
  | cons e es ih =>
    rw [map_cons, mem_cons, not_or] at h
    rw [setIn, if_neg (fun he => h.1 he.symm), ih h.2, cons_append]

theorem foldl_setVar_data (es : List (Str × Str)) (db : DataBase)
    (h : ((db.data ++ es).map Prod.fst).Nodup) :
    (es.foldl (fun db e => db.setVar e.1 e.2) db).data = db.data ++ es := by
  induction es generalizing db with
  | nil => exact (append_nil _).symm
  | cons e es ih =>
    have hnew : e.1 ∉ db.data.map Prod.fst := by
      rw [map_append, nodup_append] at h
      intro hmem
      exact h.2.2 _ hmem _ (by simp) rfl
    have hset : (db.setVar e.1 e.2).data = db.data ++ [e] := setIn_append hnew
    rw [foldl_cons, ih (db.setVar e.1 e.2), hset, append_assoc, singleton_append]
    rw [hset, append_assoc]
    exact h

theorem mem_setIn_pair {x : Str × Str} (h : x ∈ setIn name value es) :
    x = (name, value) ∨ x ∈ es := by
  induction es with
  | nil => exact Or.inl (mem_singleton.mp h)
  | cons e es ih =>
    rw [setIn] at h
    by_cases he : e.1 = name
    · rw [if_pos he] at h
      rcases mem_cons.mp h with hx | hx
      · exact Or.inl hx
      · exact Or.inr (mem_cons_of_mem _ hx)
    · rw [if_neg he] at h
      rcases mem_cons.mp h with rfl | hx
      · exact Or.inr mem_cons_self
      · rcases ih hx with hx | hx
        · exact Or.inl hx
        · exact Or.inr (mem_cons_of_mem _ hx)

theorem foldl_stored_ne (es : List (Str × Str)) (db : DataBase)
    (hdb : ∀ x ∈ db.data, x.1.val ≠ [] ∧ x.2.val ≠ []) :
    ∀ x ∈ (es.foldl (fun db e => db.setVar (stored e.1) (stored e.2)) db).data,
      x.1.val ≠ [] ∧ x.2.val ≠ [] := by
  induction es generalizing db with
  | nil => exact hdb
  | cons e es ih =>
    apply ih
    intro x hx
    rcases mem_setIn_pair hx with rfl | hx
    · exact ⟨stored_ne _, stored_ne _⟩
    · exact hdb x hx

theorem mem_of_find (h : db.find name = some value) : (name, value) ∈ db.data := by
  obtain ⟨before, after, hdata, -⟩ := lookup_eq_some_iff.mp h
  rw [hdata]
  exact mem_append_right _ mem_cons_self

theorem lookup_of_mem (hn : (es.map Prod.fst).Nodup) {e : Str × Str} (he : e ∈ es) :
    es.lookup e.1 = some e.2 := by
  induction es with
  | nil => cases he
  | cons x es ih =>
    rw [map_cons, nodup_cons] at hn
    rcases mem_cons.mp he with rfl | he
    · exact lookup_cons_self
    · have hne : e.1 ≠ x.1 := fun hx => hn.1 (hx ▸ mem_map_of_mem he)
      rw [lookup_cons, beq_false_of_ne hne]
      exact ih hn.2 he

theorem equal_self (db : DataBase) : db.equal db = true := by
  rw [equal, beq_self_eq_true, Bool.true_and, all_eq_true]
  intro e he
  rw [contains, find, lookup_of_mem db.nodup he, beq_self_eq_true]

/-- A data base comes back from its file if and only if no name and no value in it is
empty. -/
theorem unserialize_serialize (db : DataBase) (opens checkVersion : Bool) (writes : List Write)
    (file : Bytes) (hw : ∀ w ∈ writes, w = .complete)
    (h : db.serialize opens writes = some (true, some file)) :
    ((unserialize file checkVersion empty).1 = true ∧
      (unserialize file checkVersion empty).2.equal db = true) ↔
      ∀ e ∈ db.data, e.1.val ≠ [] ∧ e.2.val ≠ [] := by
  rw [serialize_complete hw h, show db.records.flatMap record = fileOf db.size db.data from rfl,
    unserialize_fileOf]
  constructor
  · rintro ⟨-, heq⟩ e he
    rw [equal, Bool.and_eq_true, all_eq_true] at heq
    have hfind := heq.2 e he
    rw [contains, beq_iff_eq] at hfind
    exact foldl_stored_ne db.data empty (by simp [empty]) e (mem_of_find hfind)
  · intro hne
    refine ⟨rfl, ?_⟩
    have hsame : db.data.foldl (fun db e => db.setVar (stored e.1) (stored e.2)) empty =
        db.data.foldl (fun db e => db.setVar e.1 e.2) empty := by
      apply foldl_ext
      intro db' e he
      rw [stored_of_ne (hne e he).1, stored_of_ne (hne e he).2]
    have hback : db.data.foldl (fun db e => db.setVar e.1 e.2) empty = db := by
      apply DataBase.ext
      exact foldl_setVar_data db.data empty db.nodup
    rw [hsame, hback]
    exact equal_self db

/-- What `Serialize` of two variables writes comes back. -/
theorem full_restored : full.serialize true (List.replicate 12 .complete) =
      some (true, some (full.records.flatMap record)) ∧
    (unserialize (full.records.flatMap record) true empty).2.equal full = true := by
  have hwritten : full.serialize true (List.replicate 12 .complete) =
      some (true, some (full.records.flatMap record)) := by
    decide +kernel
  refine ⟨hwritten, ((unserialize_serialize full true true (List.replicate 12 .complete) _
    ?_ hwritten).mpr (by decide)).2⟩
  intro w hmem
  exact (mem_replicate.mp hmem).2

/-- The empty value comes back as the first byte of the key. -/
theorem unset_changed : unset.serialize true (List.replicate 8 .complete) =
      some (true, some (unset.records.flatMap record)) ∧
    (unserialize (unset.records.flatMap record) true empty).1 = true ∧
    (unserialize (unset.records.flatMap record) true empty).2.data = [(one 97, one 111)] ∧
    (unserialize (unset.records.flatMap record) true empty).2.equal unset = false := by
  decide +kernel

end DataBase

end Pterodon.Framework
