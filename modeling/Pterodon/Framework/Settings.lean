import Pterodon.Framework.Unserialize

/-!
# Settings and their numbers

`SettingsManager` keeps two data bases, one for the variables that are saved to a file and one
for the rest. `GetVar` asks the saved ones first, and `SetVar` never puts a variable among the
others that is among the saved ones: this is what keeps the first answer from being stale.

The tests `is_numeric` and `is_number` subtract `'0'` from a `uint8_t`. The difference is an
`int`, so that everything up to `9` passes, and not the digits only. `is_number` accepts the
empty string as well, and `to_int` counts a dot as -2.
-/

namespace Pterodon.Framework

open Lib List

/-! ## Numeric strings -/

/-- `Framework::is_numeric` of a C string. -/
def isNumericC (s : Bytes) : Bool := (cstr s).all fun c => (c.toNat : Int) - 48 ≤ 9

theorem isNumericC_iff {s : Bytes} (hs : 0 ∉ s) : isNumericC s = true ↔ ∀ b ∈ s, b.toNat ≤ 57 := by
  rw [isNumericC, cstr_of_notMem hs, all_eq_true]
  refine forall₂_congr fun b _ => ?_
  rw [decide_eq_true_eq]
  omega

theorem isNumeric_iff (s : Str) :
    DataBase.isNumeric s = true ↔ s.val ≠ [] ∧ ∀ b ∈ s.val, b.toNat ≤ 57 := by
  simp [DataBase.isNumeric]

/-- The two tests say what the expression that they replaced said, and the same, if and only if
the string is not empty and has a character behind `9` or none before `0`. -/
theorem isNumeric_reference_iff (s : Str) :
    ((DataBase.isNumeric s = true ↔ s.val ≠ [] ∧ ∀ b ∈ s.val, isDigitByte b = true) ∧
      (0 ∉ s.val → isNumericC s.val = DataBase.isNumeric s)) ↔
    s.val ≠ [] ∧ ((∃ b ∈ s.val, 57 < b.toNat) ∨ ∀ b ∈ s.val, 48 ≤ b.toNat) := by
  rw [Bool.eq_iff_iff (a := isNumericC s.val)]
  simp only [isNumeric_iff, isDigitByte_iff]
  constructor
  · rintro ⟨href, hsame⟩
    have hne : s.val ≠ [] := by
      intro hnil
      have hzero : 0 ∉ s.val := hnil ▸ not_mem_nil
      have hall : ∀ b ∈ s.val, b.toNat ≤ 57 := hnil ▸ nofun
      exact ((hsame hzero).mp ((isNumericC_iff hzero).mpr hall)).1 hnil
    refine ⟨hne, ?_⟩
    by_cases hall : ∀ b ∈ s.val, b.toNat ≤ 57
    · exact .inr fun b hb => ((href.mp ⟨hne, hall⟩).2 b hb).1
    · push Not at hall
      exact .inl hall
  · rintro ⟨hne, hcase⟩
    refine ⟨and_congr_right fun _ => ?_, fun hzero => ?_⟩
    · refine ⟨fun hall b hb => ⟨?_, hall b hb⟩, fun hall b hb => (hall b hb).2⟩
      rcases hcase with ⟨c, hc, hlarge⟩ | hfrom
      · exact absurd (hall c hc) (by omega)
      · exact hfrom b hb
    · rw [isNumericC_iff hzero]
      exact (and_iff_right hne).symm

/-- `-1` passes, and of the empty string only one of the two says no. -/
theorem minus_one_numeric :
    DataBase.isNumeric ⟨[45, 49], by decide⟩ = true ∧ isDigitByte 45 = false ∧
    isNumericC [] = true ∧ DataBase.isNumeric DataBase.Sample.nothing = false := by
  decide

/-! ## Integers -/

def isNumber (s : Bytes) : Bool :=
  (scanSign (cstr s)).2.all fun c => c = 46 || (c.toNat : Int) - 48 ≤ 9

/-- A round of `to_int`. An `int` has 32 bits and wraps. -/
def addDigit (ret : BitVec 32) (c : UInt8) : BitVec 32 :=
  (ret <<< 4) - (ret <<< 2) - (ret <<< 1) + (BitVec.ofNat 32 c.toNat - 48#32)

def toInt (s : Bytes) : BitVec 32 :=
  let (negative, digits) := scanSign (cstr s)
  digits.foldl addDigit 0#32 * if negative then -1#32 else 1#32

/-- An optional sign and then decimal digits. -/
def IsDecimal (s : Bytes) : Prop :=
  (scanSign s).2 ≠ [] ∧ ∀ b ∈ (scanSign s).2, isDigitByte b = true

def decimalValue (s : Bytes) : Int :=
  if (scanSign s).1 then -(digitsValue (scanSign s).2 : Int) else digitsValue (scanSign s).2

theorem foldl_addDigit {ds : Bytes} (h : ∀ b ∈ ds, isDigitByte b = true) (n : Nat) :
    ds.foldl addDigit (BitVec.ofNat 32 n) =
      BitVec.ofNat 32 (ds.foldl (fun n d => 10 * n + (d.toNat - 48)) n) := by
  induction ds generalizing n with
  | nil => rfl
  | cons d ds ih =>
    have hd := isDigitByte_iff.mp (h d mem_cons_self)
    have hstep : addDigit (BitVec.ofNat 32 n) d = BitVec.ofNat 32 (10 * n + (d.toNat - 48)) := by
      unfold addDigit
      bv_omega
    rw [foldl_cons, hstep]
    exact ih (forall_mem_cons.mp h).2 _

/-- A sign is no zero, so that a zero in a string stands behind the sign. -/
theorem zero_notMem {s : Bytes} (h : ∀ b ∈ (scanSign s).2, 48 ≤ b.toNat) : 0 ∉ s := by
  have hnot : (0 : UInt8) ∉ (scanSign s).2 := fun hmem => absurd (h 0 hmem) (by decide)
  cases s with
  | nil => exact not_mem_nil
  | cons b s =>
    rw [scanSign] at hnot
    split at hnot
    · next hb => rw [Option.some.inj hb]; simpa using hnot
    split at hnot
    · next hb => rw [Option.some.inj hb]; simpa using hnot
    exact hnot

theorem toInt_decimal {s : Bytes} (h : IsDecimal s) (hlow : -2 ^ 31 ≤ decimalValue s)
    (hhigh : decimalValue s < 2 ^ 31) : (toInt s).toInt = decimalValue s := by
  have hzero : 0 ∉ s := zero_notMem fun b hb => (isDigitByte_iff.mp (h.2 b hb)).1
  have hofInt : toInt s = BitVec.ofInt 32 (decimalValue s) := by
    have hfold := foldl_addDigit h.2 0
    rw [toInt, cstr_of_notMem hzero, decimalValue, digitsValue]
    dsimp only
    rw [hfold]
    cases (scanSign s).1
    · simp
    · rw [if_pos rfl, if_pos rfl, BitVec.ofInt_neg, BitVec.ofInt_natCast, BitVec.mul_neg,
        BitVec.mul_one]
  rw [hofInt, BitVec.toInt_ofInt]
  exact Int.bmod_eq_of_le (by simpa using hlow) (by simpa using hhigh)

def toUint (s : Bytes) : BitVec 32 := (cstr s).foldl addDigit 0#32

/-- An `int` as `SetVar` writes it. -/
def intText (v : BitVec 32) : Bytes := intBytes v.toInt

theorem scanSign_digits {ds : Bytes} (h : ∀ b ∈ ds, isDigitByte b = true) :
    scanSign ds = (false, ds) := by
  have hhead : ∀ b : UInt8, isDigitByte b = false → ds.head? ≠ some b := fun b hb heq => by
    rw [h b (mem_of_mem_head? heq)] at hb
    cases hb
  rw [scanSign, if_neg (hhead 45 rfl), if_neg (hhead 43 rfl)]

theorem scanSign_intBytes (n : Int) :
    scanSign (intBytes n) = (decide (n < 0), natBytes n.natAbs) := by
  rw [intBytes]
  split
  · next hneg => simp [scanSign, hneg]
  · next hpos =>
    rw [scanSign_digits fun _ => isDigitByte_of_mem_natBytes, decide_eq_false hpos,
      show n.toNat = n.natAbs by omega]

/-- An `int` is read back as it was written, the least one too. Of digits alone `to_uint` reads
what `to_int` reads. -/
theorem int_text_round_trip :
    (∀ v : BitVec 32, isNumber (intText v) = true ∧ toInt (intText v) = v) ∧
    ∀ ds : Bytes, (∀ b ∈ ds, isDigitByte b = true) → toInt ds = toUint ds := by
  refine ⟨fun v => ?_, fun ds hds => ?_⟩
  · have hscan := scanSign_intBytes v.toInt
    have hdigits : ∀ b ∈ (scanSign (intText v)).2, isDigitByte b = true := by
      rw [intText, hscan]
      exact fun _ => isDigitByte_of_mem_natBytes
    have hdecimal : IsDecimal (intText v) :=
      ⟨by rw [intText, hscan]; exact natBytes_ne_nil _, hdigits⟩
    have hvalue : decimalValue (intText v) = v.toInt := by
      rw [decimalValue, intText, hscan, digitsValue_natBytes]
      by_cases hneg : v.toInt < 0
      · rw [if_pos (decide_eq_true hneg)]
        omega
      · rw [if_neg (by simpa using hneg)]
        omega
    have hzero : 0 ∉ intText v := zero_notMem fun b hb => (isDigitByte_iff.mp (hdigits b hb)).1
    refine ⟨?_, BitVec.eq_of_toInt_eq ?_⟩
    · rw [isNumber, cstr_of_notMem hzero, all_eq_true]
      intro b hb
      have := isDigitByte_iff.mp (hdigits b hb)
      simp
      omega
    · rw [toInt_decimal hdecimal, hvalue]
      · rw [hvalue]
        exact BitVec.le_toInt v
      · rw [hvalue]
        exact BitVec.toInt_lt
  · have hscan := scanSign_digits hds
    have hzero : 0 ∉ ds := zero_notMem fun b hb =>
      (isDigitByte_iff.mp (hds b (by rwa [hscan] at hb))).1
    rw [toInt, toUint, cstr_of_notMem hzero, hscan]
    exact BitVec.mul_one _

/-! ## The two stores -/

/-- `settingsSavedToFile` and `settingsRuntimeOnly`. -/
structure Settings where
  savedToFile : DataBase
  runtimeOnly : DataBase

variable (s : Settings)

namespace Settings

def setVar (name value : Str) (saveToSettings : Bool) : Settings :=
  if saveToSettings || (s.savedToFile.find name).isSome then
    { s with savedToFile := s.savedToFile.setVar name value }
  else { s with runtimeOnly := s.runtimeOnly.setVar name value }

/-- `SettingsManager::GetVar`: the value, `none` if it returns false. -/
def getVar (name : Str) : Option Str :=
  (s.savedToFile.find name).or (s.runtimeOnly.find name)

/-- `SettingsManager::GetVar` with an `int` as result. -/
def getVarInt (name : Str) : Option (BitVec 32) :=
  (s.getVar name).bind fun value => if isNumber value.val then some (toInt value.val) else none

/-- One call of `SetVar`. -/
structure Call where
  name : Str
  value : Str
  saveToSettings : Bool

def run (calls : List Call) : Settings :=
  calls.foldl (fun s c => s.setVar c.name c.value c.saveToSettings) s

theorem find_setVar (db : DataBase) (name value x : Str) :
    (db.setVar name value).find x = if x = name then some value else db.find x :=
  DataBase.lookup_setIn name value x db.data

theorem getVar_setVar (name value x : Str) (save : Bool) :
    (s.setVar name value save).getVar x = if x = name then some value else s.getVar x := by
  unfold setVar getVar
  split
  · rw [find_setVar]
    split
    · rfl
    · rfl
  · next hnot =>
    rw [find_setVar]
    split
    · next hx =>
      -- the store that is asked first does not have the variable
      rw [Bool.or_eq_true, not_or, Option.not_isSome_iff_eq_none] at hnot
      rw [hx, hnot.2, Option.none_or]
    · rfl

/-- A variable has the value of its most recent `SetVar`, or else the one it had before. -/
theorem getVar_last_write (s : Settings) (calls : List Call) (x : Str) : (s.run calls).getVar x =
      ((calls.reverse.find? fun c => c.name = x).map Call.value).or (s.getVar x) := by
  induction calls generalizing s with
  | nil => rfl
  | cons c calls ih =>
    rw [run, foldl_cons, ← run, ih, getVar_setVar]
    by_cases hx : x = c.name
    · simp [hx]
    · simp [hx, Ne.symm hx]

/-- Where the `int` form of `GetVar` succeeds, the string is a decimal number, and the result is
its value if that is an `int`, exactly if something stands behind the sign and none of it is
before `0`. -/
theorem getVarInt_decimal_iff (s : Settings) (name value : Str) (result : BitVec 32)
    (hget : s.getVar name = some value) (hresult : s.getVarInt name = some result) :
    (IsDecimal value.val ∧ (-2 ^ 31 ≤ decimalValue value.val → decimalValue value.val < 2 ^ 31 →
      result.toInt = decimalValue value.val)) ↔
    (scanSign value.val).2 ≠ [] ∧ ∀ b ∈ (scanSign value.val).2, 48 ≤ b.toNat := by
  constructor
  · intro ⟨⟨hne, hdigits⟩, _⟩
    exact ⟨hne, fun b hb => (isDigitByte_iff.mp (hdigits b hb)).1⟩
  · rintro ⟨hne, hfrom⟩
    rw [getVarInt, hget, Option.bind_some, Option.ite_none_right_eq_some, isNumber,
      cstr_of_notMem (zero_notMem hfrom), all_eq_true] at hresult
    obtain ⟨hnumber, hvalue⟩ := hresult
    have hdecimal : IsDecimal value.val := by
      refine ⟨hne, fun b hb => isDigitByte_iff.mpr ⟨hfrom b hb, ?_⟩⟩
      have htest := hnumber b hb
      have hdot : b ≠ 46 := fun h => absurd (hfrom b hb) (h ▸ by decide)
      simp only [hdot, decide_false, Bool.false_or, decide_eq_true_eq] at htest
      omega
    exact ⟨hdecimal, fun hlow hhigh => Option.some.inj hvalue ▸ toInt_decimal hdecimal hlow hhigh⟩

/-- Settings with one saved variable `t`. -/
def Sample.timeout (value : Str) : Settings where
  savedToFile := DataBase.empty.setVar (DataBase.Sample.one 116) value
  runtimeOnly := DataBase.empty

/-- A variable with the value `-12`. -/
theorem twelve_read :
    (Sample.timeout ⟨[45, 49, 50], by decide⟩).getVarInt (DataBase.Sample.one 116) =
      some (BitVec.ofInt 32 (-12)) ∧ (BitVec.ofInt 32 (-12)).toInt = decimalValue [45, 49, 50] := by
  have hget : (Sample.timeout ⟨[45, 49, 50], by decide⟩).getVarInt (DataBase.Sample.one 116) =
      some (BitVec.ofInt 32 (-12)) := by decide +kernel
  exact ⟨hget, ((getVarInt_decimal_iff _ _ ⟨[45, 49, 50], by decide⟩ _ rfl hget).mpr
    (by decide +kernel)).2 (by decide) (by decide)⟩

/-- The default `15.0` of `screen_activity_timeout` is read as 1480, the empty string as 0. -/
theorem timeout_misread :
    (Sample.timeout ⟨[49, 53, 46, 48], by decide⟩).getVarInt (DataBase.Sample.one 116) =
      some 1480#32 ∧
    (Sample.timeout DataBase.Sample.nothing).getVarInt (DataBase.Sample.one 116) = some 0#32 := by
  decide +kernel

end Settings

end Pterodon.Framework
