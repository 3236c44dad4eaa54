import Pterodon.Lib.CString

/-!
# File names made clean

`Framework::FormatString` replaces what a file name should not have, and then resizes the string to
the greatest length. A shorter string is filled with zeros by that, which no file name may have.
-/

namespace Pterodon.Framework

open List Lib

/-- The characters that are kept. -/
def whitelist : Bytes :=
  ascii "ABCDEFGHIJKLMNOPQRSTUVWXYZabcdefghijklmnopqrstuvwxyz0123456789_-".toList

/-- The loop of `FormatString` from a position on. It stops at the first character behind
`max_length` that is not in the list; `none` is `npos`. -/
def replaced (maxLength : Option Nat) : Nat → Bytes → Bytes
  | _, [] => []
  | pos, c :: cs =>
    if c ∈ whitelist then c :: replaced maxLength (pos + 1) cs
    else if ∀ n ∈ maxLength, pos ≤ n then 95 :: replaced maxLength (pos + 1) cs
    else c :: cs

/-- `std::string::resize`. -/
def resize (n : Nat) (str : Bytes) : Bytes := padded n (str.take n)

/-- `Framework::FormatString`; `none` is `npos`. -/
def formatString (str : Bytes) (maxLength : Option Nat) : Bytes :=
  match maxLength with
  | none => replaced none 0 str
  | some n => resize n (replaced (some n) 0 str)

/-- What becomes of a character. -/
def cleaned (c : UInt8) : UInt8 := if c ∈ whitelist then c else 95

theorem replaced_take {maxLength : Option Nat} {pos n : Nat} {str : Bytes}
    (h : ∀ m ∈ maxLength, pos + n ≤ m + 1) :
    (replaced maxLength pos str).take n = (str.take n).map cleaned := by
  induction str generalizing pos n with
  | nil => simp [replaced]
  | cons c cs ih =>
    cases n with
    | zero => rfl
    | succ n =>
      have hrest := @ih (pos + 1) n fun m hm => by have := h m hm; omega
      have hpos : ∀ m ∈ maxLength, pos ≤ m := fun m hm => by have := h m hm; omega
      rw [replaced]
      split
      · next hc => simp [cleaned, hc, hrest]
      · next hc => simp [cleaned, hc, hrest]

theorem length_replaced (maxLength : Option Nat) (pos : Nat) (str : Bytes) :
    (replaced maxLength pos str).length = str.length := by
  induction str generalizing pos with
  | nil => rfl
  | cons c cs ih =>
    rw [replaced]
    split
    · simp [ih]
    · split <;> simp [ih]

/-- The characters up to the greatest length are kept or replaced, if there are as many. -/
theorem formatString_eq {str : Bytes} {maxLength : Option Nat}
    (h : ∀ n ∈ maxLength, n ≤ str.length) :
    formatString str maxLength = (str.take (maxLength.getD str.length)).map cleaned := by
  cases maxLength with
  | none =>
    rw [Option.getD_none, ← @replaced_take none 0 _ _ nofun, take_of_length_le
      (Nat.le_of_eq (length_replaced ..))]
    rfl
  | some n =>
    have htake := @replaced_take (some n) 0 n str
      fun m hm => by cases hm; omega
    rw [formatString, resize, htake, padded]
    simp [h n rfl]

theorem length_formatString (str : Bytes) (n : Nat) : (formatString str (some n)).length = n := by
  rw [formatString, resize, padded_length (length_take_le ..)]

/-- What comes out is a file name of the right length in which the allowed characters are as they
were, exactly for a string that is not shorter than the greatest length. -/
theorem formatString_clean_iff (str : Bytes) (maxLength : Option Nat) :
    ((∀ c ∈ formatString str maxLength, c ∈ whitelist) ∧
      (formatString str maxLength).length = min str.length (maxLength.getD str.length) ∧
      ∀ (i : Nat) (c : UInt8), i < (formatString str maxLength).length → str[i]? = some c →
        c ∈ whitelist → (formatString str maxLength)[i]? = some c) ↔
      ∀ n ∈ maxLength, n ≤ str.length := by
  constructor
  · rintro ⟨-, hlength, -⟩ n hn
    obtain rfl : maxLength = some n := hn
    -- a longer string would have the greatest length
    rw [length_formatString, Option.getD_some] at hlength
    omega
  · intro h
    have hin : ∀ c, cleaned c ∈ whitelist := by
      intro c
      rw [cleaned]
      split
      · assumption
      · decide
    rw [formatString_eq h]
    refine ⟨?_, by simp [Nat.min_comm], fun i c hi hc hallowed => ?_⟩
    · rintro _ hc
      obtain ⟨c, -, rfl⟩ := mem_map.mp hc
      exact hin c
    · rw [length_map, length_take] at hi
      simp [getElem?_take, hc, cleaned, hallowed]
      omega

/-- `a b` becomes `a_`. -/
theorem blank_replaced : (formatString [97, 32, 98] (some 2)).length = 2 ∧
    formatString [97, 32, 98] (some 2) = [97, 95] :=
  ⟨((formatString_clean_iff [97, 32, 98] (some 2)).mpr (by simp)).2.1, by decide⟩

/-- `a` is filled with a zero. -/
theorem zero_appended : formatString [97] (some 2) = [97, 0] ∧ 0 ∉ whitelist := by
  decide

end Pterodon.Framework
