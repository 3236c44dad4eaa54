import Mathlib.Logic.Basic
import Mathlib.Data.List.Basic

/-!
# Text

Strings as lists of characters, so that they compute.
-/

namespace Pterodon.Lib

open List

abbrev Text : Type := List Char

instance : LawfulBEq Text := inferInstance

/-- The value of a string of decimal digits. -/
def decimal (s : Text) : Option Nat :=
  if s = [] then none
  else s.foldl (fun acc c => acc.bind fun n =>
    if c.isDigit then some (n * 10 + (c.toNat - '0'.toNat)) else none) (some 0)

theorem decimal_toDigits (n : Nat) : decimal (Nat.toDigits 10 n) = some n := by
  have hfold : ∀ (cs : Text), (∀ c ∈ cs, c.isDigit = true) → ∀ acc,
      cs.foldl (fun acc c => acc.bind fun n =>
        if c.isDigit then some (n * 10 + (c.toNat - '0'.toNat)) else none) (some acc) =
      some (Nat.ofDigitChars 10 cs acc) := by
    intro cs
    induction cs with
    | nil => exact fun _ _ => rfl
    | cons c cs ih =>
      intro hall acc
      rw [foldl_cons, Option.bind_some, if_pos (hall c mem_cons_self),
        ih (forall_mem_cons.mp hall).2, Nat.mul_comm]
      rfl
  rw [decimal, if_neg Nat.toDigits_ne_nil,
    hfold _ fun c hc => Nat.isDigit_of_mem_toDigits (by omega) (by omega) hc]
  exact congrArg some Nat.ofDigitChars_ten_toDigits

end Pterodon.Lib
