import Mathlib.Data.List.Basic

/-!
# Filling in a form piece by piece

A form is a list of slots that are to be filled in order, with marks between them. A mark is passed
when there is something for the slots behind it, and not before. `fill` fills a form from a list of
data as far as it goes, and returns what was passed and filled and the rest of the form. Data that
comes in pieces fills the form as the whole does (`fill_append`).
-/

namespace Pterodon.Lib

open List

inductive Item (μ α : Type) where
  | mark (m : μ)
  | slot (a : α)

section Feed

variable {μ α δ : Type}

/-- Fill a form. Data beyond its end is dropped. -/
def fill : List (Item μ α) → List δ → List (Item μ (α × δ)) × List (Item μ α)
  | form, [] => ([], form)
  | [], _ :: _ => ([], [])
  | .mark m :: form, x :: xs => (.mark m :: (fill form (x :: xs)).1, (fill form (x :: xs)).2)
  | .slot a :: form, x :: xs => (.slot (a, x) :: (fill form xs).1, (fill form xs).2)

/-- The slots without the marks. -/
def slots : List (Item μ α) → List α
  | [] => []
  | .mark _ :: form => slots form
  | .slot a :: form => a :: slots form

@[simp] theorem fill_nil (form : List (Item μ α)) : fill form ([] : List δ) = ([], form) := by
  cases form <;> rfl

@[simp] theorem fill_nil_left (xs : List δ) : fill ([] : List (Item μ α)) xs = ([], []) := by
  cases xs <;> rfl

theorem fill_mark (m : μ) (form : List (Item μ α)) {xs : List δ} (h : xs ≠ []) :
    fill (.mark m :: form) xs = (.mark m :: (fill form xs).1, (fill form xs).2) := by
  cases xs with
  | nil => exact absurd rfl h
  | cons x xs => rfl

theorem fill_append : ∀ (form : List (Item μ α)) (xs ys : List δ),
    fill form (xs ++ ys) =
      ((fill form xs).1 ++ (fill (fill form xs).2 ys).1, (fill (fill form xs).2 ys).2)
  | form, [], ys => by rw [fill_nil]; rfl
  | [], _ :: _, ys => by rw [fill_nil_left, fill_nil_left, fill_nil_left]; rfl
  | .mark m :: form, x :: xs, ys => by
    have ih := fill_append form (x :: xs) ys
    rw [fill_mark m form (show x :: xs ++ ys ≠ [] from cons_ne_nil _ _), ih]
    rfl
  | .slot a :: form, x :: xs, ys => by
    have ih := fill_append form xs ys
    rw [cons_append, fill, ih]
    rfl

theorem fill_row (rest : List (Item μ α)) : ∀ {as : List α} {xs : List δ}, xs.length ≤ as.length →
    fill (as.map Item.slot ++ rest) xs =
      ((as.zip xs).map Item.slot, (as.drop xs.length).map Item.slot ++ rest)
  | as, [], _ => by rw [fill_nil, zip_nil_right]; rfl
  | [], _ :: _, h => absurd h (Nat.not_succ_le_zero _)
  | a :: as, x :: xs, h => by
    have ih := fill_row rest (Nat.le_of_succ_le_succ h)
    rw [map_cons, cons_append, fill, ih]
    rfl

theorem slots_append : ∀ xs ys : List (Item μ α), slots (xs ++ ys) = slots xs ++ slots ys
  | [], _ => rfl
  | .mark _ :: xs, ys => slots_append xs ys
  | .slot a :: xs, ys => congrArg (a :: ·) (slots_append xs ys)

theorem slots_row : ∀ as : List α, slots (as.map (Item.slot (μ := μ))) = as
  | [] => rfl
  | a :: as => congrArg (a :: ·) (slots_row as)

theorem slots_fill : ∀ (form : List (Item μ α)) (xs : List δ),
    slots (fill form xs).1 = (slots form).zip xs ∧
      slots (fill form xs).2 = (slots form).drop xs.length
  | form, [] => by
    rw [fill_nil, zip_nil_right]
    exact ⟨rfl, rfl⟩
  | [], _ :: _ => ⟨rfl, rfl⟩
  | .mark _ :: form, x :: xs => slots_fill form (x :: xs)
  | .slot a :: form, x :: xs => by
    obtain ⟨hfilled, hrest⟩ := slots_fill form xs
    exact ⟨congrArg ((a, x) :: ·) hfilled, hrest⟩

theorem fill_suffix : ∀ (form : List (Item μ α)) (xs : List δ), (fill form xs).2 <:+ form
  | form, [] => ⟨[], congrArg Prod.snd (fill_nil form)⟩
  | [], _ :: _ => suffix_rfl
  | .mark _ :: form, x :: xs => (fill_suffix form (x :: xs)).trans (suffix_cons _ _)
  | .slot _ :: form, _ :: xs => (fill_suffix form xs).trans (suffix_cons _ _)

end Feed

end Pterodon.Lib
