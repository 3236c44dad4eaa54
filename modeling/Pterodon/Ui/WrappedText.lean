import Mathlib.Algebra.Order.Ring.Int
import Pterodon.Lib.CString

/-!
# Wrapped text

`DrawWrappedTextLines` looks at one character more than fits. If the line goes on there, it is cut
at the last blank, which is dropped, or where it is full. Every round gets on, since even a blank at
the start is dropped; but `text_cols_ + 1` is a `size_t`, and 0 columns are looked at if it wraps.
-/

namespace Pterodon.Ui

open Lib List

def isBlank (c : UInt8) : Bool := c = 32 || c = 9 || c = 10

/-- `find_last_of(" \t\n")`. -/
def lastBlank : Bytes → Option Nat
  | [] => none
  | c :: cs => ((lastBlank cs).map (· + 1)).or (if isBlank c then some 0 else none)

/-- One round of the loop: the piece that is drawn, and by how much `next_start` moves. -/
def wrapStep (cols : Nat) (rest : Bytes) : Bytes × Nat :=
  let sub := rest.take ((cols + 1) % 2 ^ 64)
  if sub.length ≤ cols then (sub, sub.length)
  else
    match lastBlank sub with
    | none => (sub.take cols, cols)
    | some lastSpace => (sub.take lastSpace, lastSpace + 1)

/-- The loop over what is left of a line; `none` if the rounds do not do. -/
def wrapLine (cols : Nat) : Nat → Bytes → Option (List Bytes)
  | _, [] => some []
  | 0, _ :: _ => none
  | rounds + 1, c :: cs =>
    (wrapLine cols rounds ((c :: cs).drop (wrapStep cols (c :: cs)).2)).map
      ((wrapStep cols (c :: cs)).1 :: ·)

/-- `DrawWrappedTextLines`: what is drawn for each line. -/
def drawWrappedTextLines (cols rounds : Nat) (lines : List Bytes) : Option (List (List Bytes)) :=
  lines.mapM (wrapLine cols rounds)

/-- The pieces are the line, but for a blank that may be missing behind each. -/
inductive Cut : Bytes → List Bytes → Prop where
  | nil : Cut [] []
  | piece {p rest : Bytes} {ps : List Bytes} : Cut rest ps → Cut (p ++ rest) (p :: ps)
  | blank {p rest : Bytes} {b : UInt8} {ps : List Bytes} : isBlank b = true →
      Cut rest ps → Cut (p ++ b :: rest) (p :: ps)

section Wrapping

variable {cols : Nat} {line : Bytes}

theorem lastBlank_some {cs : Bytes} {i : Nat} (h : lastBlank cs = some i) :
    ∃ b rest, cs = cs.take i ++ b :: rest ∧ isBlank b = true ∧ i < cs.length := by
  induction cs generalizing i with
  | nil => cases h
  | cons c cs ih =>
    rw [lastBlank] at h
    cases hrest : lastBlank cs with
    | some j =>
      obtain ⟨b, rest, hcs, hb, hj⟩ := ih hrest
      rw [hrest] at h
      obtain rfl : j + 1 = i := Option.some.inj h
      exact ⟨b, rest, by rw [take_succ_cons, cons_append, ← hcs], hb, Nat.succ_lt_succ hj⟩
    | none =>
      rw [hrest] at h
      by_cases hc : isBlank c = true
      · rw [if_pos hc] at h
        obtain rfl : 0 = i := Option.some.inj h
        exact ⟨c, cs, rfl, hc, Nat.succ_pos _⟩
      · rw [if_neg hc] at h
        cases h

/-- A round draws a piece that fits and gets on by it, or by it and a blank. -/
theorem wrapStep_cases (hpos : 0 < cols) (hcols : cols + 1 < 2 ^ 64) (hne : line ≠ []) :
    (wrapStep cols line).1.length ≤ cols ∧ 0 < (wrapStep cols line).2 ∧
    ∃ rest, rest = line.drop (wrapStep cols line).2 ∧
      (line = (wrapStep cols line).1 ++ rest ∨
        ∃ b, isBlank b = true ∧ line = (wrapStep cols line).1 ++ b :: rest) := by
  have hlen := length_pos_iff.mpr hne
  rw [wrapStep, Nat.mod_eq_of_lt hcols]
  split
  · next hall =>
    rw [length_take] at hall
    have htake : line.take (cols + 1) = line := take_of_length_le (by omega)
    rw [htake]
    exact ⟨show line.length ≤ cols by omega, hlen, _, rfl, .inl (by rw [drop_length, append_nil])⟩
  split
  · rw [take_take, Nat.min_eq_left (Nat.le_succ cols)]
    exact ⟨length_take_le .., hpos, _, rfl, .inl (take_append_drop ..).symm⟩
  · next i hblank =>
    obtain ⟨b, rest, hsub, hb, hi⟩ := lastBlank_some hblank
    rw [length_take] at hi
    have hline : line = (line.take (cols + 1)).take i ++ b :: (rest ++ line.drop (cols + 1)) := by
      rw [← cons_append, ← append_assoc, ← hsub, take_append_drop]
    have hpiece : ((line.take (cols + 1)).take i).length = i := by
      rw [length_take, length_take]
      omega
    generalize rest ++ line.drop (cols + 1) = tail at hline
    generalize (line.take (cols + 1)).take i = p at hline hpiece ⊢
    subst hpiece
    refine ⟨show p.length ≤ cols by omega, Nat.succ_pos _, tail, ?_, .inr ⟨b, hb, hline⟩⟩
    rw [hline]
    simp [drop_append]

theorem wrapLine_cut (hpos : 0 < cols) (hcols : cols + 1 < 2 ^ 64) {rounds : Nat}
    (hrounds : line.length ≤ rounds) :
    ∃ ps, wrapLine cols rounds line = some ps ∧ Cut line ps ∧ ∀ p ∈ ps, p.length ≤ cols := by
  induction rounds generalizing line with
  | zero =>
    obtain rfl := length_eq_zero_iff.mp (Nat.le_zero.mp hrounds)
    exact ⟨[], rfl, .nil, forall_mem_nil _⟩
  | succ rounds ih =>
    cases line with
    | nil => exact ⟨[], rfl, .nil, forall_mem_nil _⟩
    | cons c cs =>
      obtain ⟨hfits, hmove, rest, hrest, hcut⟩ := wrapStep_cases hpos hcols (cons_ne_nil c cs)
      generalize hstep : wrapStep cols (c :: cs) = step at hfits hmove hrest hcut
      have hleft : rest.length ≤ rounds := by
        rw [hrest, length_drop]
        omega
      obtain ⟨ps, hps, hcutrest, hall⟩ := ih hleft
      refine ⟨step.1 :: ps, ?_, ?_, forall_mem_cons.mpr ⟨hfits, hall⟩⟩
      · rw [wrapLine, hstep, ← hrest, hps]
        rfl
      · rcases hcut with hline | ⟨b, hb, hline⟩
        · exact hline ▸ .piece hcutrest
        · exact hline ▸ .blank hb hcutrest

end Wrapping

/-- With a number of columns that can be counted one up, every line is drawn in pieces that fit and
that are its text, but for a blank at each cut. -/
theorem drawWrappedTextLines_cut (cols rounds : Nat) (lines : List Bytes) (hpos : 0 < cols)
    (hcols : cols + 1 < 2 ^ 64) (hrounds : ∀ line ∈ lines, line.length ≤ rounds) :
    ∃ drawn, drawWrappedTextLines cols rounds lines = some drawn ∧
      Forall₂ (fun line ps => Cut line ps ∧ ∀ p ∈ ps, p.length ≤ cols) lines drawn := by
  induction lines with
  | nil => exact ⟨[], rfl, .nil⟩
  | cons line lines ih =>
    obtain ⟨hline, hlines⟩ := forall_mem_cons.mp hrounds
    obtain ⟨ps, hps, hcut⟩ := wrapLine_cut hpos hcols hline
    obtain ⟨drawn, hdrawn, hall⟩ := ih hlines
    rw [drawWrappedTextLines] at hdrawn
    exact ⟨ps :: drawn, by simp [drawWrappedTextLines, hps, hdrawn], .cons hcut hall⟩

/-- `a b` in two columns. -/
theorem two_letters_drawn : ∃ drawn, drawWrappedTextLines 2 3 [[97, 32, 98]] = some drawn ∧
    Forall₂ (fun line ps => Cut line ps ∧ ∀ p ∈ ps, p.length ≤ 2) [[97, 32, 98]] drawn :=
  drawWrappedTextLines_cut 2 3 [[97, 32, 98]] (by decide) (by decide) (by decide)

/-- With as many columns as a `size_t` can count, the loop does not get on. -/
theorem letter_never_drawn :
    ¬ ∃ rounds drawn, drawWrappedTextLines (2 ^ 64 - 1) rounds [[97]] = some drawn := by
  have hloop : ∀ rounds, wrapLine (2 ^ 64 - 1) rounds [97] = none := by
    intro rounds
    induction rounds with
    | zero => rfl
    | succ rounds ih =>
      have hstep : wrapStep (2 ^ 64 - 1) [97] = ([], 0) := by decide
      rw [wrapLine, hstep, drop_zero, ih, Option.map_none]
  rintro ⟨rounds, drawn, h⟩
  rw [drawWrappedTextLines, mapM_cons, hloop] at h
  cases h

end Pterodon.Ui
