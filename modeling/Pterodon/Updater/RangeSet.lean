import Pterodon.Lib.Text
import Pterodon.Lib.Ranges

/-!
# Sets of block ranges

A range set lists half-open ranges of block numbers, in the order in which a command
reads or writes them; the order matters and ranges may repeat blocks. Neither an empty
list nor an empty range is a range set, so both conditions are part of the type.
-/

namespace Pterodon.Updater

open Lib List

@[ext] structure RangeSet where
  ranges : Pairs
  nonempty : ranges ≠ []
  ordered : ∀ r ∈ ranges, r.1 < r.2

instance : DecidableEq RangeSet := fun _ _ => decidable_of_iff' _ RangeSet.ext_iff

namespace RangeSet

/-- The sanity checks of the constructor, after `result` blocks. -/
def sane : Nat → Pairs → Bool
  | _, [] => true
  | result, range :: more =>
    decide (range.1 < range.2) && decide (result ≤ SIZE_MAX - (range.2 - range.1)) &&
      sane (result + (range.2 - range.1)) more

theorem ordered_of_sane {result : Nat} {ranges : Pairs} (h : sane result ranges = true) :
    ∀ r ∈ ranges, r.1 < r.2 := by
  induction ranges generalizing result with
  | nil => exact ordered_nil
  | cons range more ih =>
    simp only [sane, Bool.and_eq_true, decide_eq_true_eq] at h
    exact forall_mem_cons.mpr ⟨h.1.1, ih h.2⟩

/-- The constructor; `none` is a failed `CHECK`. -/
def ofRanges (ranges : Pairs) : Option RangeSet :=
  if h : ranges ≠ [] ∧ sane 0 ranges = true then some ⟨ranges, h.1, ordered_of_sane h.2⟩ else none

def INT_MAX : Nat := 2147483647

/-- The numbers of a range text, two by two. -/
def parsePairs (parseUint : Nat → Text → Option Nat) : List Text → Option Pairs
  | [] => some []
  | [_] => none
  | first :: second :: rest =>
    match parseUint INT_MAX first, parseUint INT_MAX second with
    | some first, some second => (parsePairs parseUint rest).map ((first, second) :: ·)
    | _, _ => none

/-- `RangeSet::Parse`; `none` is a failed `CHECK`. -/
def parse (parseUint : Nat → Text → Option Nat) (rangeText : Text) : Option RangeSet :=
  match rangeText.splitOn ',' with
  | [] => none
  | count :: pieces =>
    match parseUint INT_MAX count with
    | none => none
    | some num =>
      if num = 0 ∨ num % 2 ≠ 0 ∨ num ≠ pieces.length then none
      else (parsePairs parseUint pieces).bind ofRanges

def blocks (r : RangeSet) : Nat := size r.ranges

def blockList (r : RangeSet) : List Nat := spread r.ranges

/-- The loop of `GetBlockNumber`; `none` is the `CHECK` behind it. -/
def blockNumberIn : Nat → Pairs → Option Nat
  | _, [] => none
  | idx, range :: more =>
    if idx < range.2 - range.1 then some (range.1 + idx)
    else blockNumberIn (idx - (range.2 - range.1)) more

/-- `GetBlockNumber`; `none` is a failed `CHECK`. -/
def getBlockNumber (r : RangeSet) (idx : Nat) : Option Nat :=
  if idx < r.blocks then blockNumberIn idx r.ranges else none

def overlaps (r other : RangeSet) : Bool :=
  r.ranges.any (fun p => other.ranges.any (fun q => !(decide (q.1 ≥ p.2) || decide (p.1 ≥ q.2))))

theorem mem_blockList {r : RangeSet} {b : Nat} :
    b ∈ r.blockList ↔ ∃ p ∈ r.ranges, p.1 ≤ b ∧ b < p.2 := mem_spread

theorem blockList_length (r : RangeSet) : r.blockList.length = r.blocks := spread_length r.ranges

theorem blockNumberIn_eq : ∀ (ranges : Pairs) (idx : Nat),
    blockNumberIn idx ranges = (spread ranges)[idx]?
  | [], _ => rfl
  | range :: more, idx => by
    rw [blockNumberIn, spread_cons, getElem?_append, numbers_length]
    split
    · rename_i hlt
      exact (getElem?_numbers hlt).symm
    · exact blockNumberIn_eq more _

theorem blocks_pos (r : RangeSet) : 0 < r.blocks := by
  rw [← blockList_length]
  obtain ⟨p, hp⟩ := exists_mem_of_ne_nil _ r.nonempty
  have hlt := r.ordered p hp
  exact length_pos_of_mem (mem_blockList.mpr ⟨p, hp, Nat.le_refl _, hlt⟩)

theorem overlaps_iff {r s : RangeSet} :
    r.overlaps s = true ↔ ∃ b, b ∈ r.blockList ∧ b ∈ s.blockList := by
  simp only [mem_blockList]
  exact any_overlap_iff r.ordered s.ordered

end RangeSet

end Pterodon.Updater
