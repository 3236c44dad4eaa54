import Mathlib.Data.List.Sort
import Pterodon.Lib.CString
import Pterodon.Lib.Ranges
import Pterodon.ApplyPatch.ImgPatch

/-!
# Sorted sets of block ranges

`SortedRangeSet` of `otautil` keeps half-open ranges of blocks sorted, and `Insert` merges
ranges that overlap or touch, so that two ranges of a set always have a block between them.
Both are part of the type.

A set stands for a file of its own, the blocks of the set one after the other.
`GetOffsetInRangeSet` says where a byte of the original file is in it: bytes that lie in one
range of the set stand together there too (`offset_contents`).
-/

namespace Pterodon.ImgDiff

open Lib ApplyPatch List

variable {r : Nat × Nat} {rest : Pairs} {n start len o : Nat} {file : Bytes}

/-- Half-open ranges of blocks. -/
structure SortedRangeSet where
  ranges : Pairs
  ordered : ∀ r ∈ ranges, r.1 < r.2
  apart : ranges.Pairwise fun a b => a.2 < b.1
  deriving DecidableEq

variable (rs : SortedRangeSet)

namespace SortedRangeSet

/-! ## Merging -/

/-- The order of `std::pair`. -/
def rangeLe (a b : Nat × Nat) : Prop := a.1 < b.1 ∨ a.1 = b.1 ∧ a.2 ≤ b.2

instance : DecidableRel rangeLe := fun _ _ => inferInstanceAs (Decidable (_ ∨ _))

instance : Std.Total rangeLe :=
  ⟨fun a b => by unfold rangeLe; omega⟩

instance : IsTrans (Nat × Nat) rangeLe :=
  ⟨fun a b c hab hbc => by unfold rangeLe at *; omega⟩

/-- The loop of `Insert` over sorted ranges, `cur` being the one that still grows. -/
def mergeRanges (cur : Nat × Nat) : Pairs → Pairs
  | [] => [cur]
  | r :: rest =>
    if r.1 ≤ cur.2 then mergeRanges (cur.1, max cur.2 r.2) rest else cur :: mergeRanges r rest

/-- `Insert`, on the ranges of both sets. -/
def mergeAll (ranges : Pairs) : Pairs :=
  match ranges.insertionSort rangeLe with
  | [] => []
  | r :: rest => mergeRanges r rest

def ByStart (ranges : Pairs) : Prop := ranges.Pairwise fun a b => a.1 ≤ b.1

theorem ByStart.grow {cur : Nat × Nat} (h : ByStart (cur :: r :: rest)) :
    ByStart ((cur.1, max cur.2 r.2) :: rest) := by
  obtain ⟨hcur, hrest⟩ := pairwise_cons.mp h
  exact pairwise_cons.mpr
    ⟨(forall_mem_cons.mp hcur).2, (pairwise_cons.mp hrest).2⟩

theorem mergeRanges_covers : ∀ {cur : Nat × Nat},
    ByStart (cur :: rest) → ∀ r ∈ cur :: rest,
      ∃ r' ∈ mergeRanges cur rest, r'.1 ≤ r.1 ∧ r.2 ≤ r'.2 := by
  induction rest with
  | nil =>
    intro cur _ r hr
    obtain rfl := mem_singleton.mp hr
    exact ⟨r, mem_singleton_self r, Nat.le_refl _, Nat.le_refl _⟩
  | cons d rest ih =>
    intro cur h r hr
    have hd : cur.1 ≤ d.1 := (pairwise_cons.mp h).1 d mem_cons_self
    rw [mergeRanges]
    split
    · obtain ⟨r', hr', hlo, hhi⟩ := ih h.grow _ mem_cons_self
      rcases mem_cons.mp hr with rfl | hr
      · exact ⟨r', hr', hlo, by omega⟩
      rcases mem_cons.mp hr with rfl | hr
      · exact ⟨r', hr', by omega, by omega⟩
      · exact ih h.grow r (mem_cons_of_mem _ hr)
    · rcases mem_cons.mp hr with rfl | hr
      · exact ⟨r, mem_cons_self, Nat.le_refl _, Nat.le_refl _⟩
      · obtain ⟨r', hr', hin⟩ := ih (pairwise_cons.mp h).2 r hr
        exact ⟨r', mem_cons_of_mem _ hr', hin⟩

theorem mergeRanges_sub : ∀ {cur : Nat × Nat},
    ByStart (cur :: rest) → ∀ r' ∈ mergeRanges cur rest, ∀ n, r'.1 ≤ n → n < r'.2 →
      ∃ r ∈ cur :: rest, r.1 ≤ n ∧ n < r.2 := by
  induction rest with
  | nil => exact fun _ r' hr' n hlo hhi => ⟨r', hr', hlo, hhi⟩
  | cons d rest ih =>
    intro cur h r' hr' n hlo hhi
    rw [mergeRanges] at hr'
    split at hr'
    · obtain ⟨r, hr, hlo, hhi⟩ := ih h.grow r' hr' n hlo hhi
      rcases mem_cons.mp hr with rfl | hr
      · -- the blocks of the grown range: those of `cur`, then those of `d`
        by_cases hn : n < cur.2
        · exact ⟨cur, mem_cons_self, hlo, hn⟩
        · exact ⟨d, mem_cons_of_mem _ mem_cons_self, by omega, by omega⟩
      · exact ⟨r, mem_cons_of_mem _ (mem_cons_of_mem _ hr), hlo, hhi⟩
    · rcases mem_cons.mp hr' with rfl | hr'
      · exact ⟨r', mem_cons_self, hlo, hhi⟩
      · obtain ⟨r, hr, hin⟩ := ih (pairwise_cons.mp h).2 r' hr' n hlo hhi
        exact ⟨r, mem_cons_of_mem _ hr, hin⟩

theorem mergeRanges_ordered : ∀ {cur : Nat × Nat},
    (∀ r ∈ cur :: rest, r.1 < r.2) → ∀ r ∈ mergeRanges cur rest, r.1 < r.2 := by
  induction rest with
  | nil => exact fun h => h
  | cons d rest ih =>
    intro cur h r hr
    have hcur := h cur mem_cons_self
    rw [mergeRanges] at hr
    split at hr
    · refine ih (fun x hx => ?_) r hr
      rcases mem_cons.mp hx with rfl | hx
      · omega
      · exact h x (mem_cons_of_mem _ (mem_cons_of_mem _ hx))
    · rcases mem_cons.mp hr with rfl | hr
      · exact hcur
      · exact ih (forall_mem_cons.mp h).2 r hr

theorem mergeRanges_start : ∀ {cur : Nat × Nat},
    ByStart (cur :: rest) → ∀ r ∈ mergeRanges cur rest, cur.1 ≤ r.1 := by
  induction rest with
  | nil =>
    intro cur _ r hr
    rw [mem_singleton.mp hr]
  | cons d rest ih =>
    intro cur h r hr
    have hd : cur.1 ≤ d.1 := (pairwise_cons.mp h).1 d mem_cons_self
    rw [mergeRanges] at hr
    split at hr
    · exact ih h.grow r hr
    · rcases mem_cons.mp hr with rfl | hr
      · exact Nat.le_refl _
      · exact Nat.le_trans hd (ih (pairwise_cons.mp h).2 r hr)

theorem mergeRanges_apart : ∀ {cur : Nat × Nat},
    ByStart (cur :: rest) → (mergeRanges cur rest).Pairwise fun a b => a.2 < b.1 := by
  induction rest with
  | nil => exact fun _ => pairwise_singleton _ _
  | cons d rest ih =>
    intro cur h
    rw [mergeRanges]
    split
    · exact ih h.grow
    · have hrest := (pairwise_cons.mp h).2
      refine pairwise_cons.mpr ⟨fun r hr => ?_, ih hrest⟩
      have := mergeRanges_start hrest r hr
      omega

theorem mergeAll_cases (ranges : Pairs) :
    (ranges = [] ∧ mergeAll ranges = []) ∨
    ∃ r rest, ByStart (r :: rest) ∧ (∀ x, x ∈ r :: rest ↔ x ∈ ranges) ∧
      mergeAll ranges = mergeRanges r rest := by
  unfold mergeAll
  have hmem : ∀ x, x ∈ ranges.insertionSort rangeLe ↔ x ∈ ranges :=
    fun x => mem_insertionSort _
  have hsorted := pairwise_insertionSort rangeLe ranges
  cases hs : ranges.insertionSort rangeLe with
  | nil =>
    rw [hs] at hmem
    have hnil : ranges = [] :=
      eq_nil_iff_forall_not_mem.mpr fun x hx => absurd ((hmem x).mpr hx) not_mem_nil
    exact .inl ⟨hnil, rfl⟩
  | cons r rest =>
    rw [hs] at hmem hsorted
    refine .inr ⟨r, rest, hsorted.imp fun hle => ?_, hmem, rfl⟩
    unfold rangeLe at hle
    omega

theorem mergeAll_ordered {ranges : Pairs} (h : ∀ r ∈ ranges, r.1 < r.2) :
    ∀ r ∈ mergeAll ranges, r.1 < r.2 := by
  rcases mergeAll_cases ranges with ⟨_, heq⟩ | ⟨r, rest, _, hmem, heq⟩
  · rw [heq]
    exact nofun
  · rw [heq]
    exact mergeRanges_ordered fun x hx => h x ((hmem x).mp hx)

theorem mergeAll_apart (ranges : Pairs) : (mergeAll ranges).Pairwise fun a b => a.2 < b.1 := by
  rcases mergeAll_cases ranges with ⟨_, heq⟩ | ⟨r, rest, hstart, _, heq⟩
  · rw [heq]
    exact List.Pairwise.nil
  · rw [heq]
    exact mergeRanges_apart hstart

theorem mergeAll_inRanges {ranges : Pairs} : InRanges (mergeAll ranges) n ↔ InRanges ranges n := by
  rcases mergeAll_cases ranges with ⟨hnil, heq⟩ | ⟨r, rest, hstart, hmem, heq⟩
  · rw [heq, hnil]
  · rw [heq]
    constructor
    · rintro ⟨r', hr', hlo, hhi⟩
      obtain ⟨x, hx, hin⟩ := mergeRanges_sub hstart r' hr' n hlo hhi
      exact ⟨x, (hmem x).mp hx, hin⟩
    · rintro ⟨x, hx, hlo, hhi⟩
      obtain ⟨r', hr', hlo', hhi'⟩ := mergeRanges_covers hstart x ((hmem x).mpr hx)
      exact ⟨r', hr', by omega, by omega⟩

/-! ## The operations -/

def kBlockSize : Nat := 4096

def empty : SortedRangeSet := ⟨[], ordered_nil, List.Pairwise.nil⟩

/-- The constructor, for one range; `PushBack` drops an empty one, and one of all block numbers. -/
def ofRange (r : Nat × Nat) : SortedRangeSet :=
  if h : r.1 < r.2 ∧ r.2 - r.1 < SIZE_MAX then
    ⟨[r], fun x hx => by rw [mem_singleton.mp hx]; exact h.1, pairwise_singleton _ _⟩
  else empty

def blocks : Nat := (rs.ranges.map fun r => r.2 - r.1).sum

/-- `Insert` of another set. -/
def insertSet (rs other : SortedRangeSet) : SortedRangeSet :=
  if other.ranges = [] then rs
  else
    ⟨mergeAll (rs.ranges ++ other.ranges),
      mergeAll_ordered fun r hr => (mem_append.mp hr).elim (rs.ordered r) (other.ordered r),
      mergeAll_apart _⟩

/-- The blocks that some bytes of a file occupy; `start + len - 1` is a `size_t`. -/
def rangeOf (start len : Nat) : Nat × Nat :=
  (start / kBlockSize, (start + len + (2 ^ 64 - 1)) % 2 ^ 64 / kBlockSize + 1)

/-- `Insert` of some bytes of a file. -/
def insert (start len : Nat) : SortedRangeSet :=
  rs.insertSet (ofRange (rangeOf start len))

/-- `Overlaps` with another set. -/
def overlapsSet (rs other : SortedRangeSet) : Bool :=
  rs.ranges.any fun r =>
    other.ranges.any fun r' => !(decide (r'.1 ≥ r.2) || decide (r.1 ≥ r'.2))

/-- `Overlaps` with some bytes of a file. -/
def overlaps (start len : Nat) : Bool :=
  rs.overlapsSet (ofRange (rangeOf start len))

/-- The loop of `GetOffsetInRangeSet`, `newBlockStart` blocks into the set. A failed `CHECK` is
`none`. -/
def offsetFrom (oldOffset : Nat) : Nat → Pairs → Option Nat
  | _, [] => none
  | newBlockStart, r :: rest =>
    if r.2 ≤ oldOffset / kBlockSize then
      offsetFrom oldOffset (newBlockStart + (r.2 - r.1)) rest
    else if r.1 ≤ oldOffset / kBlockSize then
      some ((newBlockStart + (oldOffset / kBlockSize - r.1)) * kBlockSize + oldOffset % kBlockSize)
    else none

def getOffsetInRangeSet (oldOffset : Nat) : Option Nat :=
  offsetFrom oldOffset 0 rs.ranges

/-- The bytes of a file that one range of blocks holds. -/
def rangeBytes (file : Bytes) (r : Nat × Nat) : Bytes :=
  sliceOf file (r.1 * kBlockSize) (min file.length (r.2 * kBlockSize) - r.1 * kBlockSize)

/-- The bytes of a file that the blocks of a set hold, in the order of the set. -/
def contents (file : Bytes) (rs : SortedRangeSet) : Bytes :=
  rs.ranges.flatMap (rangeBytes file)

/-! ## Blocks -/

def Has (n : Nat) : Prop := ∃ r ∈ rs.ranges, r.1 ≤ n ∧ n < r.2

theorem not_has_empty (n : Nat) : ¬ empty.Has n := fun h => by
  obtain ⟨r, hr, _⟩ := h
  cases hr

variable {rs other : SortedRangeSet}

theorem has_insertSet : (rs.insertSet other).Has n ↔ rs.Has n ∨ other.Has n := by
  unfold insertSet
  split
  · rename_i hnil
    refine ⟨Or.inl, fun h => h.elim id fun h => ?_⟩
    obtain ⟨r, hr, _⟩ := h
    rw [hnil] at hr
    cases hr
  · refine Iff.trans mergeAll_inRanges ?_
    unfold InRanges Has
    simp only [mem_append, or_and_right, exists_or]

theorem overlapsSet_iff : rs.overlapsSet other = true ↔ ∃ n, rs.Has n ∧ other.Has n :=
  any_overlap_iff rs.ordered other.ordered

theorem not_overlapsSet (h : rs.overlapsSet other = false) (hn : rs.Has n) : ¬ other.Has n := by
  intro hother
  rw [overlapsSet_iff.mpr ⟨n, hn, hother⟩] at h
  cases h

theorem insertSet_covers (hr : r ∈ rs.ranges ∨ r ∈ other.ranges) :
    ∃ r' ∈ (rs.insertSet other).ranges, r'.1 ≤ r.1 ∧ r.2 ≤ r'.2 := by
  unfold insertSet
  split
  · rename_i hnil
    rw [hnil] at hr
    exact ⟨r, hr.resolve_right not_mem_nil, Nat.le_refl _, Nat.le_refl _⟩
  · have hmemr := mem_append.mpr hr
    rcases mergeAll_cases (rs.ranges ++ other.ranges) with ⟨hnil, _⟩ | ⟨_, _, hstart, hmem, heq⟩
    · rw [hnil] at hmemr
      cases hmemr
    · dsimp only
      rw [heq]
      exact mergeRanges_covers hstart r ((hmem r).mpr hmemr)

theorem rangeOf_eq (hlen : 0 < len) (hfile : start + len < 2 ^ 64) :
    rangeOf start len = (start / kBlockSize, (start + len - 1) / kBlockSize + 1) := by
  have hmod : (start + len + (2 ^ 64 - 1)) % 2 ^ 64 = start + len - 1 := by omega
  rw [rangeOf, hmod]

theorem insert_covers (rs : SortedRangeSet) (hlen : 0 < len) (hfile : start + len < 2 ^ 64) :
    ∃ r ∈ (rs.insert start len).ranges,
      r.1 * kBlockSize ≤ start ∧ start + len ≤ r.2 * kBlockSize := by
  have heq := rangeOf_eq hlen hfile
  have hlt : (rangeOf start len).1 < (rangeOf start len).2 ∧
      (rangeOf start len).2 - (rangeOf start len).1 < SIZE_MAX := by
    rw [heq]
    unfold kBlockSize SIZE_MAX
    omega
  have hmem : rangeOf start len ∈ (ofRange (rangeOf start len)).ranges := by
    unfold ofRange
    rw [dif_pos hlt]
    exact mem_singleton_self _
  obtain ⟨r, hr, hlo, hhi⟩ := insertSet_covers (Or.inr hmem)
  refine ⟨r, hr, ?_⟩
  rw [heq] at hlo hhi
  unfold kBlockSize at hlo hhi ⊢
  omega

/-! ## Offsets -/

theorem rangeBytes_length (file : Bytes) (r : Nat × Nat) :
    (rangeBytes file r).length = min file.length (r.2 * kBlockSize) - r.1 * kBlockSize := by
  unfold rangeBytes sliceOf
  rw [length_take, length_drop]
  omega

theorem sliceOf_sliceOf (h : o + n ≤ len) :
    sliceOf (sliceOf file start len) o n = sliceOf file (start + o) n := by
  unfold sliceOf
  rw [drop_take, take_take, drop_drop, Nat.min_eq_left (by omega)]

theorem sliceOf_append_left {x y : Bytes} (h : o + n ≤ x.length) :
    sliceOf (x ++ y) o n = sliceOf x o n := by
  unfold sliceOf
  rw [drop_append_of_le_length (by omega), take_append_of_le_length]
  rw [length_drop]
  omega

theorem sliceOf_append_right {x y : Bytes} : sliceOf (x ++ y) (x.length + o) n = sliceOf y o n := by
  unfold sliceOf
  rw [← drop_drop, drop_left]

/-- Where the bytes of one range stand, for the loop of `GetOffsetInRangeSet`. -/
theorem offsetFrom_contents (hlen : 0 < len) (hlo : r.1 * kBlockSize ≤ start)
    (hhi : start + len ≤ r.2 * kBlockSize) (hfile : start + len ≤ file.length) :
    ∀ {ranges : Pairs},
    ranges.Pairwise (fun a b => a.2 < b.1) → (∀ q ∈ ranges, q.1 < q.2) → r ∈ ranges →
    ∃ o, (∀ k, offsetFrom start k ranges = some (k * kBlockSize + o)) ∧
      o + len ≤ (ranges.flatMap (rangeBytes file)).length ∧
      sliceOf (ranges.flatMap (rangeBytes file)) o len = sliceOf file start len
  | q :: rest, hapart, hordered, hr => by
    obtain ⟨hq, hrest⟩ := pairwise_cons.mp hapart
    have hlength := rangeBytes_length file q
    rw [flatMap_cons, length_append]
    rcases mem_cons.mp hr with rfl | hr
    · -- the range itself: the blocks before the first byte are counted from its start
      have hin : r.1 ≤ start / kBlockSize ∧ ¬ r.2 ≤ start / kBlockSize := by
        unfold kBlockSize at hlo hhi ⊢
        omega
      have hvalue : ∀ k, (k + (start / kBlockSize - r.1)) * kBlockSize + start % kBlockSize
          = k * kBlockSize + (start - r.1 * kBlockSize) := by
        unfold kBlockSize at hlo ⊢
        omega
      refine ⟨start - r.1 * kBlockSize, fun k => ?_, ?_, ?_⟩
      · rw [offsetFrom, if_neg hin.2, if_pos hin.1, hvalue]
      · omega
      · rw [sliceOf_append_left (by omega), rangeBytes, sliceOf_sliceOf (by omega)]
        congr 1
        omega
    · -- a later range: this one has all its blocks in the file
      have hgap := hq r hr
      obtain ⟨o, hoffset, hle, hslice⟩ := offsetFrom_contents hlen hlo hhi hfile hrest
        (forall_mem_cons.mp hordered).2 hr
      have hwhole : (rangeBytes file q).length = (q.2 - q.1) * kBlockSize := by
        rw [hlength]
        unfold kBlockSize at hlo ⊢
        omega
      have hbefore : q.2 ≤ start / kBlockSize := by
        unfold kBlockSize at hlo ⊢
        omega
      refine ⟨(rangeBytes file q).length + o, fun k => ?_, by omega, ?_⟩
      · have hsum : (k + (q.2 - q.1)) * kBlockSize + o
            = k * kBlockSize + ((q.2 - q.1) * kBlockSize + o) := by
          rw [Nat.add_mul, Nat.add_assoc]
        rw [offsetFrom, if_pos hbefore, hoffset, hwhole, hsum]
      · rw [sliceOf_append_right, hslice]

/-- Bytes that lie in one range of the set stand together in its contents, where
`GetOffsetInRangeSet` says. -/
theorem offset_contents (hr : r ∈ rs.ranges) (hlen : 0 < len) (hlo : r.1 * kBlockSize ≤ start)
    (hhi : start + len ≤ r.2 * kBlockSize) (hfile : start + len ≤ file.length) :
    ∃ o, rs.getOffsetInRangeSet start = some o ∧ o + len ≤ (rs.contents file).length ∧
      sliceOf (rs.contents file) o len = sliceOf file start len := by
  obtain ⟨o, hoffset, hle, hslice⟩ :=
    offsetFrom_contents hlen hlo hhi hfile rs.apart rs.ordered hr
  refine ⟨o, ?_, hle, hslice⟩
  rw [getOffsetInRangeSet, hoffset, Nat.zero_mul, Nat.zero_add]

theorem contents_length_from (file : Bytes) : ∀ {ranges : Pairs} {lo : Nat},
    ranges.Pairwise (fun a b => a.2 < b.1) → (∀ r ∈ ranges, r.1 < r.2) → (∀ r ∈ ranges, lo ≤ r.1) →
    (ranges.flatMap (rangeBytes file)).length ≤ file.length - lo * kBlockSize
  | [], _, _, _, _ => Nat.zero_le _
  | q :: rest, lo, hapart, hordered, hlo => by
    obtain ⟨hq, hrest⟩ := pairwise_cons.mp hapart
    have htail := contents_length_from file hrest
      (forall_mem_cons.mp hordered).2 (fun r hr => Nat.le_of_lt (hq r hr))
    have hlt := hordered q mem_cons_self
    have hfirst := hlo q mem_cons_self
    rw [flatMap_cons, length_append, rangeBytes_length]
    unfold kBlockSize at htail ⊢
    omega

theorem contents_length_le (file : Bytes) (rs : SortedRangeSet) :
    (rs.contents file).length ≤ file.length := by
  have h := contents_length_from file rs.apart rs.ordered fun r _ => Nat.zero_le r.1
  rwa [Nat.zero_mul] at h

end SortedRangeSet

end Pterodon.ImgDiff
