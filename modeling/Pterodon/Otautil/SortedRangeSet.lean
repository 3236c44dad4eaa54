import Pterodon.Otautil.RangeSet
import Pterodon.ImgDiff.SortedRangeSet

/-!
# Sorted range sets

The class behind the sets of imgdiff, with all that its interface lets through: `size_t` numbers
that can be as large as they like, a constructor that sorts the ranges it is given but merges none
of them, and a count of blocks that `Insert` adds up on its own, without the limit of `PushBack`.

`Insert` takes the ranges of both sets, sorts and merges them. From the empty set on that gives the
one list of ranges with gaps in between that stands for the union (`insertAll_canonical`). One range
is never taken, the range of all `SIZE_MAX` block numbers: `PushBack` takes its size for an
overflow.

`GetOffsetInRangeSet` and `GetBlockNumber` count the same list of blocks from its two sides
(`offset_bijection`).
-/

namespace Pterodon.Otautil

open Lib List
open ImgDiff.SortedRangeSet (rangeLe mergeAll mergeAll_ordered mergeAll_apart
  mergeAll_inRanges kBlockSize)

/-- `size_t`. -/
abbrev Size : Type := Fin (2 ^ 64)

/-- A `Range`, as numbers. -/
def bounds (r : Size × Size) : Nat × Nat := (r.1.val, r.2.val)

structure SortedRangeSet where
  ranges : Pairs
  blocks : Nat
  ordered : ∀ r ∈ ranges, r.1 < r.2
  sorted : ranges.Pairwise rangeLe
  bounded : ∀ r ∈ ranges, r.2 ≤ SIZE_MAX
  counted : blocks = size ranges

variable (s : SortedRangeSet)

namespace SortedRangeSet

/-! ## Construction -/

def empty : SortedRangeSet :=
  ⟨[], 0, ordered_nil, List.Pairwise.nil, nofun, RangeSet.empty.counted⟩

theorem mem_ofPairs {pairs : Pairs} {r : Nat × Nat}
    (h : r ∈ (RangeSet.ofPairs pairs).ranges) : r ∈ pairs := by
  rcases RangeSet.pushAll_cases RangeSet.empty pairs with hall | ⟨hnone, _⟩
  · rw [RangeSet.ofPairs, hall] at h
    exact h
  · rw [RangeSet.ofPairs, hnone] at h
    cases h

theorem size_perm {xs ys : Pairs} (h : xs.Perm ys) : size xs = size ys :=
  (h.map _).sum_eq

/-- The constructor. -/
def ofPairs (pairs : List (Size × Size)) : SortedRangeSet :=
  let rs := RangeSet.ofPairs (pairs.map bounds)
  { ranges := rs.ranges.insertionSort rangeLe
    blocks := rs.blocks
    ordered := fun r hr => rs.ordered r ((mem_insertionSort _).mp hr)
    sorted := pairwise_insertionSort _ _
    bounded := fun r hr => by
      obtain ⟨p, _, rfl⟩ := mem_map.mp (mem_ofPairs ((mem_insertionSort _).mp hr))
      exact Nat.le_pred_of_lt p.2.isLt
    counted := rs.counted.trans (size_perm (perm_insertionSort _ _)).symm }

/-- `blocks_` as `Insert` adds it up. -/
def addUp (ranges : Pairs) : Nat :=
  ranges.foldl (fun blocks r => (blocks + (r.2 - r.1)) % 2 ^ 64) 0

theorem foldl_addUp : ∀ (ranges : Pairs) (blocks : Nat), blocks + size ranges < 2 ^ 64 →
    ranges.foldl (fun blocks r => (blocks + (r.2 - r.1)) % 2 ^ 64) blocks = blocks + size ranges
  | [], _, _ => rfl
  | r :: ranges, blocks, h => by
    rw [size_cons] at h ⊢
    rw [foldl_cons, foldl_addUp ranges _ (by omega)]
    omega

section Merge

variable {ranges : Pairs}

theorem mergeAll_bounded (hordered : ∀ r ∈ ranges, r.1 < r.2) (h : ∀ r ∈ ranges, r.2 ≤ SIZE_MAX) :
    ∀ r ∈ mergeAll ranges, r.2 ≤ SIZE_MAX := by
  intro r hr
  have hlt := mergeAll_ordered hordered r hr
  -- the last block of a merged range is one of an original range
  obtain ⟨x, hx, _, hlast⟩ := mergeAll_inRanges.mp ⟨r, hr, (by omega : r.1 ≤ r.2 - 1), by omega⟩
  have := h x hx
  omega

theorem mergeAll_sorted (hordered : ∀ r ∈ ranges, r.1 < r.2) : (mergeAll ranges).Pairwise rangeLe :=
  (mergeAll_apart ranges).imp_of_mem fun ha _ hlt =>
    .inl (Nat.lt_trans (mergeAll_ordered hordered _ ha) hlt)

theorem mergeAll_counted (hordered : ∀ r ∈ ranges, r.1 < r.2) (h : ∀ r ∈ ranges, r.2 ≤ SIZE_MAX) :
    addUp (mergeAll ranges) = size (mergeAll ranges) := by
  have hascending : Ascending (mergeAll ranges) := Apart.ascending (mergeAll_apart ranges)
  have hle := hascending.size_le (mergeAll_ordered hordered) (fun _ _ => Nat.zero_le _)
    (mergeAll_bounded hordered h)
  have hmax : SIZE_MAX < 2 ^ 64 := by decide
  rw [addUp, foldl_addUp _ _ (by omega), Nat.zero_add]

end Merge

/-- `Insert` of another set. -/
def insert (s rs : SortedRangeSet) : SortedRangeSet :=
  if rs.ranges = [] then s
  else
    have hordered : ∀ r ∈ s.ranges ++ rs.ranges, r.1 < r.2 :=
      fun r hr => (mem_append.mp hr).elim (s.ordered r) (rs.ordered r)
    have hbounded : ∀ r ∈ s.ranges ++ rs.ranges, r.2 ≤ SIZE_MAX :=
      fun r hr => (mem_append.mp hr).elim (s.bounded r) (rs.bounded r)
    { ranges := mergeAll (s.ranges ++ rs.ranges)
      blocks := addUp (mergeAll (s.ranges ++ rs.ranges))
      ordered := mergeAll_ordered hordered
      sorted := mergeAll_sorted hordered
      bounded := mergeAll_bounded hordered hbounded
      counted := mergeAll_counted hordered hbounded }

/-- `Insert` of one range. -/
def insertRange (toInsert : Size × Size) : SortedRangeSet :=
  s.insert (ofPairs [toInsert])

/-! ## Insertions -/

theorem inRanges_insert {s rs : SortedRangeSet} {n : Nat} :
    InRanges (s.insert rs).ranges n ↔ InRanges s.ranges n ∨ InRanges rs.ranges n := by
  unfold insert
  split
  · rename_i hnil
    rw [hnil]
    refine ⟨.inl, fun h => h.elim id fun h => ?_⟩
    obtain ⟨r, hr, _⟩ := h
    cases hr
  · refine Iff.trans mergeAll_inRanges ?_
    unfold InRanges
    simp only [mem_append, or_and_right, exists_or]

theorem insert_apart {s rs : SortedRangeSet} (h : Apart s.ranges) : Apart (s.insert rs).ranges := by
  unfold insert
  split
  · exact h
  · exact mergeAll_apart _

/-- The blocks of a single range, which `PushBack` takes unless they are all there are. -/
theorem inRanges_ofPairs_single {r : Size × Size} (h : r.2.val - r.1.val < SIZE_MAX) {n : Nat} :
    InRanges (ofPairs [r]).ranges n ↔ r.1.val ≤ n ∧ n < r.2.val := by
  have hmem : ∀ x, x ∈ (ofPairs [r]).ranges ↔ x ∈ (RangeSet.ofPairs [bounds r]).ranges :=
    fun x => mem_insertionSort _
  by_cases hlt : r.1.val < r.2.val
  · have hranges : (RangeSet.ofPairs [bounds r]).ranges = [bounds r] :=
      RangeSet.pushAll_ok
        (fun x hx => by rw [mem_singleton.mp hx]; exact hlt) (by
          show 0 + (r.2.val - r.1.val + 0) < SIZE_MAX
          omega)
    unfold InRanges
    simp only [hmem, hranges, mem_singleton, exists_eq_left]
    rfl
  · constructor
    · rintro ⟨x, hx, hin⟩
      obtain rfl := mem_singleton.mp (mem_ofPairs ((hmem x).mp hx))
      exact hin
    · omega

/-- What one call of `Insert` is given. -/
inductive Insertion where
  | range (toInsert : Size × Size)
  | set (rs : SortedRangeSet)

/-- The blocks that are given. -/
def Insertion.Covers (n : Nat) : Insertion → Prop
  | .range r => r.1.val ≤ n ∧ n < r.2.val
  | .set rs => InRanges rs.ranges n

/-- Not the one range that `PushBack` takes for an overflow. -/
def Insertion.Fits : Insertion → Prop
  | .range r => r.2.val - r.1.val < SIZE_MAX
  | .set _ => True

def perform : Insertion → SortedRangeSet
  | .range r => s.insertRange r
  | .set rs => s.insert rs

/-- A sequence of `Insert` calls on a new set. -/
def insertAll (ops : List Insertion) : SortedRangeSet := ops.foldl perform empty

theorem perform_apart {s : SortedRangeSet} (op : Insertion) (h : Apart s.ranges) :
    Apart (s.perform op).ranges := by
  cases op with
  | range r | set rs => exact insert_apart h

theorem inRanges_perform {s : SortedRangeSet} {op : Insertion} (hfits : op.Fits) {n : Nat} :
    InRanges (s.perform op).ranges n ↔ InRanges s.ranges n ∨ op.Covers n := by
  cases op with
  | range r =>
    refine Iff.trans inRanges_insert (or_congr_right ?_)
    exact inRanges_ofPairs_single hfits
  | set rs => exact inRanges_insert

theorem foldl_perform {ops : List Insertion} : ∀ {s : SortedRangeSet}, Apart s.ranges →
    (∀ op ∈ ops, op.Fits) → Apart (ops.foldl perform s).ranges ∧
      ∀ n, InRanges (ops.foldl perform s).ranges n ↔
        InRanges s.ranges n ∨ ∃ op ∈ ops, op.Covers n := by
  induction ops with
  | nil =>
    intro s hs _
    refine ⟨hs, fun n => ⟨.inl, fun h => h.elim id fun h => ?_⟩⟩
    obtain ⟨op, hop, _⟩ := h
    cases hop
  | cons op ops ih =>
    intro s hs hfits
    obtain ⟨hapart, hin⟩ := ih (perform_apart op hs) (forall_mem_cons.mp hfits).2
    refine ⟨hapart, fun n => ?_⟩
    rw [foldl_cons, hin, inRanges_perform (hfits op mem_cons_self), or_assoc]
    simp only [mem_cons, exists_eq_or_imp]

/--
**A sorted range set is a canonical union.** Whatever is inserted into a new set, apart from the
range of all block numbers: the ranges are ascending with a gap between any two, they cover what was
inserted, `blocks` is the number of blocks they cover, and any other insertions of the same blocks
give the same ranges.
-/
theorem insertAll_canonical (ops : List Insertion) (hfits : ∀ op ∈ ops, op.Fits) :
    (∀ r ∈ (insertAll ops).ranges, r.1 < r.2) ∧ Apart (insertAll ops).ranges ∧
    (∀ n, InRanges (insertAll ops).ranges n ↔ ∃ op ∈ ops, op.Covers n) ∧
    (insertAll ops).blocks = {n | ∃ op ∈ ops, op.Covers n}.ncard ∧
    ∀ ops' : List Insertion, (∀ op ∈ ops', op.Fits) →
      (∀ n, (∃ op ∈ ops', op.Covers n) ↔ ∃ op ∈ ops, op.Covers n) →
      (insertAll ops').ranges = (insertAll ops).ranges := by
  have hunion : ∀ ops : List Insertion, (∀ op ∈ ops, op.Fits) → Apart (insertAll ops).ranges ∧
      ∀ n, InRanges (insertAll ops).ranges n ↔ ∃ op ∈ ops, op.Covers n := by
    intro ops hfits
    obtain ⟨hapart, hin⟩ := foldl_perform (s := empty) List.Pairwise.nil hfits
    refine ⟨hapart, fun n => (hin n).trans ⟨fun h => h.resolve_left ?_, .inr⟩⟩
    rintro ⟨r, hr, _⟩
    cases hr
  obtain ⟨hapart, hin⟩ := hunion ops hfits
  refine ⟨(insertAll ops).ordered, hapart, hin, ?_, ?_⟩
  · have hset : {n | ∃ op ∈ ops, op.Covers n} = {n | InRanges (insertAll ops).ranges n} := by
      ext n
      exact (hin n).symm
    rw [hset, hapart.ascending.ncard, (insertAll ops).counted]
  · intro ops' hfits' hsame
    obtain ⟨hapart', hin'⟩ := hunion ops' hfits'
    exact apart_unique hapart' hapart (insertAll ops').ordered (insertAll ops).ordered fun n =>
      (hin' n).trans ((hsame n).trans (hin n).symm)

/-- A set of two ranges that touch, between two single ranges. -/
theorem three_insertions :
    (insertAll [.range (7, 9), .set (ofPairs [(2, 4), (4, 6)]), .range (1, 3)]).ranges =
        [(1, 6), (7, 9)] ∧
      Apart (insertAll [.range (7, 9), .set (ofPairs [(2, 4), (4, 6)]), .range (1, 3)]).ranges := by
  refine ⟨by decide, (insertAll_canonical _ ?_).2.1⟩
  intro op hop
  simp only [mem_cons, not_mem_nil, or_false] at hop
  rcases hop with rfl | rfl | rfl
  · show (_ : Nat) < _
    decide
  · trivial
  · show (_ : Nat) < _
    decide

theorem whole_range_dropped :
    (insertAll [.range (0, 18446744073709551615)]).ranges = [] ∧
      ∃ n, ∃ op ∈ [Insertion.range (0, 18446744073709551615)], op.Covers n :=
  ⟨by decide, 5, _, mem_singleton_self _, by decide, by decide⟩

/-! ## Offsets -/

/-- The loop of `GetOffsetInRangeSet`; the sums are `size_t`s. -/
def offsetFrom (oldOffset : Nat) : Nat → Pairs → Option Nat
  | _, [] => none
  | newBlockStart, r :: rest =>
    if oldOffset / kBlockSize ≥ r.2 then
      offsetFrom oldOffset ((newBlockStart + (r.2 - r.1)) % 2 ^ 64) rest
    else if oldOffset / kBlockSize ≥ r.1 then
      some (((newBlockStart + (oldOffset / kBlockSize - r.1)) * kBlockSize + oldOffset % kBlockSize)
        % 2 ^ 64)
    else none

/-- `GetOffsetInRangeSet`; `none` is a failed `CHECK`. -/
def getOffsetInRangeSet (oldOffset : Size) : Option Nat :=
  offsetFrom oldOffset.val 0 s.ranges

/-- `GetBlockNumber`; `none` is a failed `CHECK`. -/
def getBlockNumber (idx : Nat) : Option Nat :=
  if idx < s.blocks then Updater.RangeSet.blockNumberIn idx s.ranges else none

/-- The sums do not wrap where the ranges are mutually exclusive: as many blocks as have been
counted lie before the ranges that are left. -/
theorem offsetFrom_eq {oldOffset : Nat} (ho : oldOffset < 2 ^ 64) {ranges : Pairs} :
    ∀ {start : Nat}, Ascending ranges → (∀ r ∈ ranges, r.1 < r.2) → (∀ r ∈ ranges, start ≤ r.1) →
    offsetFrom oldOffset start ranges = ImgDiff.SortedRangeSet.offsetFrom oldOffset start
      ranges := by
  induction ranges with
  | nil => exact fun _ _ _ => rfl
  | cons r rest ih =>
    intro start hasc hordered hstart
    obtain ⟨hfirst, hrest⟩ := pairwise_cons.mp hasc
    have hr := hordered r mem_cons_self
    have hs := hstart r mem_cons_self
    have hblock : oldOffset / kBlockSize * kBlockSize + oldOffset % kBlockSize = oldOffset :=
      Nat.div_add_mod' _ _
    have hle : oldOffset / kBlockSize ≤ oldOffset := Nat.div_le_self _ _
    rw [offsetFrom, ImgDiff.SortedRangeSet.offsetFrom]
    split
    · rw [Nat.mod_eq_of_lt (by omega)]
      refine ih hrest (forall_mem_cons.mp hordered).2 fun x hx => ?_
      have := hfirst x hx
      omega
    split
    · have hmul : (start + (oldOffset / kBlockSize - r.1)) * kBlockSize ≤
          oldOffset / kBlockSize * kBlockSize := Nat.mul_le_mul_right _ (by omega)
      rw [Nat.mod_eq_of_lt (by omega)]
    · rfl

/-- Without wrapping: the loop finds the place of the block in the list of blocks. -/
theorem offsetFrom_index {oldOffset : Nat} {ranges : Pairs} :
    ∀ {start : Nat}, Ascending ranges → InRanges ranges (oldOffset / kBlockSize) →
    ∃ i, (spread ranges)[i]? = some (oldOffset / kBlockSize) ∧
      ImgDiff.SortedRangeSet.offsetFrom oldOffset start ranges =
        some ((start + i) * kBlockSize + oldOffset % kBlockSize) := by
  induction ranges with
  | nil =>
    intro _ _ h
    obtain ⟨r, hr, _⟩ := h
    cases hr
  | cons r rest ih =>
    intro start hasc hin
    obtain ⟨hfirst, hrest⟩ := pairwise_cons.mp hasc
    rw [ImgDiff.SortedRangeSet.offsetFrom, spread_cons]
    split
    · -- the range lies before the block: its blocks are counted
      rcases inRanges_cons.mp hin with hhere | hthere
      · omega
      obtain ⟨i, hi, heq⟩ := @ih (start + (r.2 - r.1)) hrest hthere
      refine ⟨(r.2 - r.1) + i, ?_, ?_⟩
      · rw [getElem?_append_right (by rw [numbers_length]; omega), numbers_length,
          Nat.add_sub_cancel_left]
        exact hi
      · rw [heq, Nat.add_assoc]
    · have hlo : r.1 ≤ oldOffset / kBlockSize := by
        rcases inRanges_cons.mp hin with hhere | ⟨x, hx, hthere⟩
        · exact hhere.1
        · have := hfirst x hx
          omega
      rw [if_pos hlo]
      refine ⟨oldOffset / kBlockSize - r.1, ?_, rfl⟩
      rw [getElem?_append_left (by rw [numbers_length]; omega), getElem?_numbers (by omega)]
      congr 1
      omega

section Bijection

variable {s : SortedRangeSet}

theorem getOffset_index (hasc : Ascending s.ranges) {o : Size}
    (hin : InRanges s.ranges (o.val / kBlockSize)) :
    ∃ i, i < s.blocks ∧ (spread s.ranges)[i]? = some (o.val / kBlockSize) ∧
      s.getOffsetInRangeSet o = some (i * kBlockSize + o.val % kBlockSize) := by
  obtain ⟨i, hi, heq⟩ := @offsetFrom_index o.val s.ranges 0 hasc hin
  refine ⟨i, ?_, hi, ?_⟩
  · obtain ⟨hlt, _⟩ := List.getElem?_eq_some_iff.mp hi
    rw [s.counted, ← spread_length]
    exact hlt
  · rw [getOffsetInRangeSet, offsetFrom_eq o.isLt hasc s.ordered fun _ _ => Nat.zero_le _, heq,
      Nat.zero_add]

theorem getBlockNumber_eq {i : Nat} (hi : i < s.blocks) :
    s.getBlockNumber i = (spread s.ranges)[i]? := by
  rw [getBlockNumber, if_pos hi, Updater.RangeSet.blockNumberIn_eq]

theorem index_lt_iff (hasc : Ascending s.ranges) {i j b c : Nat}
    (hi : (spread s.ranges)[i]? = some b)
    (hj : (spread s.ranges)[j]? = some c) : i < j ↔ b < c := by
  obtain ⟨hilt, rfl⟩ := List.getElem?_eq_some_iff.mp hi
  obtain ⟨hjlt, rfl⟩ := List.getElem?_eq_some_iff.mp hj
  have hsorted := pairwise_iff_getElem.mp hasc.sorted
  constructor
  · exact hsorted i j hilt hjlt
  · intro hlt
    rcases Nat.lt_trichotomy i j with h | h | h
    · exact h
    · subst h
      exact absurd hlt (Nat.lt_irrefl _)
    · exact absurd (Nat.lt_trans hlt (hsorted j i hjlt hilt h)) (Nat.lt_irrefl _)

theorem index_inj (hasc : Ascending s.ranges) {i j b : Nat} (hi : (spread s.ranges)[i]? = some b)
    (hj : (spread s.ranges)[j]? = some b) : i = j := by
  have h₁ := index_lt_iff hasc hi hj
  have h₂ := index_lt_iff hasc hj hi
  omega

theorem place_div_mod (i o : Nat) : (i * kBlockSize + o % kBlockSize) / kBlockSize = i ∧
    (i * kBlockSize + o % kBlockSize) % kBlockSize = o % kBlockSize := by
  have hk : 0 < kBlockSize := by decide
  have hlt := Nat.mod_lt o hk
  rw [Nat.mul_comm i, Nat.mul_add_div hk, Nat.div_eq_of_lt hlt, Nat.mul_add_mod,
    Nat.mod_eq_of_lt hlt]
  exact ⟨rfl, rfl⟩

theorem place_lt {i j : Nat} (h : i < j) (o : Nat) :
    i * kBlockSize + o % kBlockSize < j * kBlockSize :=
  calc i * kBlockSize + o % kBlockSize < i * kBlockSize + kBlockSize :=
        Nat.add_lt_add_left (Nat.mod_lt _ (by decide)) _
    _ = (i + 1) * kBlockSize := (Nat.succ_mul _ _).symm
    _ ≤ j * kBlockSize := Nat.mul_le_mul_right _ h

/--
**Offsets are mapped one to one, in order.** In a set of mutually exclusive ranges every byte of a
covered block has a place, below the number of bytes of the blocks; `GetBlockNumber` leads from it
back to the block; the place grows with the offset; and a place is the place of some byte exactly if
its block number is one that offsets have, that is below `2 ^ 52`.
-/
theorem offset_bijection (s : SortedRangeSet) (hasc : Ascending s.ranges) :
    (∀ o : Size, InRanges s.ranges (o.val / kBlockSize) →
      ∃ v, s.getOffsetInRangeSet o = some v ∧ v < s.blocks * kBlockSize ∧
        s.getBlockNumber (v / kBlockSize) = some (o.val / kBlockSize) ∧
        v % kBlockSize = o.val % kBlockSize) ∧
    (∀ o o' : Size, o.val < o'.val → InRanges s.ranges (o.val / kBlockSize) →
      InRanges s.ranges (o'.val / kBlockSize) →
      ∃ v v', s.getOffsetInRangeSet o = some v ∧ s.getOffsetInRangeSet o' = some v' ∧ v < v') ∧
    ∀ v < s.blocks * kBlockSize,
      (∃ o : Size, InRanges s.ranges (o.val / kBlockSize) ∧ s.getOffsetInRangeSet o = some v) ↔
        ∃ b < 2 ^ 52, s.getBlockNumber (v / kBlockSize) = some b := by
  refine ⟨?_, ?_, ?_⟩
  · intro o hin
    obtain ⟨i, hi, hblock, heq⟩ := getOffset_index hasc hin
    obtain ⟨hdiv, hmod⟩ := place_div_mod i o.val
    refine ⟨_, heq, place_lt hi _, ?_, hmod⟩
    rw [hdiv, getBlockNumber_eq hi, hblock]
  · intro o o' hlt hin hin'
    obtain ⟨i, _, hblock, heq⟩ := getOffset_index hasc hin
    obtain ⟨j, _, hblock', heq'⟩ := getOffset_index hasc hin'
    refine ⟨_, _, heq, heq', ?_⟩
    have hle : o.val / kBlockSize ≤ o'.val / kBlockSize := Nat.div_le_div_right (Nat.le_of_lt hlt)
    rcases Nat.lt_or_eq_of_le hle with hbefore | hsame
    · -- an earlier block: everything in it is before everything in the later one
      have hij : i < j := (index_lt_iff hasc hblock hblock').mpr hbefore
      exact Nat.lt_of_lt_of_le (place_lt hij _) (Nat.le_add_right _ _)
    · -- the same block: the same place in the list
      rw [hsame] at hblock
      have hij : i = j := index_inj hasc hblock hblock'
      have h₁ : o.val / kBlockSize * kBlockSize + o.val % kBlockSize = o.val := Nat.div_add_mod' _ _
      have h₂ : o'.val / kBlockSize * kBlockSize + o'.val % kBlockSize = o'.val :=
        Nat.div_add_mod' _ _
      rw [hsame] at h₁
      rw [hij]
      omega
  · intro v hv
    have hidx : v / kBlockSize < s.blocks := Nat.div_lt_of_lt_mul (by rw [Nat.mul_comm]; exact hv)
    constructor
    · rintro ⟨o, hin, ho⟩
      obtain ⟨i, hi, hblock, heq⟩ := getOffset_index hasc hin
      obtain rfl := Option.some.inj (ho.symm.trans heq)
      rw [(place_div_mod i o.val).1, getBlockNumber_eq hi, hblock]
      refine ⟨_, ?_, rfl⟩
      unfold kBlockSize
      omega
    · rintro ⟨b, hb, hnumber⟩
      rw [getBlockNumber_eq hidx] at hnumber
      have hmod : v % kBlockSize < kBlockSize := Nat.mod_lt v (by decide)
      -- the byte of the block that the place is of
      have hlt : b * kBlockSize + v % kBlockSize < 2 ^ 64 := by
        unfold kBlockSize at hmod ⊢
        omega
      obtain ⟨hdiv, hrem⟩ := place_div_mod b v
      have hin : InRanges s.ranges ((⟨_, hlt⟩ : Size).val / kBlockSize) := by
        rw [hdiv]
        exact mem_spread.mp (mem_of_getElem? hnumber)
      obtain ⟨i, _, hblock, heq⟩ := getOffset_index hasc hin
      refine ⟨⟨_, hlt⟩, hin, ?_⟩
      rw [hdiv] at hblock
      rw [heq, hrem, index_inj hasc hblock hnumber, Nat.div_add_mod']

end Bijection

/-- The example of the source: byte 65546, in block 16, is at 40970. -/
theorem offset_of_source_example :
    (ofPairs [(1, 10), (15, 20)]).getOffsetInRangeSet 65546 = some 40970 ∧
      ∃ v, (ofPairs [(1, 10), (15, 20)]).getOffsetInRangeSet 65546 = some v ∧
        (ofPairs [(1, 10), (15, 20)]).getBlockNumber (v / kBlockSize) = some 16 := by
  refine ⟨by decide, ?_⟩
  obtain ⟨v, hv, _, hblock, _⟩ := (offset_bijection (ofPairs [(1, 10), (15, 20)])
    (by unfold Ascending; decide)).1 65546 ⟨(15, 20), by decide, by decide, by decide⟩
  exact ⟨v, hv, hblock⟩

/-- Places that are not the place of any byte: where ranges overlap the blocks they share are
counted twice, and a block number of `2 ^ 53` has no offset. -/
theorem places_without_byte :
    (∀ o : Size, (ofPairs [(0, 2), (1, 3)]).getOffsetInRangeSet o ≠ some 8192) ∧
      8192 < (ofPairs [(0, 2), (1, 3)]).blocks * kBlockSize ∧
    (∀ o : Size, (ofPairs [(9007199254740992, 9007199254740993)]).getOffsetInRangeSet o ≠ some 0) ∧
      0 < (ofPairs [(9007199254740992, 9007199254740993)]).blocks * kBlockSize := by
  have hk : kBlockSize = 4096 := rfl
  refine ⟨fun o h => ?_, by decide, fun o h => ?_, by decide⟩
  · have hranges : (ofPairs [(0, 2), (1, 3)]).ranges = [(0, 2), (1, 3)] := by decide
    rw [getOffsetInRangeSet, hranges, offsetFrom, offsetFrom, hk] at h
    split at h
    · -- behind the first range
      split at h
      · cases h
      split at h
      · have hv := Option.some.inj h
        omega
      · cases h
    · split at h
      · have hv := Option.some.inj h
        omega
      · cases h
  · have hranges : (ofPairs [(9007199254740992, 9007199254740993)]).ranges =
        [(9007199254740992, 9007199254740993)] := by decide
    rw [getOffsetInRangeSet, hranges, offsetFrom, hk, if_neg (by omega), if_neg (by omega)] at h
    cases h

end SortedRangeSet

end Pterodon.Otautil
