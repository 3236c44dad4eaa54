import Pterodon.Mtd.MtdUtils

/-!
# The blocks recorded as bad

A write context records the blocks that `write_block` skips or gives up. The position of the writer
only grows and every recorded block is behind it, so the record is in order, and
`mtd_find_write_start` needs one pass over it.
-/

namespace Pterodon.Mtd

open Lib List

/-- Blocks are handed to `write_block` one by one, until one cannot be written. -/
def writeBlocks (p : Partition) (f : Flash) : List Bytes → WriteContext → Bool × WriteContext
  | [], w => (true, w)
  | d :: ds, w =>
    match writeBlock p f d w with
    | (false, w) => (false, w)
    | (true, w) => writeBlocks p f ds w

/-- `mtd_find_write_start`, with the offsets in bytes. -/
def mtdFindWriteStart (eraseSize : Nat) : List Nat → Nat → Nat
  | [], pos => pos
  | bad :: more, pos =>
    if bad = pos then mtdFindWriteStart eraseSize more (pos + eraseSize)
    else if pos < bad then pos
    else mtdFindWriteStart eraseSize more pos

/-- The record is in order, and behind the position. -/
structure Recorded (w : WriteContext) : Prop where
  sorted : w.badBlockOffsets.Pairwise (· < ·)
  behind : ∀ n ∈ w.badBlockOffsets, n < w.pos

section Recorded

variable {p : Partition} {f : Flash} {w : WriteContext} {data : Bytes}

theorem Recorded.skip (h : Recorded w) (cells : Nat → Reading) : Recorded { w with
      badBlockOffsets := w.badBlockOffsets ++ [w.pos], cells := cells, pos := w.pos + 1 } where
  sorted := pairwise_append.mpr
    ⟨h.sorted, pairwise_singleton .., fun n hn => forall_mem_singleton.mpr (h.behind n hn)⟩
  behind := forall_mem_append.mpr
    ⟨fun n hn => Nat.lt_succ_of_lt (h.behind n hn), forall_mem_singleton.mpr (Nat.lt_succ_self _)⟩

theorem Recorded.writeLoop (h : Recorded w) (left : Nat) :
    Recorded (writeLoop f data left w).2 := by
  induction left generalizing w with
  | zero => exact h
  | succ left ih =>
    rw [Mtd.writeLoop]
    split
    · exact ih (h.skip w.cells)
    split
    · exact ⟨h.sorted, fun n hn => Nat.lt_succ_of_lt (h.behind n hn)⟩
    · exact ih (h.skip _)

theorem Recorded.writeBlocks (h : Recorded w) (ds : List Bytes) :
    Recorded (writeBlocks p f ds w).2 := by
  induction ds generalizing w with
  | nil => exact h
  | cons d ds ih =>
    have hblock : Recorded (writeBlock p f d w).2 := h.writeLoop _
    rw [Mtd.writeBlocks]
    rcases hwrite : writeBlock p f d w with ⟨_ | _, w'⟩ <;> rw [hwrite] at hblock
    · exact hblock
    · exact ih hblock

end Recorded

/-- The pass over a record in order finds the next block that is not recorded. -/
theorem mtdFindWriteStart_first {eraseSize : Nat} (hpos : 0 < eraseSize) {bads : List Nat}
    (h : bads.Pairwise (· < ·)) (n : Nat) :
    ∃ j, mtdFindWriteStart eraseSize (bads.map (· * eraseSize)) (n * eraseSize) =
      (n + j) * eraseSize ∧ n + j ∉ bads ∧ ∀ i < j, n + i ∈ bads := by
  induction bads generalizing n with
  | nil => exact ⟨0, rfl, not_mem_nil, fun i hi => by cases hi⟩
  | cons bad bads ih =>
    obtain ⟨hbad, hbads⟩ := pairwise_cons.mp h
    rw [map_cons, mtdFindWriteStart]
    rcases Nat.lt_trichotomy bad n with hlt | rfl | hgt
    · have hmul := Nat.mul_lt_mul_of_pos_right hlt hpos
      obtain ⟨j, heq, hnot, hall⟩ := ih hbads n
      rw [if_neg (Nat.ne_of_lt hmul), if_neg (Nat.lt_asymm hmul)]
      exact ⟨j, heq, not_mem_cons_of_ne_of_not_mem (by omega) hnot,
        fun i hi => mem_cons_of_mem _ (hall i hi)⟩
    · obtain ⟨j, heq, hnot, hall⟩ := ih hbads (bad + 1)
      rw [if_pos rfl, ← Nat.succ_mul, heq]
      refine ⟨j + 1, by rw [Nat.add_right_comm, Nat.add_assoc], ?_, fun i hi => ?_⟩
      · rw [← Nat.add_assoc, Nat.add_right_comm]
        exact not_mem_cons_of_ne_of_not_mem (by omega) hnot
      · cases i with
        | zero => exact mem_cons_self
        | succ i =>
          rw [← Nat.add_assoc, Nat.add_right_comm]
          exact mem_cons_of_mem _ (hall i (Nat.lt_of_succ_lt_succ hi))
    · have hmul := Nat.mul_lt_mul_of_pos_right hgt hpos
      rw [if_neg (Nat.ne_of_gt hmul), if_pos hmul]
      refine ⟨0, rfl, fun hmem => ?_, fun i hi => by cases hi⟩
      rcases mem_cons.mp hmem with rfl | hmem
      · exact Nat.lt_irrefl _ hgt
      · exact Nat.lt_asymm hgt (hbad n hmem)

/-- Whatever the device does and whatever is written: the recorded offsets increase, and
`mtd_find_write_start` of the offset of a block is that of the first block from there on that is not
recorded. -/
theorem write_start_first (p : Partition) (f : Flash) (cells : Nat → Reading) (ds : List Bytes) :
    let bads := (writeBlocks p f ds (mtdWritePartition cells)).2.badBlockOffsets
    (bads.map (· * p.eraseSize)).Pairwise (· < ·) ∧
    ∀ n, ∃ j, mtdFindWriteStart p.eraseSize (bads.map (· * p.eraseSize)) (n * p.eraseSize) =
      (n + j) * p.eraseSize ∧ n + j ∉ bads ∧ ∀ i < j, n + i ∈ bads := by
  have hstart : Recorded (mtdWritePartition cells) := ⟨.nil, forall_mem_nil _⟩
  have hsorted := (hstart.writeBlocks (p := p) (f := f) ds).sorted
  exact ⟨hsorted.map _ fun _ _ h => Nat.mul_lt_mul_of_pos_right h p.eraseSize_pos,
    mtdFindWriteStart_first p.eraseSize_pos hsorted⟩

end Pterodon.Mtd
