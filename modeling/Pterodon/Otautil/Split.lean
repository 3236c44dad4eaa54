import Pterodon.Otautil.RangeSet
import Pterodon.UpdateVerifier.Coverage

/-!
# Splitting a range set

`Split` walks over the ranges with an iterator and a copy of the range it stands at, from which the
groups before have already taken their blocks. The copy goes stale when the iterator reaches the
end. A step beyond the end is undefined; here it is `none`.

What the walk still has to hand out is a list of ranges, and on that list the loop is the one of
the care map (`fillBuffer_eq`), whose groups list every block in order. The number of blocks the
groups ask for is the number there is, so the walk asks for nothing at the end.
-/

namespace Pterodon.Otautil

open Lib UpdateVerifier List

namespace RangeSet

/-- The inner loop: a group that still needs `needed` blocks, the iterator and its range. -/
def fillBuffer (it : Pairs) (buffer : RangeSet) (needed : Nat) (range : Nat × Nat) :
    Option (RangeSet × Pairs × (Nat × Nat)) :=
  if needed = 0 then some (buffer, it, range)
  else if range.2 - range.1 > needed then
    some ((buffer.pushBack (range.1, range.1 + needed)).2, it, (range.1 + needed, range.2))
  else
    match it with
    | [] => none
    | _ :: it =>
      fillBuffer it (buffer.pushBack range).2 (needed - (range.2 - range.1)) (it.headD range)

/-- The outer loop, over `blocks_per_group`. -/
def fillBuffers : List Nat → Pairs → Nat × Nat → Option (List RangeSet)
  | [], _, _ => some []
  | blocks :: more, it, range =>
    match fillBuffer it empty blocks range with
    | none => none
    | some (buffer, it, range) => (fillBuffers more it range).map (buffer :: ·)

def split (s : RangeSet) (groups : Nat) : Option (List RangeSet) :=
  match s.ranges with
  | [] => some []
  | first :: _ =>
    if groups = 0 then some []
    else
      let groups := if s.blocks < groups then s.blocks else groups
      fillBuffers (blocksPerGroup s.blocks groups) s.ranges first

/-! ## What is left to hand out -/

/-- The ranges left: the copy stands for the range at the iterator. -/
def left : Pairs → Nat × Nat → Pairs
  | [], _ => []
  | _ :: it, range => range :: it

theorem left_headD (it : Pairs) (range : Nat × Nat) : left it (it.headD range) = it := by
  cases it <;> rfl

theorem fillGroup_ordered {ranges : Pairs} : ∀ {needed : Nat},
    (∀ r ∈ ranges, r.1 < r.2) → ∀ r ∈ (fillGroup needed ranges).2, r.1 < r.2 := by
  induction ranges with
  | nil => exact fun _ => nofun
  | cons range rest ih =>
    intro needed h
    rw [fillGroup]
    split
    · exact h
    split
    · intro r hr
      rcases mem_cons.mp hr with rfl | hr
      · omega
      · exact h r (mem_cons_of_mem _ hr)
    · exact ih (forall_mem_cons.mp h).2

/-- One group: as the loop of the care map fills it. The induction is on the iterator. -/
theorem fillBuffer_eq {it : Pairs} : ∀ {buffer : RangeSet} {needed : Nat}
    {range : Nat × Nat}, (∀ r ∈ left it range, r.1 < r.2) → needed ≤ size (left it range) →
    buffer.blocks + needed < SIZE_MAX →
    ∃ buffer' it' range', fillBuffer it buffer needed range = some (buffer', it', range') ∧
      buffer'.ranges = buffer.ranges ++ (fillGroup needed (left it range)).1 ∧
      left it' range' = (fillGroup needed (left it range)).2 := by
  induction it with
  | nil =>
    intro buffer needed range _ hneeded _
    have hzero : needed = 0 := Nat.le_zero.mp hneeded
    subst hzero
    exact ⟨buffer, [], range, rfl, (append_nil _).symm, rfl⟩
  | cons at' it ih =>
    intro buffer needed range hordered hneeded hlimit
    rw [left, size_cons] at hneeded
    have hrange : range.1 < range.2 := hordered range mem_cons_self
    rw [fillBuffer, left, fillGroup]
    split
    · exact ⟨buffer, at' :: it, range, rfl, (append_nil _).symm, rfl⟩
    split
    · have hpush := (pushBack_ok (s := buffer) (r := (range.1, range.1 + needed))
        (by omega) (by omega)).2
      exact ⟨_, _, _, rfl, hpush, rfl⟩
    · have hpush := (pushBack_ok (s := buffer) hrange (by omega)).2
      have hblocks : (buffer.pushBack range).2.blocks = buffer.blocks + (range.2 - range.1) := by
        rw [RangeSet.counted, hpush, size_append, ← buffer.counted]
        rfl
      have hit := left_headD it range
      obtain ⟨buffer', it', range', heq, hranges, hleft⟩ :=
        @ih (buffer.pushBack range).2 (needed - (range.2 - range.1)) (it.headD range)
          (by rw [hit]; exact (forall_mem_cons.mp hordered).2)
          (by rw [hit]; omega) (by omega)
      rw [hit] at hranges hleft
      refine ⟨buffer', it', range', heq, ?_, hleft⟩
      rw [hranges, hpush, append_assoc]
      rfl

/-- All groups. What is left after one is what the next ones start from. -/
theorem fillBuffers_eq {counts : List Nat} : ∀ {it : Pairs} {range : Nat × Nat},
    (∀ r ∈ left it range, r.1 < r.2) → counts.sum ≤ size (left it range) → counts.sum < SIZE_MAX →
    ∃ parts, fillBuffers counts it range = some parts ∧
      parts.map (·.ranges) = fillGroups counts (left it range) := by
  induction counts with
  | nil => exact fun _ _ _ => ⟨[], rfl, rfl⟩
  | cons count more ih =>
    intro it range hordered hsum hlimit
    rw [sum_cons] at hsum hlimit
    obtain ⟨buffer, it', range', heq, hranges, hleft⟩ :=
      @fillBuffer_eq it empty count range hordered (by omega) (by
        show 0 + count < SIZE_MAX
        omega)
    obtain ⟨hall, hlength⟩ := fillGroup_blocks (left it range) count (by
      rw [← spread_length] at hsum
      exact Nat.le_trans (Nat.le_add_right _ _) hsum)
    have hmore : more.sum ≤ size (left it' range') := by
      rw [hleft, ← spread_length]
      have hsplit := congrArg List.length hall
      rw [length_append, hlength] at hsplit
      rw [← spread_length] at hsum
      change count + (spread _).length = (spread _).length at hsplit
      omega
    obtain ⟨parts, hparts, hmap⟩ := @ih it' range' (by rw [hleft]; exact fillGroup_ordered hordered)
      hmore (by omega)
    refine ⟨buffer :: parts, ?_, ?_⟩
    · rw [fillBuffers, heq]
      dsimp only
      rw [hparts, Option.map_some]
    · rw [map_cons, hmap, hleft, hranges]
      rfl

/-! ## The groups -/

theorem fillGroups_sizes {counts : List Nat} : ∀ {ranges : Pairs},
    counts.sum ≤ size ranges → (fillGroups counts ranges).map size = counts := by
  induction counts with
  | nil => exact fun _ => rfl
  | cons count more ih =>
    intro ranges hsum
    rw [sum_cons, ← spread_length] at hsum
    obtain ⟨hall, hlength⟩ := fillGroup_blocks ranges count (Nat.le_trans
      (Nat.le_add_right _ _) hsum)
    have hsplit := congrArg List.length hall
    rw [length_append, hlength] at hsplit
    change count + (spread _).length = (spread ranges).length at hsplit
    have hfirst : size (fillGroup count ranges).1 = count := by
      rw [← spread_length]
      exact hlength
    rw [fillGroups, map_cons, ih (by rw [← spread_length]; omega), hfirst]

theorem blocksPerGroup_length {blocks groups : Nat} (h : 0 < groups) :
    (blocksPerGroup blocks groups).length = groups := by
  have hlt := Nat.mod_lt blocks h
  rw [blocksPerGroup, length_append, length_replicate, length_replicate]
  omega

/-- The numbers asked for are as even as can be, the larger ones first. -/
theorem blocksPerGroup_even (blocks groups : Nat) :
    (blocksPerGroup blocks groups).Pairwise fun a b => b ≤ a ∧ a ≤ b + 1 := by
  rw [blocksPerGroup, pairwise_append]
  refine ⟨pairwise_replicate.mpr (.inr ⟨Nat.le_refl _, by omega⟩),
    pairwise_replicate.mpr (.inr ⟨Nat.le_refl _, by omega⟩), ?_⟩
  intro a ha b hb
  obtain rfl := eq_of_mem_replicate ha
  obtain rfl := eq_of_mem_replicate hb
  omega

theorem blocksPerGroup_pos {blocks groups : Nat} (hgroups : 0 < groups) (h : groups ≤ blocks) :
    ∀ n ∈ blocksPerGroup blocks groups, 0 < n := by
  have hmean : 0 < blocks / groups := Nat.div_pos h hgroups
  intro n hn
  rcases mem_append.mp hn with hn | hn <;> rw [eq_of_mem_replicate hn] <;> omega

/--
**`Split` partitions evenly.** The walk stays inside the ranges. There are as many groups as asked
for, or one for each block if there are fewer; no group is empty, the blocks of the groups one
after the other are those of the set in order, and the sizes differ by at most one, the larger ones
first.
-/
theorem split_even (s : RangeSet) (groups : Nat) (hne : s.ranges ≠ []) (hgroups : 0 < groups) :
    ∃ parts, s.split groups = some parts ∧ parts.length = min groups s.blocks ∧
      (∀ p ∈ parts, p.ranges ≠ []) ∧
      (parts.flatMap fun p => spread p.ranges) = spread s.ranges ∧
      (parts.map (·.blocks)).Pairwise fun a b => b ≤ a ∧ a ≤ b + 1 := by
  have hblocks : 0 < s.blocks := by
    obtain ⟨r, hr⟩ := exists_mem_of_ne_nil _ hne
    have hmem := mem_spread.mpr ⟨r, hr, Nat.le_refl _, s.ordered r hr⟩
    rw [s.counted, ← spread_length]
    exact length_pos_of_mem hmem
  obtain ⟨g, hg⟩ : ∃ g, g = if s.blocks < groups then s.blocks else groups := ⟨_, rfl⟩
  have hmin : g = min groups s.blocks ∧ 0 < g ∧ g ≤ s.blocks := by
    rw [hg]
    split <;> omega
  have hsum := blocksPerGroup_sum s.blocks g hmin.2.1
  -- at the start the copy is the first range, and everything is left
  obtain ⟨first, rest, hranges⟩ := exists_cons_of_ne_nil hne
  have hstart : left s.ranges first = s.ranges := by rw [hranges]; rfl
  obtain ⟨parts, hparts, hmap⟩ := @fillBuffers_eq (blocksPerGroup s.blocks g)
    s.ranges first (by rw [hstart]; exact s.ordered)
    (by rw [hstart, hsum, s.counted]) (by rw [hsum]; exact s.limited)
  rw [hstart] at hmap
  have hsizes : parts.map (·.blocks) = blocksPerGroup s.blocks g := by
    have hcounted : parts.map (·.blocks) = (parts.map (·.ranges)).map size := by
      rw [map_map]
      exact map_congr_left fun p _ => p.counted
    rw [hcounted, hmap, fillGroups_sizes (by rw [hsum, s.counted])]
  refine ⟨parts, ?_, ?_, ?_, ?_, ?_⟩
  · unfold split
    rw [hranges]
    dsimp only
    rw [if_neg (by omega), ← hranges, ← hg]
    exact hparts
  · have hlength := congrArg List.length hsizes
    rw [length_map, blocksPerGroup_length hmin.2.1] at hlength
    rw [hlength, hmin.1]
  · intro p hp hnil
    have hpos := blocksPerGroup_pos hmin.2.1 hmin.2.2 p.blocks (by
      rw [← hsizes]
      exact mem_map_of_mem hp)
    rw [p.counted, hnil] at hpos
    exact absurd hpos (Nat.lt_irrefl 0)
  · have hspread := fillGroups_blocks (blocksPerGroup s.blocks g) s.ranges (by
      rw [hsum, s.counted, ← spread_length])
    rw [← hmap, flatMap_map] at hspread
    exact hspread
  · rw [hsizes]
    exact blocksPerGroup_even _ _

theorem seven_in_three :
    ∃ parts, (ofPairs [(1, 4), (10, 14)]).split 3 = some parts ∧ parts.length = 3 ∧
      (parts.flatMap fun p => spread p.ranges) = [1, 2, 3, 10, 11, 12, 13] := by
  obtain ⟨parts, hparts, hlength, _, hspread, _⟩ :=
    split_even (ofPairs [(1, 4), (10, 14)]) 3 (by decide) (by decide)
  exact ⟨parts, hparts, hlength, hspread⟩

end RangeSet

end Pterodon.Otautil
