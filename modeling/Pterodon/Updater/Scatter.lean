import Pterodon.Updater.BlockImg

/-!
# Moving packed blocks to their places

`MoveRange` takes the packed blocks to the places that a range set lists, the last range first.
Within one buffer a move may overwrite blocks that are packed there. The place of a block is never
before its index, since as many places come before it as there are packed blocks before it; so a
move of the last range leaves alone what is packed before that range, which is all that the moves
still to come read. Hence moving within the buffer does what moving from a copy does
(`moveRange_spec`).
-/

namespace Pterodon.Updater

open Lib List

section Memmove

variable {dest source : List Block} {first start blocks : Nat}

theorem memmove_ok (hdest : first + blocks ≤ dest.length)
    (hsource : start + blocks ≤ source.length) :
    ∃ out, memmove dest source first start blocks = some out ∧ out.length = dest.length ∧
      (∀ k < blocks, out[first + k]? = source[start + k]?) ∧
      ∀ b, b < first ∨ first + blocks ≤ b → out[b]? = dest[b]? := by
  have hfirst : (dest.take first).length = first := by
    rw [length_take]
    omega
  have hmid : ((source.drop start).take blocks).length = blocks := by
    rw [length_take, length_drop]
    omega
  refine ⟨_, by rw [memmove, if_pos ⟨hdest, hsource⟩], ?_, ?_, ?_⟩
  · rw [length_append, length_append, hfirst, length_drop]
    omega
  · intro k hk
    rw [append_assoc, getElem?_append_right (by omega), hfirst, Nat.add_sub_cancel_left,
      getElem?_append_left (by omega), getElem?_take_of_lt hk, getElem?_drop]
  · rintro b (hb | hb)
    · rw [append_assoc, getElem?_append_left (by omega), getElem?_take_of_lt hb]
    · rw [getElem?_append_right (by rw [length_append]; omega), length_append, getElem?_drop]
      congr 1
      omega

theorem memmove_congr {source' : List Block} {n : Nat} (hn : start + blocks ≤ n)
    (hlen : n ≤ source.length) (hlen' : n ≤ source'.length) (h : source.take n = source'.take n) :
    memmove dest source first start blocks = memmove dest source' first start blocks := by
  have hslice : ∀ s : List Block, (s.drop start).take blocks =
      ((s.take n).drop start).take blocks := by
    intro s
    rw [drop_take, take_take, Nat.min_eq_left (by omega)]
  unfold memmove
  rw [hslice source, hslice source', h]
  by_cases hdest : first + blocks ≤ dest.length
  · rw [if_pos ⟨hdest, by omega⟩, if_pos ⟨hdest, by omega⟩]
  · rw [if_neg fun hc => hdest hc.1, if_neg fun hc => hdest hc.1]

end Memmove

theorem size_le_of_before {ranges : Pairs} {n : Nat} (hasc : Ascending ranges)
    (hordered : ∀ r ∈ ranges, r.1 < r.2) (h : ∀ r ∈ ranges, r.2 ≤ n) : size ranges ≤ n := by
  have := hasc.size_le hordered (fun _ _ => Nat.zero_le _) h
  omega

theorem ascending_concat {ranges : Pairs} {p : Nat × Nat} (h : Ascending (ranges ++ [p])) :
    Ascending ranges ∧ ∀ r ∈ ranges, r.2 ≤ p.1 := by
  obtain ⟨hinit, _, hlast⟩ := pairwise_append.mp h
  exact ⟨hinit, fun r hr => hlast r hr p (mem_singleton_self p)⟩

/-- Moves from another buffer: every block arrives at its place, and all other places keep theirs.
Within one buffer the moves are those from a copy of what is packed in it. The induction takes the
last range off, as the loop does. -/
theorem moveRange_spec {packed : List Block} (ranges : Pairs) : ∀ {dest : List Block},
    Ascending ranges → (∀ r ∈ ranges, r.1 < r.2) → (∀ r ∈ ranges, r.2 ≤ dest.length) →
    size ranges ≤ packed.length →
    ∃ moved, moveRangeFrom packed ranges.reverse (size ranges) dest = some moved ∧
      (packed.take (size ranges) = dest.take (size ranges) →
        moveRangeWithin ranges.reverse (size ranges) dest = some moved) ∧
      moved.length = dest.length ∧
      (∀ i b : Nat, (spread ranges)[i]? = some b → moved[b]? = packed[i]?) ∧
      ∀ b, ¬ InRanges ranges b → moved[b]? = dest[b]? := by
  induction ranges using reverseRecOn with
  | nil => exact fun _ _ _ _ => ⟨_, rfl, fun _ => rfl, rfl, nofun, fun _ _ => rfl⟩
  | append_singleton ranges p ih =>
    intro dest hasc hordered hdest hpacked
    obtain ⟨hinit, hbefore⟩ := ascending_concat hasc
    have hp := hordered p (mem_append_right _ (mem_singleton_self p))
    have hpd := hdest p (mem_append_right _ (mem_singleton_self p))
    have hordered' := fun r hr => hordered r (mem_append_left [p] hr)
    have hsize : size (ranges ++ [p]) = size ranges + (p.2 - p.1) := by
      rw [size_append, size_cons, size_nil]
      rfl
    rw [hsize] at hpacked ⊢
    obtain ⟨out, hout, hlen, hmoved, hkept⟩ := @memmove_ok dest packed p.1 (size ranges) (p.2 - p.1)
      (by omega) hpacked
    obtain ⟨moved, hmove, hwithin, hlength, hplaced, hrest⟩ := @ih out hinit hordered'
      (fun r hr => by rw [hlen]; exact hdest r (mem_append_left _ hr)) (by omega)
    rw [reverse_append]
    refine ⟨moved, ?_, fun hsame => ?_, by rw [hlength, hlen], ?_, ?_⟩
    · show (memmove dest packed p.1 (size ranges + (p.2 - p.1) - (p.2 - p.1)) (p.2 - p.1)).bind
        (moveRangeFrom packed ranges.reverse (size ranges + (p.2 - p.1) - (p.2 - p.1))) = _
      rw [Nat.add_sub_cancel, hout]
      exact hmove
    · -- the places before the last range are at least as many as the blocks packed before it
      have hdom : size ranges ≤ p.1 := size_le_of_before hinit hordered' hbefore
      have hfirst : memmove dest dest p.1 (size ranges) (p.2 - p.1) = some out :=
        (memmove_congr (Nat.le_refl _) (by omega) hpacked hsame.symm).trans hout
      show (memmove dest dest p.1 (size ranges + (p.2 - p.1) - (p.2 - p.1)) (p.2 - p.1)).bind
        (moveRangeWithin ranges.reverse (size ranges + (p.2 - p.1) - (p.2 - p.1))) = _
      rw [Nat.add_sub_cancel, hfirst]
      -- what is packed before the last range is still there
      refine hwithin (ext_getElem? fun i => ?_)
      by_cases hi : i < size ranges
      · have hfull := congrArg (fun l : List Block => l[i]?) hsame
        rw [getElem?_take_of_lt (by omega), getElem?_take_of_lt (by omega)] at hfull
        rw [getElem?_take_of_lt hi, getElem?_take_of_lt hi, hkept i (by omega), hfull]
      · rw [getElem?_take_eq_none (by omega), getElem?_take_eq_none (by omega)]
    · intro i b hi
      rw [spread_append, spread_cons, spread_nil, append_nil] at hi
      by_cases hfront : i < size ranges
      · rw [getElem?_append_left (by rw [spread_length]; exact hfront)] at hi
        exact hplaced i b hi
      · -- a place in the last range, which the moves after the first leave alone
        rw [getElem?_append_right (by rw [spread_length]; omega), spread_length] at hi
        obtain ⟨hk, _⟩ := List.getElem?_eq_some_iff.mp hi
        rw [numbers_length] at hk
        rw [getElem?_numbers hk] at hi
        have hb : p.1 + (i - size ranges) = b := Option.some.inj hi
        have hnot : ¬ InRanges ranges b := by
          rintro ⟨r, hr, _, hlt⟩
          have := hbefore r hr
          omega
        rw [hrest b hnot, ← hb, hmoved _ hk]
        congr 1
        omega
    · intro b hb
      have hnot : ¬ InRanges ranges b := fun ⟨r, hr, hin⟩ => hb ⟨r, mem_append_left _ hr, hin⟩
      have hout' : ¬ (p.1 ≤ b ∧ b < p.2) := fun hin =>
        hb ⟨p, mem_append_right _ (mem_singleton_self p), hin⟩
      rw [hrest b hnot, hkept b (by omega)]

/--
**`MoveRange` within one buffer scatters.** For ascending places inside the buffer it stays in
bounds, brings the packed block `i` to the place `GetBlockNumber(i)`, leaves all other places alone,
and so has the result of a move from a copy of the packed blocks.
-/
theorem moveRange_in_place (locs : RangeSet) (buffer : List Block) (hasc : Ascending locs.ranges)
    (hfit : ∀ r ∈ locs.ranges, r.2 ≤ buffer.length) :
    ∃ moved, moveRangeWithin locs.ranges.reverse locs.blocks buffer = some moved ∧
      moveRangeFrom (buffer.take locs.blocks) locs.ranges.reverse locs.blocks buffer = some moved ∧
      moved.length = buffer.length ∧
      (∀ i < locs.blocks, ∃ b, locs.getBlockNumber i = some b ∧ moved[b]? = buffer[i]?) ∧
      ∀ b, b ∉ locs.blockList → moved[b]? = buffer[b]? := by
  have hsize : locs.blocks ≤ buffer.length := size_le_of_before hasc locs.ordered hfit
  have hpacked : locs.blocks ≤ (buffer.take locs.blocks).length := by
    rw [length_take]
    omega
  have hsame : (buffer.take locs.blocks).take locs.blocks = buffer.take locs.blocks := by
    rw [take_take, Nat.min_self]
  obtain ⟨moved, hmove, hwithin, hlength, hplaced, hrest⟩ :=
    moveRange_spec locs.ranges hasc locs.ordered hfit hpacked
  refine ⟨moved, hwithin hsame, hmove, hlength, ?_, ?_⟩
  · intro i hi
    have hlt : i < (spread locs.ranges).length := by
      rw [spread_length]
      exact hi
    refine ⟨(spread locs.ranges)[i], ?_, ?_⟩
    · rw [RangeSet.getBlockNumber, if_pos hi, RangeSet.blockNumberIn_eq]
      exact getElem?_eq_getElem hlt
    · rw [hplaced i _ (getElem?_eq_getElem hlt), getElem?_take_of_lt hi]
  · intro b hb
    exact hrest b fun hin => hb (RangeSet.mem_blockList.mpr hin)

def Sample.gaps : RangeSet := ⟨[(1, 2), (3, 5)], by decide, by decide⟩

/-- Three packed blocks; the first move already overwrites places behind them. -/
theorem scatter_three : ∃ moved, moveRangeWithin Sample.gaps.ranges.reverse Sample.gaps.blocks
        ([1, 2, 3, 4, 5] : List Block) = some moved ∧
      Sample.gaps.getBlockNumber 2 = some 4 ∧ moved[4]? = some 3 := by
  obtain ⟨moved, hmove, _, _, hplaced, _⟩ :=
    moveRange_in_place Sample.gaps ([1, 2, 3, 4, 5] : List Block)
      (by unfold Ascending; decide) (by decide)
  obtain ⟨b, hb, heq⟩ := hplaced 2 (by decide)
  obtain rfl := Option.some.inj (hb.symm.trans (show _ = some 4 by decide))
  exact ⟨moved, hmove, hb, heq⟩

end Pterodon.Updater
