import Pterodon.UpdateVerifier.CareMap

/-!
# Every block of the care map is read

Two facts carry the result. The groups of `RangeSet::Split` list the blocks of the range set
in order, each block once for each time it is listed, whatever the number of groups is. And a
thread that returns true has brought every byte of its ranges, while one that saw a failing
read returns false: `Covers` says both of any part of a thread, and the parts compose.
-/

namespace Pterodon.UpdateVerifier

open Lib Updater List RangeSet

section Groups

theorem numbers_cut (range : Nat × Nat) (n : Nat) (h : n < range.2 - range.1) :
    numbers (range.1, range.1 + n) ++ numbers (range.1 + n, range.2) = numbers range := by
  unfold numbers
  have hfirst : range.1 + n - range.1 = n := by omega
  have hsum : range.2 - range.1 = n + (range.2 - (range.1 + n)) := by omega
  rw [hfirst, hsum, range'_append_1]

theorem fillGroup_blocks (ranges : Pairs) (needed : Nat) (h : needed ≤ (spread ranges).length) :
    spread (fillGroup needed ranges).1 ++ spread (fillGroup needed ranges).2 = spread ranges ∧
      (spread (fillGroup needed ranges).1).length = needed := by
  induction ranges generalizing needed with
  | nil =>
    have hzero : needed = 0 := Nat.le_zero.mp h
    exact ⟨rfl, hzero.symm⟩
  | cons range rest ih =>
    rw [spread_cons, length_append, numbers_length] at h
    rw [fillGroup]
    by_cases hzero : needed = 0
    · rw [if_pos hzero]
      exact ⟨rfl, hzero.symm⟩
    · rw [if_neg hzero]
      by_cases hcut : range.2 - range.1 > needed
      · -- the iterator stays at this range, without the blocks the group takes
        rw [if_pos hcut]
        constructor
        · rw [spread_cons, spread_cons, spread_cons, ← numbers_cut range needed hcut]
          simp [spread]
        · simp [spread, numbers_length]
      · rw [if_neg hcut]
        obtain ⟨hall, hlength⟩ := ih (needed - (range.2 - range.1)) (by omega)
        constructor
        · rw [spread_cons, spread_cons, append_assoc, hall]
        · rw [spread_cons, length_append, numbers_length]
          omega

theorem fillGroups_blocks (counts : List Nat) (ranges : Pairs)
    (h : counts.sum = (spread ranges).length) :
    (fillGroups counts ranges).flatMap spread = spread ranges := by
  induction counts generalizing ranges with
  | nil => exact (length_eq_zero_iff.mp h.symm).symm
  | cons count more ih =>
    rw [sum_cons] at h
    obtain ⟨hall, hlength⟩ := fillGroup_blocks ranges count (by omega)
    have hrest : more.sum = (spread (fillGroup count ranges).2).length := by
      have hsum := congrArg List.length hall
      rw [length_append] at hsum
      omega
    rw [fillGroups, flatMap_cons, ih _ hrest, hall]

theorem blocksPerGroup_sum (blocks groups : Nat) (h : 0 < groups) :
    (blocksPerGroup blocks groups).sum = blocks := by
  unfold blocksPerGroup
  rw [sum_append, sum_replicate_nat, sum_replicate_nat]
  have hlt : blocks % groups < groups := Nat.mod_lt _ h
  calc blocks % groups * (blocks / groups + 1) + (groups - blocks % groups) * (blocks / groups)
      = (blocks % groups + (groups - blocks % groups)) * (blocks / groups) + blocks % groups := by
        rw [Nat.mul_add, Nat.add_mul]
        omega
    _ = groups * (blocks / groups) + blocks % groups := by rw [Nat.add_sub_cancel' hlt.le]
    _ = blocks := Nat.div_add_mod blocks groups

theorem splitRanges_blocks (r : RangeSet) (groups : Nat) (h : 0 < groups) :
    (splitRanges r groups).flatMap spread = r.blockList := by
  have hblocks := r.blocks_pos
  have hgroups : 0 < if r.blocks < groups then r.blocks else groups := by
    split <;> omega
  unfold splitRanges
  rw [if_neg (by omega)]
  refine fillGroups_blocks _ _ ?_
  rw [blocksPerGroup_sum _ _ hgroups]
  exact r.blockList_length.symm

end Groups

section Threads

variable {answers : ThreadAnswers} {device : Text}

/-- A part of a thread brings some bytes or fails, and it does not pass over a failing read. -/
structure Covers (device : Text) (r : Outcome) (bytes : Nat → Prop) : Prop where
  complete : r.ok = true → ∀ o, bytes o → ∃ rd ∈ r.reads, rd.Brought device o
  honest : ∀ rd ∈ r.reads, rd.got = none → r.ok = false

theorem Covers.mono {r : Outcome} {P Q : Nat → Prop} (h : Covers device r P)
    (hPQ : ∀ o, Q o → P o) : Covers device r Q :=
  ⟨fun hok o hQ => h.complete hok o (hPQ o hQ), h.honest⟩

theorem Covers.silent (ok : Bool) (calls : Nat) {P : Nat → Prop} (h : ok = true → ∀ o, ¬ P o) :
    Covers device ⟨ok, calls, []⟩ P :=
  ⟨fun hok o hP => absurd hP (h hok o), nofun⟩

theorem Covers.andThen {r : Outcome} {next : Nat → Outcome} {P Q : Nat → Prop}
    (h : Covers device r P) (hnext : ∀ calls, Covers device (next calls) Q) :
    Covers device (r.andThen next) (fun o => P o ∨ Q o) := by
  unfold Outcome.andThen
  cases hok : r.ok with
  | false =>
    refine ⟨fun hr => absurd (hok.symm.trans hr) nofun, fun rd hrd hgot => hok⟩
  | true =>
    constructor
    · intro hall o ho
      rcases ho with ho | ho
      · obtain ⟨rd, hrd, hbrought⟩ := h.complete hok o ho
        exact ⟨rd, mem_append_left _ hrd, hbrought⟩
      · obtain ⟨rd, hrd, hbrought⟩ := (hnext r.calls).complete hall o ho
        exact ⟨rd, mem_append_right _ hrd, hbrought⟩
    · intro rd hrd hgot
      rcases mem_append.mp hrd with hrd | hrd
      · exact absurd ((h.honest rd hrd hgot).symm.trans hok) nofun
      · exact (hnext r.calls).honest rd hrd hgot

theorem covers_read (device : Text) (pos count got calls : Nat) :
    Covers device ⟨true, calls, [⟨device, pos, count, some got⟩]⟩
      (fun o => pos ≤ o ∧ o < pos + got) := by
  constructor
  · intro _ o ho
    exact ⟨_, mem_singleton_self _, rfl, got, rfl, ho⟩
  · intro rd hrd hgot
    obtain rfl := mem_singleton.mp hrd
    cases hgot

theorem covers_readFullyRounds (fuel pos count calls : Nat) :
    Covers device (readFullyRounds answers device fuel pos count calls)
      (fun o => pos ≤ o ∧ o < pos + count) := by
  induction fuel generalizing pos count calls with
  | zero =>
    refine Covers.silent _ _ fun hok o ho => ?_
    have hzero : count = 0 := of_decide_eq_true hok
    omega
  | succ fuel ih =>
    rw [readFullyRounds]
    by_cases hzero : count = 0
    · rw [if_pos hzero]
      exact Covers.silent _ _ fun _ o ho => by omega
    · rw [if_neg hzero]
      cases hread : answers.read calls with
      | none => exact ⟨fun hok => absurd hok nofun, fun _ _ _ => rfl⟩
      | some n =>
        have hhead := covers_read device pos count (min (n + 1) count) (calls + 1)
        refine (hhead.andThen fun calls => ih _ _ calls).mono fun o ho => ?_
        omega

theorem covers_readPieces (fuel pos remain calls : Nat) :
    Covers device (readPieces answers device fuel pos remain calls)
      (fun o => pos ≤ o ∧ o < pos + remain) := by
  induction fuel generalizing pos remain calls with
  | zero =>
    refine Covers.silent _ _ fun hok o ho => ?_
    have hzero : remain = 0 := of_decide_eq_true hok
    omega
  | succ fuel ih =>
    rw [readPieces]
    by_cases hzero : remain = 0
    · rw [if_pos hzero]
      exact Covers.silent _ _ fun _ o ho => by omega
    · rw [if_neg hzero]
      refine ((covers_readFullyRounds _ _ _ _).andThen fun calls => ih _ _ calls).mono ?_
      omega

/-- The bytes of a list of blocks. -/
def InBlocks (blocks : List Nat) (o : Nat) : Prop := o / kBlockSize ∈ blocks

theorem covers_readGroup (i calls : Nat) (group : Pairs) :
    Covers device (readGroup answers device i group calls) (InBlocks (spread group)) := by
  induction group generalizing i calls with
  | nil => exact Covers.silent _ _ nofun
  | cons range rest ih =>
    rw [readGroup]
    cases hseek : answers.seek i with
    | false => exact Covers.silent _ _ nofun
    | true =>
      rw [if_pos rfl]
      refine ((covers_readPieces _ _ _ _).andThen fun calls => ih (i + 1) calls).mono ?_
      intro o ho
      rw [InBlocks, spread_cons, mem_append, mem_numbers] at ho
      rcases ho with ⟨hlo, hhi⟩ | ho
      · unfold kBlockSize at hlo hhi ⊢
        omega
      · exact Or.inr ho

theorem covers_threadFunc (group : Pairs) :
    Covers device (threadFunc answers device group) (InBlocks (spread group)) := by
  unfold threadFunc
  cases hopened : answers.opened with
  | false => exact Covers.silent _ _ nofun
  | true => exact covers_readGroup 0 0 group

end Threads

section CareMap

variable {sys : System}

theorem threadNum_pos (sys : System) : 0 < threadNum sys := by
  unfold threadNum
  split <;> omega

/-- A pair is read: its ranges parse, and every byte of their blocks was brought. -/
def PairRead (sys : System) (reads : List Read) (pair : Nat) (p : Text × Text) : Prop :=
  ∃ device ranges, dmBlockDevice sys pair p.1 = some device ∧
    RangeSet.parse sys.parseUint p.2 = some ranges ∧
    ∀ b ∈ ranges.blockList, ∀ o, b * kBlockSize ≤ o → o < (b + 1) * kBlockSize →
      ∃ rd ∈ reads, rd.Brought device o

theorem PairRead.mono {reads reads' : List Read} {pair : Nat} {p : Text × Text}
    (h : PairRead sys reads pair p) (hsub : ∀ rd ∈ reads, rd ∈ reads') :
    PairRead sys reads' pair p := by
  obtain ⟨device, ranges, hdevice, hparse, hall⟩ := h
  refine ⟨device, ranges, hdevice, hparse, fun b hb o hlo hhi => ?_⟩
  obtain ⟨rd, hrd, hbrought⟩ := hall b hb o hlo hhi
  exact ⟨rd, hsub rd hrd, hbrought⟩

theorem block_in_group (sys : System) (ranges : RangeSet) {b : Nat} (hb : b ∈ ranges.blockList) :
    ∃ (j : Nat) (h : j < (splitRanges ranges (threadNum sys)).length),
      b ∈ spread (splitRanges ranges (threadNum sys))[j] := by
  rw [← splitRanges_blocks ranges (threadNum sys) (threadNum_pos sys)] at hb
  obtain ⟨group, hgroup, hmem⟩ := mem_flatMap.mp hb
  obtain ⟨j, hj, rfl⟩ := getElem_of_mem hgroup
  exact ⟨j, hj, hmem⟩

theorem runThreads_covers (sys : System) (pair : Nat) (device : Text) (ranges : RangeSet) {b : Nat}
    (hb : b ∈ ranges.blockList) :
    ∃ r ∈ runThreads sys pair device ranges,
      Covers device r fun o => o / kBlockSize = b := by
  obtain ⟨j, hj, hmem⟩ := block_in_group sys ranges hb
  refine ⟨threadFunc (sys.thread pair j) device (splitRanges ranges (threadNum sys))[j], ?_, ?_⟩
  · exact mem_mapIdx.mpr ⟨j, hj, rfl⟩
  · refine (covers_threadFunc _).mono fun o ho => ?_
    rw [InBlocks, ho]
    exact hmem

theorem runThreads_honest (pair : Nat) (device : Text) (ranges : RangeSet) {r : Outcome}
    (hr : r ∈ runThreads sys pair device ranges) :
    ∀ rd ∈ r.reads, rd.got = none → r.ok = false := by
  obtain ⟨j, hj, rfl⟩ := mem_mapIdx.mp hr
  exact (covers_threadFunc _).honest

theorem readBlocks_complete (pair : Nat) (p : Text × Text)
    (h : (readBlocks sys pair p.1 p.2).1 = true) :
    PairRead sys (readBlocks sys pair p.1 p.2).2 pair p := by
  revert h
  unfold readBlocks
  split
  · exact nofun
  · cases hdevice : dmBlockDevice sys pair p.1 with
    | none => exact nofun
    | some device =>
      cases hparse : parse sys.parseUint p.2 with
      | none => exact nofun
      | some ranges =>
        intro hall
        refine ⟨device, ranges, hdevice, hparse, fun b hb o hlo hhi => ?_⟩
        obtain ⟨r, hr, hcovers⟩ := runThreads_covers sys pair device ranges hb
        have hblock : o / kBlockSize = b := by
          unfold kBlockSize at hlo hhi ⊢
          omega
        obtain ⟨rd, hrd, hbrought⟩ :=
          hcovers.complete (all_eq_true.mp hall r hr) o hblock
        exact ⟨rd, mem_flatMap.mpr ⟨r, hr, hrd⟩, hbrought⟩

/-- `read_blocks` does not pass over a failing read: `ret` is the conjunction of all threads. -/
theorem readBlocks_honest (pair : Nat) (partition rangeStr : Text) :
    ∀ rd ∈ (readBlocks sys pair partition rangeStr).2, rd.got = none →
      (readBlocks sys pair partition rangeStr).1 = false := by
  unfold readBlocks
  split
  · exact fun _ _ _ => rfl
  · cases hdevice : dmBlockDevice sys pair partition with
    | none => exact fun _ _ _ => rfl
    | some device =>
      cases hparse : parse sys.parseUint rangeStr with
      | none => exact fun _ _ _ => rfl
      | some ranges =>
        intro rd hrd hgot
        obtain ⟨r, hr, hrd⟩ := mem_flatMap.mp hrd
        refine all_eq_false.mpr ⟨r, hr, ?_⟩
        rw [runThreads_honest pair device ranges hr rd hrd hgot]
        exact nofun

theorem verifyPairs_complete (pair : Nat) (lines : List Text)
    (hlegacy : ∀ p ∈ pairsOf lines, legacyLine p.1 = false)
    (h : (verifyPairs sys pair lines).1 = true) (i : Nat) (p : Text × Text)
    (hp : (pairsOf lines)[i]? = some p) :
    PairRead sys (verifyPairs sys pair lines).2 (pair + i) p := by
  induction pair, lines using verifyPairs.induct sys generalizing i with
  | case1 pair partition ranges rest hline =>
    exact absurd (hlegacy _ mem_cons_self) (by simp [hline])
  | case2 pair partition ranges rest hline hread ih =>
    rw [verifyPairs, if_neg hline, if_pos hread] at h ⊢
    cases i with
    | zero =>
      cases hp
      exact (readBlocks_complete pair _ hread).mono fun rd hrd => mem_append_left _ hrd
    | succ i =>
      have htail := ih (forall_mem_cons.mp hlegacy).2 h i hp
      rw [Nat.add_right_comm] at htail
      exact htail.mono fun rd hrd => mem_append_right _ hrd
  | case3 pair partition ranges rest hline hread =>
    rw [verifyPairs, if_neg hline, if_neg hread] at h
    cases h
  | case4 lines pair hshape =>
    have hnil : pairsOf lines = [] := by
      unfold pairsOf
      split
      · exact absurd rfl (hshape _ _ _)
      · rfl
    rw [hnil] at hp
    cases hp

theorem verifyPairs_honest (pair : Nat) (lines : List Text) :
    ∀ rd ∈ (verifyPairs sys pair lines).2, rd.got = none →
      (verifyPairs sys pair lines).1 = false := by
  induction pair, lines using verifyPairs.induct sys with
  | case1 pair partition ranges rest hline =>
    rw [verifyPairs, if_pos hline]
    exact nofun
  | case2 pair partition ranges rest hline hread ih =>
    rw [verifyPairs, if_neg hline, if_pos hread]
    intro rd hrd hgot
    rcases mem_append.mp hrd with hrd | hrd
    · exact absurd (hread.symm.trans (readBlocks_honest pair partition ranges rd hrd hgot)) nofun
    · exact ih rd hrd hgot
  | case3 pair partition ranges rest hline hread =>
    rw [verifyPairs, if_neg hline, if_neg hread]
    exact fun _ _ _ => rfl
  | case4 lines pair hshape =>
    rw [verifyPairs]
    · exact nofun
    · exact hshape

/--
Verification by an existing care map is complete: a true result means that every byte of
every listed block was read from the dm device of its partition, and no failing read goes
with a true result.
-/
theorem care_map_complete (sys : System) (file : CareMapFile) (hexists : file ≠ .missing)
    (hlegacy : ∀ p ∈ careMapPairs file, legacyLine p.1 = false) :
    ((verifyImage sys file).1 = true →
      ∀ i p, (careMapPairs file)[i]? = some p → PairRead sys (verifyImage sys file).2 i p) ∧
    ∀ rd ∈ (verifyImage sys file).2, rd.got = none → (verifyImage sys file).1 = false := by
  cases file with
  | missing => exact absurd rfl hexists
  | unreadable => exact ⟨nofun, fun _ _ _ => rfl⟩
  | content text =>
    unfold verifyImage
    dsimp only
    split
    · exact ⟨nofun, fun _ _ _ => rfl⟩
    · refine ⟨fun htrue i p hp => ?_, verifyPairs_honest 0 _⟩
      have hread := verifyPairs_complete 0 _ hlegacy htrue i p hp
      rwa [Nat.zero_add] at hread

end CareMap

namespace Boot

/-- A device with one dm device and four reading threads that are always answered in full. -/
def system : System where
  avb := true
  hardwareConcurrency := 0
  parseUint := fun max s => (decimal s).filter (· ≤ max)
  scandir := fun _ => some [⟨"dm-0".toList, some "vroot\n".toList⟩]
  thread := fun _ _ => ⟨true, fun _ => true, fun _ => some 4194303⟩

def careMap : CareMapFile := .content "system\n4,1,2,5,6\n".toList

end Boot

/-- Both blocks of a care map are read, and the verdict is true. -/
theorem boot_blocks_read :
    (verifyImage Boot.system Boot.careMap).1 = true ∧
    ∀ i p, (careMapPairs Boot.careMap)[i]? = some p →
      PairRead Boot.system (verifyImage Boot.system Boot.careMap).2 i p := by
  have htrue : (verifyImage Boot.system Boot.careMap).1 = true := by decide +kernel
  exact ⟨htrue, (care_map_complete Boot.system Boot.careMap nofun (by decide)).1 htrue⟩

end Pterodon.UpdateVerifier
