import Mathlib.Order.Interval.Finset.Nat
import Pterodon.ImgDiff.Geometry

/-!
# How large the source pieces get

The limit is meant for blocks, and a source chunk is let in by its bytes: so many blocks are there
already, so many bytes come to them. A chunk that starts in the middle of a block may lie in one
block more than its length needs. When the piece has just room for its length, and it shares no
block with what is there, the piece ends up with one block too many (`Overruns`). It takes no
further chunk then, so that it is never more than one.
-/

namespace Pterodon.ImgDiff.ZipMode

open Lib ApplyPatch List SortedRangeSet TwoEntries

/-- The blocks that so many bytes need, wherever they are. -/
def blocksFor (length : Nat) : Nat := (length + BLOCK_SIZE - 1) / BLOCK_SIZE

/-- The bytes lie in one block more. -/
def Straddles (start length : Nat) : Prop :=
  blocksFor length * BLOCK_SIZE < start % BLOCK_SIZE + length

/-- A source chunk that is added to a piece: the ranges before, and what is left of it. -/
structure Addition where
  before : SortedRangeSet
  offset : Nat
  length : Nat

/-- There is just room for the length, and the bytes lie in one more block, all of them new. -/
def Overruns (blocksLimit : Nat) (a : Addition) : Prop :=
  a.before.blocks + blocksFor a.length = blocksLimit ∧ Straddles a.offset a.length ∧
    a.before.overlaps a.offset a.length = false

/-- The ranges of a piece come from additions for which there was room. -/
inductive Gathers (blocksLimit : Nat) (srcs : Chunks) : List Addition → SortedRangeSet → Prop
  | empty : Gathers blocksLimit srcs [] .empty
  | add {additions : List Addition} {ranges used : SortedRangeSet} {c : ImageChunk} {o l : Nat} :
      Gathers blocksLimit srcs additions ranges → c ∈ srcs → 0 < c.rawDataLen →
      removeUsedBlocks c.start c.rawDataLen used = some (o, l) →
      ranges.blocks * BLOCK_SIZE + l ≤ blocksLimit * BLOCK_SIZE →
      Gathers blocksLimit srcs (additions ++ [⟨ranges, o, l⟩]) (ranges.insert o l)

/-! ## One addition -/

def members (rs : SortedRangeSet) : Finset Nat := (spread rs.ranges).toFinset

theorem mem_members {rs : SortedRangeSet} {n : Nat} : n ∈ members rs ↔ rs.Has n :=
  mem_toFinset.trans mem_spread

theorem card_members (rs : SortedRangeSet) : (members rs).card = rs.blocks := by
  rw [members, toFinset_card_of_nodup (Apart.ascending rs.apart).nodup]
  exact spread_length rs.ranges

theorem has_ofRange {o l n : Nat} (hl : 0 < l) (hfile : o + l < 2 ^ 64) :
    (ofRange (rangeOf o l)).Has n ↔
      n ∈ Finset.Ico (o / BLOCK_SIZE) ((o + l - 1) / BLOCK_SIZE + 1) := by
  rw [rangeOf_eq hl hfile]
  unfold ofRange SortedRangeSet.Has kBlockSize
  rw [dif_pos (by unfold SIZE_MAX; omega), Finset.mem_Ico]
  simp only [mem_singleton, exists_eq_left]
  rfl

section Addition

variable {blocksLimit : Nat} {ranges : SortedRangeSet} {o l : Nat}

theorem insert_blocks (ranges : SortedRangeSet) (hl : 0 < l) (hfile : o + l < 2 ^ 64) :
    ∃ shared, (ranges.insert o l).blocks + shared
        = ranges.blocks + ((o + l - 1) / BLOCK_SIZE + 1 - o / BLOCK_SIZE) ∧
      ranges.blocks ≤ (ranges.insert o l).blocks ∧
      (shared = 0 ↔ ranges.overlaps o l = false) := by
  have hunion : members (ranges.insert o l) =
      members ranges ∪ Finset.Ico (o / BLOCK_SIZE) ((o + l - 1) / BLOCK_SIZE + 1) := by
    ext n
    rw [Finset.mem_union, mem_members, mem_members, ← has_ofRange hl hfile]
    exact has_insertSet
  have hcard := Finset.card_union_add_card_inter (members ranges)
    (Finset.Ico (o / BLOCK_SIZE) ((o + l - 1) / BLOCK_SIZE + 1))
  rw [Nat.card_Ico] at hcard
  rw [← card_members, ← card_members, hunion]
  refine ⟨_, hcard, Finset.card_le_card Finset.subset_union_left, ?_⟩
  rw [Finset.card_eq_zero, Finset.eq_empty_iff_forall_notMem, Bool.eq_false_iff, ne_eq,
    overlaps, overlapsSet_iff, not_exists]
  refine forall_congr' fun n => ?_
  rw [Finset.mem_inter, mem_members, has_ofRange hl hfile]

/-- An addition for which there is room leaves at most one block too many, and only one that
overruns does. -/
theorem insert_blocks_le (hl : 0 < l) (hfile : o + l < 2 ^ 64)
    (hroom : ranges.blocks * BLOCK_SIZE + l ≤ blocksLimit * BLOCK_SIZE) :
    ranges.blocks ≤ (ranges.insert o l).blocks ∧ (ranges.insert o l).blocks ≤ blocksLimit + 1 ∧
      ((ranges.insert o l).blocks ≤ blocksLimit ↔ ¬ Overruns blocksLimit ⟨ranges, o, l⟩) := by
  obtain ⟨shared, hsum, hmono, hshared⟩ := insert_blocks ranges hl hfile
  unfold Overruns Straddles
  dsimp only
  rw [← hshared]
  unfold blocksFor BLOCK_SIZE at *
  refine ⟨hmono, ?_, ?_⟩
  · omega
  · omega

end Addition

/-! ## A piece -/

section Pieces

variable {blocksLimit : Nat} {srcs : Chunks}
/-- A piece has at most one block too many, and only after an addition that overruns. Nothing is
taken after it: its room is used up. -/
theorem Gathers.blocks_le {additions : List Addition} {ranges : SortedRangeSet}
    (h : Gathers blocksLimit srcs additions ranges)
    (hfile : ∀ c ∈ srcs, c.start + c.rawDataLen < 2 ^ 64) :
    ranges.blocks ≤ blocksLimit + 1 ∧
      (ranges.blocks ≤ blocksLimit ↔ ∀ a ∈ additions, ¬ Overruns blocksLimit a) := by
  induction h with
  | empty => exact ⟨Nat.zero_le _, fun _ => nofun, fun _ => Nat.zero_le _⟩
  | @add additions ranges used c o l _ hc hpos hremove hroom ih =>
    obtain ⟨_, _, hend, hwhole⟩ := removeUsedBlocks_spec hremove
    have hl : 0 < l := by omega
    have hcfile := hfile c hc
    obtain ⟨hmono, hle, hiff⟩ := insert_blocks_le hl (show o + l < 2 ^ 64 by omega) hroom
    refine ⟨hle, ?_⟩
    rw [forall_mem_append, forall_mem_singleton, ← ih.2, ← hiff]
    exact ⟨fun h => ⟨by omega, h⟩, And.right⟩

/-- Chunks that lie in as few blocks as they can do not overrun. -/
theorem Gathers.never_overruns {additions : List Addition} {ranges : SortedRangeSet}
    (h : Gathers blocksLimit srcs additions ranges)
    (hsnug : ∀ c ∈ srcs, ¬ Straddles c.start c.rawDataLen) :
    ∀ a ∈ additions, ¬ Overruns blocksLimit a := by
  induction h with
  | empty => exact nofun
  | @add additions ranges used c o l _ hc hpos hremove hroom ih =>
    refine forall_mem_append.mpr ⟨ih, forall_mem_singleton.mpr fun hover => ?_⟩
    have hstraddles : Straddles o l := hover.2.1
    rcases (removeUsedBlocks_spec hremove).2.2.2 with ⟨rfl, rfl⟩ | ⟨haligned, _⟩
    · exact hsnug c hc hstraddles
    · -- what is left after a cut starts at a block
      unfold Straddles blocksFor BLOCK_SIZE at *
      omega

end Pieces

/-! ## The loop -/

variable {blocksLimit rounds : Nat} {srcs tgts : Chunks} {src tgtFile : Bytes}

/-- The pieces and the ranges gathered since. -/
def AllGathered (blocksLimit : Nat) (srcs : Chunks) (st : SplitState) : Prop :=
  (∃ additions, Gathers blocksLimit srcs additions st.srcRanges) ∧
    ∀ image ∈ st.images, ∃ additions, Gathers blocksLimit srcs additions image.srcRanges

theorem allGathered_run {st st' : SplitState} (h : AllGathered blocksLimit srcs st)
    (hloop : splitLoop (blocksLimit * BLOCK_SIZE) srcs src tgtFile rounds st tgts = .done st') :
    AllGathered blocksLimit srcs st' := by
  refine splitLoop_keeps (P := fun _ => AllGathered blocksLimit srcs) ?_ ?_ h hloop
  · intro tgt tgts st st' h hplace
    obtain ⟨⟨additions, hranges⟩, himages⟩ := h
    rcases placeChunk_added hplace with rfl | ⟨c, hc, o, l, _, hpos, hremove, hroom, hcase⟩
    · exact ⟨⟨additions, hranges⟩, himages⟩
    · have hadd := hranges.add hc hpos hremove hroom
      rcases hcase with ⟨_, _, rfl⟩ | rfl
      · exact ⟨⟨_, hadd⟩, himages⟩
      · exact ⟨⟨_, hadd⟩, himages⟩
  · intro tgts st st' h hnext
    obtain ⟨added, hadd, rfl⟩ := startNext_cases hnext
    refine ⟨⟨[], .empty⟩, forall_mem_append.mpr ⟨h.2, ?_⟩⟩
    rcases addSplitImage_cases hadd with ⟨_, rfl⟩ | ⟨aligned, _, rfl⟩
    · exact nofun
    · exact forall_mem_singleton.mpr h.1

/--
The size of the source pieces, for all source chunks of a file, all chunks of the target and every
limit in blocks. Each piece but the last is gathered from what is left of source chunks; it has at
most one block more than the limit, and it keeps to the limit exactly if none of its additions
overruns. So all of them do if every source chunk lies in as few blocks as its length allows.
-/
theorem split_blocks_le_iff (blocksLimit : Nat) (src tgtFile : Bytes)
    (tgts srcs : Chunks) (images : List SplitImage)
    (hfile : ∀ c ∈ srcs, c.start + c.rawDataLen < 2 ^ 64)
    (h : splitZipModeImageWithLimit (blocksLimit * BLOCK_SIZE) src tgtFile tgts srcs =
      some images) :
    (∀ image ∈ images.dropLast, ∃ additions, Gathers blocksLimit srcs additions image.srcRanges ∧
      image.srcRanges.blocks ≤ blocksLimit + 1 ∧
      (image.srcRanges.blocks ≤ blocksLimit ↔ ∀ a ∈ additions, ¬ Overruns blocksLimit a)) ∧
    ((∀ c ∈ srcs, ¬ Straddles c.start c.rawDataLen) →
      ∀ image ∈ images.dropLast, image.srcRanges.blocks ≤ blocksLimit) := by
  have hpieces : splitPieces (blocksLimit * BLOCK_SIZE) src tgtFile tgts srcs = some images := by
    unfold splitZipModeImageWithLimit at h
    split at h
    · cases h
    · rename_i hpieces
      split at h
      · rw [hpieces, Option.some.inj h]
      · cases h
  obtain ⟨cd, st, added, hloop, _, rfl⟩ := splitPieces_cases hpieces
  have hall : AllGathered blocksLimit srcs st :=
    allGathered_run ⟨⟨[], .empty⟩, fun _ h => absurd h not_mem_nil⟩ hloop
  have hgathers : ∀ image ∈ (st.images ++ added.toList).dropLast,
      ∃ additions, Gathers blocksLimit srcs additions image.srcRanges := by
    intro image himage
    refine hall.2 image ?_
    cases added with
    | none => exact mem_of_mem_dropLast (by simpa using himage)
    | some last => simpa using himage
  refine ⟨fun image himage => ?_, fun hsnug image himage => ?_⟩
  · obtain ⟨additions, hadd⟩ := hgathers image himage
    exact ⟨additions, hadd, hadd.blocks_le hfile⟩
  · obtain ⟨additions, hadd⟩ := hgathers image himage
    exact (hadd.blocks_le hfile).2.mpr (hadd.never_overruns hsnug)

/-- The two entries of a block each are aligned, and the first piece has just the one block. -/
theorem two_pieces_blocks_le : ∃ images, splitZipModeImageWithLimit (1 * BLOCK_SIZE) source target
        tgtChunks srcChunks = some images ∧
      images.length = 2 ∧ ∀ image ∈ images.dropLast, image.srcRanges.blocks ≤ 1 := by
  have hsome : ((splitZipModeImageWithLimit (1 * BLOCK_SIZE) source target
      tgtChunks srcChunks).any fun images => images.length = 2)
      = true := by
    decide +kernel
  obtain ⟨images, himages, hlength⟩ := (Option.any_eq_true _ _).mp hsome
  refine ⟨images, himages, of_decide_eq_true hlength,
    (split_blocks_le_iff 1 _ _ _ _ images (by decide) himages).2 ?_⟩
  unfold Straddles
  decide

namespace Unaligned

/-- A zip file with the entries `a`, `c` and `b`, whose data follows on headers of 31 bytes. -/
def source : Bytes := List.replicate 12451 0

def target : Bytes := List.replicate 5116 0

def sourceChunks : Chunks :=
  [{ type := .deflate, start := 31, inputFile := source, rawDataLen := 4096, entryName := [0x61] },
    { type := .deflate, start := 4158, inputFile := source, rawDataLen := 4003,
      entryName := [0x63] },
    { type := .deflate, start := 8192, inputFile := source, rawDataLen := 4096,
      entryName := [0x62] },
    normalChunk source 12288 163]

def targetChunks : Chunks :=
  [normalChunk target 0 31,
    { type := .deflate, start := 31, inputFile := target, rawDataLen := 100, entryName := [0x61] },
    normalChunk target 131 31,
    { type := .deflate, start := 162, inputFile := target, rawDataLen := 4838,
      entryName := [0x62] },
    normalChunk target 5000 116]

end Unaligned

/-- The 4096 bytes of the first entry lie in two blocks, and the limit of the piece is one. -/
theorem unaligned_entry_overruns :
    ∃ images, splitZipModeImageWithLimit (1 * BLOCK_SIZE) Unaligned.source Unaligned.target
        Unaligned.targetChunks Unaligned.sourceChunks = some images ∧
      ∃ image ∈ images.dropLast, ¬ image.srcRanges.blocks ≤ 1 := by
  have hsome : ((splitZipModeImageWithLimit (1 * BLOCK_SIZE) Unaligned.source Unaligned.target
      Unaligned.targetChunks Unaligned.sourceChunks).any fun images =>
        images.dropLast.any fun image => ¬ image.srcRanges.blocks ≤ 1) = true := by
    decide +kernel
  obtain ⟨images, himages, hany⟩ := (Option.any_eq_true _ _).mp hsome
  obtain ⟨image, himage, hlarge⟩ := any_eq_true.mp hany
  exact ⟨images, himages, image, himage, of_decide_eq_true hlarge⟩

end Pterodon.ImgDiff.ZipMode
