import Pterodon.ImgDiff.Split
import Pterodon.ImgDiff.Tiling

/-!
# The geometry of the pieces

Whatever the chunks are, as long as those of the target tile the file, the pieces that the
loop makes pass `ValidateSplitImages`, and the loop ends.

Two invariants carry this. On the side of the target, the pieces made so far cover the file
up to the end of the block in which the gathered chunks begin: the part of a chunk before that
end was added to the piece before, and is cut off when the next piece is made. On the side of
the source, the ranges gathered so far have no block in common with the ranges of the pieces
made before, nor with the central directory, which is kept for the last piece.

The loop ends because a fresh start leaves room for any single chunk: the chunk for which there
was no room is placed in the next round.
-/

namespace Pterodon.ImgDiff.ZipMode

open Lib ApplyPatch ImageChunk List SortedRangeSet

variable {st st' : SplitState} {tgt : ImageChunk} {tgts chunks : Chunks}
    {images : List SplitImage} {pos : Nat}

/-! ## Alignment -/

/-- The end of the block in which a position lies. -/
def alignUp (n : Nat) : Nat := (n + (BLOCK_SIZE - 1)) / BLOCK_SIZE * BLOCK_SIZE

theorem le_alignUp (n : Nat) : n ≤ alignUp n := by
  unfold alignUp BLOCK_SIZE
  omega

theorem alignUp_mod (n : Nat) : alignUp n % BLOCK_SIZE = 0 := Nat.mul_mod_left _ _

theorem alignUp_between {n m : Nat} (h : n ≤ m) (hm : m ≤ alignUp n) : alignUp m = alignUp n := by
  unfold alignUp BLOCK_SIZE at *
  omega

theorem alignHead_eq (start length : Nat) : alignHead start length =
      if alignUp start < start + length then
        some (alignUp start, start + length - alignUp start)
      else none := by
  unfold alignHead
  have hresidual : (if start % BLOCK_SIZE = 0 then 0 else BLOCK_SIZE - start % BLOCK_SIZE)
      = alignUp start - start := by
    unfold alignUp BLOCK_SIZE
    split <;> omega
  have hle := le_alignUp start
  by_cases h : alignUp start < start + length
  · rw [if_neg (by omega), if_pos h]
    congr 2 <;> omega
  · rw [if_pos (by omega), if_neg h]

/-! ## What is cut off a source chunk -/

/-- What is left of a source chunk lies in it and uses no used block. Where something is cut off, it
starts at a block. -/
theorem removeUsedBlocks_spec {start length o l : Nat} {used : SortedRangeSet}
    (h : removeUsedBlocks start length used = some (o, l)) :
    used.overlaps o l = false ∧ start ≤ o ∧ o + l ≤ start + length ∧
      ((o = start ∧ l = length) ∨ (o % BLOCK_SIZE = 0 ∧ 0 < l)) := by
  unfold removeUsedBlocks at h
  split at h
  · rename_i hfree
    cases h
    exact ⟨by simpa using hfree, Nat.le_refl _, Nat.le_refl _, .inl ⟨rfl, rfl⟩⟩
  split at h
  · cases h
  rename_i start₁ length₁ hhead
  have hin₁ : start ≤ start₁ ∧ start₁ + length₁ ≤ start + length ∧
      start₁ % BLOCK_SIZE = 0 ∧ 0 < length₁ := by
    rw [alignHead_eq] at hhead
    split at hhead
    · cases hhead
      have := le_alignUp start
      exact ⟨this, by omega, alignUp_mod start, by omega⟩
    · cases hhead
  split at h
  · rename_i hfree
    cases h
    exact ⟨by simpa using hfree, hin₁.1, hin₁.2.1, .inr hin₁.2.2⟩
  split at h
  · cases h
  rename_i start₂ length₂ htail
  have hin₂ : start₂ = start₁ ∧ length₂ ≤ length₁ ∧ 0 < length₂ := by
    unfold alignTail at htail
    dsimp only at htail
    split at htail
    · cases htail
    · cases htail
      omega
  split at h
  · rename_i hfree
    cases h
    obtain ⟨rfl, hle, hpos⟩ := hin₂
    exact ⟨by simpa using hfree, hin₁.1, by omega, .inr ⟨hin₁.2.2.1, hpos⟩⟩
  · cases h

/-! ## One round of the loop -/

variable {limit : Nat} {srcs : Chunks} {src tgtFile : Bytes}

/-- What a round does that places its chunk: the chunk is left without a source of its own, or a
source of the same name is found and what is left of it is added to the ranges. It becomes a
source chunk if it is deflated and nothing was cut off. -/
theorem placeChunk_added (h : placeChunk limit srcs tgtFile st tgt = some (.added st')) :
    st' = st.pushNormal tgtFile tgt ∨
    ∃ c ∈ srcs, ∃ o l, sameName tgt.entryName c.entryName = true ∧ 0 < c.rawDataLen ∧
      removeUsedBlocks c.start c.rawDataLen st.usedSrcRanges = some (o, l) ∧
      st.srcRanges.blocks * BLOCK_SIZE + l ≤ limit ∧
      ((c.type = .deflate ∧ l = c.rawDataLen ∧
          st' = { st with
            srcRanges := st.srcRanges.insert o l
            srcChunks := st.srcChunks ++ [c]
            tgtChunks := st.tgtChunks ++ [tgt] }) ∨
        st' = { st with
          srcRanges := st.srcRanges.insert o l
          tgtChunks := st.tgtChunks ++ [normalChunk tgtFile tgt.start tgt.rawDataLen] }) := by
  unfold placeChunk at h
  split at h
  · left
    exact (Placed.added.inj (Option.some.inj h)).symm
  rename_i c hfind
  obtain ⟨i, hi, hc⟩ := Option.bind_eq_some_iff.mp hfind
  have hmem : c ∈ srcs := mem_of_getElem? hc
  have hname : sameName tgt.entryName c.entryName = true := by
    obtain ⟨hlt, hp, _⟩ := findIdx?_eq_some_iff_getElem.mp hi
    rw [getElem?_eq_getElem hlt] at hc
    rw [Option.some.inj hc] at hp
    exact (Bool.and_eq_true_iff.mp hp).2
  split at h
  · cases h
  have hpos : 0 < c.rawDataLen := by omega
  split at h
  · left
    exact (Placed.added.inj (Option.some.inj h)).symm
  rename_i o l hremove
  split at h
  · rename_i hroom
    right
    refine ⟨c, hmem, o, l, hname, hpos, hremove, hroom, ?_⟩
    split at h
    · rename_i hwhole
      exact .inl ⟨hwhole.1, hwhole.2, (Placed.added.inj (Option.some.inj h)).symm⟩
    · exact .inr (Placed.added.inj (Option.some.inj h)).symm
  · exact absurd (Option.some.inj h) nofun

theorem placeChunk_not_full (h : st.srcRanges = .empty) :
    placeChunk limit srcs tgtFile st tgt ≠ some .full := by
  intro hfull
  unfold placeChunk at hfull
  split at hfull
  · exact absurd (Option.some.inj hfull) nofun
  split at hfull
  · cases hfull
  split at hfull
  · exact absurd (Option.some.inj hfull) nofun
  rename_i o l hremove
  have hin := (removeUsedBlocks_spec hremove).2.1
  have hend := (removeUsedBlocks_spec hremove).2.2.1
  rw [h, if_pos] at hfull
  · split at hfull
    · exact absurd (Option.some.inj hfull) nofun
    · exact absurd (Option.some.inj hfull) nofun
  · change 0 * BLOCK_SIZE + l ≤ limit
    omega

/-- The pieces go on with what is made of the chunks, and its blocks are used. -/
theorem startNext_cases (h : startNext src tgtFile st = some st') :
    ∃ added, addSplitImageFromChunkList src tgtFile st.srcRanges st.tgtChunks st.srcChunks =
        some added ∧
      st' =
        { usedSrcRanges :=
            added.elim st.usedSrcRanges fun _ => st.usedSrcRanges.insertSet st.srcRanges
          srcRanges := .empty, srcChunks := [], tgtChunks := []
          images := st.images ++ added.toList } := by
  unfold startNext at h
  split at h
  · cases h
  · rename_i hadd
    refine ⟨none, hadd, ?_⟩
    rw [← Option.some.inj h, Option.toList_none, append_nil]
    rfl
  · rename_i image hadd
    exact ⟨some image, hadd, (Option.some.inj h).symm⟩

theorem splitLoop_ends {rounds : Nat} (hrounds : 2 * tgts.length ≤ rounds) :
    splitLoop limit srcs src tgtFile rounds st tgts ≠ .running := by
  induction tgts generalizing rounds st with
  | nil =>
    rw [splitLoop]
    exact nofun
  | cons tgt tgts ih =>
    rw [length_cons] at hrounds
    obtain ⟨rounds, rfl⟩ : ∃ r, rounds = r + 2 := ⟨rounds - 2, by omega⟩
    rw [splitLoop]
    split
    · exact nofun
    · exact ih (by omega)
    · split
      · exact nofun
      · rename_i st₁ hnext
        rw [splitLoop]
        split
        · exact nofun
        · exact ih (by omega)
        · rename_i hfull
          obtain ⟨_, _, rfl⟩ := startNext_cases hnext
          exact absurd hfull (placeChunk_not_full rfl)

/-- What every round keeps of a state and the chunks still to come holds at the end of the loop. -/
theorem splitLoop_keeps {P : Chunks → SplitState → Prop}
    (hplace : ∀ tgt tgts st st', P (tgt :: tgts) st →
      placeChunk limit srcs tgtFile st tgt = some (.added st') → P tgts st')
    (hnext : ∀ tgts st st', P tgts st → startNext src tgtFile st = some st' → P tgts st')
    {rounds : Nat} (h : P tgts st)
    (hloop : splitLoop limit srcs src tgtFile rounds st tgts = .done st') : P [] st' := by
  induction rounds generalizing tgts st with
  | zero =>
    cases tgts with
    | nil => exact LoopResult.done.inj hloop ▸ h
    | cons tgt tgts => exact absurd hloop nofun
  | succ rounds ih =>
    cases tgts with
    | nil => exact LoopResult.done.inj hloop ▸ h
    | cons tgt tgts =>
      rw [splitLoop] at hloop
      split at hloop
      · exact absurd hloop nofun
      · rename_i hadded
        exact ih (hplace tgt tgts st _ h hadded) hloop
      · split at hloop
        · exact absurd hloop nofun
        · rename_i hstart
          exact ih (hnext (tgt :: tgts) st _ h hstart) hloop

/-! ## The side of the target -/

/-- The pieces cut the stretch between `a` and `b`, and each starts at a block. -/
def PiecesTile (tgtFile : Bytes) : Nat → List SplitImage → Nat → Prop
  | a, [], b => a = b
  | a, image :: rest, b =>
    a % BLOCK_SIZE = 0 ∧ image.tgtChunks ≠ [] ∧
      ∃ m, Tiles tgtFile a image.tgtChunks m ∧ PiecesTile tgtFile m rest b

section Tiles

variable {a b : Nat}

theorem PiecesTile.append {more : List SplitImage} {c : Nat} (h : PiecesTile tgtFile a images b)
    (hmore : PiecesTile tgtFile b more c) : PiecesTile tgtFile a (images ++ more) c := by
  induction images generalizing a with
  | nil =>
    rw [show a = b from h]
    exact hmore
  | cons image images ih =>
    obtain ⟨ha, hne, m, htiles, hrest⟩ := h
    exact ⟨ha, hne, m, htiles, ih hrest⟩

theorem chunksContinue_of_tiles (h : Tiles tgtFile a chunks b) :
    chunksContinue a chunks = some b := by
  induction chunks generalizing a with
  | nil =>
    rw [show a = b from h]
    rfl
  | cons c chunks ih =>
    rw [chunksContinue, if_pos h.2.1]
    exact ih h.2.2

/-- The first half of `ValidateSplitImages`. -/
theorem piecesContinue_of_tile (h : PiecesTile tgtFile a images b) :
    piecesContinue b a images = true := by
  induction images generalizing a with
  | nil => exact decide_eq_true (show a = b from h).symm
  | cons image images ih =>
    obtain ⟨ha, hne, m, htiles, hrest⟩ := h
    have hpass : ¬ (image.tgtChunks = [] ∨ a % BLOCK_SIZE ≠ 0) := by
      rintro (hnil | hmod)
      · exact hne hnil
      · exact hmod ha
    rw [piecesContinue, if_neg hpass, chunksContinue_of_tiles htiles]
    exact ih hrest

/-- Chunks that reach beyond the block in which they begin: what is left starts at its end. -/
theorem alignChunks_tiles (htiles : Tiles tgtFile a chunks pos) :
    (alignChunks tgtFile chunks = none → pos ≤ alignUp a) ∧
    ∀ aligned, alignChunks tgtFile chunks = some aligned →
      Tiles tgtFile (alignUp a) aligned pos ∧ alignUp a < pos ∧ aligned ≠ [] := by
  induction chunks generalizing a with
  | nil => exact ⟨fun _ => (show a = pos from htiles) ▸ le_alignUp a, nofun⟩
  | cons c chunks ih =>
    obtain ⟨hin, hstart, hrest⟩ := htiles
    have hpos := hrest.le
    have hfile := hin.le
    rw [alignChunks, alignHead_eq, hstart]
    by_cases hover : alignUp a < a + c.rawDataLen
    · rw [if_pos hover]
      refine ⟨nofun, fun aligned h => ?_⟩
      cases h
      refine ⟨⟨⟨rfl, ?_⟩, rfl, ?_⟩, by omega, cons_ne_nil _ _⟩
      · dsimp only [normalChunk]
        omega
      · dsimp only [normalChunk]
        rw [Nat.add_sub_cancel' (by omega)]
        exact hrest
    · -- the chunk lies in the block, so that the next one begins in it too
      have hrest := ih hrest
      rw [alignUp_between (Nat.le_add_right _ _) (by omega)] at hrest
      rw [if_neg hover]
      exact hrest

theorem Tiles.getLast_end (htiles : Tiles tgtFile a chunks b) {c : ImageChunk}
    (h : chunks.getLast? = some c) : c.start + c.rawDataLen = b := by
  induction chunks generalizing a with
  | nil => cases h
  | cons d chunks ih =>
    obtain ⟨hin, hstart, hrest⟩ := htiles
    cases chunks with
    | nil =>
      obtain rfl : d = c := by simpa using h
      rw [hstart]
      exact hrest
    | cons e chunks =>
      exact ih hrest h

theorem tailChunk_tiles (htiles : Tiles tgtFile a chunks pos) (hne : chunks ≠ [])
    (hpos : pos ≤ tgtFile.length) :
    Tiles tgtFile pos (tailChunk tgtFile chunks) (min (alignUp pos) tgtFile.length) := by
  obtain ⟨c, hc⟩ : ∃ c, chunks.getLast? = some c :=
    ⟨chunks.getLast hne, getLast?_eq_some_getLast hne⟩
  have hend := Tiles.getLast_end htiles hc
  unfold tailChunk
  rw [hc]
  dsimp only
  rw [hend]
  by_cases hopen : pos % BLOCK_SIZE ≠ 0 ∧ pos < tgtFile.length
  · rw [if_pos hopen]
    refine ⟨⟨rfl, ?_⟩, rfl, ?_⟩
    · dsimp only [normalChunk]
      omega
    · change pos + min (tgtFile.length - pos) (BLOCK_SIZE - pos % BLOCK_SIZE)
        = min (alignUp pos) tgtFile.length
      unfold alignUp
      unfold BLOCK_SIZE at hopen ⊢
      omega
  · rw [if_neg hopen]
    change pos = min (alignUp pos) tgtFile.length
    unfold alignUp
    unfold BLOCK_SIZE at hopen ⊢
    omega

end Tiles

theorem merge_ne_nil (h : chunks ≠ []) : mergeAdjacentNormalChunks chunks ≠ [] := by
  cases chunks with
  | nil => exact absurd rfl h
  | cons c chunks =>
    obtain ⟨d, ds, hmerge, -⟩ := mergeFrom_head c chunks
    exact ne_nil_of_mem (hmerge ▸ mem_cons_self)

theorem addSplitImage_cases {srcRanges : SortedRangeSet} {tgtChunks srcChunks : Chunks}
    {added : Option SplitImage}
    (h : addSplitImageFromChunkList src tgtFile srcRanges tgtChunks srcChunks = some added) :
    (alignChunks tgtFile tgtChunks = none ∧ added = none) ∨
    ∃ aligned, alignChunks tgtFile tgtChunks = some aligned ∧
      added = some
        { tgtChunks := mergeAdjacentNormalChunks (aligned ++ tailChunk tgtFile aligned)
          srcChunks := srcChunks
          srcRanges := srcRanges
          srcContent := srcRanges.contents src } := by
  unfold addSplitImageFromChunkList at h
  split at h
  · cases h
  split at h
  · rename_i hnone
    exact .inl ⟨hnone, (Option.some.inj h).symm⟩
  · rename_i aligned hsome
    dsimp only at h
    split at h
    · cases h
    · exact .inr ⟨aligned, hsome, (Option.some.inj h).symm⟩

/-- The pieces and the chunks gathered since: the pieces go up to the end of the block in which
the chunks begin. -/
def TargetSide (tgtFile : Bytes) (images : List SplitImage) (chunks : Chunks) (pos : Nat) : Prop :=
  ∃ a, Tiles tgtFile a chunks pos ∧ PiecesTile tgtFile 0 images (min (alignUp a) tgtFile.length)

theorem TargetSide.add {srcChunks : Chunks} {srcRanges : SortedRangeSet} {added : Option SplitImage}
    (h : TargetSide tgtFile images chunks pos) (hpos : pos ≤ tgtFile.length)
    (hadd : addSplitImageFromChunkList src tgtFile srcRanges chunks srcChunks = some added) :
    TargetSide tgtFile (images ++ added.toList) [] pos := by
  obtain ⟨a, htiles, hpieces⟩ := h
  have hle := htiles.le
  refine ⟨pos, rfl, ?_⟩
  rcases addSplitImage_cases hadd with ⟨hnone, rfl⟩ | ⟨aligned, hsome, rfl⟩
  · rw [alignUp_between hle ((alignChunks_tiles htiles).1 hnone), Option.toList_none, append_nil]
    exact hpieces
  · obtain ⟨haligned, hlt, hne⟩ := (alignChunks_tiles htiles).2 _ hsome
    rw [Nat.min_eq_left (by omega)] at hpieces
    refine hpieces.append ⟨alignUp_mod a, merge_ne_nil ?_, _, ?_, rfl⟩
    · exact append_ne_nil_of_left_ne_nil hne _
    · exact (haligned.append (tailChunk_tiles haligned hne hpos)).merge

theorem TargetSide.push {c : ImageChunk} (h : TargetSide tgtFile images chunks pos)
    (hin : c.Inside tgtFile) (hstart : c.start = pos) :
    TargetSide tgtFile images (chunks ++ [c]) (pos + c.rawDataLen) := by
  obtain ⟨a, htiles, hpieces⟩ := h
  exact ⟨a, htiles.append ⟨hin, hstart, rfl⟩, hpieces⟩

/-! ## The side of the source -/

/-- The ranges of the pieces and the ranges gathered since, beside those kept for the end. -/
structure SourceSide (reserved : SortedRangeSet) (st : SplitState) : Prop where
  fresh : ∀ n, st.srcRanges.Has n → ¬ st.usedSrcRanges.Has n
  recorded : ∀ image ∈ st.images, ∀ n, image.srcRanges.Has n → st.usedSrcRanges.Has n
  holds : ∀ n, reserved.Has n → st.usedSrcRanges.Has n
  kept : ∀ image ∈ st.images, ∀ n, image.srcRanges.Has n → ¬ reserved.Has n
  exclusive : st.images.Pairwise fun a b => ∀ n, a.srcRanges.Has n → ¬ b.srcRanges.Has n

variable {reserved : SortedRangeSet}

theorem SourceSide.startNext (h : SourceSide reserved st)
    (hnext : startNext src tgtFile st = some st') : SourceSide reserved st' := by
  obtain ⟨added, hadd, rfl⟩ := startNext_cases hnext
  rcases addSplitImage_cases hadd with ⟨_, rfl⟩ | ⟨aligned, _, rfl⟩
  · rw [Option.toList_none, append_nil]
    exact ⟨fun n hn => absurd hn (not_has_empty n), h.recorded, h.holds, h.kept, h.exclusive⟩
  · refine ⟨fun n hn => absurd hn (not_has_empty n), ?_, ?_, ?_, ?_⟩
    · refine forall_mem_append.mpr ⟨fun other hother n hn => ?_, forall_mem_singleton.mpr ?_⟩
      · exact has_insertSet.mpr (.inl (h.recorded other hother n hn))
      · exact fun n hn => has_insertSet.mpr (.inr hn)
    · exact fun n hn => has_insertSet.mpr (.inl (h.holds n hn))
    · refine forall_mem_append.mpr ⟨h.kept, forall_mem_singleton.mpr ?_⟩
      exact fun n hn hres => h.fresh n hn (h.holds n hres)
    · refine pairwise_append.mpr ⟨h.exclusive, pairwise_singleton _ _, ?_⟩
      intro a ha b hb n hn hn'
      rw [mem_singleton.mp hb] at hn'
      exact h.fresh n hn' (h.recorded a ha n hn)

theorem SourceSide.grow (h : SourceSide reserved st) (hused : st'.usedSrcRanges = st.usedSrcRanges)
    (himages : st'.images = st.images)
    (hranges : ∀ n, st'.srcRanges.Has n → st.srcRanges.Has n ∨ ¬ st.usedSrcRanges.Has n) :
    SourceSide reserved st' := by
  refine ⟨fun n hn => ?_, ?_, hused ▸ h.holds, himages ▸ h.kept, himages ▸ h.exclusive⟩
  · rw [hused]
    exact (hranges n hn).elim (h.fresh n) id
  · rw [hused, himages]
    exact h.recorded

theorem has_insert_free {used ranges : SortedRangeSet} {o l n : Nat}
    (hfree : used.overlaps o l = false) (hn : (ranges.insert o l).Has n) :
    ranges.Has n ∨ ¬ used.Has n := by
  rcases has_insertSet.mp hn with hn | hn
  · exact .inl hn
  · exact .inr fun hused => not_overlapsSet hfree hused hn

/-- The second half of `ValidateSplitImages`. -/
theorem rangesExclusive_of_pairwise {used : SortedRangeSet}
    (hused : ∀ image ∈ images, ∀ n, image.srcRanges.Has n → ¬ used.Has n)
    (hpairs : images.Pairwise fun a b => ∀ n, a.srcRanges.Has n → ¬ b.srcRanges.Has n) :
    rangesExclusive used images = true := by
  induction images generalizing used with
  | nil => rfl
  | cons image images ih =>
    obtain ⟨hfirst, hrest⟩ := pairwise_cons.mp hpairs
    have hfree : used.overlapsSet image.srcRanges = false := by
      refine Bool.eq_false_iff.mpr fun hover => ?_
      obtain ⟨n, hn, himage⟩ := overlapsSet_iff.mp hover
      exact hused image mem_cons_self n himage hn
    rw [rangesExclusive, hfree]
    refine ih (fun other hother n hn hboth => ?_) hrest
    rcases has_insertSet.mp hboth with h | h
    · exact hused other (mem_cons_of_mem _ hother) n hn h
    · exact hfirst other hother n h hn

/-! ## The loop -/

/-- What holds before every round, with the chunks before `pos` handled. -/
structure LoopInv (tgtFile : Bytes) (reserved : SortedRangeSet) (pos : Nat) (st : SplitState) :
    Prop where
  target : TargetSide tgtFile st.images st.tgtChunks pos
  source : SourceSide reserved st

theorem LoopInv.place (h : LoopInv tgtFile reserved pos st) (hin : tgt.Inside tgtFile)
    (hstart : tgt.start = pos) (hplace : placeChunk limit srcs tgtFile st tgt = some (.added st')) :
    LoopInv tgtFile reserved (pos + tgt.rawDataLen) st' := by
  have hnormal : TargetSide tgtFile st.images
      (st.tgtChunks ++ [normalChunk tgtFile tgt.start tgt.rawDataLen]) (pos + tgt.rawDataLen) :=
    TargetSide.push h.target ⟨rfl, hin.le⟩ hstart
  have hsame : TargetSide tgtFile st.images (st.tgtChunks ++ [tgt]) (pos + tgt.rawDataLen) :=
    h.target.push hin hstart
  rcases placeChunk_added hplace with hst | ⟨c, _, o, l, _, _, hremove, _, hcase⟩
  · rw [hst]
    exact ⟨hnormal, h.source.grow rfl rfl fun _ hn => .inl hn⟩
  have hfree := (removeUsedBlocks_spec hremove).1
  rcases hcase with ⟨_, _, hst⟩ | hst
  · rw [hst]
    exact ⟨hsame, h.source.grow rfl rfl fun _ hn => has_insert_free hfree hn⟩
  · rw [hst]
    exact ⟨hnormal, h.source.grow rfl rfl fun _ hn => has_insert_free hfree hn⟩

theorem LoopInv.startNext (h : LoopInv tgtFile reserved pos st) (hpos : pos ≤ tgtFile.length)
    (hnext : startNext src tgtFile st = some st') : LoopInv tgtFile reserved pos st' := by
  obtain ⟨added, hadd, rfl⟩ := startNext_cases hnext
  exact ⟨h.target.add hpos hadd, h.source.startNext hnext⟩

theorem LoopInv.run {rounds : Nat} (h : LoopInv tgtFile reserved 0 st)
    (htiles : Tiles tgtFile 0 tgts tgtFile.length)
    (hloop : splitLoop limit srcs src tgtFile rounds st tgts = .done st') :
    LoopInv tgtFile reserved tgtFile.length st' := by
  -- the chunks still to come tile what is behind the chunks handled
  have hkept := splitLoop_keeps (P := fun tgts st => ∃ pos, LoopInv tgtFile reserved pos st ∧
    Tiles tgtFile pos tgts tgtFile.length) ?_ ?_ ⟨0, h, htiles⟩ hloop
  · obtain ⟨pos, hend, rfl⟩ := hkept
    exact hend
  · intro tgt tgts st st' h hplace
    obtain ⟨pos, h, hin, hstart, hrest⟩ := h
    exact ⟨_, h.place hin hstart hplace, hrest⟩
  · intro tgts st st' h hnext
    obtain ⟨pos, h, htiles⟩ := h
    exact ⟨pos, h.startNext htiles.le hnext, htiles⟩

theorem loopInv_start (tgtFile : Bytes) (reserved : SortedRangeSet) :
    LoopInv tgtFile reserved 0 ⟨reserved, .empty, [], [], []⟩ := by
  refine ⟨⟨0, rfl, ?_⟩, ⟨fun n hn => absurd hn (not_has_empty n), nofun,
    fun _ hn => hn, nofun, List.Pairwise.nil⟩⟩
  change 0 = min (alignUp 0) tgtFile.length
  unfold alignUp BLOCK_SIZE
  omega

/-- The pieces are those of the loop, and the one made of what it leaves and the central
directory. -/
theorem splitPieces_cases (h : splitPieces limit src tgtFile tgts srcs = some images) :
    ∃ cd st added, runLoop limit src tgtFile tgts srcs cd (2 * tgts.length) = .done st ∧
      addSplitImageFromChunkList src tgtFile (st.srcRanges.insert cd.start cd.dataLengthForPatch)
        st.tgtChunks st.srcChunks = some added ∧
      images = st.images ++ added.toList := by
  unfold splitPieces at h
  split at h
  · cases h
  rename_i cd _
  split at h
  · cases h
  split at h
  · rename_i st hloop
    dsimp only at h
    split at h
    · cases h
    · rename_i hadd
      refine ⟨cd, st, none, hloop, hadd, ?_⟩
      rw [← Option.some.inj h, Option.toList_none, append_nil]
    · rename_i image hadd
      exact ⟨cd, st, some image, hloop, hadd, (Option.some.inj h).symm⟩
  · cases h

/-- The pieces tile the file, and no block of the source is in two of them. -/
theorem splitPieces_geometry (htiles : Tiles tgtFile 0 tgts tgtFile.length)
    (h : splitPieces limit src tgtFile tgts srcs = some images) :
    PiecesTile tgtFile 0 images tgtFile.length ∧
      images.Pairwise fun a b => ∀ n, a.srcRanges.Has n → ¬ b.srcRanges.Has n := by
  obtain ⟨cd, st, added, hloop, hadd, rfl⟩ := splitPieces_cases h
  have hinv : LoopInv tgtFile (empty.insert cd.start cd.dataLengthForPatch)
      tgtFile.length st := LoopInv.run (loopInv_start tgtFile _) htiles hloop
  -- the end of the file is the end of the last piece
  have hwhole : min (alignUp tgtFile.length) tgtFile.length = tgtFile.length :=
    Nat.min_eq_right (le_alignUp _)
  obtain ⟨a, ha, hpieces⟩ := hinv.target.add (Nat.le_refl _) hadd
  rw [show a = tgtFile.length from ha, hwhole] at hpieces
  refine ⟨hpieces, ?_⟩
  rcases addSplitImage_cases hadd with ⟨_, rfl⟩ | ⟨aligned, _, rfl⟩
  · rw [Option.toList_none, append_nil]
    exact hinv.source.exclusive
  refine pairwise_append.mpr ⟨hinv.source.exclusive, pairwise_singleton _ _, ?_⟩
  intro other hother b hb n hn hlast
  rw [mem_singleton.mp hb] at hlast
  -- the last piece has the ranges gathered since, and the central directory
  rcases has_insertSet.mp hlast with hlast | hlast
  · exact hinv.source.fresh n hlast (hinv.source.recorded other hother n hn)
  · exact hinv.source.kept other hother n hn (has_insertSet.mpr (.inr hlast))

theorem splitPieces_valid (htiles : Tiles tgtFile 0 tgts tgtFile.length)
    (h : splitPieces limit src tgtFile tgts srcs = some images) :
    validateSplitImages images tgtFile.length = true := by
  obtain ⟨hpieces, hexclusive⟩ := splitPieces_geometry htiles h
  unfold validateSplitImages
  rw [piecesContinue_of_tile hpieces]
  exact rangesExclusive_of_pairwise (fun _ _ n _ => not_has_empty n) hexclusive

/--
The geometry of the pieces, for every tiling of the target, every list of source chunks and every
limit. The loop ends, whatever central directory is reserved; and when the pieces reach
`ValidateSplitImages`, all its checks pass: the pieces tile the target from block to block, and
their source ranges are disjoint.
-/
theorem split_geometry (limit : Nat) (src tgtFile : Bytes) (tgts srcs : Chunks)
    (htiles : Tiles tgtFile 0 tgts tgtFile.length) :
    (∀ centralDirectory rounds, 2 * tgts.length ≤ rounds →
      runLoop limit src tgtFile tgts srcs centralDirectory rounds ≠ .running) ∧
    ∀ images, splitPieces limit src tgtFile tgts srcs = some images →
      validateSplitImages images tgtFile.length = true ∧
      PiecesTile tgtFile 0 images tgtFile.length ∧
      images.Pairwise fun a b => ∀ n, a.srcRanges.Has n → ¬ b.srcRanges.Has n := by
  refine ⟨fun cd rounds hrounds => splitLoop_ends hrounds, fun images h => ?_⟩
  exact ⟨splitPieces_valid htiles h, splitPieces_geometry htiles h⟩

/-! ## Two entries, one block of room -/

namespace TwoEntries

/-- Two deflated entries of a block each, and a central directory. -/
def source : Bytes := List.replicate 8200 0

def target : Bytes := List.replicate 5000 0

def srcChunks : Chunks :=
  [{ type := .deflate, start := 0, inputFile := source, rawDataLen := 4096, entryName := [0x61] },
    { type := .deflate, start := 4096, inputFile := source, rawDataLen := 4096,
      entryName := [0x62] },
    normalChunk source 8192 8]

/-- The first entry has three bytes, so that its piece is filled up from the second. -/
def tgtChunks : Chunks :=
  [{ type := .deflate, start := 0, inputFile := target, rawDataLen := 3, entryName := [0x61] },
    { type := .deflate, start := 3, inputFile := target, rawDataLen := 4997, entryName := [0x62] }]

theorem target_length : target.length = 5000 := length_replicate

end TwoEntries

open TwoEntries

/-- There is room for one entry at a time: there are two pieces, and they are valid. -/
theorem two_pieces_valid : ∃ images,
      splitPieces 4096 source target tgtChunks srcChunks = some images ∧
      images.length = 2 ∧
      validateSplitImages images target.length = true ∧
      PiecesTile target 0 images target.length := by
  have hsome : ((splitPieces 4096 source target tgtChunks srcChunks).any
      fun images => images.length = 2) = true := by decide +kernel
  obtain ⟨images, himages, hlength⟩ := (Option.any_eq_true _ _).mp hsome
  have htiles : Tiles target 0 tgtChunks target.length := by
    rw [target_length]
    refine ⟨⟨rfl, ?_⟩, rfl, ⟨rfl, ?_⟩, rfl, rfl⟩
    · rw [target_length]
      decide
    · rw [target_length]
      decide
  obtain ⟨hvalid, hpieces, _⟩ :=
    (split_geometry 4096 source target tgtChunks srcChunks htiles).2 images himages
  exact ⟨images, himages, of_decide_eq_true hlength, hvalid, hpieces⟩

end Pterodon.ImgDiff.ZipMode
