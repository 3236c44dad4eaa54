import Pterodon.ImgDiff.Tiling
import Pterodon.ImgDiff.ImageMode
import Pterodon.ImgDiff.Literal

/-!
# Image mode: the round trip

The two lists of chunks are rewritten side by side and merged independently. They stay
aligned because both tile their file: where every chunk follows on the one before,
merging depends on the types alone (`merge_types_eq`), and the passes keep the types of
the two lists equal. A chunk of the target is therefore patched against a chunk of its
own type, and the number of a chunk in the patch is its number in the source, where the
bonus data was put.
-/

namespace Pterodon.ImgDiff.ImageMode

open Lib ApplyPatch ImageChunk List

variable {lib : DiffLib} {file : Bytes}

/-! ## What `Initialize` builds -/

theorem untilGzip_pos {data : Bytes} (hne : data ≠ []) (h : data.take 4 ≠ gzipMagic) :
    0 < untilGzip data := by
  cases data with
  | nil => exact absurd rfl hne
  | cons b rest =>
    rw [untilGzip, if_neg h]
    omega

/-- The rounds that `Initialize` may take are enough: more of them change nothing. -/
theorem chunksFrom_rounds : ∀ (rounds pos : Nat), file.length - pos ≤ rounds →
    chunksFrom lib file (rounds + 1) pos = chunksFrom lib file rounds pos
  | 0, pos, h => by
    rw [show chunksFrom lib file 0 pos = [] from rfl, chunksFrom, if_pos (by omega)]
  | rounds + 1, pos, h => by
    rw [chunksFrom, chunksFrom]
    by_cases hend : file.length ≤ pos
    · rw [if_pos hend, if_pos hend]
    rw [if_neg hend, if_neg hend]
    by_cases hmagic : sliceOf file pos 4 = gzipMagic
    · rw [if_pos hmagic, if_pos hmagic]
      by_cases hshort : file.length - pos < GZIP_HEADER_LEN + GZIP_FOOTER_LEN
      · rw [if_pos hshort, if_pos hshort]
      · rw [if_neg hshort, if_neg hshort]
        dsimp only
        congr 1
        cases gzipBody lib file (pos + GZIP_HEADER_LEN) with
        | none => exact chunksFrom_rounds rounds _ (by unfold GZIP_HEADER_LEN; omega)
        | some body =>
          dsimp only
          congr 2
          exact chunksFrom_rounds rounds _ (by unfold GZIP_HEADER_LEN; omega)
    · rw [if_neg hmagic, if_neg hmagic]
      dsimp only
      congr 1
      have hpos : 0 < untilGzip (file.drop pos) :=
        untilGzip_pos (fun h => hend (drop_eq_nil_iff.mp h)) hmagic
      exact chunksFrom_rounds rounds _ (by omega)

/-- A chunk that `Initialize` built. -/
structure Built (lib : DiffLib) (file : Bytes) (c : ImageChunk) : Prop where
  notRaw : c.type ≠ .raw
  level : c.compressLevel = 6
  stream : c.type = .deflate →
    lib.inflateStream (file.drop c.start) = some (c.uncompressedData, c.rawDataLen) ∧
      c.uncompressedData.length < 2 ^ 32

theorem built_normalChunk (start length : Nat) : Built lib file (normalChunk file start length) :=
  ⟨nofun, rfl, nofun⟩

/-- The length of the contents was found in the footer, which passed the test of its place. -/
theorem gzipBody_some {pos n : Nat} {contents : Bytes}
    (h : gzipBody lib file pos = some (contents, n)) :
    lib.inflateStream (file.drop pos) = some (contents, n) ∧ contents.length < 2 ^ 32 ∧
      4 ≤ (file.length + 2 ^ 64 - (pos + n + GZIP_FOOTER_LEN - 4)) % 2 ^ 64 := by
  unfold gzipBody at h
  split at h
  · cases h
  · rename_i contents' n' hstream
    dsimp only at h
    split at h
    · cases h
    · rename_i hplace
      split at h
      · cases h
      · rename_i hsize
        obtain ⟨rfl, rfl⟩ := Prod.mk.inj (Option.some.inj h)
        refine ⟨hstream, ?_, Nat.le_of_not_lt hplace⟩
        rw [← not_not.mp hsize]
        calc leNat (sliceOf file (pos + n' + GZIP_FOOTER_LEN - 4) 4)
          _ < 256 ^ (sliceOf file (pos + n' + GZIP_FOOTER_LEN - 4) 4).length := leNat_lt _
          _ ≤ 256 ^ 4 := Nat.pow_le_pow_right (by omega) (length_take_le _ _)
          _ = 2 ^ 32 := by rfl

theorem built_chunksFrom : ∀ (rounds pos : Nat), ∀ c ∈ chunksFrom lib file rounds pos,
    Built lib file c
  | 0, pos, c, hc => absurd hc not_mem_nil
  | rounds + 1, pos, c, hc => by
    rw [chunksFrom] at hc
    split at hc
    · cases hc
    split at hc
    · split at hc
      · rw [mem_singleton.mp hc]
        exact built_normalChunk _ _
      · rcases mem_cons.mp hc with rfl | hc
        · exact built_normalChunk _ _
        split at hc
        · exact built_chunksFrom rounds _ c hc
        · rename_i contents n hbody
          rcases mem_cons.mp hc with rfl | hc
          · exact ⟨by dsimp only; decide, rfl,
              fun _ => ⟨(gzipBody_some hbody).1, (gzipBody_some hbody).2.1⟩⟩
          rcases mem_cons.mp hc with rfl | hc
          · exact built_normalChunk _ _
          · exact built_chunksFrom rounds _ c hc
    · rcases mem_cons.mp hc with rfl | hc
      · exact built_normalChunk _ _
      · exact built_chunksFrom rounds _ c hc

/-! ## Sizes -/

/-- The assumptions on an image: it and its contents are below 2 GiB, its chunks partition it and
its streams are not empty. -/
structure Sane (lib : DiffLib) (file : Bytes) : Prop where
  size : file.length < 2 ^ 31
  contents : ∀ c ∈ initializeImage lib file, c.uncompressedData.length < 2 ^ 31
  nonEmpty : ∀ c ∈ initializeImage lib file, c.type = .deflate → c.uncompressedData ≠ []
  tiles : Tiles file 0 (initializeImage lib file) file.length

theorem sound_initializeImage (hl : Lawful lib) (hs : Sane lib file) :
    ∀ c ∈ initializeImage lib file, Sound lib (2 ^ 31) c := by
  intro c hc
  have hb := built_chunksFrom _ _ c hc
  have hin := hs.tiles.inside c hc
  have hcontents := hs.contents c hc
  refine ⟨hb.notRaw, by rw [hb.level]; unfold IsInt; omega, hcontents, fun ht => ?_⟩
  have hinf := hl.inflate_stream (hb.stream ht).1
  refine ⟨⟨c.uncompressedData, ?_, hs.nonEmpty c hc ht, (append_nil _).symm⟩, ?_, by omega⟩
  · rw [ImageChunk.raw, hin.inputFile]
    exact hinf
  · have hle := hin.le
    have hsize := hs.size
    omega

/-! ## The pass over the pairs -/

/-- What a round does to a pair of chunks of one type. -/
structure PairDone (lib : DiffLib) (tgt src tgt' src' : ImageChunk) : Prop where
  tgtPlace : SamePlace tgt tgt'
  srcPlace : SamePlace src src'
  type : tgt'.type = src'.type
  target : Target lib tgt'
  tgtSound : Sound lib (2 ^ 31) tgt'
  srcSound : Sound lib (2 ^ 31) src'

theorem processPair_done {tgt src tgt' src' : ImageChunk} (ht : Sound lib (2 ^ 31) tgt)
    (hs : Sound lib (2 ^ 31) src) (htype : tgt.type = src.type)
    (h : processPair lib tgt src = some (tgt', src')) : PairDone lib tgt src tgt' src' := by
  have hnormal : PairDone lib tgt src tgt.changeDeflateChunkToNormal
      src.changeDeflateChunkToNormal :=
    ⟨samePlace_changeToNormal tgt, samePlace_changeToNormal src,
      by rw [changeToNormal_type ht.notRaw, changeToNormal_type hs.notRaw],
      Target.of_normal (changeToNormal_type ht.notRaw) (sound_changeToNormal ht).level,
      sound_changeToNormal ht, sound_changeToNormal hs⟩
  unfold processPair at h
  split at h
  · rename_i hdeflate
    cases h
    have hn : tgt.type = .normal := by
      cases hc : tgt.type with
      | normal => rfl
      | deflate => exact absurd hc hdeflate
      | raw => exact absurd hc ht.notRaw
    exact ⟨⟨rfl, rfl, rfl⟩, ⟨rfl, rfl, rfl⟩, htype, Target.of_normal hn ht.level, ht, hs⟩
  · split at h
    · cases h
    · rename_i tgt₂ hkeep
      cases h
      obtain ⟨hplace, htype', htarget, hsound⟩ := keepDeflated_target ht hkeep
      exact ⟨hplace, ⟨rfl, rfl, rfl⟩, htype'.trans htype, htarget, hsound, hs⟩
    · cases h
      exact hnormal

/-- What the pass does to two lists of chunks with the same types. -/
structure PairsDone (lib : DiffLib) (tgts srcs tgts' srcs' : Chunks) : Prop where
  tgtPlace : List.Forall₂ SamePlace tgts tgts'
  srcPlace : List.Forall₂ SamePlace srcs srcs'
  types : tgts'.map ImageChunk.type = srcs'.map ImageChunk.type
  target : ∀ c ∈ tgts', Target lib c
  tgtSound : ∀ c ∈ tgts', Sound lib (2 ^ 31) c
  srcSound : ∀ c ∈ srcs', Sound lib (2 ^ 31) c

theorem processPairs_done : ∀ {tgts srcs tgts' srcs' : Chunks},
    (∀ c ∈ tgts, Sound lib (2 ^ 31) c) → (∀ c ∈ srcs, Sound lib (2 ^ 31) c) →
    tgts.map ImageChunk.type = srcs.map ImageChunk.type →
    processPairs lib tgts srcs = some (tgts', srcs') → PairsDone lib tgts srcs tgts' srcs'
  | [], [], tgts', srcs', _, _, _, h => by
    cases h
    exact ⟨.nil, .nil, rfl, nofun, nofun, nofun⟩
  | [], _ :: _, _, _, _, _, htypes, _ => absurd htypes (by simp)
  | _ :: _, [], _, _, _, _, htypes, _ => absurd htypes (by simp)
  | tgt :: tgts, src :: srcs, tgts', srcs', ht, hs, htypes, h => by
    rw [map_cons, map_cons, List.cons.injEq] at htypes
    rw [processPairs] at h
    split at h
    · rename_i tgt₁ src₁ tgts₁ srcs₁ hpair hpairs
      cases h
      have hp := processPair_done (ht tgt mem_cons_self) (hs src mem_cons_self)
        htypes.1 hpair
      have hr := processPairs_done (forall_mem_cons.mp ht).2
        (forall_mem_cons.mp hs).2 htypes.2 hpairs
      refine ⟨.cons hp.tgtPlace hr.tgtPlace, .cons hp.srcPlace hr.srcPlace, ?_,
        forall_mem_cons.mpr ⟨hp.target, hr.target⟩, forall_mem_cons.mpr ⟨hp.tgtSound, hr.tgtSound⟩,
        forall_mem_cons.mpr ⟨hp.srcSound, hr.srcSound⟩⟩
      rw [map_cons, map_cons, hp.type, hr.types]
    · cases h

/-- What `CheckAndProcessChunks` hands on. -/
structure Processed (lib : DiffLib) (src tgt : Bytes) (tgts srcs : Chunks) : Prop where
  tgtTiles : Tiles tgt 0 tgts tgt.length
  srcTiles : Tiles src 0 srcs src.length
  types : tgts.map ImageChunk.type = srcs.map ImageChunk.type
  target : ∀ c ∈ tgts, Target lib c
  tgtSound : ∀ c ∈ tgts, Sound lib (2 ^ 31) c
  srcSound : ∀ c ∈ srcs, Sound lib (2 ^ 31) c

theorem checkAndProcessChunks_processed (hl : Lawful lib) {src tgt : Bytes}
    (hsrc : Sane lib src) (htgt : Sane lib tgt) {tgts srcs : Chunks}
    (h : checkAndProcessChunks lib (initializeImage lib tgt) (initializeImage lib src)
      = some (tgts, srcs)) : Processed lib src tgt tgts srcs := by
  unfold checkAndProcessChunks at h
  dsimp only at h
  split at h
  · cases h
  split at h
  · cases h
  rename_i htypes
  split at h
  · cases h
  rename_i tgts₁ srcs₁ hpairs
  split at h
  · cases h
  cases h
  have hdone := processPairs_done (Sound.of_merge (sound_initializeImage hl htgt))
    (Sound.of_merge (sound_initializeImage hl hsrc)) (not_not.mp htypes) hpairs
  have ht := htgt.tiles.merge.congr hdone.tgtPlace
  have hs := hsrc.tiles.merge.congr hdone.srcPlace
  exact ⟨ht.merge, hs.merge, merge_types_eq ht.contiguous hs.contiguous hdone.types,
    Target.of_merge hdone.target,
    Sound.of_merge hdone.tgtSound, Sound.of_merge hdone.srcSound⟩

/-! ## The sources, by number -/

/-- The chunks from number `i` on. -/
def Sources (lib : DiffLib) (src : Bytes) (bonus : Option Bytes) : Nat → Chunks → Prop
  | _, [] => True
  | i, c :: cs => SourceAt lib src bonus i c ∧ Sources lib src bonus (i + 1) cs

variable {src : Bytes} {bonus : Option Bytes}

theorem sourceAt_of_sound {c : ImageChunk} {i : Nat} (hsize : src.length < 2 ^ 31)
    (hin : c.Inside src) (h : Sound lib (2 ^ 31) c) (hi :
      (if i = 1 then bonus.getD [] else []) = []) :
    SourceAt lib src bonus i c := by
  refine ⟨hin, ?_, fun ht => by rw [hi]; exact h.expands ht⟩
  have hle := hin.le
  have hcontents := h.contents
  unfold dataLengthForPatch
  split <;> omega

theorem sources_of_sound (hsize : src.length < 2 ^ 31) : ∀ {cs : Chunks} {i : Nat},
    (∀ c ∈ cs, c.Inside src) → (∀ c ∈ cs, Sound lib (2 ^ 31) c) → (bonus.getD [] = [] ∨ 2 ≤ i) →
    Sources lib src bonus i cs
  | [], _, _, _, _ => trivial
  | c :: cs, i, hin, hsound, hi => by
    have hextra : (if i = 1 then bonus.getD [] else []) = [] := by
      rcases hi with hi | hi
      · split
        · exact hi
        · rfl
      · exact if_neg (by omega)
    refine ⟨sourceAt_of_sound hsize (hin c mem_cons_self) (hsound c mem_cons_self)
      hextra, ?_⟩
    exact sources_of_sound hsize (forall_mem_cons.mp hin).2
      (forall_mem_cons.mp hsound).2 (hi.imp_right (by omega))

theorem sources_setBonusData {bonusData : Bytes} (hbonus : bonusData.length < 2 ^ 31)
    (hsize : src.length < 2 ^ 31) {cs ds : Chunks} (hin : ∀ c ∈ cs, c.Inside src)
    (hsound : ∀ c ∈ cs, Sound lib (2 ^ 31) c) (h : setBonusData bonusData cs = some ds) :
    Sources lib src (some bonusData) 0 ds ∧ ds.map ImageChunk.type = cs.map ImageChunk.type := by
  match cs, h with
  | c :: d :: rest, h =>
    obtain ⟨d', hd', rfl⟩ := Option.map_eq_some_iff.mp h
    unfold ImageChunk.setBonusData at hd'
    split at hd'
    · cases hd'
    rename_i ht
    have ht : d.type = .deflate := not_not.mp ht
    have hmem : d ∈ c :: d :: rest := mem_cons_of_mem _ mem_cons_self
    have hexp := (hsound d hmem).expands ht
    have hcontents := (hsound d hmem).contents
    obtain ⟨contents, hinf, hne, hunc⟩ := hexp.inflate
    rw [append_nil] at hunc
    cases hd'
    refine ⟨⟨?_, ?_, ?_⟩, rfl⟩
    · exact sourceAt_of_sound hsize (hin c mem_cons_self) (hsound c mem_cons_self) rfl
    · have hlen : (d.uncompressedData ++ bonusData).length < 2 ^ 32 := by
        rw [length_append]
        omega
      refine ⟨⟨(hin d hmem).inputFile, (hin d hmem).le⟩, ?_, fun _ => ⟨⟨contents, hinf, hne, ?_⟩,
        hexp.rawLen, hlen⟩⟩
      · rw [dataLengthForPatch, if_pos (show _ = ChunkType.deflate from ht)]
        dsimp only
        omega
      · rw [hunc]
        rfl
    · exact sources_of_sound hsize (fun e he => hin e (mem_cons_of_mem _ (mem_cons_of_mem _ he)))
        (fun e he => hsound e (mem_cons_of_mem _ (mem_cons_of_mem _ he)))
        (.inr (Nat.le_refl 2))

/-! ## The patch -/

theorem patchChunks_yields (hl : Lawful lib) {tgt : Bytes} (hssize : src.length < 2 ^ 31)
    (htsize : tgt.length < 2 ^ 31) :
    ∀ {tgts srcs : Chunks} {ps : List PatchChunk} {i : Nat},
      (∀ c ∈ tgts, c.Inside tgt) → (∀ c ∈ tgts, Target lib c) → (∀ c ∈ tgts, Sound lib (2 ^ 31) c) →
      Sources lib src bonus i srcs →
      tgts.map ImageChunk.type = srcs.map ImageChunk.type →
      patchChunks lib tgts srcs = some ps →
      YieldsAll lib.toPatchLib src bonus i ps (tgts.map ImageChunk.raw).flatten
        ∧ ∀ p ∈ ps, p.Fits
  | [], srcs, ps, i, _, _, _, _, _, h => by
    cases h
    exact ⟨.nil, nofun⟩
  | _ :: _, [], _, _, _, _, _, _, htypes, _ => absurd htypes (by simp)
  | t :: tgts, c :: srcs, ps, i, hin, htgt, hsound, hsrcs, htypes, h => by
    rw [map_cons, map_cons, List.cons.injEq] at htypes
    rw [patchChunks] at h
    split at h
    · rename_i p ps₁ hgen hrest
      cases h
      have htin := hin t mem_cons_self
      have ht := htgt t mem_cons_self
      obtain ⟨hys, hfs⟩ := patchChunks_yields hl hssize htsize
        (forall_mem_cons.mp hin).2
        (forall_mem_cons.mp htgt).2
        (forall_mem_cons.mp hsound).2 hsrcs.2 htypes.2 hrest
      have htle := htin.le
      have hcle := hsrcs.1.inside.le
      have htlen : t.dataLengthForPatch < 2 ^ 64 := by
        have := (hsound t mem_cons_self).contents
        unfold dataLengthForPatch
        split <;> omega
      have hfits : p.Fits := fits_of_generate hgen htin ht (by omega) (by omega)
        hsrcs.1.length htlen (fun _ => by omega)
      have hy : Yields lib.toPatchLib src bonus i p t.raw :=
        yields_of_generate hl hgen htin ht rfl
          (fun source hp hsource =>
            decoderSource_of_sourceAt hsrcs.1 htypes.1 hgen hp hsource)
      exact ⟨.cons hy hys, forall_mem_cons.mpr ⟨hfits, hfs⟩⟩
    · cases h

theorem length_le_of_written (ps : List PatchChunk) :
    ps.length ≤ (PatchChunk.writePatchDataToFd ps).length := by
  rw [PatchChunk.writePatchDataToFd_length, PatchChunk.sum_patchSize]
  have : ∀ ps : List PatchChunk, ps.length ≤ (ps.map PatchChunk.getHeaderSize).sum := by
    intro ps
    induction ps with
    | nil => exact Nat.le_refl 0
    | cons p ps ih =>
      have hp : 1 ≤ p.getHeaderSize := by
        unfold PatchChunk.getHeaderSize
        split <;> omega
      rw [map_cons, sum_cons, length_cons]
      omega
  have := this ps
  omega

theorem generatePatches_applies (hl : Lawful lib) {tgt : Bytes} (hssize : src.length < 2 ^ 31)
    (htsize : tgt.length < 2 ^ 31) {tgts srcs srcs' : Chunks}
    (hp : Processed lib src tgt tgts srcs') (hsrcs : Sources lib src bonus 0 srcs)
    (htypes : srcs.map ImageChunk.type = srcs'.map ImageChunk.type) {patch : Bytes}
    (hpatch : patch.length < 2 ^ 31) (h : generatePatches lib tgts srcs = some patch) :
    applyImagePatch lib.toPatchLib memorySink src patch bonus [] = (tgt, .success) := by
  obtain ⟨ps, hps, rfl⟩ := Option.map_eq_some_iff.mp h
  obtain ⟨hy, hfits⟩ := patchChunks_yields hl hssize htsize hp.tgtTiles.inside hp.target
    hp.tgtSound hsrcs (hp.types.trans htypes.symm) hps
  have hcount := length_le_of_written ps
  rw [applyImagePatch_written (by omega) hfits (by omega), hy.appliedAll, nil_append,
    hp.tgtTiles.raw, Nat.sub_zero, sliceOf_all]

/-- The patch that image mode makes gives back the target. -/
theorem image_mode_round_trip {lib : DiffLib} (hl : Lawful lib) {src tgt patch : Bytes}
    {bonus : Option Bytes} (hsrc : Sane lib src) (htgt : Sane lib tgt)
    (hbonus : (bonus.getD []).length < 2 ^ 31) (hpatch : patch.length < 2 ^ 31)
    (h : imgdiff lib src tgt bonus = some patch) :
    applyImagePatch lib.toPatchLib memorySink src patch bonus [] = (tgt, .success) := by
  unfold imgdiff at h
  split at h
  · cases h
  rename_i tgts srcs hcheck
  have hp := checkAndProcessChunks_processed hl hsrc htgt hcheck
  cases bonus with
  | none =>
    have hsrcs : Sources lib src none 0 srcs :=
      sources_of_sound hsrc.size hp.srcTiles.inside hp.srcSound (.inl rfl)
    exact generatePatches_applies hl hsrc.size htgt.size hp hsrcs rfl hpatch h
  | some bonusData =>
    dsimp only at h
    split at h
    · cases h
    · rename_i srcs' hset
      obtain ⟨hsrcs, htypes⟩ := sources_setBonusData hbonus hsrc.size hp.srcTiles.inside
        hp.srcSound hset
      exact generatePatches_applies hl hsrc.size htgt.size hp hsrcs htypes hpatch h

/-- A gzip file with the stream of one byte: header, body and footer. -/
def gzipOf (b : UInt8) : Bytes :=
  [0x1f, 0x8b, 0x08, 0x00, 0, 0, 0, 0, 0, 3] ++ (Literal.compress [b] ++ [0, 0, 0, 0, 1, 0, 0, 0])

def gzipChunks (b : UInt8) : Chunks :=
  [normalChunk (gzipOf b) 0 10,
    { type := .deflate, start := 10, inputFile := gzipOf b, rawDataLen := 3,
      uncompressedData := [b] }, normalChunk (gzipOf b) 13 8]

theorem sane_gzipOf {b : UInt8} (hlen : (gzipOf b).length = 21)
    (h : initializeImage Literal.literalLib (gzipOf b) = gzipChunks b) :
    Sane Literal.literalLib (gzipOf b) := by
  refine ⟨by omega, ?_, ?_, ?_⟩
  · rw [h]
    simp [gzipChunks, normalChunk]
  · rw [h]
    simp [gzipChunks, normalChunk]
  · rw [h, hlen]
    refine ⟨⟨rfl, ?_⟩, rfl, ⟨rfl, ?_⟩, rfl, ⟨rfl, ?_⟩, rfl, rfl⟩ <;> rw [hlen] <;>
      dsimp only [normalChunk] <;> omega

theorem gzip_round_trip : ∃ patch,
    imgdiff Literal.literalLib (gzipOf 0x61) (gzipOf 0x62) (some [1, 2, 3]) = some patch ∧
    applyImagePatch Literal.literalLib.toPatchLib memorySink (gzipOf 0x61) patch (some [1, 2, 3]) []
      = (gzipOf 0x62, .success) := by
  have hsome : ((imgdiff Literal.literalLib (gzipOf 0x61) (gzipOf 0x62) (some [1, 2, 3])).any
      (fun patch => decide (patch.length < 2 ^ 31))) = true := by decide +kernel
  obtain ⟨patch, hpatch, hlen⟩ := (Option.any_eq_true _ _).mp hsome
  refine ⟨patch, hpatch, ?_⟩
  exact image_mode_round_trip Literal.literalLib_lawful
    (sane_gzipOf (by decide +kernel) (by decide +kernel))
    (sane_gzipOf (by decide +kernel) (by decide +kernel)) (by decide) (of_decide_eq_true hlen)
    hpatch

end Pterodon.ImgDiff.ImageMode
