import Pterodon.ImgDiff.Geometry
import Pterodon.ImgDiff.ZipRoundTrip

/-!
# Zip mode with a limit: the round trip

Every piece of the target has a patch of its own, made against the blocks of its source ranges.
The chunks of a piece say where a source entry is in the source file; `UpdateSourceOffset` turns
that into its place among the blocks. This is right because an entry is inserted into the ranges
as a whole, and ranges only grow: its bytes lie in one range, and stand together among the blocks.

A target chunk stays deflated in a piece only if its source entry is a chunk of the same piece,
so that no entry can lose its source as it can without a limit. What remains is the field for
the length of a chunk that is stored as it is, which has 31 bits.
-/

namespace Pterodon.ImgDiff.ZipMode

open Lib ApplyPatch ImageChunk List PatchChunk SortedRangeSet Literal

variable (crc body : Bytes) {lib : DiffLib} {zip : ZipLib} {src tgt tgtFile data : Bytes}
  {limit pos : Nat}
  {c t : ImageChunk} {srcs srcChunks tgtChunks todo tgts : Chunks} {p : PatchChunk}
  {ranges : SortedRangeSet} {st st' : SplitState} {images : List SplitImage}

/-! ## What a piece is made of -/

/-- A deflated entry of the source whose bytes lie in one of the ranges. -/
structure Held (lib : DiffLib) (src : Bytes) (ranges : SortedRangeSet) (c : ImageChunk) : Prop where
  deflated : c.type = .deflate
  pos : 0 < c.rawDataLen
  inside : c.Inside src
  sound : Sound lib (2 ^ 32) c
  range : ∃ r ∈ ranges.ranges, r.1 * SortedRangeSet.kBlockSize ≤ c.start ∧
    c.start + c.rawDataLen ≤ r.2 * SortedRangeSet.kBlockSize

/-- The chunks gathered for a piece. -/
structure Gathered (lib : DiffLib) (src : Bytes) (ranges : SortedRangeSet)
    (srcChunks tgtChunks : Chunks) : Prop where
  source : ∀ c ∈ srcChunks, Held lib src ranges c
  target : ∀ t ∈ tgtChunks, Target lib t ∧ Sound lib (2 ^ 32) t
  matched : ∀ t ∈ tgtChunks, t.type = .deflate → ∃ c ∈ srcChunks, hasName t c = true

theorem Held.insert (h : Held lib src ranges c) (o l : Nat) :
    Held lib src (ranges.insert o l) c := by
  obtain ⟨r, hr, hlo, hhi⟩ := h.range
  obtain ⟨r', hr', hlo', hhi'⟩ := insertSet_covers (Or.inl hr)
  refine ⟨h.deflated, h.pos, h.inside, h.sound, r', hr', ?_, ?_⟩
  · exact Nat.le_trans (Nat.mul_le_mul_right _ hlo') hlo
  · exact Nat.le_trans hhi (Nat.mul_le_mul_right _ hhi')

theorem gathered_nil (ranges : SortedRangeSet) : Gathered lib src ranges [] [] :=
  ⟨nofun, nofun, nofun⟩

theorem normalChunk_target (start length : Nat) :
    Target lib (normalChunk tgtFile start length) ∧
      Sound lib (2 ^ 32) (normalChunk tgtFile start length) := by
  have hsound := @normalChunk_sound lib tgtFile start length
  exact ⟨Target.of_normal rfl hsound.level, hsound⟩

theorem deflates_normalChunk (tgtFile : Bytes) (start length : Nat) (cs : Chunks) :
    deflates (normalChunk tgtFile start length :: cs) = deflates cs :=
  filter_cons_of_neg nofun

theorem deflates_tail_le (c : ImageChunk) (cs : Chunks) :
    (deflates cs).length ≤ (deflates (c :: cs)).length :=
  ((sublist_cons_self c cs).filter _).length_le

section Gathered

variable (h : Gathered lib src ranges srcChunks tgtChunks)
include h

theorem Gathered.insert (o l : Nat) : Gathered lib src (ranges.insert o l) srcChunks tgtChunks :=
  ⟨fun c hc => (h.source c hc).insert o l, h.target, h.matched⟩

theorem Gathered.push (ht : Target lib t ∧ Sound lib (2 ^ 32) t)
    (hmatch : t.type = .deflate → ∃ c ∈ srcChunks, hasName t c = true) :
    Gathered lib src ranges srcChunks (tgtChunks ++ [t]) := by
  refine ⟨h.source, forall_mem_append.mpr ⟨h.target, ?_⟩, forall_mem_append.mpr ⟨h.matched, ?_⟩⟩
  · exact forall_mem_singleton.mpr ht
  · exact forall_mem_singleton.mpr hmatch

theorem Gathered.pushNormal (start length : Nat) :
    Gathered lib src ranges srcChunks (tgtChunks ++ [normalChunk tgtFile start length]) :=
  h.push (normalChunk_target start length) nofun

/-- A source entry is added together with the target chunk that asked for it. -/
theorem Gathered.pushPair (hc : Held lib src ranges c) (ht : Target lib t ∧ Sound lib (2 ^ 32) t)
    (hname : hasName t c = true) :
    Gathered lib src ranges (srcChunks ++ [c]) (tgtChunks ++ [t]) := by
  have hmore : Gathered lib src ranges (srcChunks ++ [c]) tgtChunks := by
    refine ⟨forall_mem_append.mpr ⟨h.source, forall_mem_singleton.mpr hc⟩, h.target, ?_⟩
    intro x hx hd
    obtain ⟨d, hd, hname⟩ := h.matched x hx hd
    exact ⟨d, mem_append_left _ hd, hname⟩
  exact hmore.push ht fun _ => ⟨c, mem_append_right _ (mem_singleton_self c), hname⟩

end Gathered

/-! ## Pieces -/

/-- A piece from which patches can be made. -/
structure GoodPiece (lib : DiffLib) (src : Bytes) (image : SplitImage) : Prop where
  gathered : Gathered lib src image.srcRanges image.srcChunks image.tgtChunks
  content : image.srcContent = image.srcRanges.contents src
  count : image.tgtChunks.length < 2 ^ 31

theorem alignChunks_mem {chunks aligned : Chunks} (h : alignChunks tgtFile chunks = some aligned) :
    (∀ c ∈ aligned, c ∈ chunks ∨ ∃ start length, c = normalChunk tgtFile start length) ∧
      (deflates aligned).length ≤ (deflates chunks).length := by
  induction chunks with
  | nil => exact absurd h (by simp [alignChunks])
  | cons c chunks ih =>
    rw [alignChunks] at h
    have hfewer := deflates_tail_le c chunks
    split at h
    · cases h
      refine ⟨forall_mem_cons.mpr ⟨.inr ⟨_, _, rfl⟩, ?_⟩, ?_⟩
      · exact fun d hd => .inl (mem_cons_of_mem _ hd)
      · exact hfewer
    · obtain ⟨hmem, hle⟩ := ih h
      refine ⟨fun d hd => ?_, hle.trans hfewer⟩
      exact (hmem d hd).imp_left (mem_cons_of_mem _)

theorem tailChunk_mem {chunks : Chunks} (h : c ∈ tailChunk tgtFile chunks) :
    ∃ start length, c = normalChunk tgtFile start length := by
  unfold tailChunk at h
  split at h
  · cases h
  · dsimp only at h
    split at h
    · exact ⟨_, _, mem_singleton.mp h⟩
    · cases h

/-- The chunks of a piece: gathered ones, normal ones made for the alignment, and merged. -/
theorem goodPiece_of_add {added : Option SplitImage} {a : Nat}
    (h : Gathered lib src ranges srcChunks tgtChunks) (htiles : Tiles tgtFile a tgtChunks pos)
    (hpos : pos ≤ tgtFile.length) (hfew : (deflates tgtChunks).length < 2 ^ 16)
    (hadd : addSplitImageFromChunkList src tgtFile ranges tgtChunks srcChunks = some added) :
    ∀ image ∈ added.toList, GoodPiece lib src image := by
  rcases addSplitImage_cases hadd with ⟨_, rfl⟩ | ⟨aligned, halign, rfl⟩
  · exact nofun
  intro image himage
  rw [mem_singleton.mp himage]
  obtain ⟨hmem, hle⟩ := alignChunks_mem halign
  obtain ⟨haligned, _, hne⟩ := (alignChunks_tiles htiles).2 _ halign
  -- a chunk of the list before merging was gathered or is normal
  have horigin : ∀ c ∈ aligned ++ tailChunk tgtFile aligned,
      c ∈ tgtChunks ∨ ∃ start length, c = normalChunk tgtFile start length :=
    forall_mem_append.mpr ⟨hmem, fun c hc => .inr (tailChunk_mem hc)⟩
  have hok : ∀ c ∈ aligned ++ tailChunk tgtFile aligned, Target lib c ∧ Sound lib (2 ^ 32) c := by
    intro c hc
    rcases horigin c hc with hc | ⟨start, length, rfl⟩
    · exact h.target c hc
    · exact normalChunk_target start length
  refine ⟨⟨h.source, fun t ht => ?_, fun t ht hd => ?_⟩, rfl, ?_⟩
  · exact ⟨Target.of_merge (fun c hc => (hok c hc).1) t ht,
      Sound.of_merge (fun c hc => (hok c hc).2) t ht⟩
  · obtain ⟨e, he, _, hsame | hnormal⟩ := mem_merge ht
    · rw [hsame] at hd ⊢
      rcases horigin e he with he | ⟨start, length, rfl⟩
      · exact h.matched e he hd
      · exact absurd hd nofun
    · exact absurd (hnormal.symm.trans hd) nofun
  · have hlength := merge_length (haligned.append (tailChunk_tiles haligned hne hpos))
      fun d hd => (hok d hd).1.notRaw
    have htail : deflates (tailChunk tgtFile aligned) = [] := by
      refine deflates_of_normal fun c hc => ?_
      obtain ⟨start, length, rfl⟩ := tailChunk_mem hc
      rfl
    rw [deflates_append, htail, append_nil] at hlength
    dsimp only
    omega

/-! ## The loop -/

/-- What holds before every round: the pieces are good, and so are the chunks gathered since. -/
structure SplitInv (lib : DiffLib) (src tgtFile : Bytes) (st : SplitState) (pos : Nat)
    (todo : Chunks) : Prop where
  gathered : Gathered lib src st.srcRanges st.srcChunks st.tgtChunks
  tiles : ∃ a, Tiles tgtFile a st.tgtChunks pos
  few : (deflates st.tgtChunks).length + (deflates todo).length < 2 ^ 16
  pieces : ∀ image ∈ st.images, GoodPiece lib src image

theorem deflates_push (cs : Chunks) (t : ImageChunk) (todo : Chunks) :
    (deflates (cs ++ [t])).length + (deflates todo).length
      = (deflates cs).length + (deflates (t :: todo)).length := by
  have hcons : deflates (t :: todo) = deflates [t] ++ deflates todo := deflates_append [t] todo
  rw [deflates_append, hcons, length_append, length_append]
  omega

theorem deflates_normal_le (cs todo : Chunks) (t : ImageChunk) (start length : Nat) :
    (deflates (cs ++ [normalChunk tgtFile start length])).length + (deflates todo).length
      ≤ (deflates cs).length + (deflates (t :: todo)).length := by
  rw [deflates_append, deflates_normalChunk, show deflates [] = [] from rfl, append_nil]
  exact Nat.add_le_add_left (deflates_tail_le t todo) _

section Loop

variable (hsrc : src.length < 2 ^ 64) (hsrcs : ∀ c ∈ srcs, c.Inside src ∧ Sound lib (2 ^ 32) c)
include hsrc hsrcs

theorem SplitInv.place (h : SplitInv lib src tgtFile st pos (t :: todo))
    (ht : Target lib t ∧ Sound lib (2 ^ 32) t) (hin : t.Inside tgtFile) (hstart : t.start = pos)
    (hplace : placeChunk limit srcs tgtFile st t = some (.added st')) :
    SplitInv lib src tgtFile st' (pos + t.rawDataLen) todo := by
  obtain ⟨a, htiles⟩ := h.tiles
  have hfew := h.few
  have hnormal : ∃ a, Tiles tgtFile a
      (st.tgtChunks ++ [normalChunk tgtFile t.start t.rawDataLen]) (pos + t.rawDataLen) :=
    ⟨a, htiles.append ⟨⟨rfl, hin.le⟩, hstart, rfl⟩⟩
  have hsame : ∃ a, Tiles tgtFile a (st.tgtChunks ++ [t]) (pos + t.rawDataLen) :=
    ⟨a, htiles.append ⟨hin, hstart, rfl⟩⟩
  have hless := (@deflates_normal_le tgtFile st.tgtChunks todo t t.start t.rawDataLen).trans_lt hfew
  rcases placeChunk_added hplace with hst | ⟨c, hc, o, l, hname, hpos, hremove, _, hcase⟩
  · rw [hst]
    exact ⟨h.gathered.pushNormal _ _, hnormal, hless, h.pieces⟩
  rcases hcase with ⟨hdeflate, hwhole, hst⟩ | hst
  · -- nothing was cut off, so that the whole entry is inserted
    obtain ⟨_, hlo, hhi, _⟩ := removeUsedBlocks_spec hremove
    obtain ⟨hcin, hsound⟩ := hsrcs c hc
    have hcle := hcin.le
    have ho : o = c.start := by omega
    have hheld : Held lib src (st.srcRanges.insert o l) c := by
      refine ⟨hdeflate, hpos, hcin, hsound, ?_⟩
      rw [ho, hwhole]
      exact insert_covers _ hpos (by omega)
    rw [hst]
    exact ⟨(h.gathered.insert o l).pushPair hheld ht hname, hsame,
      (deflates_push st.tgtChunks t todo).trans_lt hfew, h.pieces⟩
  · rw [hst]
    exact ⟨(h.gathered.insert o l).pushNormal _ _, hnormal, hless, h.pieces⟩

omit hsrc hsrcs in
theorem SplitInv.startNext (h : SplitInv lib src tgtFile st pos todo) (hpos : pos ≤ tgtFile.length)
    (hnext : startNext src tgtFile st = some st') : SplitInv lib src tgtFile st' pos todo := by
  obtain ⟨a, htiles⟩ := h.tiles
  have hfew := h.few
  have hfresh : (deflates ([] : Chunks)).length + (deflates todo).length < 2 ^ 16 := by
    change 0 + _ < _
    omega
  obtain ⟨added, hadd, rfl⟩ := startNext_cases hnext
  exact ⟨gathered_nil _, ⟨pos, rfl⟩, hfresh, forall_mem_append.mpr
    ⟨h.pieces, goodPiece_of_add h.gathered htiles hpos (by omega) hadd⟩⟩

theorem SplitInv.run {rounds : Nat} (h : SplitInv lib src tgtFile st 0 todo)
    (htiles : Tiles tgtFile 0 todo tgtFile.length)
    (hok : ∀ t ∈ todo, Target lib t ∧ Sound lib (2 ^ 32) t)
    (hloop : splitLoop limit srcs src tgtFile rounds st todo = .done st') :
    SplitInv lib src tgtFile st' tgtFile.length [] := by
  have hkept := splitLoop_keeps (P := fun todo st => ∃ pos, SplitInv lib src tgtFile st pos todo ∧
    Tiles tgtFile pos todo tgtFile.length ∧ ∀ t ∈ todo, Target lib t ∧ Sound lib (2 ^ 32) t)
    ?_ ?_ ⟨0, h, htiles, hok⟩ hloop
  · obtain ⟨pos, hend, rfl, _⟩ := hkept
    exact hend
  · intro t todo st st' h hplace
    obtain ⟨pos, h, ⟨hin, hstart, hrest⟩, hok⟩ := h
    exact ⟨_, h.place hsrc hsrcs (hok t mem_cons_self) hin hstart hplace, hrest,
      (forall_mem_cons.mp hok).2⟩
  · intro todo st st' h hnext
    obtain ⟨pos, h, htiles, hok⟩ := h
    exact ⟨pos, h.startNext htiles.le hnext, htiles, hok⟩

theorem splitPieces_good (htiles : Tiles tgtFile 0 tgts tgtFile.length)
    (hok : ∀ t ∈ tgts, Target lib t ∧ Sound lib (2 ^ 32) t) (hfew : (deflates tgts).length < 2 ^ 16)
    (h : splitPieces limit src tgtFile tgts srcs = some images) :
    ∀ image ∈ images, GoodPiece lib src image := by
  obtain ⟨cd, st, added, hloop, hadd, rfl⟩ := splitPieces_cases h
  have hstart : SplitInv lib src tgtFile
      ⟨empty.insert cd.start cd.dataLengthForPatch, .empty, [], [], []⟩ 0 tgts :=
    ⟨gathered_nil _, ⟨0, rfl⟩, by change 0 + _ < _; omega, nofun⟩
  have hinv := SplitInv.run hsrc hsrcs hstart htiles hok hloop
  obtain ⟨a, hlast⟩ := hinv.tiles
  have hfew := hinv.few
  -- the last piece has the central directory too
  exact forall_mem_append.mpr ⟨hinv.pieces,
    goodPiece_of_add (hinv.gathered.insert _ _) hlast (Nat.le_refl _) (by omega) hadd⟩

end Loop

/-! ## The patch of a piece -/

/-- The chunks of 2 GiB or more of a piece have patches that are not longer than themselves, so that
none of them is stored as it is. -/
def LongChunksShrink (lib : DiffLib) (image : SplitImage) : Prop :=
  ∀ t ∈ image.tgtChunks, t.type = .normal → 2 ^ 31 ≤ t.rawDataLen →
    ∀ data, lib.bsdiff image.srcContent t.raw = some data → data.length ≤ t.rawDataLen

def SplitImage.bytes (image : SplitImage) : Bytes :=
  (image.tgtChunks.map ImageChunk.raw).flatten

section Piece

variable {image : SplitImage}

theorem GoodPiece.content_length (h : GoodPiece lib src image) (hsrc : src.length < 2 ^ 64) :
    image.srcContent.length < 2 ^ 64 := by
  rw [h.content]
  exact Nat.lt_of_le_of_lt (contents_length_le src _) hsrc

theorem GoodPiece.sourceFor_held (h : GoodPiece lib src image) (ht : t ∈ image.tgtChunks)
    (hd : t.type = .deflate) :
    Held lib src image.srcRanges (sourceFor image.srcContent image.srcChunks t) := by
  rw [sourceFor_deflate hd]
  cases hm : firstMatch (deflates image.srcChunks) t with
  | none =>
    obtain ⟨c, hc, hname⟩ := h.gathered.matched t ht hd
    have hdeflate := (h.gathered.source c hc).deflated
    have hmem : c ∈ deflates image.srcChunks := mem_filter.mpr ⟨hc, by simpa using hdeflate⟩
    exact absurd hname (find?_eq_none.mp hm c hmem)
  | some c => exact h.gathered.source c (mem_filter.mp (mem_of_find?_eq_some hm)).1

section Chunk

variable (hl : Lawful lib) (h : GoodPiece lib src image) (hsrc : src.length < 2 ^ 64)
  (ht : t ∈ image.tgtChunks) (htin : t.Inside tgtFile)
  (hp : generate lib t (sourceFor image.srcContent image.srcChunks t) = some p)
include hl h hsrc ht htin hp

/-- The patch of a chunk that stays deflated: its source is found among the blocks. -/
theorem GoodPiece.deflate_patch (hd : t.type = .deflate) :
    ∃ q, updateSourceOffset image.srcRanges p = some q ∧ q.Fits ∧
      ∀ i, Yields lib.toPatchLib image.srcContent none i q t.raw := by
  obtain ⟨htarget, htsound⟩ := h.gathered.target t ht
  have hheld := h.sourceFor_held ht hd
  have hcontent := h.content_length hsrc
  generalize sourceFor image.srcContent image.srcChunks t = c at hp hheld
  obtain ⟨r, hr, hlo, hhi⟩ := hheld.range
  have hcle := hheld.inside.le
  have hclen := hheld.sound.contents
  have htlen := htsound.contents
  obtain ⟨o, hoffset, hole, hslice⟩ :=
    offset_contents hr hheld.pos hlo hhi hheld.inside.le
  rw [← h.content] at hole hslice
  rcases generate_cases hp with ⟨hn, _⟩ | ⟨data, hpatch, rfl⟩
  · exact absurd (hn.symm.trans hd) nofun
  have htype : (ofPatch t c data).type = .deflate := hd
  have hexp := hheld.sound.expands hheld.deflated
  have hdata : c.dataLengthForPatch = c.uncompressedData.length := if_pos hheld.deflated
  have hfits := fits_of_generate hp htin htarget (by omega) (by omega) (by omega)
    (by rw [dataLengthForPatch, if_pos hd]; omega)
    (fun hraw => absurd (htype.symm.trans hraw) nofun)
  refine ⟨{ ofPatch t c data with sourceStart := o }, ?_, ?_, fun i => ?_⟩
  · unfold updateSourceOffset
    rw [if_pos htype]
    change (image.srcRanges.getOffsetInRangeSet c.start).map _ = _
    rw [hoffset]
    rfl
  · exact ⟨by dsimp only; omega, hfits.sourceLen, hfits.sourceUncompressedLen,
      hfits.targetUncompressedLen, hfits.level, hfits.raw⟩
  · refine yields_of_generate hl hp htin htarget rfl fun source _ hsource => ?_
    rw [dataForPatch, if_pos hheld.deflated] at hsource
    rw [← Option.some.inj hsource]
    have hextra : (if i = 1 then (none : Option Bytes).getD [] else []) = [] := by
      split <;> rfl
    refine decoderSource_deflate htype hole ?_ hdata ?_ (by rw [hextra]; exact hexp)
    · rw [ImageChunk.raw, hheld.inside.inputFile]
      exact hslice
    · rw [hheld.inside.raw_length]
      exact hexp.rawLen

theorem GoodPiece.normal_patch (htgt : tgtFile.length < 2 ^ 64) (hn : t.type = .normal) :
    updateSourceOffset image.srcRanges p = some p ∧ (LongChunksShrink lib image → p.Fits) ∧
      ∀ i, Yields lib.toPatchLib image.srcContent none i p t.raw := by
  obtain ⟨htarget, _⟩ := h.gathered.target t ht
  have hcontent := h.content_length hsrc
  have htle := htin.le
  have hnd : t.type ≠ .deflate := by rw [hn]; decide
  rw [sourceFor_normal hnd] at hp
  have hpin := pseudoSource_inside image.srcContent
  refine ⟨?_, fun hlong => ?_, fun i => ?_⟩
  · refine if_neg fun hd => ?_
    rcases generate_cases hp with ⟨_, hof, _⟩ | ⟨data, _, rfl⟩
    · rw [ofTarget_data htin hn hof] at hd
      cases hd
    · exact hnd hd
  · refine fits_of_generate hp htin htarget (Nat.two_pow_pos 64) hcontent hcontent ?_ fun hraw => ?_
    · rw [dataLengthForPatch, if_neg hnd]
      omega
    rcases generate_cases hp with ⟨_, _, hshort⟩ | ⟨data, _, rfl⟩
    · rcases hshort with hshort | ⟨data, hpatch, hless⟩
      · omega
      · obtain ⟨old, new, hold, hnew, hdiff⟩ := makePatch_cases hpatch
        rw [dataForPatch_normal hpin (fun h => by cases h), pseudoSource_raw] at hold
        rw [dataForPatch_normal htin hnd] at hnew
        rw [← Option.some.inj hold, ← Option.some.inj hnew] at hdiff
        by_contra hbig
        have := hlong t ht hn (by omega) data hdiff
        omega
    · cases hn.symm.trans hraw
  · refine yields_of_generate hl hp htin htarget rfl fun source hne hsource => ?_
    exact decoderSource_of_sourceAt ⟨hpin, hcontent, fun h => by cases h⟩ hn hp hne hsource

theorem GoodPiece.chunk_patch (htgt : tgtFile.length < 2 ^ 64) :
    ∃ q, updateSourceOffset image.srcRanges p = some q ∧ (LongChunksShrink lib image → q.Fits) ∧
      ∀ i, Yields lib.toPatchLib image.srcContent none i q t.raw := by
  cases htype : t.type with
  | deflate =>
    obtain ⟨q, hq, hfits, hy⟩ := h.deflate_patch hl hsrc ht htin hp htype
    exact ⟨q, hq, fun _ => hfits, hy⟩
  | normal => exact ⟨p, h.normal_patch hl hsrc ht htin hp htgt htype⟩
  | raw => exact absurd htype (h.gathered.target t ht).1.notRaw

end Chunk

theorem moved_patches (content : Bytes) (ranges : SortedRangeSet) (fits : Prop) :
    ∀ {tgts : Chunks} {ps : List PatchChunk} {source : ImageChunk → ImageChunk} (i : Nat),
      List.Forall₂ (fun t p => generate lib t (source t) = some p) tgts ps →
      (∀ t ∈ tgts, ∀ p, generate lib t (source t) = some p →
        ∃ q, updateSourceOffset ranges p = some q ∧ (fits → q.Fits) ∧
          ∀ i, Yields lib.toPatchLib content none i q t.raw) →
      ∃ qs, updateSourceOffsets ranges ps = some qs ∧ qs.length = tgts.length ∧
        (fits → ∀ q ∈ qs, q.Fits) ∧
        YieldsAll lib.toPatchLib content none i qs (tgts.map ImageChunk.raw).flatten
  | _, _, _, _, .nil, _ => ⟨[], rfl, rfl, fun _ => nofun, .nil⟩
  | t :: tgts, p :: ps, _, i, .cons hp hps, hall => by
    obtain ⟨q, hq, hfits, hy⟩ := hall t mem_cons_self p hp
    obtain ⟨qs, hqs, hlen, hfitsAll, hyAll⟩ :=
      moved_patches content ranges fits (i + 1) hps (forall_mem_cons.mp hall).2
    refine ⟨q :: qs, ?_, ?_, ?_, .cons (hy i) hyAll⟩
    · rw [updateSourceOffsets, hq, hqs]
    · rw [length_cons, length_cons, hlen]
    · exact fun hf => forall_mem_cons.mpr ⟨hfits hf, hfitsAll hf⟩

theorem generateSplitPatch_some {ps qs : List PatchChunk}
    (hps : generatePatchesInternal lib image.srcContent image.srcChunks image.tgtChunks = some ps)
    (hqs : updateSourceOffsets image.srcRanges ps = some qs) : generateSplitPatch lib image = some
      { patch := writePatchDataToFd qs
        totalPatchSize := 12 + (qs.map patchSize).sum
        splitTgtSize := extent image.tgtChunks
        srcRange := image.srcRanges } := by
  rw [generateSplitPatch, hps]
  dsimp only
  rw [hqs]

theorem GoodPiece.patch (hl : Lawful lib) (h : GoodPiece lib src image)
    (hsrc : src.length < 2 ^ 64) (htgt : tgtFile.length < 2 ^ 64)
    (htin : ∀ t ∈ image.tgtChunks, t.Inside tgtFile)
    (hps : (generatePatchesInternal lib image.srcContent image.srcChunks image.tgtChunks).isSome) :
    ∃ out, generateSplitPatch lib image = some out ∧ out.totalPatchSize = out.patch.length ∧
      (LongChunksShrink lib image → out.patch.length < 2 ^ 64 →
        applyImagePatch lib.toPatchLib memorySink (image.srcRanges.contents src) out.patch none []
          = (image.bytes, .success)) := by
  obtain ⟨ps, hps⟩ := Option.isSome_iff_exists.mp hps
  obtain ⟨qs, hqs, hlen, hfits, hy⟩ :=
    moved_patches image.srcContent image.srcRanges (LongChunksShrink lib image) 0
      (generatePatchesInternal_forall₂ hps)
      fun t ht p hp => h.chunk_patch hl hsrc ht (htin t ht) hp htgt
  refine ⟨_, generateSplitPatch_some hps hqs, ?_, fun hlong hpatch => ?_⟩
  · exact (writePatchDataToFd_length qs).symm
  · have hcount := h.count
    rw [← h.content]
    rw [applyImagePatch_written (by omega) (hfits hlong) hpatch, hy.appliedAll]
    rfl

end Piece

/-! ## All pieces -/

section Pieces

variable {a b : Nat}

theorem PiecesTile.inside (h : PiecesTile tgtFile a images b) :
    ∀ image ∈ images, ∀ t ∈ image.tgtChunks, t.Inside tgtFile := by
  induction images generalizing a with
  | nil => exact nofun
  | cons first images ih =>
    obtain ⟨_, _, m, htiles, hrest⟩ := h
    exact forall_mem_cons.mpr ⟨htiles.inside, ih hrest⟩

theorem PiecesTile.le (h : PiecesTile tgtFile a images b) : a ≤ b := by
  induction images generalizing a with
  | nil => exact Nat.le_of_eq h
  | cons image images ih =>
    obtain ⟨_, _, m, htiles, hrest⟩ := h
    exact htiles.le.trans (ih hrest)

theorem PiecesTile.bytes (h : PiecesTile tgtFile a images b) :
    images.flatMap SplitImage.bytes = sliceOf tgtFile a (b - a) := by
  induction images generalizing a with
  | nil =>
    rw [show a = b from h, Nat.sub_self]
    rfl
  | cons image images ih =>
    obtain ⟨_, _, m, htiles, hrest⟩ := h
    have hle := htiles.le
    have hle' := hrest.le
    have hsum : b - a = m - a + (b - m) := by omega
    have happend := sliceOf_append tgtFile a (m - a) (b - m)
    rw [Nat.add_sub_cancel' hle] at happend
    rw [flatMap_cons, ih hrest, SplitImage.bytes, htiles.raw, hsum, happend]

end Pieces

theorem checkAndProcess_split (hz : ZipLawful lib zip) (htgt : tgt.length < 2 ^ 64)
    {tgts₀ srcs₀ : Chunks} (hs₀ : initializeZip zip true limit src = some srcs₀)
    (ht₀ : initializeZip zip false limit tgt = some tgts₀)
    (h : checkAndProcessChunks lib limit tgts₀ srcs₀ = some (tgts, srcs)) :
    Tiles tgt 0 tgts tgt.length ∧ (∀ t ∈ tgts, Target lib t ∧ Sound lib (2 ^ 32) t) ∧
      (deflates tgts).length < 2 ^ 16 ∧ ∀ c ∈ srcs, c.Inside src ∧ Sound lib (2 ^ 32) c := by
  unfold checkAndProcessChunks at h
  split at h
  · cases h
  rename_i tgts₁ srcs₁ hpass
  cases h
  obtain ⟨_, htiles, hok, hfew, hsources⟩ := processChunks_passed hz htgt hs₀ ht₀ hpass
  -- a block limit of a multiple of 2 ^ 52 is a limit of zero bytes, and the chunks are merged
  split
  · refine ⟨htiles.merge, fun t ht => ⟨?_, ?_⟩, by rw [deflates_merge]; exact hfew, hsources⟩
    · exact Target.of_merge (fun t ht => (hok t ht).1) t ht
    · exact Sound.of_merge (fun t ht => (hok t ht).2) t ht
  · exact ⟨htiles, hok, hfew, hsources⟩

/--
Every piece has a patch of its own that applies. When the splitting runs to completion, the pieces
make up the target; if `bsdiff` makes patches for a piece, the split info has the length of its
patch, and the patch turns the blocks of the source ranges into the piece, unless a chunk of
2 GiB or more is stored as it is.
-/
theorem split_round_trip {lib : DiffLib} {zip : ZipLib} (hl : Lawful lib) (hz : ZipLawful lib zip)
    {blocksLimit : Nat} {src tgt : Bytes} {images : List SplitImage}
    (hsrc : src.length < 2 ^ 64) (htgt : tgt.length < 2 ^ 64)
    (h : splitImages lib zip blocksLimit src tgt = some images) :
    images.flatMap SplitImage.bytes = tgt ∧
    ∀ image ∈ images,
      (generatePatchesInternal lib image.srcContent image.srcChunks image.tgtChunks).isSome →
      ∃ out, generateSplitPatch lib image = some out ∧ out.totalPatchSize = out.patch.length ∧
        (LongChunksShrink lib image → out.patch.length < 2 ^ 64 →
          applyImagePatch lib.toPatchLib memorySink (image.srcRanges.contents src) out.patch none []
            = (image.bytes, .success)) := by
  unfold splitImages splitFrom at h
  dsimp only at h
  split at h
  · rename_i srcs₀ tgts₀ hs₀ ht₀
    split at h
    · cases h
    rename_i tgts srcs hcheck
    obtain ⟨htiles, hok, hfew, hsrcs⟩ := checkAndProcess_split hz htgt hs₀ ht₀ hcheck
    unfold splitZipModeImageWithLimit at h
    split at h
    · cases h
    rename_i pieces hpieces
    split at h
    · cases h
      obtain ⟨htile, _⟩ := splitPieces_geometry htiles hpieces
      have hgood := splitPieces_good hsrc hsrcs htiles hok hfew hpieces
      refine ⟨?_, fun image himage => ?_⟩
      · rw [htile.bytes, Nat.sub_zero, sliceOf_all]
      · exact (hgood image himage).patch hl hsrc htgt (htile.inside image himage)
    · cases h
  · cases h

/-! ## An entry in the second block -/

/-- A stored entry: its local header, without the bytes of the entry. -/
def storedHeader (name crc : Bytes) (size : Nat) : Bytes :=
  [0x50, 0x4b, 3, 4, 20, 0, 0, 0, 0, 0, 0, 0, 0x21, 0] ++ (crc ++
    (leBytes 4 size ++ (leBytes 4 size ++ ([UInt8.ofNat name.length, 0, 0, 0] ++ name))))

/-- Its header in the central directory. -/
def storedCentral (name crc : Bytes) (size offset : Nat) : Bytes :=
  [0x50, 0x4b, 1, 2, 20, 0, 20, 0, 0, 0, 0, 0, 0, 0, 0x21, 0] ++ (crc ++
    (leBytes 4 size ++ (leBytes 4 size ++
      ([UInt8.ofNat name.length, 0, 0, 0, 0, 0, 0, 0, 0, 0, 0, 0, 0, 0] ++
        (leBytes 4 offset ++ name)))))

/-- The end of the central directory, of `count` headers and `size` bytes. -/
def directoryEnd (count size : UInt8) (offset : Nat) : Bytes :=
  [0x50, 0x4b, 5, 6, 0, 0, 0, 0, count, 0, count, 0, size, 0, 0, 0] ++ (leBytes 4 offset ++ [0, 0])

theorem libOf_entries_head (file : Bytes) (entries : List (Bytes × ZipEntry))
    (rest : List (Bytes × List (Bytes × ZipEntry))) :
    (libOf ((file, entries) :: rest)).entries file = some entries := by
  change ((List.find? _ _).map _) = _
  rw [find?_cons_of_pos (by exact decide_eq_true rfl), Option.map_some]

theorem libOf_entries_tail {file : Bytes}
    {archive : Bytes × List (Bytes × ZipEntry)} (h : archive.1 ≠ file)
    (rest : List (Bytes × List (Bytes × ZipEntry))) :
    (libOf (archive :: rest)).entries file = (libOf rest).entries file := by
  change ((List.find? _ _).map _) = ((List.find? _ _).map _)
  rw [find?_cons_of_neg (by simpa using h)]

theorem initializeZip_whole {file : Bytes} {size : Nat}
    {entries : List (Bytes × ZipEntry)} (hsize : getZipFileSize file = some size)
    (hlength : file.length = size) (hentries : zip.entries file = some entries) :
    initializeZip zip true limit file
      = sourceChunks zip file file limit (sortedEntries limit entries) := by
  have htake : file.take size = file := by rw [← hlength, take_length]
  unfold initializeZip
  rw [hsize]
  dsimp only
  rw [htake, hentries]
  exact if_pos rfl

namespace Padded

def crcZeros : Bytes := [0x11, 0x00, 0x1c, 0xc7]

def nameQ : Bytes := [0x71]

/-- The local header of the entry `a`, with an extra field of one block. -/
def header : Bytes :=
  [0x50, 0x4b, 3, 4, 20, 0, 0, 0, 8, 0, 0, 0, 0x21, 0] ++ (crcA ++
    ([3, 0, 0, 0, 1, 0, 0, 0, 1, 0, 0, 0x10] ++ (nameA ++ List.replicate 4096 0)))

/-- The entry `a` in the second block, and a stored block before the central directory. -/
def source : Bytes :=
  header ++ (compress [0x61] ++ (storedHeader nameQ crcZeros 4096 ++
    (List.replicate 4096 0 ++ (centralHeader nameA crcA 0 ++
      (storedCentral nameQ crcZeros 4096 4130 ++ directoryEnd 2 94 8257)))))

theorem source_length : source.length = 8373 := by decide +kernel

def entries : List (Bytes × ZipEntry) :=
  [(nameA, ⟨true, 4127, 3, 1⟩), (nameQ, ⟨false, 4161, 4096, 4096⟩)]

/-- libziparchive on this file, and on one with a changed entry. -/
def archive : ZipLib :=
  libOf [(source, entries), (zipA crcB 0x62, [(nameA, ⟨true, 31, 3, 1⟩)])]

/-- What the pieces need for their patches, and that the entry is moved with its block. -/
def checks (images : List SplitImage) : Bool :=
  images.length = 1 && images.all fun image =>
    (generatePatchesInternal literalLib image.srcContent image.srcChunks
      image.tgtChunks).isSome &&
    image.tgtChunks.all (fun t => t.rawDataLen < 2 ^ 31) &&
    image.srcRanges.ranges = [(1, 3)] &&
    image.srcRanges.getOffsetInRangeSet 4127 = some 31 &&
    (generateSplitPatch literalLib image).all (fun out => out.patch.length < 2 ^ 64)

end Padded

/-- The entry is found among the blocks of the piece, and the patch applies. -/
theorem moved_entry_round_trip : ∃ image out,
    splitImages literalLib Padded.archive 1 Padded.source (zipA crcB 0x62) = some [image] ∧
    image.srcRanges.getOffsetInRangeSet 4127 = some 31 ∧
    generateSplitPatch literalLib image = some out ∧
    out.totalPatchSize = out.patch.length ∧
    applyImagePatch literalLib.toPatchLib memorySink
      (image.srcRanges.contents Padded.source) out.patch none [] = (zipA crcB 0x62, .success) := by
  have hsome : ((splitImages literalLib Padded.archive 1 Padded.source
      (zipA crcB 0x62)).any Padded.checks) = true := by
    have hsize : getZipFileSize Padded.source = some 8373 := by decide +kernel
    have hentries : Padded.archive.entries Padded.source = some Padded.entries :=
      libOf_entries_head _ _ _
    rw [splitImages, initializeZip_whole hsize Padded.source_length hentries]
    decide +kernel
  obtain ⟨images, himages, hchecks⟩ := (Option.any_eq_true _ _).mp hsome
  have hlawful : ZipLawful literalLib Padded.archive := libOf_lawful (by decide +kernel)
  obtain ⟨hwhole, hpieces⟩ := split_round_trip literalLib_lawful hlawful
    (by rw [Padded.source_length]; omega) (by decide +kernel) himages
  obtain ⟨hone, hall⟩ := Bool.and_eq_true_iff.mp hchecks
  obtain ⟨image, rfl⟩ := length_eq_one_iff.mp (of_decide_eq_true hone)
  have hcheck := all_eq_true.mp hall image (mem_singleton_self image)
  simp only [Bool.and_eq_true] at hcheck
  obtain ⟨⟨⟨⟨hpatches, hshort⟩, _⟩, hoffset⟩, hsize⟩ := hcheck
  obtain ⟨out, hout, htotal, happlies⟩ := hpieces image (mem_singleton_self image) hpatches
  rw [hout] at hsize
  refine ⟨image, out, himages, of_decide_eq_true hoffset, hout, htotal, ?_⟩
  have hbytes : image.bytes = zipA crcB 0x62 := by
    rw [flatMap_cons, flatMap_nil, append_nil] at hwhole
    exact hwhole
  rw [← hbytes]
  refine happlies (fun t ht _ hlong => ?_) (of_decide_eq_true hsize)
  have := of_decide_eq_true (all_eq_true.mp hshort t ht)
  omega

/-! ## A chunk that is too long to be stored -/

theorem read4_write4Size_negative {n : Nat} (hlo : 2 ^ 31 ≤ n) (hhi : n < 2 ^ 32)
    (h : StandsAt data pos (write4Size n)) : read4 data pos = n - 2 ^ 32 := by
  have hslice := h.sliceOf_eq
  rw [write4Size, leBytes_length] at hslice
  rw [read4, hslice, leNat_leBytes (by omega)]
  unfold signed
  omega

/-- The decoder refuses a patch that stores a chunk of 2 GiB or more: taken for a `size_t`, the
negative size is longer than any patch. -/
theorem long_raw_refused (ht : p.type = .raw) (hlo : 2 ^ 31 ≤ p.data.length)
    (hhi : p.data.length < 2 ^ 32 - 20) (plib : PatchLib) (old : Bytes) :
    applyImagePatch plib memorySink old (writePatchDataToFd [p]) none [] = ([], .failure) := by
  have hlen : (writePatchDataToFd [p]).length = 20 + p.data.length := by
    rw [writePatchDataToFd_length, map_singleton, sum_singleton,
      patchSize, if_pos ht, getHeaderSize, ht]
    dsimp only
    omega
  have hmagic : StandsAt (writePatchDataToFd [p]) 0 (imgdiffMagic ++ (write4Size 1 ++ (headers
        (12 + ([p].map getHeaderSize).sum) [p] ++ bodies [p]))) :=
    ⟨[], (append_nil _).symm⟩
  have h8 : imgdiffMagic.length = 8 := rfl
  have hcount := read4_write4Size (by omega) hmagic.right.left
  have hheader := hmagic.right.right.left.left
  rw [h8, write4Size_length] at hheader
  rw [h8] at hcount
  -- the header: the type, and the size with the data
  have htype := read4_write4 (by rw [ht]; unfold IsInt; decide) hheader.left
  have hfields := hheader.right
  rw [headerFields, ht] at hfields
  have hsize := read4_write4Size_negative hlo (by omega) hfields.left
  rw [write4_length] at hsize
  rw [ht] at htype
  have hchunk : applyChunk plib memorySink old (writePatchDataToFd [p]) none 0 12 []
      = (([], .failure), (20 + rawLength (writePatchDataToFd [p]) 16) % 2 ^ 64) := by
    have hraw : read4 (writePatchDataToFd [p]) 12 = CHUNK_RAW := htype
    have hlong : (writePatchDataToFd [p]).length
        < (20 + rawLength (writePatchDataToFd [p]) 16) % 2 ^ 64 := by
      have hvalue : rawLength (writePatchDataToFd [p]) 16 = 2 ^ 64 - 2 ^ 32 + p.data.length := by
        have hmod : ((p.data.length : Int) - 2 ^ 32) % 256 ^ 8
            = p.data.length - 2 ^ 32 + 2 ^ 64 := by omega
        rw [rawLength, hsize, unsigned, hmod]
        omega
      rw [hlen]
      omega
    unfold applyChunk
    rw [if_neg (by omega), hraw, if_neg (by decide), if_pos rfl, if_neg (by omega)]
    dsimp only
    unfold applyRawChunk
    rw [if_pos hlong]
  unfold applyImagePatch
  rw [if_neg (by omega), if_neg, hcount]
  · change applyChunks plib memorySink old _ none (0 + 1) 0 12 [] = _
    rw [applyChunks, hchunk]
  · rw [not_not]
    exact hmagic.left.sliceOf_eq

namespace Stored

def nameN : Bytes := [0x6e]

/-- What is in front of the end of the central directory. -/
def front : Bytes :=
  storedHeader nameN crc body.length ++ (body ++ storedCentral nameN crc body.length 0)

/-- A zip file with one stored entry `n`. The checksum is not looked at. -/
def zipped : Bytes := front crc body ++ directoryEnd 1 47 (31 + body.length)

/-- A byte is behind the zip data, which ends below 2 GiB then. -/
def file : Bytes := zipped crc body ++ [0]

def entry (body : Bytes) : ZipEntry := ⟨false, 31, body.length, body.length⟩

def sourceEntries : List (Bytes × ZipEntry) := [(nameA, ⟨true, 31, 3, 1⟩)]

/-- libziparchive on such a file, and on the source. -/
def archive : ZipLib :=
  libOf [(zipped crc body, [(nameN, entry body)]), (zipA crcA 0x61, sourceEntries)]

variable {crc body : Bytes}

theorem findEocd_here {i : Nat} (h : sliceOf data i 4 = eocdSignature) :
    findEocd data i = findEocd.eocdAt data i := by
  cases i with
  | zero => rfl
  | succ i => rw [findEocd, if_pos h]

def entryChunk (crc body : Bytes) : ImageChunk :=
  { type := .normal, start := 31, inputFile := file crc body, rawDataLen := body.length,
    entryName := nameN }

/-- It is between two chunks that have no name. -/
def chunks (crc body : Bytes) : Chunks :=
  [normalChunk (file crc body) 0 31, entryChunk crc body,
    normalChunk (file crc body) (31 + body.length) 70]

/-- The chunks of the source: its entry, and the end of the file. -/
def sourceList : Chunks :=
  [{ type := .deflate, start := 31, inputFile := zipA crcA 0x61, rawDataLen := 3,
     entryName := nameA, uncompressedData := [0x61] }, normalChunk (zipA crcA 0x61) 34 69]

def piece (crc body : Bytes) : SplitImage :=
  { tgtChunks := [normalChunk (file crc body) 0 (file crc body).length]
    srcChunks := []
    srcRanges := SortedRangeSet.empty.insert 34 69
    srcContent := (SortedRangeSet.empty.insert 34 69).contents (zipA crcA 0x61) }

/-- None of the chunks finds a source: they are gathered as normal ones. -/
def gathered (crc body : Bytes) : Chunks :=
  (chunks crc body).map fun t => normalChunk (file crc body) t.start t.rawDataLen

theorem runLoop_chunks (limit : Nat) :
    runLoop limit (zipA crcA 0x61) (file crc body) (chunks crc body) sourceList
      (normalChunk (zipA crcA 0x61) 34 69) 6 =
    .done ⟨empty.insert 34 69, .empty, [], gathered crc body, []⟩ := rfl

section Lengths

variable (hcrc : crc.length = 4)
include hcrc

theorem front_length : (front crc body).length = body.length + 78 := by
  unfold front storedHeader storedCentral nameN
  simp only [length_append, length_cons, length_nil, leBytes_length]
  omega

theorem zipped_length : (zipped crc body).length = body.length + 100 := by
  unfold zipped directoryEnd
  rw [length_append, front_length hcrc]
  simp only [length_append, length_cons, length_nil, leBytes_length]

theorem file_length : (file crc body).length = body.length + 101 := by
  rw [file, length_append, zipped_length hcrc]
  rfl

theorem getZipFileSize_file (hbody : body.length + 100 < 2 ^ 31) :
    getZipFileSize (file crc body) = some (body.length + 100) := by
  have hlength := @file_length crc body hcrc
  -- the record and the byte behind it
  have hat : ∀ o n, sliceOf (file crc body) (body.length + 78 + o) n
      = sliceOf (directoryEnd 1 47 (31 + body.length) ++ [0]) o n := by
    intro o n
    rw [← front_length hcrc, file, zipped, append_assoc]
    exact sliceOf_append_right
  have hnext : ¬ sliceOf (file crc body) (body.length + 78 + 1) 4 = eocdSignature := by
    rw [hat 1 4]
    exact (by decide : ¬ ([0x4b, 5, 6, 0] : Bytes) = eocdSignature)
  have hsignature : sliceOf (file crc body) (body.length + 78) 4 = eocdSignature := hat 0 4
  have hdisk : leNat (sliceOf (file crc body) (body.length + 78 + 4) 2) = 0 := by
    rw [hat 4 2]
    rfl
  have hcomment : leNat (sliceOf (file crc body) (body.length + 78 + 20) 2) = 0 := by
    rw [hat 20 2]
    rfl
  have hint : signed 4 (((file crc body).length - 22) % 2 ^ 32) = (body.length + 78 + 1 : Nat) := by
    rw [signed_of_lt (by omega)]
    omega
  have hend : signed 4 ((body.length + 78 + 22 + 0) % 2 ^ 32) = (body.length + 100 : Nat) := by
    rw [signed_of_lt (by omega)]
    omega
  unfold getZipFileSize
  rw [if_neg (by omega)]
  rw [hint, if_neg (by omega), Int.toNat_natCast, findEocd, if_neg hnext, findEocd_here hsignature]
  unfold findEocd.eocdAt
  rw [if_neg (not_not.mpr hsignature), hdisk, if_neg (not_not.mpr rfl), hcomment, hend]
  rw [if_neg (by omega), Int.toNat_natCast]

theorem lawful (hbody : body.length < 2 ^ 32) : ZipLawful literalLib (archive crc body) := by
  refine libOf_lawful fun a ha => ?_
  rcases mem_cons.mp ha with rfl | ha
  · have hlength := @zipped_length crc body hcrc
    refine ⟨forall_mem_singleton.mpr ?_, pairwise_singleton _ _,
      forall_mem_singleton.mpr ⟨hbody, hbody⟩,
      Nat.one_lt_two_pow nofun, forall_mem_singleton.mpr nofun⟩
    change 31 + body.length ≤ (zipped crc body).length
    omega
  · rw [mem_singleton.mp ha]
    decide +kernel

theorem chunks_tile : Tiles (file crc body) 0 (chunks crc body) (file crc body).length := by
  have hlength := @file_length crc body hcrc
  refine ⟨⟨rfl, ?_⟩, rfl, ⟨rfl, ?_⟩, rfl, ⟨rfl, ?_⟩, ?_, ?_⟩
  · change 0 + 31 ≤ _
    omega
  · change 31 + body.length ≤ _
    omega
  · change 31 + body.length + 70 ≤ _
    omega
  · change 31 + body.length = 0 + 31 + body.length
    omega
  · change 0 + 31 + body.length + 70 = _
    omega

theorem initializeZip_target {limit : Nat} (hbody : body.length + 100 < 2 ^ 31)
    (hne : 0 < body.length) (hlimit : body.length ≤ limit) :
    initializeZip (archive crc body) false limit (file crc body) = some (chunks crc body) := by
  have hlength := @file_length crc body hcrc
  have htake : (file crc body).take (body.length + 100) = zipped crc body := by
    rw [← zipped_length hcrc, file, take_left]
  have hentries : (archive crc body).entries (zipped crc body) = some [(nameN, entry body)] :=
    libOf_entries_head _ _ _
  have hsorted : sortedEntries limit [(nameN, entry body)] = [(nameN, entry body)] := by
    have hpos : decide (0 < limit) = true := decide_eq_true (by omega)
    unfold sortedEntries
    rw [filter_cons_of_pos (by rw [hpos, Bool.or_true])]
    rfl
  have hadd : addZipEntryToChunks (archive crc body) (zipped crc body) (file crc body) limit
      (nameN, entry body) = some [entryChunk crc body] := by
    unfold addZipEntryToChunks
    dsimp only
    rw [if_neg (by change ¬ body.length = 0; omega),
      if_neg (by change ¬ (0 < limit ∧ limit < body.length); omega)]
    rfl
  have hend : targetChunks (archive crc body) (zipped crc body) (file crc body) limit
      (31 + body.length) [] = some [normalChunk (file crc body) (31 + body.length) 70] := by
    have hrest : (file crc body).length - (31 + body.length) = 70 := by omega
    rw [targetChunks, if_pos (by omega), hrest]
  have hchunks : targetChunks (archive crc body) (zipped crc body) (file crc body) limit 0
      [(nameN, entry body)] = some (chunks crc body) := by
    have hoffset : (entry body).offset = 31 := rfl
    have hcompressed : (entry body).compressedLength = body.length := rfl
    rw [targetChunks]
    dsimp only
    rw [hadd, hoffset, hcompressed, hend, if_neg (by omega : ¬ (file crc body).length ≤ 31)]
    rfl
  unfold initializeZip
  rw [getZipFileSize_file hcrc hbody]
  dsimp only
  rw [htake, hentries]
  dsimp only
  rw [hsorted, if_neg Bool.false_ne_true, hchunks]

theorem initializeZip_source (hbody : 3 < body.length) :
    initializeZip (archive crc body) true (2 ^ 20 * BLOCK_SIZE % 2 ^ 64) (zipA crcA 0x61)
      = some sourceList := by
  have hsize : getZipFileSize (zipA crcA 0x61) = some 103 := by decide +kernel
  have hlength : (zipA crcA 0x61).length = 103 := by decide +kernel
  have hother : ¬ zipped crc body = zipA crcA 0x61 := by
    intro h
    have hzipped := @zipped_length crc body hcrc
    rw [h] at hzipped
    omega
  have hentries : (archive crc body).entries (zipA crcA 0x61) = some sourceEntries := by
    rw [archive, libOf_entries_tail hother]
    exact libOf_entries_head (zipA crcA 0x61) sourceEntries []
  -- extracting does not depend on the list of files
  have hchunks : sourceChunks (libOf []) (zipA crcA 0x61) (zipA crcA 0x61)
      (2 ^ 20 * BLOCK_SIZE % 2 ^ 64) (sortedEntries (2 ^ 20 * BLOCK_SIZE % 2 ^ 64) sourceEntries)
        = some sourceList := by decide +kernel
  rw [initializeZip_whole hsize hlength hentries]
  exact hchunks

theorem merge_gathered : mergeAdjacentNormalChunks (gathered crc body) =
    [normalChunk (file crc body) 0 (file crc body).length] := by
  have hadj : (normalChunk (file crc body) 0 (31 + body.length)).isAdjacentNormal
      (normalChunk (file crc body) (31 + body.length) 70) = true :=
    decide_eq_true ⟨rfl, rfl, (Nat.zero_add _).symm⟩
  have hsum : (file crc body).length = 31 + body.length + 70 := by
    rw [file_length hcrc]
    omega
  change mergeFrom (normalChunk (file crc body) 0 (31 + body.length))
    [normalChunk (file crc body) (31 + body.length) 70] = _
  rw [mergeFrom, if_pos hadj, hsum]
  rfl

theorem splitPieces_chunks (limit : Nat) :
    splitPieces limit (zipA crcA 0x61) (file crc body) (chunks crc body) sourceList =
      some [piece crc body] := by
  have haligned : alignChunks (file crc body) (gathered crc body) = some (gathered crc body) := rfl
  -- the chunks end with the file, so that there is no block to fill up
  have htail : tailChunk (file crc body) (gathered crc body) = [] := by
    refine if_neg fun h => absurd h.2 ?_
    rw [file_length hcrc]
    change ¬ 31 + body.length + 70 < _
    omega
  have hadd : addSplitImageFromChunkList (zipA crcA 0x61) (file crc body)
      (empty.insert 34 69) (gathered crc body) [] = some (some (piece crc body)) := by
    unfold addSplitImageFromChunkList
    rw [haligned]
    dsimp only
    rw [htail, append_nil, merge_gathered hcrc]
    rfl
  have hlast : sourceList.getLast? = some (normalChunk (zipA crcA 0x61) 34 69) := rfl
  unfold splitPieces
  rw [hlast]
  dsimp only
  rw [show 2 * (chunks crc body).length = 6 from rfl, runLoop_chunks]
  rw [show (normalChunk (zipA crcA 0x61) 34 69).dataLengthForPatch = 69 from rfl]
  dsimp only [normalChunk]
  rw [hadd]
  rfl

end Lengths

end Stored

open Stored

theorem processChunks_normal (h : ∀ t ∈ tgts, t.type ≠ .deflate) :
    processChunks lib srcs tgts = some (tgts, srcs) := by
  induction tgts with
  | nil => rfl
  | cons t tgts ih =>
    have hround : processChunk lib srcs t = some (t, srcs) := if_pos (h t mem_cons_self)
    rw [processChunks, hround]
    dsimp only
    rw [ih (forall_mem_cons.mp h).2]

theorem splitImages_stored {crc body : Bytes} (hcrc : crc.length = 4) (hlo : 3 < body.length)
    (hbody : body.length + 100 < 2 ^ 31) :
    splitImages lib (archive crc body) (2 ^ 20) (zipA crcA 0x61) (file crc body)
      = some [piece crc body] := by
  have hlimit : 2 ^ 20 * BLOCK_SIZE % 2 ^ 64 = 2 ^ 32 := by decide
  have hpos : ¬ 2 ^ 20 * BLOCK_SIZE % 2 ^ 64 = 0 := by decide
  have htarget := Stored.initializeZip_target hcrc hbody (by omega)
    (by omega : _ ≤ 2 ^ 20 * BLOCK_SIZE % 2 ^ 64)
  have hnormal : ∀ t ∈ chunks crc body, t.type ≠ .deflate :=
    forall_mem_cons.mpr ⟨nofun, forall_mem_cons.mpr ⟨nofun, forall_mem_singleton.mpr nofun⟩⟩
  have hpieces := @splitPieces_chunks crc body hcrc (2 ^ 20 * BLOCK_SIZE % 2 ^ 64)
  unfold splitImages
  dsimp only
  rw [Stored.initializeZip_source hcrc hlo, htarget]
  unfold splitFrom checkAndProcessChunks
  dsimp only
  rw [processChunks_normal hnormal]
  dsimp only
  rw [if_neg hpos]
  unfold splitZipModeImageWithLimit
  rw [hpieces]
  dsimp only
  rw [if_pos (splitPieces_valid (chunks_tile hcrc) hpieces)]

theorem generate_stored (hn : t.type = .normal) (hlen : 160 < t.rawDataLen)
    (hpatch : makePatch lib t c = some data) (hlong : t.rawDataLen < data.length) :
    generate lib t c = ofTarget t := by
  have hlarge : ¬ rawDataIsSmaller t 0 = true := by
    unfold rawDataIsSmaller
    rw [decide_eq_true_eq]
    omega
  have hsmaller : rawDataIsSmaller t data.length = true :=
    decide_eq_true ⟨hn, .inr hlong⟩
  unfold generate
  rw [if_neg hlarge, hpatch]
  dsimp only
  rw [if_pos hsmaller]

/-- The patch chunk that stores a whole file. -/
def storedPatch (file : Bytes) : PatchChunk :=
  { type := .raw, sourceStart := 0, sourceLen := 0, sourceUncompressedLen := 0,
    targetUncompressedLen := file.length, targetCompressLevel := 6, data := file }

/-- The patch of such a piece is refused when the file has 2 GiB or more and `bsdiff` cannot make it
shorter. -/
theorem stored_refused {crc body : Bytes} (hcrc : crc.length = 4)
    (hbody : body.length = 2 ^ 31 - 101) :
    ∃ out, generateSplitPatch literalLib (piece crc body) = some out ∧
      out.patch.length < 2 ^ 64 ∧
      ∀ old, applyImagePatch literalLib.toPatchLib memorySink old out.patch none []
        = ([], .failure) := by
  have hlength : (file crc body).length = 2 ^ 31 := by
    rw [file_length hcrc]
    omega
  generalize hfile : file crc body = file at hlength
  have hpiece : (piece crc body).tgtChunks = [normalChunk file 0 file.length] := by
    rw [← hfile]
    rfl
  have hin : (normalChunk file 0 file.length).Inside file := pseudoSource_inside file
  have hraw : (normalChunk file 0 file.length).raw = file := pseudoSource_raw file
  have hdiff : makePatch literalLib (normalChunk file 0 file.length)
      (pseudoSource (piece crc body).srcContent) = some (leBytes 8 file.length ++ file) := by
    unfold makePatch
    rw [dataForPatch_normal (pseudoSource_inside _) nofun, dataForPatch_normal hin nofun, hraw]
    exact if_pos (by omega)
  have hgen := generate_stored rfl (by change 160 < file.length; omega) hdiff (by
    rw [length_append]
    change file.length < 8 + file.length
    omega)
  unfold ofTarget at hgen
  rw [dataForPatch_normal hin nofun, hraw] at hgen
  have hps : generatePatchesInternal literalLib (piece crc body).srcContent
      (piece crc body).srcChunks (piece crc body).tgtChunks = some [storedPatch file] := by
    have hsource : sourceFor (piece crc body).srcContent (piece crc body).srcChunks
        (normalChunk file 0 file.length) = pseudoSource (piece crc body).srcContent := rfl
    rw [hpiece, generatePatchesInternal, hsource, hgen]
    rfl
  refine ⟨_, generateSplitPatch_some hps rfl, ?_, fun old => ?_⟩
  · rw [writePatchDataToFd_length]
    change 12 + (4 + 4 + file.length) < 2 ^ 64
    omega
  · exact long_raw_refused rfl (Nat.le_of_eq hlength.symm) (by change file.length < _; omega) _ old

/-- Bytes that do not compress: a linear congruential generator. -/
def noise : Nat → Nat → Bytes
  | 0, _ => []
  | n + 1, x => UInt8.ofNat (x / 65536) :: noise n ((x * 1103515245 + 12345) % 2 ^ 31)

theorem noise_length (n x : Nat) : (noise n x).length = n := by
  induction n generalizing x with
  | zero => rfl
  | succ n ih => rw [noise, length_cons, ih]

/-- A file of 2 GiB whose entry is stored, with a byte behind the zip data: the splitting completes
and a patch is made, but the decoder refuses it. -/
theorem long_chunk_refused :
    Lawful literalLib ∧
    ZipLawful literalLib (archive [0, 0, 0, 0] (noise (2 ^ 31 - 101) 1)) ∧
    ∃ image out,
      splitImages literalLib (archive [0, 0, 0, 0] (noise (2 ^ 31 - 101) 1))
        (2 ^ 20) (zipA crcA 0x61) (file [0, 0, 0, 0] (noise (2 ^ 31 - 101) 1)) = some [image] ∧
      generateSplitPatch literalLib image = some out ∧ out.patch.length < 2 ^ 64 ∧
      applyImagePatch literalLib.toPatchLib memorySink
        (image.srcRanges.contents (zipA crcA 0x61)) out.patch none [] = ([], .failure) := by
  have hlength : (noise (2 ^ 31 - 101) 1).length = 2 ^ 31 - 101 := noise_length _ _
  have hcrc : ([0, 0, 0, 0] : Bytes).length = 4 := rfl
  obtain ⟨out, hout, hsize, hrefused⟩ := stored_refused hcrc hlength
  exact ⟨literalLib_lawful, lawful hcrc (by omega), _, out,
    splitImages_stored hcrc (by omega) (by omega), hout, hsize, hrefused _⟩

end Pterodon.ImgDiff.ZipMode
