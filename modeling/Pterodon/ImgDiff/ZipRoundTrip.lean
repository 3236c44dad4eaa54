import Pterodon.ImgDiff.Literal
import Pterodon.ImgDiff.Matching

/-!
# Zip mode: the round trip

Without a limit, a patch gives back the target as long as two things hold.

* No entry of the target loses its source: an entry that stays deflated must still find
  a deflate chunk of the source when the patches are made. One that does not is patched
  against the raw source file, but its header says deflate, and the decoder tries to
  inflate that file.
* No stretch of the target that is stored as it is has 2 GiB or more. Its length is
  written as a signed 32-bit number.

Both are conditions on the two files, stated with the supply of the source and the gaps
between the entries of the target that stay deflated.
-/

namespace Pterodon.ImgDiff.ZipMode

open Lib ApplyPatch ImageChunk List PatchChunk Literal

variable (lib : DiffLib) {t : ImageChunk}

/-! ## The conditions -/

def supplyOf (zip : ZipLib) (src : Bytes) : Chunks :=
  ((initializeZip zip true 0 src).map deflates).getD []

def targetsOf (zip : ZipLib) (tgt : Bytes) : Chunks :=
  ((initializeZip zip false 0 tgt).map deflates).getD []

/-- Every entry that stays deflated keeps a source. -/
def NoneOrphaned (zip : ZipLib) (src tgt : Bytes) : Prop :=
  orphaned lib (supplyOf zip src) (targetsOf zip tgt) = []

/-- The stretches of the target outside the entries that stay deflated. -/
def stretches (zip : ZipLib) (src tgt : Bytes) : Pairs :=
  gaps 0 ((kept lib (supplyOf zip src) (targetsOf zip tgt)).map place) tgt.length

/-- A stretch of 2 GiB or more has a patch against the source that is not longer than itself, so
that it is not stored as it is. -/
def LongStretchesShrink (zip : ZipLib) (src tgt : Bytes) : Prop :=
  ∀ g ∈ stretches lib zip src tgt, 2 ^ 31 ≤ g.2 - g.1 →
    ∀ data, lib.bsdiff src (sliceOf tgt g.1 (g.2 - g.1)) = some data → data.length ≤ g.2 - g.1

/-- The file is a deflate stream whose contents have the length of the file. No file that begins
with a local header is. -/
def InflatesToItsSize (src : Bytes) : Prop :=
  ∃ contents, lib.inflate (src.take (src.length % 2 ^ 32)) = some contents
    ∧ contents.length = src.length % 2 ^ 32

/-! ## The chunks before the patches are made -/

variable {lib : DiffLib} {zip : ZipLib} {src tgt patch : Bytes}

/-- What `CheckAndProcessChunks` hands on, and the patches that are made of it. -/
structure Prepared (lib : DiffLib) (zip : ZipLib) (src tgt patch : Bytes)
    (tgts srcs : Chunks) (ps : List PatchChunk) : Prop where
  tiles : Tiles tgt 0 tgts tgt.length
  target : ∀ t ∈ tgts, Target lib t
  sound : ∀ t ∈ tgts, Sound lib (2 ^ 32) t
  source : ∀ c ∈ srcs, c.Inside src ∧ Sound lib (2 ^ 32) c
  leftOver : deflates srcs = left lib (supplyOf zip src) (targetsOf zip tgt)
  stay : (deflates tgts).map place = (kept lib (supplyOf zip src) (targetsOf zip tgt)).map place
  gap : ∀ t ∈ tgts, t.type = .normal →
    (t.start, t.start + t.rawDataLen) ∈ stretches lib zip src tgt
  count : tgts.length < 2 ^ 31
  patches : generatePatchesInternal lib src srcs tgts = some ps
  written : patch = PatchChunk.writePatchDataToFd ps

theorem forall_of_forall₂ {R : ImageChunk → ImageChunk → Prop} {P : ImageChunk → Prop}
    (hRP : ∀ c d, R c d → P d) : ∀ {cs ds : Chunks}, List.Forall₂ R cs ds →
    ∀ d ∈ ds, P d
  | _, _, .nil, d, hd => absurd hd not_mem_nil
  | _, _, .cons h hs, d, hd => by
    rcases mem_cons.mp hd with rfl | hd
    · exact hRP _ _ h
    · exact forall_of_forall₂ hRP hs d hd

theorem processChunks_passed {limit : Nat} {srcs₀ tgts₀ tgts srcs : Chunks}
    (hz : ZipLawful lib zip) (htgt : tgt.length < 2 ^ 64)
    (hs₀ : initializeZip zip true limit src = some srcs₀)
    (ht₀ : initializeZip zip false limit tgt = some tgts₀)
    (hpass : processChunks lib srcs₀ tgts₀ = some (tgts, srcs)) :
    PassDone lib srcs₀ tgts₀ tgts srcs ∧ Tiles tgt 0 tgts tgt.length ∧
      (∀ t ∈ tgts, Target lib t ∧ Sound lib (2 ^ 32) t) ∧ (deflates tgts).length < 2 ^ 16 ∧
      ∀ c ∈ srcs, c.Inside src ∧ Sound lib (2 ^ 32) c := by
  obtain ⟨hs, _⟩ := initializeZip_source hz hs₀
  obtain ⟨htiles, hsound, hcount⟩ := initializeZip_target hz htgt ht₀
  have hdone := processChunks_done hpass (fun c hc => (hs c hc).1) htiles.inside hsound
  have hsources := processChunks_sources
    (fun c hc => ⟨inside_changeToNormal hc.1, sound_changeToNormal hc.2⟩) hpass hs
  refine ⟨hdone, htiles.congr (hdone.chunks.imp fun _ _ h => h.samePlace),
    forall_of_forall₂ (fun _ _ h => ⟨h.target, h.sound⟩) hdone.chunks, ?_, hsources⟩
  have hlen := congrArg List.length hdone.kept
  have hkept := kept_length_le lib (deflates tgts₀) (deflates srcs₀)
  rw [length_map, length_map] at hlen
  omega

theorem imgdiff_prepared (hz : ZipLawful lib zip) (htgt : tgt.length < 2 ^ 64)
    (h : imgdiff lib zip src tgt = some patch) :
    ∃ tgts srcs ps, Prepared lib zip src tgt patch tgts srcs ps := by
  unfold imgdiff at h
  split at h
  · rename_i srcs₀ tgts₀ hsrc htgt₀
    split at h
    · cases h
    rename_i tgts₂ srcs₂ hcheck
    obtain ⟨ps, hps, hwritten⟩ := Option.map_eq_some_iff.mp h
    unfold checkAndProcessChunks at hcheck
    split at hcheck
    · cases hcheck
    rename_i tgts₁ srcs₁ hpass
    cases hcheck
    have hsupply : supplyOf zip src = deflates srcs₀ := by
      unfold supplyOf
      rw [hsrc]
      rfl
    have htargets : targetsOf zip tgt = deflates tgts₀ := by
      unfold targetsOf
      rw [htgt₀]
      rfl
    obtain ⟨hdone, htiles, hok, hfew, hsources⟩ := processChunks_passed hz htgt hsrc htgt₀ hpass
    have hraw : ∀ d ∈ tgts₁, d.type ≠ .raw := fun d hd => (hok d hd).1.notRaw
    refine ⟨_, _, ps, htiles.merge, Target.of_merge fun t ht => (hok t ht).1,
      Sound.of_merge fun t ht => (hok t ht).2, hsources, ?_, ?_, ?_, ?_, hps, hwritten.symm⟩
    · rw [hsupply, htargets]
      exact hdone.left
    · rw [hsupply, htargets, deflates_merge]
      exact hdone.kept
    · intro t ht hn
      unfold stretches
      rw [hsupply, htargets, ← hdone.kept]
      exact merge_gaps htiles hraw ht hn
    · have := merge_length htiles hraw
      omega
  · cases h

/-! ## The patches -/

theorem generatePatchesInternal_forall₂ {srcs : Chunks} : ∀ {tgts : Chunks} {ps : List PatchChunk},
      generatePatchesInternal lib src srcs tgts = some ps →
      List.Forall₂ (fun t p => generate lib t (sourceFor src srcs t) = some p) tgts ps
  | [], ps, h => by
    cases h
    exact .nil
  | t :: tgts, ps, h => by
    rw [generatePatchesInternal] at h
    split at h
    · rename_i p ps₁ hp hps
      cases h
      exact .cons hp (generatePatchesInternal_forall₂ hps)
    · cases h

theorem sourceFor_normal {srcs : Chunks} (ht : t.type ≠ .deflate) :
    sourceFor src srcs t = pseudoSource src := if_pos ht

theorem sourceFor_deflate {srcs : Chunks} (ht : t.type = .deflate) :
    sourceFor src srcs t = (firstMatch (deflates srcs) t).getD (pseudoSource src) := by
  unfold sourceFor
  rw [if_neg (not_not.mpr ht), find_deflates]
  cases firstMatch (deflates srcs) t <;> rfl

theorem pseudoSource_inside (src : Bytes) : (pseudoSource src).Inside src :=
  ⟨rfl, by dsimp only [pseudoSource, normalChunk]; omega⟩

theorem pseudoSource_raw (src : Bytes) : (pseudoSource src).raw = src := sliceOf_all src

theorem sourceFor_mem {srcs : Chunks} {P : ImageChunk → Prop} (hpseudo : P (pseudoSource src))
    (hs : ∀ c ∈ srcs, P c) (t : ImageChunk) : P (sourceFor src srcs t) := by
  by_cases ht : t.type = .deflate
  · rw [sourceFor_deflate ht]
    cases hm : firstMatch (deflates srcs) t with
    | none => exact hpseudo
    | some c => exact hs c (mem_filter.mp (mem_of_find?_eq_some hm)).1
  · rw [sourceFor_normal ht]
    exact hpseudo

/-- Chunks that are each patched against a chunk of their type yield the whole. -/
theorem yieldsAll_of_forall₂ {srcs : Chunks} : ∀ {tgts : Chunks} {ps : List PatchChunk} {i : Nat},
      List.Forall₂ (fun t p => generate lib t (sourceFor src srcs t) = some p) tgts ps →
      (∀ t ∈ tgts, ∀ p i, generate lib t (sourceFor src srcs t) = some p →
        Yields lib.toPatchLib src none i p t.raw) →
      YieldsAll lib.toPatchLib src none i ps (tgts.map ImageChunk.raw).flatten
  | _, _, _, .nil, _ => .nil
  | _, _, i, .cons h hs, hy =>
    .cons (hy _ mem_cons_self _ i h) (yieldsAll_of_forall₂ hs (forall_mem_cons.mp hy).2)

/-- The decoder finds no source for an entry that was patched against the whole file. -/
theorem decoderSource_pseudo {data : Bytes} (ht : t.type = .deflate) (hne : src ≠ [])
    (hself : ¬ InflatesToItsSize lib src) (i : Nat) :
    decoderSource lib.toPatchLib src none i (ofPatch t (pseudoSource src) data) = none := by
  have hextra : (if i = 1 then (none : Option Bytes).getD [] else []) = [] := by
    split <;> rfl
  have hlen := length_pos_iff.mpr hne
  have hshort : ¬ tooShort src (ofPatch t (pseudoSource src) data).sourceStart
      (ofPatch t (pseudoSource src) data).sourceLen = true :=
    not_tooShort (pseudoSource_inside src).le
  have htype : (ofPatch t (pseudoSource src) data).type = .deflate := ht
  unfold decoderSource
  rw [if_neg hshort, if_pos htype, hextra]
  change expandSource lib.toPatchLib (sliceOf src 0 src.length) [] src.length = none
  unfold expandSource
  rw [sliceOf_all, if_neg (by omega)]
  cases hinf : lib.inflate (src.take (src.length % 2 ^ 32)) with
  | none => rfl
  | some contents =>
    refine if_neg (fun hc => hself ⟨contents, hinf, ?_⟩)
    have := hc.2
    rw [length_nil] at this
    omega

section Prepared

variable {tgts srcs : Chunks} {ps : List PatchChunk}
  (h : Prepared lib zip src tgt patch tgts srcs ps) (hsrc : src.length < 2 ^ 64)
  (htgt : tgt.length < 2 ^ 64) (hlong : LongStretchesShrink lib zip src tgt)
  (hpatch : patch.length < 2 ^ 64)
include h

theorem Prepared.firstMatch_eq {t₀ : ImageChunk} (hname : t.entryName = t₀.entryName) :
    firstMatch (deflates srcs) t
      = firstMatch (left lib (supplyOf zip src) (targetsOf zip tgt)) t₀ := by
  rw [h.leftOver]
  unfold firstMatch
  unfold hasName
  rw [hname]

include hsrc

theorem Prepared.yields (hl : Lawful lib) {p : PatchChunk} (ht : t ∈ tgts)
    (hsome : t.type = .deflate → (firstMatch (deflates srcs) t).isSome = true)
    (hp : generate lib t (sourceFor src srcs t) = some p) (i : Nat) :
    Yields lib.toPatchLib src none i p t.raw := by
  have htin := h.tiles.inside t ht
  have hextra : (if i = 1 then (none : Option Bytes).getD [] else []) = [] := by
    split <;> rfl
  refine yields_of_generate hl hp htin (h.target t ht) rfl (fun source hne hsource => ?_)
  by_cases hd : t.type = .deflate
  · obtain ⟨c, hc⟩ := Option.isSome_iff_exists.mp (hsome hd)
    have hsf : sourceFor src srcs t = c := by rw [sourceFor_deflate hd, hc, Option.getD_some]
    obtain ⟨hmem, hctype⟩ := mem_filter.mp (mem_of_find?_eq_some hc)
    obtain ⟨hcin, hcs⟩ := h.source c hmem
    have hctype : c.type = .deflate := by simpa using hctype
    have hcontents := hcs.contents
    rw [hsf] at hp hsource
    refine decoderSource_of_sourceAt ⟨hcin, ?_, fun _ => by rw [hextra]; exact hcs.expands hctype⟩
      (hd.trans hctype.symm) hp hne hsource
    rw [dataLengthForPatch, if_pos hctype]
    omega
  · have hn : t.type = .normal := by
      cases hk : t.type with
      | normal => rfl
      | deflate => exact absurd hk hd
      | raw => exact absurd hk (h.target t ht).notRaw
    rw [sourceFor_normal hd] at hp hsource
    exact decoderSource_of_sourceAt ⟨pseudoSource_inside src, hsrc, nofun⟩ hn hp hne hsource

include htgt hlong

theorem Prepared.fits {p : PatchChunk} (ht : t ∈ tgts)
    (hp : generate lib t (sourceFor src srcs t) = some p) : p.Fits := by
  have htin := h.tiles.inside t ht
  have htle := htin.le
  obtain ⟨hin, hlen⟩ : (sourceFor src srcs t).Inside src
      ∧ (sourceFor src srcs t).dataLengthForPatch < 2 ^ 64 := by
    refine sourceFor_mem (P := fun c => c.Inside src ∧ c.dataLengthForPatch < 2 ^ 64)
      ⟨pseudoSource_inside src, hsrc⟩ (fun c hc => ?_) t
    obtain ⟨hcin, hcs⟩ := h.source c hc
    have hcle := hcin.le
    have hcontents := hcs.contents
    refine ⟨hcin, ?_⟩
    unfold dataLengthForPatch
    split <;> omega
  have hle := hin.le
  have hcontents := (h.sound t ht).contents
  refine fits_of_generate hp htin (h.target t ht) (by omega) (by omega) hlen ?_ ?_
  · unfold dataLengthForPatch
    split <;> omega
  · intro hraw
    rcases generate_cases hp with ⟨hn, _, hshort⟩ | ⟨data, _, rfl⟩
    · rcases hshort with hshort | ⟨data, hpatch, hless⟩
      · omega
      · obtain ⟨old, new, hold, hnew, hdiff⟩ := makePatch_cases hpatch
        rw [sourceFor_normal (by rw [hn]; decide),
          dataForPatch_normal (pseudoSource_inside src) nofun, pseudoSource_raw] at hold
        rw [dataForPatch_normal htin (by rw [hn]; decide), ImageChunk.raw, htin.inputFile] at hnew
        rw [← Option.some.inj hold, ← Option.some.inj hnew] at hdiff
        have hgap := h.gap t ht hn
        by_contra hbig
        have := hlong _ hgap (by dsimp only; omega) data (by
          rw [Nat.add_sub_cancel_left]
          exact hdiff)
        omega
    · exact absurd hraw (h.target t ht).notRaw

theorem Prepared.fitsAll : ∀ p ∈ ps, p.Fits := by
  intro p hp
  obtain ⟨i, hi, rfl⟩ := mem_iff_getElem.mp hp
  have hall := generatePatchesInternal_forall₂ h.patches
  have hlen := hall.length_eq
  exact h.fits hsrc htgt hlong (getElem_mem (by omega)) (hall.get (by omega) hi)

include hpatch

/-- The decoder, run on the patch file, goes through the chunks. -/
theorem Prepared.applyImagePatch_eq : applyImagePatch lib.toPatchLib memorySink src patch none []
      = appliedAll lib.toPatchLib memorySink src none 0 ps [] := by
  have hlen := (generatePatchesInternal_forall₂ h.patches).length_eq
  have hcount := h.count
  rw [h.written] at hpatch ⊢
  exact applyImagePatch_written (by omega) (h.fitsAll hsrc htgt hlong) hpatch []

theorem Prepared.applies (hl : Lawful lib) (hnone : NoneOrphaned lib zip src tgt) :
    applyImagePatch lib.toPatchLib memorySink src patch none [] = (tgt, .success) := by
  have hfound : ∀ t ∈ tgts, t.type = .deflate → (firstMatch (deflates srcs) t).isSome = true := by
    intro t ht hd
    have hmem : place t ∈ (deflates tgts).map place :=
      mem_map_of_mem (mem_filter.mpr ⟨ht, by simpa using hd⟩)
    rw [h.stay] at hmem
    obtain ⟨t₀, ht₀, hplace⟩ := mem_map.mp hmem
    have hname : t.entryName = t₀.entryName := (congrArg (fun q => q.2.2) hplace).symm
    rw [h.firstMatch_eq hname]
    have hfound := filter_eq_nil_iff.mp hnone t₀ ht₀
    exact Option.isSome_iff_ne_none.mpr (fun h => hfound (by rw [h]; rfl))
  have hy : YieldsAll lib.toPatchLib src none 0 ps (tgts.map ImageChunk.raw).flatten :=
    yieldsAll_of_forall₂ (generatePatchesInternal_forall₂ h.patches)
      (fun t ht p i hp => h.yields hsrc hl ht (hfound t ht) hp i)
  rw [h.applyImagePatch_eq hsrc htgt hlong hpatch, hy.appliedAll, nil_append, h.tiles.raw,
    Nat.sub_zero, sliceOf_all]

theorem Prepared.fails (hne : src ≠ []) (hself : ¬ InflatesToItsSize lib src)
    (horphan : ¬ NoneOrphaned lib zip src tgt) :
    (applyImagePatch lib.toPatchLib memorySink src patch none []).2 ≠ .success := by
  obtain ⟨t₀, ht₀⟩ := exists_mem_of_ne_nil _ horphan
  obtain ⟨hkept, hlost⟩ := mem_filter.mp ht₀
  have hmem : place t₀ ∈ (deflates tgts).map place := by
    rw [h.stay]
    exact mem_map_of_mem hkept
  obtain ⟨t, ht, hplace⟩ := mem_map.mp hmem
  have hname : t.entryName = t₀.entryName := congrArg (fun q => q.2.2) hplace
  obtain ⟨ht, hd⟩ := mem_filter.mp ht
  have hd : t.type = .deflate := by simpa using hd
  -- The entry is patched against the whole file.
  have hsf : sourceFor src srcs t = pseudoSource src := by
    rw [sourceFor_deflate hd, h.firstMatch_eq hname, Option.isNone_iff_eq_none.mp hlost]
    rfl
  obtain ⟨k, hk, rfl⟩ := mem_iff_getElem.mp ht
  have hall := generatePatchesInternal_forall₂ h.patches
  have hlen := hall.length_eq
  have hp : generate lib tgts[k] (sourceFor src srcs tgts[k]) = some (ps[k]) :=
    hall.get hk (by omega)
  rw [hsf] at hp
  rw [h.applyImagePatch_eq hsrc htgt hlong hpatch]
  rcases generate_cases hp with ⟨hn, _⟩ | ⟨data, _, hof⟩
  · exact absurd (hn.symm.trans hd) (by decide)
  · refine appliedAll_ne_success (k := k) (getElem?_eq_getElem (by omega)) ?_ ?_ []
    · rw [hof]
      change tgts[k].type ≠ .raw
      rw [hd]
      decide
    · rw [hof]
      exact decoderSource_pseudo hd hne hself _

end Prepared

theorem ne_nil_of_initializeZip {limit : Nat} {isSource : Bool} {file : Bytes}
    {cs : Chunks} (h : initializeZip zip isSource limit file = some cs) : file ≠ [] := by
  rintro rfl
  exact absurd h (by simp [initializeZip, getZipFileSize])

/--
The patch that zip mode makes without a limit gives back the target if no entry is orphaned. If
one is, the decoder refuses the patch, unless the source file happens to be a deflate stream of
its own length.
-/
theorem zip_mode_round_trip {lib : DiffLib} {zip : ZipLib} (hl : Lawful lib)
    (hz : ZipLawful lib zip) {src tgt patch : Bytes} (hsrc : src.length < 2 ^ 64)
    (htgt : tgt.length < 2 ^ 64) (hpatch : patch.length < 2 ^ 64)
    (h : imgdiff lib zip src tgt = some patch) (hlong : LongStretchesShrink lib zip src tgt) :
    (NoneOrphaned lib zip src tgt →
      applyImagePatch lib.toPatchLib memorySink src patch none [] = (tgt, .success)) ∧
    (¬ InflatesToItsSize lib src →
      applyImagePatch lib.toPatchLib memorySink src patch none [] = (tgt, .success) →
      NoneOrphaned lib zip src tgt) := by
  obtain ⟨tgts, srcs, ps, hp⟩ := imgdiff_prepared hz htgt h
  have hne : src ≠ [] := by
    unfold imgdiff at h
    split at h
    · rename_i hs _
      exact ne_nil_of_initializeZip hs
    · cases h
  refine ⟨hp.applies hsrc htgt hlong hpatch hl, fun hself happ => ?_⟩
  by_contra horphan
  exact hp.fails hsrc htgt hlong hpatch hne hself horphan (by rw [happ])

/-! ## Two entries whose names differ by `-0` -/

/-- The local header of an entry that is one byte long and three bytes deflated. -/
def localHeader (name crc : Bytes) : Bytes :=
  [0x50, 0x4b, 3, 4, 20, 0, 0, 0, 8, 0, 0, 0, 0x21, 0] ++ (crc ++
    ([3, 0, 0, 0, 1, 0, 0, 0, UInt8.ofNat name.length, 0, 0, 0] ++ name))

/-- Its header in the central directory. -/
def centralHeader (name crc : Bytes) (offset : UInt8) : Bytes :=
  [0x50, 0x4b, 1, 2, 20, 0, 20, 0, 0, 0, 8, 0, 0, 0, 0x21, 0] ++ (crc ++
    ([3, 0, 0, 0, 1, 0, 0, 0, UInt8.ofNat name.length, 0, 0, 0, 0, 0, 0, 0, 0, 0, 0, 0, 0, 0,
      offset, 0, 0, 0] ++ name))

def endRecord (count size offset : UInt8) : Bytes :=
  [0x50, 0x4b, 5, 6, 0, 0, 0, 0, count, 0, count, 0, size, 0, 0, 0, offset, 0, 0, 0, 0, 0]

/-- The checksums of the contents `a` and `b`. -/
def crcA : Bytes := [0x43, 0xbe, 0xb7, 0xe8]
def crcB : Bytes := [0xf9, 0xef, 0xbe, 0x71]

def nameA : Bytes := [0x61]

/-- A zip file with an entry `a`. -/
def zipA (crc : Bytes) (contents : UInt8) : Bytes :=
  localHeader nameA crc ++ (compress [contents] ++
    (centralHeader nameA crc 0 ++ endRecord 1 47 34))

/-- A zip file with an entry `a`, whose contents are `b`, and an entry `a-0`, whose contents are
`a`. -/
def zipBA : Bytes :=
  localHeader nameA crcB ++ (compress [0x62] ++
    (localHeader (nameA ++ firstPart) crcA ++ (compress [0x61] ++
      (centralHeader nameA crcB 0 ++ (centralHeader (nameA ++ firstPart) crcA 34
        ++ endRecord 2 96 70)))))

def archives : List (Bytes × List (Bytes × ZipEntry)) :=
  [(zipA crcA 0x61, [(nameA, ⟨true, 31, 3, 1⟩)]), (zipA crcB 0x62, [(nameA, ⟨true, 31, 3, 1⟩)]),
    (zipBA, [(nameA, ⟨true, 31, 3, 1⟩), (nameA ++ firstPart, ⟨true, 67, 3, 1⟩)])]

instance (a b : Bytes × ZipEntry) : Decidable (Before a b) :=
  inferInstanceAs (Decidable (_ ∧ _))

/-- What libziparchive promises of one file and its entries. -/
def ArchiveOk (archive : Bytes × List (Bytes × ZipEntry)) : Prop :=
  (∀ e ∈ archive.2, e.2.offset + e.2.compressedLength ≤ archive.1.length) ∧
  archive.2.Pairwise (fun a b => Before a b ∨ Before b a) ∧
  (∀ e ∈ archive.2, e.2.compressedLength < 2 ^ 32 ∧ e.2.uncompressedLength < 2 ^ 32) ∧
  archive.2.length < 2 ^ 16 ∧
  ∀ e ∈ archive.2, e.2.deflated = true → 0 < e.2.uncompressedLength

instance (archive : Bytes × List (Bytes × ZipEntry)) : Decidable (ArchiveOk archive) :=
  inferInstanceAs (Decidable (_ ∧ _))

/-- libziparchive on these files. -/
def libOf (archives : List (Bytes × List (Bytes × ZipEntry))) : ZipLib where
  entries data := (archives.find? (·.1 = data)).map Prod.snd
  extractToMemory data entry :=
    (literalLib.inflate (sliceOf data entry.offset entry.compressedLength)).filter
      (fun contents => decide (contents.length = entry.uncompressedLength))

theorem libOf_lawful {archives : List (Bytes × List (Bytes × ZipEntry))}
    (hok : ∀ archive ∈ archives, ArchiveOk archive) :
    ZipLawful literalLib (libOf archives) := by
  have hfound : ∀ {data : Bytes} {entries : List (Bytes × ZipEntry)},
      (libOf archives).entries data = some entries → ArchiveOk (data, entries) := by
    intro data entries h
    obtain ⟨archive, hfind, rfl⟩ := Option.map_eq_some_iff.mp h
    have hsame := find?_some hfind
    rw [← show archive.1 = data from of_decide_eq_true hsame]
    exact hok archive (mem_of_find?_eq_some hfind)
  refine ⟨fun h => (hfound h).1, fun h => (hfound h).2.1, fun h => (hfound h).2.2.1,
    fun h => (hfound h).2.2.2.1, fun h => (hfound h).2.2.2.2, fun h => ?_⟩
  obtain ⟨hinf, hlen⟩ := Option.filter_eq_some_iff.mp h
  exact ⟨hinf, of_decide_eq_true hlen⟩

def archiveLib : ZipLib := libOf archives

theorem archiveLib_lawful : ZipLawful literalLib archiveLib :=
  libOf_lawful (by decide +kernel)

theorem changed_entry_round_trip : ∃ patch,
    imgdiff literalLib archiveLib (zipA crcA 0x61) (zipA crcB 0x62) = some patch ∧
    applyImagePatch literalLib.toPatchLib memorySink (zipA crcA 0x61) patch none []
      = (zipA crcB 0x62, .success) := by
  have hsome : ((imgdiff literalLib archiveLib (zipA crcA 0x61) (zipA crcB 0x62)).any
      (fun patch => decide (patch.length < 2 ^ 64))) = true := by decide +kernel
  obtain ⟨patch, hpatch, hlen⟩ := (Option.any_eq_true _ _).mp hsome
  have hshort : ∀ g ∈ stretches literalLib archiveLib (zipA crcA 0x61) (zipA crcB 0x62),
      ¬ 2 ^ 31 ≤ g.2 - g.1 := by decide +kernel
  have hnone : orphaned literalLib (supplyOf archiveLib (zipA crcA 0x61))
      (targetsOf archiveLib (zipA crcB 0x62)) = [] := by decide +kernel
  refine ⟨patch, hpatch, ?_⟩
  exact (zip_mode_round_trip literalLib_lawful archiveLib_lawful (by decide +kernel)
    (by decide +kernel) (of_decide_eq_true hlen) hpatch
    (fun g hg hlong => absurd hlong (hshort g hg))).1 hnone

/-- The second entry is identical to the source's entry `a` and takes it away from the first: a
patch is made, and the decoder refuses it. -/
theorem suffix_entry_refused :
    Lawful literalLib ∧ ZipLawful literalLib archiveLib ∧
    ∃ patch, imgdiff literalLib archiveLib (zipA crcA 0x61) zipBA = some patch ∧
      patch.length < 2 ^ 31 ∧
      (applyImagePatch literalLib.toPatchLib memorySink (zipA crcA 0x61) patch none []).2
        = .failure := by
  have hsome : ((imgdiff literalLib archiveLib (zipA crcA 0x61) zipBA).any
      (fun patch => decide (patch.length < 2 ^ 31 ∧
        (applyImagePatch literalLib.toPatchLib memorySink (zipA crcA 0x61) patch none []).2
          = .failure))) = true := by decide +kernel
  obtain ⟨patch, hpatch, hfail⟩ := (Option.any_eq_true _ _).mp hsome
  exact ⟨literalLib_lawful, archiveLib_lawful, patch, hpatch, of_decide_eq_true hfail⟩

end Pterodon.ImgDiff.ZipMode
