import Pterodon.ImgDiff.ImageMode
import Pterodon.ImgDiff.Tiling

/-!
# Parallel lists of chunks

In image mode chunk number `i` of the target is patched against chunk number `i` of the source,
so `CheckAndProcessChunks` has to hand on two lists with the same types. It changes chunks of
both lists in pairs, but then merges the normal chunks of each list by itself. Its last test, for
lists that came out with different lengths, "shouldn't happen".

Merging asks whether two normal chunks are adjacent, so that a list with gaps is merged in other
places than one without. What `Initialize` builds has no gaps (`contiguous_initializeImage`), and
without gaps the lists stay parallel.
-/

namespace Pterodon.ImgDiff.ImageMode

open Lib ApplyPatch ImageChunk List

/-! ## The ways out of `CheckAndProcessChunks` -/

/-- Why there is no result. -/
inductive Refusal where
  /-- "Source and target don't have same number of chunks!" -/
  | numOfChunks
  /-- "Source and target don't have same chunk structure!" -/
  | chunkStructure
  /-- A `CHECK` that a chunk lies in its file. -/
  | outside
  /-- "Merging normal chunks went awry" -/
  | wentAwry
  deriving DecidableEq

/-- `checkAndProcessChunks` that says why it fails. -/
def checkChunks (lib : DiffLib) (tgt src : Chunks) : Except Refusal (Chunks × Chunks) :=
  let tgt := mergeAdjacentNormalChunks tgt
  let src := mergeAdjacentNormalChunks src
  if tgt.length ≠ src.length then .error .numOfChunks
  else if tgt.map ImageChunk.type ≠ src.map ImageChunk.type then .error .chunkStructure
  else
    match processPairs lib tgt src with
    | none => .error .outside
    | some (tgt, src) =>
      let tgt := mergeAdjacentNormalChunks tgt
      let src := mergeAdjacentNormalChunks src
      if tgt.length ≠ src.length then .error .wentAwry else .ok (tgt, src)

/-! ## The pass over the pairs -/

/-- Both chunks of a pair stay where they are, and have one type if they had one. -/
structure Paired (tgt src tgt' src' : ImageChunk) : Prop where
  tgtPlace : SamePlace tgt tgt'
  srcPlace : SamePlace src src'
  type : tgt.type = src.type → tgt'.type = src'.type

section Pairs

variable {lib : DiffLib}

theorem keepDeflated_kept {tgt src tgt' : ImageChunk}
    (h : keepDeflated lib tgt src = some (some tgt')) :
    SamePlace tgt tgt' ∧ tgt'.type = tgt.type := by
  unfold keepDeflated at h
  split at h
  · cases h
  · cases h
  · obtain ⟨-, level, -, rfl, -⟩ := reconstruct_cases (Option.some.inj h)
    exact ⟨⟨rfl, rfl, rfl⟩, rfl⟩

theorem paired_processPair {tgt src tgt' src' : ImageChunk}
    (h : processPair lib tgt src = some (tgt', src')) : Paired tgt src tgt' src' := by
  unfold processPair at h
  split at h
  · cases h
    exact ⟨⟨rfl, rfl, rfl⟩, ⟨rfl, rfl, rfl⟩, id⟩
  · next hdeflate =>
    have hdeflate : tgt.type = .deflate := not_not.mp hdeflate
    split at h
    · cases h
    · next tgt₂ hkeep =>
      cases h
      obtain ⟨hplace, htype⟩ := keepDeflated_kept hkeep
      exact ⟨hplace, ⟨rfl, rfl, rfl⟩, htype.trans⟩
    · cases h
      refine ⟨samePlace_changeToNormal tgt, samePlace_changeToNormal src, fun htypes => ?_⟩
      rw [changeToNormal_type (by rw [hdeflate]; nofun),
        changeToNormal_type (by rw [← htypes, hdeflate]; nofun)]

structure PairedAll (tgts srcs tgts' srcs' : Chunks) : Prop where
  tgtPlace : List.Forall₂ SamePlace tgts tgts'
  srcPlace : List.Forall₂ SamePlace srcs srcs'
  types : tgts'.map ImageChunk.type = srcs'.map ImageChunk.type

theorem pairedAll_processPairs : ∀ {tgts srcs tgts' srcs' : Chunks},
    tgts.map type = srcs.map type →
    processPairs lib tgts srcs = some (tgts', srcs') → PairedAll tgts srcs tgts' srcs'
  | [], [], tgts', srcs', _, h => by
    cases h
    exact ⟨.nil, .nil, rfl⟩
  | [], _ :: _, _, _, htypes, _ => absurd htypes (by simp)
  | _ :: _, [], _, _, htypes, _ => absurd htypes (by simp)
  | tgt :: tgts, src :: srcs, tgts', srcs', htypes, h => by
    rw [map_cons, map_cons, List.cons.injEq] at htypes
    rw [processPairs] at h
    split at h
    · next tgt₁ src₁ tgts₁ srcs₁ hpair hpairs =>
      cases h
      have hp := paired_processPair hpair
      have hr := pairedAll_processPairs htypes.2 hpairs
      refine ⟨.cons hp.tgtPlace hr.tgtPlace, .cons hp.srcPlace hr.srcPlace, ?_⟩
      rw [map_cons, map_cons, hp.type htypes.1, hr.types]
    · cases h

/-! ## Both lists -/

theorem merged_types_eq {tgt src t s : Chunks} (ht : Contiguous tgt) (hs : Contiguous src)
    (htypes : (mergeAdjacentNormalChunks tgt).map type = (mergeAdjacentNormalChunks src).map type)
    (h : processPairs lib (mergeAdjacentNormalChunks tgt) (mergeAdjacentNormalChunks src) =
      some (t, s)) :
    (mergeAdjacentNormalChunks t).map type = (mergeAdjacentNormalChunks s).map type := by
  have hpaired := pairedAll_processPairs htypes h
  exact merge_types_eq (ht.merge.congr hpaired.tgtPlace) (hs.merge.congr hpaired.srcPlace)
    hpaired.types

theorem checkChunks_cases (lib : DiffLib) {tgt src : Chunks} (ht : Contiguous tgt)
    (hs : Contiguous src) :
    (∃ why, why ≠ .wentAwry ∧ checkChunks lib tgt src = .error why) ∨
      ∃ t s, checkChunks lib tgt src = .ok (t, s) ∧
        t.map type = s.map type := by
  unfold checkChunks
  dsimp only
  split
  · exact .inl ⟨.numOfChunks, nofun, rfl⟩
  split
  · exact .inl ⟨.chunkStructure, nofun, rfl⟩
  next htypes =>
    split
    · exact .inl ⟨.outside, nofun, rfl⟩
    next t s hpairs =>
      have heq := merged_types_eq ht hs (not_not.mp htypes) hpairs
      have hlen : (mergeAdjacentNormalChunks t).length = (mergeAdjacentNormalChunks s).length := by
        simpa using congrArg List.length heq
      rw [if_neg (not_not_intro hlen)]
      exact .inr ⟨_, _, rfl, heq⟩

/-- From lists without gaps nothing goes awry, and what comes out is parallel. -/
theorem checkChunks_parallel (lib : DiffLib) (tgt src : Chunks)
    (ht : Contiguous tgt) (hs : Contiguous src) :
    checkChunks lib tgt src ≠ .error .wentAwry ∧
      ∀ t s, checkChunks lib tgt src = .ok (t, s) →
        t.length = s.length ∧ ∀ i : Nat, t[i]?.map ImageChunk.type = s[i]?.map ImageChunk.type := by
  rcases checkChunks_cases lib ht hs with ⟨why, hwhy, heq⟩ | ⟨t, s, heq, htypes⟩
  · rw [heq]
    exact ⟨fun h => hwhy (Except.error.inj h), nofun⟩
  · rw [heq]
    refine ⟨nofun, fun t' s' hout => ?_⟩
    obtain ⟨rfl, rfl⟩ := Prod.mk.inj (Except.ok.inj hout)
    refine ⟨by simpa using congrArg List.length htypes, fun i => ?_⟩
    rw [← getElem?_map, ← getElem?_map, htypes]

end Pairs

/-! ## What `Initialize` builds -/

/-- A list of chunks without gaps from `pos` on. -/
structure StartsAt (pos : Nat) (cs : Chunks) : Prop where
  contiguous : Contiguous cs
  start : ∀ c ∈ cs.head?, c.start = pos

theorem StartsAt.nil (pos : Nat) : StartsAt pos [] := ⟨.nil, nofun⟩

theorem StartsAt.cons {pos : Nat} {c : ImageChunk} {cs : Chunks} (hc : c.start = pos)
    (h : StartsAt (pos + c.rawDataLen) cs) : StartsAt pos (c :: cs) := by
  refine ⟨?_, by simpa using hc⟩
  cases cs with
  | nil => exact .singleton c
  | cons d cs => exact .cons_cons (by rw [h.start d rfl, hc]) h.contiguous

theorem startsAt_chunksFrom (lib : DiffLib) (file : Bytes) :
    ∀ rounds pos, StartsAt pos (chunksFrom lib file rounds pos) := by
  intro rounds
  induction rounds with
  | zero => intro pos; exact .nil pos
  | succ rounds ih =>
    intro pos
    simp only [chunksFrom]
    split
    · exact .nil pos
    split
    · split
      · exact .cons rfl (.nil _)
      · -- header, and then a body with its footer or more of the search
        refine .cons rfl ?_
        split
        · exact ih _
        · exact .cons rfl (.cons rfl (ih _))
    · exact .cons rfl (ih _)

theorem contiguous_initializeImage (lib : DiffLib) (file : Bytes) :
    Contiguous (initializeImage lib file) :=
  (startsAt_chunksFrom lib file _ 0).contiguous

/-- So in image mode, whatever the two files are, nothing goes awry and the chunks that are left
agree in their types. -/
theorem initializeImage_parallel (lib : DiffLib) (tgt src : Bytes) :
    checkChunks lib (initializeImage lib tgt) (initializeImage lib src) ≠ .error .wentAwry ∧
      ∀ t s, checkChunks lib (initializeImage lib tgt) (initializeImage lib src) = .ok (t, s) →
        t.map ImageChunk.type = s.map ImageChunk.type := by
  rcases checkChunks_cases lib (contiguous_initializeImage lib tgt)
    (contiguous_initializeImage lib src) with ⟨why, hwhy, heq⟩ | ⟨t, s, heq, htypes⟩
  · rw [heq]
    exact ⟨fun h => hwhy (Except.error.inj h), nofun⟩
  · rw [heq]
    refine ⟨nofun, fun t' s' hout => ?_⟩
    obtain ⟨rfl, rfl⟩ := Prod.mk.inj (Except.ok.inj hout)
    exact htypes

namespace Gaps

def lib : DiffLib where
  bspatch _ _ := ([], false)
  inflate x := some x
  deflateInit _ := true
  deflate _ _ x _ := some [x]
  bsdiff _ _ := none
  inflateStream _ := none

def tgtFile : Bytes := [1, 2, 3, 4, 5, 6]

def srcFile : Bytes := [1, 2, 3, 7, 5, 6]

def lost (file : Bytes) (start : Nat) : ImageChunk :=
  { type := .deflate, start := start, inputFile := file, rawDataLen := 1 }

/-- A deflate chunk of one byte that can. -/
def kept (file : Bytes) (start : Nat) : ImageChunk :=
  { lost file start with uncompressedData := sliceOf file start 1 }

/-- Two chunks each, one behind the other in the target and with a gap in the source: both lists
become normal, and only one of them is merged. With a chunk that stays deflated between two such
pairs, gaps at different places leave lists of one length that do not agree in their types. -/
theorem checkChunks_with_gaps :
    checkChunks lib [lost tgtFile 0, lost tgtFile 1] [lost srcFile 0, lost srcFile 2] =
        .error .wentAwry ∧
      (checkChunks lib
          [lost tgtFile 0, lost tgtFile 1, kept tgtFile 3, lost tgtFile 0, lost tgtFile 2]
          [lost srcFile 0, lost srcFile 2, kept srcFile 3, lost srcFile 0, lost srcFile 1]).map
        (fun p => (p.1.map ImageChunk.type, p.2.map ImageChunk.type)) =
        .ok ([.normal, .deflate, .normal, .normal], [.normal, .normal, .deflate, .normal]) := by
  decide +kernel

theorem checkChunks_without_gaps :
    checkChunks lib [lost tgtFile 0, lost tgtFile 1] [lost srcFile 1, lost srcFile 2] ≠
      .error .wentAwry :=
  (checkChunks_parallel lib _ _ (.cons_cons rfl (.singleton _)) (.cons_cons rfl (.singleton _))).1

end Gaps

end Pterodon.ImgDiff.ImageMode
