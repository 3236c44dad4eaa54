import Pterodon.ImgDiff.Format

/-!
# What a patch yields

The laws that `imgdiff` needs of its libraries, and what follows for a single chunk: the
decoder finds some source bytes for the chunk (`decoderSource`), and if the chunk's patch
was made against these bytes it yields the bytes the patch was made for.
-/

namespace Pterodon.ImgDiff

open Lib ApplyPatch ImageChunk List

variable (lib : PatchLib)

/-! ## The laws of the libraries -/

/-- `deflate` fed piece by piece, `Z_FINISH` with the last one: all that comes out. -/
def deflatePieces (params : DeflateParams) : Bytes → List Bytes → Option Bytes
  | _, [] => some []
  | fed, x :: xs =>
    match lib.deflate params fed x xs.isEmpty with
    | none => none
    | some buffers => (deflatePieces params (fed ++ x) xs).map (buffers.flatten ++ ·)

/-- What `imgdiff` relies on. -/
structure Lawful (lib : DiffLib) : Prop where
  /-- `bspatch` inverts `bsdiff`, and is not disturbed by what follows a patch. -/
  bspatch_bsdiff : ∀ {old new patch : Bytes} (tail : Bytes),
    lib.bsdiff old new = some patch →
    ∃ pieces, lib.bspatch old (patch ++ tail) = (pieces, true) ∧ pieces.flatten = new
  /-- What `deflate` puts out depends on its parameters and its whole input, not on the pieces the
  input comes in. -/
  deflate_whole : ∀ {params : DeflateParams} {pieces buffers : List Bytes},
    lib.deflateInit params = true → pieces ≠ [] → (∀ x ∈ pieces, x ≠ []) →
    lib.deflate params [] pieces.flatten true = some buffers →
    deflatePieces lib.toPatchLib params [] pieces = some buffers.flatten
  /-- `inflate` stops at the end of a stream, and needs no more than the stream. -/
  inflate_stream : ∀ {data contents : Bytes} {n : Nat},
    lib.inflateStream data = some (contents, n) → lib.inflate (data.take n) = some contents

/-- Deflating `contents` at a level gives `raw`. -/
def Rebuilds (level : Int) (contents raw : Bytes) : Prop :=
  lib.deflateInit (deflateParams level) = true ∧
    ∃ buffers, lib.deflate (deflateParams level) [] contents true = some buffers ∧
      buffers.flatten = raw

/-! ## Sinks -/

theorem feed_memorySink : ∀ (pieces : List Bytes) (s : Bytes),
    feed memorySink pieces s = (s ++ pieces.flatten, true)
  | [], s => by rw [feed, flatten_nil, append_nil]
  | x :: xs, s => by
    rw [feed, flatten_cons]
    split
    · rename_i hx
      rw [feed_memorySink xs, hx, nil_append]
    · dsimp only [memorySink]
      rw [if_pos rfl, feed_memorySink xs, append_assoc]

/-- The pieces that a sink is handed. -/
def nonEmpty (pieces : List Bytes) : List Bytes := pieces.filter (· ≠ [])

theorem nonEmpty_flatten : ∀ pieces : List Bytes,
    (nonEmpty pieces).flatten = pieces.flatten
  | [] => rfl
  | x :: xs => by
    have ih := nonEmpty_flatten xs
    unfold nonEmpty at ih ⊢
    rw [filter_cons]
    split
    · rw [flatten_cons, flatten_cons, ih]
    · rename_i hx
      have hx : x = [] := by simpa using hx
      rw [ih, flatten_cons, hx, nil_append]

theorem nonEmpty_eq_nil {pieces : List Bytes} : nonEmpty pieces = [] ↔ pieces.flatten = [] := by
  constructor
  · intro h
    rw [← nonEmpty_flatten, h, flatten_nil]
  · intro h
    refine filter_eq_nil_iff.mpr ?_
    intro x hx
    have := flatten_eq_nil_iff.mp h x hx
    simp [this]

theorem compressionSink_memorySink {lib : PatchLib} {params : DeflateParams} {expected : Nat}
    {st : Compression Bytes} {data : Bytes} {finish : Bool}
    {buffers : List Bytes}
    (hfinish : (!decide (st.fed.length + data.length < expected)) = finish)
    (h : lib.deflate params st.fed data finish = some buffers) :
    compressionSink lib params expected memorySink st data
      = (⟨st.fed ++ data, finish, st.inner ++ buffers.flatten⟩, data.length) := by
  unfold compressionSink
  dsimp only
  rw [hfinish, h]
  dsimp only
  rw [feed_memorySink]

/--
The compressing sink, handed all of what it expects. It asks for `Z_FINISH` with the piece that
completes the expected length, and that is the last piece that is not empty.
-/
theorem feed_compressionSink {lib : PatchLib} {params : DeflateParams} {expected : Nat} :
    ∀ (pieces : List Bytes) (fed inner out : Bytes) (ended : Bool),
      fed.length + pieces.flatten.length = expected →
      deflatePieces lib params fed (nonEmpty pieces) = some out →
      feed (compressionSink lib params expected memorySink) pieces ⟨fed, ended, inner⟩
        = (⟨fed ++ pieces.flatten, ended || !(nonEmpty pieces).isEmpty, inner ++ out⟩, true)
  | [], fed, inner, out, ended, _, hout => by
    have hout : out = [] := (Option.some.inj hout).symm
    rw [feed, hout]
    simp [nonEmpty]
  | x :: xs, fed, inner, out, ended, hlen, hout => by
    rw [flatten_cons, length_append] at hlen
    rw [feed]
    by_cases hx : x = []
    · have hskip : nonEmpty (x :: xs) = nonEmpty xs := by
        rw [hx]
        rfl
      rw [hskip] at hout
      rw [hx, length_nil] at hlen
      rw [if_pos hx, hskip, feed_compressionSink xs fed inner out ended (by omega) hout, hx,
        flatten_cons, nil_append]
    · have htake : nonEmpty (x :: xs) = x :: nonEmpty xs := by
        rw [nonEmpty, filter_cons, if_pos (by simpa using hx)]
        rfl
      rw [htake, deflatePieces] at hout
      -- The piece is the last one exactly if nothing is left.
      have hfinish : (!decide (fed.length + x.length < expected)) = (nonEmpty xs).isEmpty := by
        by_cases hnil : nonEmpty xs = []
        · have := nonEmpty_eq_nil.mp hnil
          rw [this, length_nil] at hlen
          rw [hnil, decide_eq_false (by omega)]
          rfl
        · have hpos := length_pos_iff.mpr (fun h => hnil (nonEmpty_eq_nil.mpr h))
          rw [decide_eq_true (by omega)]
          simp [hnil]
      rw [if_neg hx]
      cases hdef : lib.deflate params fed x (nonEmpty xs).isEmpty with
      | none =>
        rw [hdef] at hout
        cases hout
      | some buffers =>
        rw [hdef] at hout
        obtain ⟨rest, hrest, rfl⟩ := Option.map_eq_some_iff.mp hout
        rw [compressionSink_memorySink hfinish hdef, if_pos rfl,
          feed_compressionSink xs (fed ++ x) _ rest _ (by rw [length_append]; omega) hrest, htake]
        simp

theorem streamOutput_yields {lib : DiffLib} (hl : Lawful lib) {src tail contents raw : Bytes}
    {pieces : List Bytes} {level : Int}
    (hb : lib.bspatch src tail = (pieces, true)) (hpieces : pieces.flatten = contents)
    (hne : contents ≠ []) (hraw : Rebuilds lib.toPatchLib level contents raw) (s : Bytes) :
    applyBSDiffPatchAndStreamOutput lib.toPatchLib memorySink src tail 0 contents.length
      (deflateParams level) s = (s ++ raw, .success) := by
  obtain ⟨hinit, buffers, hdef, rfl⟩ := hraw
  have hwhole : deflatePieces lib.toPatchLib (deflateParams level) [] (nonEmpty pieces)
      = some buffers.flatten := hl.deflate_whole hinit
    (fun h => hne (hpieces ▸ nonEmpty_eq_nil.mp h))
    (fun x hx => by simpa using (mem_filter.mp hx).2)
    (by rw [nonEmpty_flatten, hpieces]; exact hdef)
  have hfeed := feed_compressionSink pieces [] s buffers.flatten false
    (by rw [hpieces, length_nil, Nat.zero_add]) hwhole
  have hsome : (nonEmpty pieces).isEmpty = false := by
    rw [isEmpty_eq_false_iff]
    exact fun h => hne (hpieces ▸ nonEmpty_eq_nil.mp h)
  unfold applyBSDiffPatchAndStreamOutput applyBSDiffPatch
  rw [hinit, drop_zero, hb]
  dsimp only
  rw [hfeed, hsome, hpieces]
  simp

/-! ## Chunks -/

/-- The source bytes that the decoder patches for chunk number `i`. -/
def decoderSource (old : Bytes) (bonus : Option Bytes) (i : Nat) (p : PatchChunk) : Option Bytes :=
  if tooShort old p.sourceStart p.sourceLen then none
  else if p.type = .deflate then
    expandSource lib (sliceOf old p.sourceStart p.sourceLen)
      (if i = 1 then bonus.getD [] else []) p.sourceUncompressedLen
  else some (sliceOf old p.sourceStart p.sourceLen)

/-- Chunk number `i` succeeds and adds `out` to the output. -/
def Yields (old : Bytes) (bonus : Option Bytes) (i : Nat) (p : PatchChunk) (out : Bytes) : Prop :=
  ∀ tail s, applied lib memorySink old bonus i p (p.body ++ tail) s = (s ++ out, .success)

section Yields

variable {lib : DiffLib} {old : Bytes} {bonus : Option Bytes} {i : Nat}
  {p : PatchChunk} {source : Bytes}

theorem yields_raw (ht : p.type = .raw) : Yields lib.toPatchLib old bonus i p p.data := by
  intro tail s
  unfold applied
  rw [ht]
  rw [feed_memorySink, flatten_cons, flatten_nil, append_nil]
  rfl

theorem body_of_ne_raw (ht : p.type ≠ .raw) : p.body = p.data := if_neg ht

theorem yields_normal (hl : Lawful lib) (ht : p.type = .normal)
    (hsrc : decoderSource lib.toPatchLib old bonus i p = some source) {new : Bytes}
    (hdiff : lib.bsdiff source new = some p.data) : Yields lib.toPatchLib old bonus i p new := by
  intro tail s
  obtain ⟨pieces, hb, hpieces⟩ := hl.bspatch_bsdiff tail hdiff
  unfold decoderSource at hsrc
  rw [ht] at hsrc
  unfold applied
  rw [ht]
  split at hsrc
  · cases hsrc
  · rename_i hshort
    rw [if_neg hshort, Option.some.inj hsrc, body_of_ne_raw (by rw [ht]; decide)]
    unfold applyBSDiffPatch
    rw [drop_zero, hb]
    dsimp only
    rw [feed_memorySink, hpieces]
    rfl

theorem yields_deflate (hl : Lawful lib) (ht : p.type = .deflate)
    (hsrc : decoderSource lib.toPatchLib old bonus i p = some source) {contents raw : Bytes}
    (hdiff : lib.bsdiff source contents = some p.data) (hne : contents ≠ [])
    (hlen : p.targetUncompressedLen = contents.length)
    (hraw : Rebuilds lib.toPatchLib p.targetCompressLevel contents raw) :
    Yields lib.toPatchLib old bonus i p raw := by
  intro tail s
  obtain ⟨pieces, hb, hpieces⟩ := hl.bspatch_bsdiff tail hdiff
  unfold decoderSource at hsrc
  unfold applied
  rw [ht]
  dsimp only
  split at hsrc
  · cases hsrc
  · rename_i hshort
    rw [if_neg hshort, hsrc, body_of_ne_raw (by rw [ht]; decide), hlen]
    exact streamOutput_yields hl hb hpieces hne hraw s

theorem applied_of_no_source (ht : p.type ≠ .raw)
    (hsrc : decoderSource lib.toPatchLib old bonus i p = none) {σ : Type} (sink : Sink σ)
    (tail : Bytes) (s : σ) :
    applied lib.toPatchLib sink old bonus i p tail s = (s, .failure) := by
  unfold decoderSource at hsrc
  unfold applied
  cases hp : p.type with
  | raw => exact absurd hp ht
  | normal =>
    rw [hp] at hsrc
    split at hsrc
    · rename_i hshort
      rw [if_pos hshort]
    · cases hsrc
  | deflate =>
    dsimp only
    split at hsrc
    · rename_i hshort
      rw [if_pos hshort]
    · rename_i hshort
      rw [if_neg hshort, hsrc]

end Yields

/-! ## Patches -/

/-- Chunk after chunk, the first being number `i`, the chunks yield `out`. -/
inductive YieldsAll (lib : PatchLib) (old : Bytes) (bonus : Option Bytes) :
    Nat → List PatchChunk → Bytes → Prop where
  | nil {i : Nat} : YieldsAll lib old bonus i [] []
  | cons {i : Nat} {p : PatchChunk} {ps : List PatchChunk} {out rest : Bytes} :
      Yields lib old bonus i p out → YieldsAll lib old bonus (i + 1) ps rest →
      YieldsAll lib old bonus i (p :: ps) (out ++ rest)

theorem YieldsAll.appliedAll {lib : PatchLib} {old : Bytes} {bonus : Option Bytes}
    {i : Nat} {ps : List PatchChunk} {out : Bytes} (h : YieldsAll lib old bonus i ps out) :
    ∀ s, appliedAll lib memorySink old bonus i ps s = (s ++ out, .success) := by
  induction h with
  | nil =>
    intro s
    rw [ImgDiff.appliedAll, append_nil]
  | @cons i p ps out rest hp _ ih =>
    intro s
    rw [ImgDiff.appliedAll, PatchChunk.bodies_cons, hp]
    dsimp only
    rw [ih, append_assoc]

/-- A patch with a chunk whose source the decoder does not find does not apply. -/
theorem appliedAll_ne_success {lib : DiffLib} {old : Bytes} {bonus : Option Bytes}
    {σ : Type} {sink : Sink σ} : ∀ {ps : List PatchChunk} {i k : Nat} {p : PatchChunk},
    ps[k]? = some p → p.type ≠ .raw →
    decoderSource lib.toPatchLib old bonus (i + k) p = none →
    ∀ s, (appliedAll lib.toPatchLib sink old bonus i ps s).2 ≠ .success
  | [], i, k, p, hk, _, _ => by simp at hk
  | q :: qs, i, 0, p, hk, ht, hsrc => by
    intro s
    have hq : q = p := by simpa using hk
    rw [Nat.add_zero] at hsrc
    rw [hq, appliedAll, applied_of_no_source ht hsrc]
    simp
  | q :: qs, i, k + 1, p, hk, ht, hsrc => by
    intro s
    have ih : ∀ s, (appliedAll lib.toPatchLib sink old bonus (i + 1) qs s).2 ≠ .success :=
      appliedAll_ne_success (by simpa using hk) ht
        (by rw [Nat.add_assoc, Nat.add_comm 1 k]; exact hsrc)
    rw [appliedAll]
    cases applied lib.toPatchLib sink old bonus i q (PatchChunk.bodies (q :: qs)) s with
    | mk s' status =>
      cases status with
      | success => exact ih s'
      | failure => simp
      | abort => simp

end Pterodon.ImgDiff
