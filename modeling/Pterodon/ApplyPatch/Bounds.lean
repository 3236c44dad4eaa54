import Pterodon.ApplyPatch.ImgPatch

/-!
# What applying a patch touches

`ApplyImagePatch` on patches that nobody vouches for. The list of its operations has
every stretch of the patch and of the old data that it reads or hands to a library to
read, every `CHECK` and every vector it asks for; an operation goes wrong if the stretch
leaves its buffer, the `CHECK` fails, or the vector cannot be allocated.

Three sums are guarded, and each guard compares a sum that has wrapped around: the source
of a normal or a deflate chunk, and the data of a raw chunk, whose length is a signed
number. The offset of a patch and the length of an expanded source are not guarded at
all. `HeaderOk` says of one header that none of this happens, and a run is safe exactly
if all headers it gets to are like that.
-/

namespace Pterodon.ApplyPatch

open Lib List Sample

variable (lib : PatchLib)

inductive Region where
  | patch
  | old
  deriving DecidableEq

/-- Something that can go wrong. -/
inductive Operation where
  | read (region : Region) (start len : Nat)
  /-- `CHECK_LE`. -/
  | checkLe (a b : Nat)
  /-- A vector of so many bytes. -/
  | allocate (size : Nat)
  deriving DecidableEq

def Operation.Ok (heap : Heap) (old patch : Bytes) : Operation → Prop
  | .read .patch start len => len = 0 ∨ start + len ≤ patch.length
  | .read .old start len => len = 0 ∨ start + len ≤ old.length
  | .checkLe a b => a ≤ b
  | .allocate size => heap.allocates size = true

instance (heap : Heap) (old patch : Bytes) (op : Operation) : Decidable (op.Ok heap old patch) := by
  cases op with
  | read region start len => cases region <;> exact inferInstanceAs (Decidable (_ ∨ _))
  | checkLe a b => exact inferInstanceAs (Decidable (_ ≤ _))
  | allocate size => exact inferInstanceAs (Decidable (_ = _))

/-! ## The operations -/

/-- `ApplyBSDiffPatch`: the `CHECK`, and if it holds the source, if that is old data, and the
patch from the offset on. -/
def bsdiffOps (patch : Bytes) (patchOffset : Nat) (source : List Operation) : List Operation :=
  .checkLe patchOffset patch.length ::
    if patch.length < patchOffset then []
    else source ++ [.read .patch patchOffset (patch.length - patchOffset)]

/-- A normal chunk with its header at `pos`. -/
def normalOps (old patch : Bytes) (pos : Nat) : List Operation :=
  let srcStart := read8 patch pos
  let srcLen := read8 patch (pos + 8)
  .read .patch pos 24 ::
    if tooShort old srcStart srcLen then []
    else bsdiffOps patch (read8 patch (pos + 16)) [.read .old srcStart srcLen]

/-- A raw chunk with its header at `pos`. -/
def rawOps (patch : Bytes) (pos : Nat) : List Operation :=
  let dataLen := rawLength patch pos
  .read .patch pos 4 ::
    if patch.length < (pos + 4 + dataLen) % 2 ^ 64 then [] else [.read .patch (pos + 4) dataLen]

/-- The parameters in the header of a deflate chunk. -/
def headerParams (patch : Bytes) (pos : Nat) : DeflateParams :=
  ⟨read4 patch (pos + 40), read4 patch (pos + 44), read4 patch (pos + 48),
    read4 patch (pos + 52), read4 patch (pos + 56)⟩

/-- A deflate chunk with its header at `pos`. `inflate` is told the lower 32 bits of the length. -/
def deflateOps (old patch bonus : Bytes) (pos : Nat) : List Operation :=
  let srcStart := read8 patch pos
  let srcLen := read8 patch (pos + 8)
  let expandedLen := read8 patch (pos + 24)
  .read .patch pos 60 ::
    if tooShort old srcStart srcLen then []
    else
      .allocate expandedLen ::
        ((if expandedLen = 0 then [] else [.read .old srcStart (srcLen % 2 ^ 32)]) ++
          if (expandSource lib (sliceOf old srcStart srcLen) bonus expandedLen).isNone then []
          else if !lib.deflateInit (headerParams patch pos) then []
          else bsdiffOps patch (read8 patch (pos + 16)) [])

/-- Chunk number `i` at `pos`. -/
def chunkOps (old patch : Bytes) (bonus : Option Bytes) (i pos : Nat) : List Operation :=
  if patch.length < pos + 4 then []
  else
    .read .patch pos 4 ::
      if read4 patch pos = CHUNK_NORMAL then
        if patch.length < pos + 4 + 24 then [] else normalOps old patch (pos + 4)
      else if read4 patch pos = CHUNK_RAW then
        if patch.length < pos + 4 + 4 then [] else rawOps patch (pos + 4)
      else if read4 patch pos = CHUNK_DEFLATE then
        if patch.length < pos + 4 + 60 then []
        else deflateOps lib old patch (if i = 1 then bonus.getD [] else []) (pos + 4)
      else []

variable {σ : Type}

/-- The number and the position of every chunk that the loop gets to. -/
def reached (sink : Sink σ) (old patch : Bytes) (bonus : Option Bytes) : Nat → Nat → Nat → σ → Pairs
  | 0, _, _, _ => []
  | n + 1, i, pos, s =>
    (i, pos) ::
      match applyChunk lib sink old patch bonus i pos s with
      | ((s, .success), pos) => reached sink old patch bonus n (i + 1) pos s
      | _ => []

/-- The chunks that `ApplyImagePatch` gets to. -/
def reachedChunks (sink : Sink σ) (old patch : Bytes) (bonus : Option Bytes) (s : σ) : Pairs :=
  if patch.length < 12 then []
  else if patch.take 8 ≠ imgdiffMagic then []
  else reached lib sink old patch bonus (read4 patch 8).toNat 0 12 s

/-- The operations of `ApplyImagePatch`. -/
def imagePatchOps (sink : Sink σ) (old patch : Bytes)
    (bonus : Option Bytes) (s : σ) : List Operation :=
  if patch.length < 12 then []
  else
    .read .patch 0 8 ::
      if patch.take 8 ≠ imgdiffMagic then []
      else
        .read .patch 8 4 ::
          (reachedChunks lib sink old patch bonus s).flatMap fun (i, pos) =>
            chunkOps lib old patch bonus i pos

/-! ## Headers -/

/-- The offset of the patch that the chunk at `pos` would use. -/
def OffsetOk (patch : Bytes) (pos : Nat) : Prop := read8 patch (pos + 16) ≤ patch.length

/-- A normal chunk: unless the source is refused, its end does not wrap around and the offset of
the patch is in the patch. -/
def NormalOk (old patch : Bytes) (pos : Nat) : Prop :=
  tooShort old (read8 patch pos) (read8 patch (pos + 8)) = false →
    read8 patch pos + read8 patch (pos + 8) < 2 ^ 64 ∧ OffsetOk patch pos

/-- A raw chunk: unless the data is refused, its end does not wrap around. -/
def RawOk (patch : Bytes) (pos : Nat) : Prop :=
  (pos + 4 + rawLength patch pos) % 2 ^ 64 ≤ patch.length → pos + 4 + rawLength patch pos < 2 ^ 64

/-- A deflate chunk: unless the source is refused, the vector for the expanded source is there,
what `inflate` is given is in the old data, and, if it comes to that, so is the offset of the
patch in the patch. -/
def DeflateOk (heap : Heap) (lib : PatchLib) (old patch bonus : Bytes) (pos : Nat) : Prop :=
  let srcStart := read8 patch pos
  let srcLen := read8 patch (pos + 8)
  let expandedLen := read8 patch (pos + 24)
  tooShort old srcStart srcLen = false →
    heap.allocates expandedLen = true ∧
    (expandedLen = 0 ∨ srcLen % 2 ^ 32 = 0 ∨ srcStart + srcLen % 2 ^ 32 ≤ old.length) ∧
    ((expandSource lib (sliceOf old srcStart srcLen) bonus expandedLen).isSome = true →
      lib.deflateInit (headerParams patch pos) = true → OffsetOk patch pos)

/-- The header of chunk number `i` at `pos`, if it is complete. -/
def HeaderOk (heap : Heap) (lib : PatchLib) (old patch : Bytes) (bonus : Option Bytes)
    (i pos : Nat) : Prop :=
  (read4 patch pos = CHUNK_NORMAL → pos + 4 + 24 ≤ patch.length → NormalOk old patch (pos + 4)) ∧
  (read4 patch pos = CHUNK_RAW → pos + 4 + 4 ≤ patch.length → RawOk patch (pos + 4)) ∧
  (read4 patch pos = CHUNK_DEFLATE → pos + 4 + 60 ≤ patch.length →
    DeflateOk heap lib old patch (if i = 1 then bonus.getD [] else []) (pos + 4))

section Chunks

variable {heap : Heap} {lib : PatchLib} {old patch bonus : Bytes} {pos : Nat}

theorem read8_lt (data : Bytes) (pos : Nat) : read8 data pos < 2 ^ 64 := by
  have hlen : (sliceOf data pos 8).length ≤ 8 := by
    rw [sliceOf, length_take]
    omega
  have hpow : 256 ^ (sliceOf data pos 8).length ≤ 256 ^ 8 := Nat.pow_le_pow_right (by decide) hlen
  exact Nat.lt_of_lt_of_le (leNat_lt _) hpow

theorem forall_ok_bsdiffOps {offset : Nat} {source : List Operation} :
    (∀ op ∈ bsdiffOps patch offset source, op.Ok heap old patch) ↔
      offset ≤ patch.length ∧ ∀ op ∈ source, op.Ok heap old patch := by
  unfold bsdiffOps
  rw [forall_mem_cons]
  refine and_congr_right fun hle => ?_
  have hle : offset ≤ patch.length := hle
  rw [if_neg (by omega), forall_mem_append, forall_mem_singleton]
  refine and_iff_left (.inr ?_)
  omega

theorem forall_ok_unless {ops : List Operation} {P : Prop} {n : Nat}
    (h : n ≤ patch.length → ((∀ op ∈ ops, op.Ok heap old patch) ↔ P)) :
    (∀ op ∈ (if patch.length < n then [] else ops), op.Ok heap old patch) ↔
      (n ≤ patch.length → P) := by
  by_cases hn : patch.length < n
  · rw [if_pos hn]
    exact ⟨fun _ h => absurd h (by omega), nofun⟩
  · rw [if_neg hn, h (by omega)]
    exact ⟨fun h _ => h, fun h => h (by omega)⟩

theorem forall_ok_normalOps (hold : old.length < 2 ^ 64) (hpos : pos + 24 ≤ patch.length) :
    (∀ op ∈ normalOps old patch pos, op.Ok heap old patch) ↔ NormalOk old patch pos := by
  unfold normalOps NormalOk
  rw [forall_mem_cons, and_iff_right (show Operation.Ok heap old patch (.read .patch pos 24) from
    .inr hpos)]
  cases hshort : tooShort old (read8 patch pos) (read8 patch (pos + 8)) with
  | true => simp
  | false =>
    have hfit := of_decide_eq_false hshort
    have hstart := read8_lt patch pos
    rw [if_neg Bool.false_ne_true, forall_ok_bsdiffOps, forall_mem_singleton]
    change _ ∧ (_ ∨ _) ↔ _
    constructor
    · rintro ⟨hoff, hin⟩ _
      refine ⟨?_, hoff⟩
      omega
    · intro h
      obtain ⟨hwrap, hoff⟩ := h rfl
      refine ⟨hoff, .inr ?_⟩
      rw [Nat.mod_eq_of_lt hwrap] at hfit
      omega

theorem forall_ok_rawOps (hpatch : patch.length < 2 ^ 64) (hpos : pos + 4 ≤ patch.length) :
    (∀ op ∈ rawOps patch pos, op.Ok heap old patch) ↔ RawOk patch pos := by
  unfold rawOps RawOk
  rw [forall_mem_cons, and_iff_right (show Operation.Ok heap old patch (.read .patch pos 4) from
    .inr hpos)]
  by_cases hrefused : patch.length < (pos + 4 + rawLength patch pos) % 2 ^ 64
  · rw [if_pos hrefused]
    exact ⟨fun _ h => absurd h (by omega), nofun⟩
  · rw [if_neg hrefused, forall_mem_singleton]
    change (_ ∨ _) ↔ _
    constructor
    · intro hin _
      omega
    · intro h
      have hwrap := h (by omega)
      rw [Nat.mod_eq_of_lt hwrap] at hrefused
      omega

theorem forall_ok_deflateOps (hpos : pos + 60 ≤ patch.length) :
    (∀ op ∈ deflateOps lib old patch bonus pos, op.Ok heap old patch) ↔
      DeflateOk heap lib old patch bonus pos := by
  unfold deflateOps DeflateOk
  rw [forall_mem_cons, and_iff_right (show Operation.Ok heap old patch (.read .patch pos 60) from
    .inr hpos)]
  dsimp only
  cases hshort : tooShort old (read8 patch pos) (read8 patch (pos + 8)) with
  | true => simp
  | false =>
    rw [if_neg Bool.false_ne_true, forall_mem_cons, forall_mem_append]
    have hread : (∀ op ∈ (if read8 patch (pos + 24) = 0 then []
        else [Operation.read .old (read8 patch pos) (read8 patch (pos + 8) % 2 ^ 32)]),
        op.Ok heap old patch) ↔ (read8 patch (pos + 24) = 0 ∨ read8 patch (pos + 8) % 2 ^ 32 = 0 ∨
          read8 patch pos + read8 patch (pos + 8) % 2 ^ 32 ≤ old.length) := by
      by_cases hzero : read8 patch (pos + 24) = 0
      · rw [if_pos hzero]
        exact ⟨fun _ => .inl hzero, nofun⟩
      · rw [if_neg hzero, forall_mem_singleton, or_iff_right hzero]
        exact Iff.rfl
    rw [hread, forall_prop_of_true (rfl : false = false)]
    refine and_congr Iff.rfl (and_congr Iff.rfl ?_)
    cases hexp : expandSource lib (sliceOf old (read8 patch pos) (read8 patch (pos + 8))) bonus
        (read8 patch (pos + 24)) with
    | none => simp
    | some expanded =>
      cases hinit : lib.deflateInit (headerParams patch pos) with
      | false => simp
      | true =>
        rw [if_neg (by simp), if_neg (by simp), forall_ok_bsdiffOps]
        refine Iff.trans (and_iff_left nofun) ?_
        exact ⟨fun h _ _ => h, fun h => h rfl rfl⟩

theorem forall_ok_chunkOps {bonus : Option Bytes} {i : Nat} (hold : old.length < 2 ^ 64)
    (hpatch : patch.length < 2 ^ 64) :
    (∀ op ∈ chunkOps lib old patch bonus i pos, op.Ok heap old patch) ↔
      HeaderOk heap lib old patch bonus i pos := by
  unfold chunkOps HeaderOk
  by_cases hpos : patch.length < pos + 4
  · rw [if_pos hpos]
    exact ⟨fun _ => ⟨fun _ h => absurd h (by omega), fun _ h => absurd h (by omega),
      fun _ h => absurd h (by omega)⟩, nofun⟩
  rw [if_neg hpos, forall_mem_cons, and_iff_right (show Operation.Ok heap old patch
    (.read .patch pos 4) from .inr (by omega))]
  by_cases hn : read4 patch pos = CHUNK_NORMAL
  · have hr : read4 patch pos ≠ CHUNK_RAW := by rw [hn]; decide
    have hd : read4 patch pos ≠ CHUNK_DEFLATE := by rw [hn]; decide
    rw [if_pos hn, forall_prop_of_true hn, forall_prop_of_false hr, forall_prop_of_false hd,
      and_true, and_true]
    exact forall_ok_unless (forall_ok_normalOps hold)
  · rw [if_neg hn, forall_prop_of_false hn, true_and]
    by_cases hr : read4 patch pos = CHUNK_RAW
    · have hd : read4 patch pos ≠ CHUNK_DEFLATE := by rw [hr]; decide
      rw [if_pos hr, forall_prop_of_true hr, forall_prop_of_false hd, and_true]
      exact forall_ok_unless (forall_ok_rawOps hpatch)
    · rw [if_neg hr, forall_prop_of_false hr, true_and]
      by_cases hd : read4 patch pos = CHUNK_DEFLATE
      · rw [if_pos hd, forall_prop_of_true hd]
        exact forall_ok_unless forall_ok_deflateOps
      · rw [if_neg hd, forall_prop_of_false hd]
        exact ⟨fun _ => trivial, nofun⟩

end Chunks

/-! ## Aborts -/

section Aborts

variable {heap : Heap} {lib : PatchLib} {sink : Sink σ} {old patch : Bytes}

theorem applyBSDiffPatch_ne_abort {τ : Type} {sink : Sink τ} {src : Bytes} {offset : Nat}
    (h : offset ≤ patch.length) (s : τ) :
    (applyBSDiffPatch lib sink src patch offset s).2 ≠ .abort := by
  unfold applyBSDiffPatch
  rw [if_neg (by omega)]
  dsimp only
  split <;> nofun

theorem streamOutput_ne_abort {src : Bytes} {offset expected : Nat} {params : DeflateParams}
    (h : lib.deflateInit params = true → offset ≤ patch.length) (s : σ) :
    (applyBSDiffPatchAndStreamOutput lib sink src patch offset expected params s).2 ≠ .abort := by
  unfold applyBSDiffPatchAndStreamOutput
  split
  · nofun
  rename_i hinit
  have hle := h (by simpa using hinit)
  have hb : (applyBSDiffPatch lib (compressionSink lib params expected sink) src patch offset
      ⟨[], false, s⟩).2 ≠ .abort := applyBSDiffPatch_ne_abort hle _
  dsimp only
  cases hstatus : (applyBSDiffPatch lib (compressionSink lib params expected sink) src patch offset
      ⟨[], false, s⟩).2 with
  | success =>
    dsimp only
    split <;> nofun
  | failure => nofun
  | abort => exact absurd hstatus hb

theorem applyChunk_ne_abort {bonus : Option Bytes} {i pos : Nat}
    (h : HeaderOk heap lib old patch bonus i pos) (s : σ) :
    (applyChunk lib sink old patch bonus i pos s).1.2 ≠ .abort := by
  obtain ⟨hnormal, hraw, hdeflate⟩ := h
  unfold applyChunk
  split
  · nofun
  split
  · rename_i htype
    split
    · nofun
    have hok := hnormal htype (by omega)
    unfold applyNormalChunk
    dsimp only
    split
    · nofun
    · rename_i hshort
      exact applyBSDiffPatch_ne_abort (hok (Bool.eq_false_iff.mpr hshort)).2 s
  split
  · split
    · nofun
    unfold applyRawChunk
    dsimp only
    split
    · nofun
    · dsimp only
      split <;> nofun
  split
  · rename_i htype
    split
    · nofun
    have hok := hdeflate htype (by omega)
    unfold applyDeflateChunk
    dsimp only
    split
    · nofun
    rename_i hshort
    obtain ⟨_, _, hoffset⟩ := hok (Bool.eq_false_iff.mpr hshort)
    split
    · nofun
    · rename_i expanded hexp
      exact streamOutput_ne_abort (hoffset (by rw [hexp]; rfl)) s
  · nofun

theorem applyChunks_ne_abort {bonus : Option Bytes} : ∀ {n i pos : Nat} {s : σ},
    (∀ c ∈ reached lib sink old patch bonus n i pos s, HeaderOk heap lib old patch bonus c.1 c.2) →
    (applyChunks lib sink old patch bonus n i pos s).2 ≠ .abort
  | 0, _, _, _, _ => nofun
  | n + 1, i, pos, s, h => by
    rw [reached, forall_mem_cons] at h
    obtain ⟨hhere, hrest⟩ := h
    have hne : (applyChunk lib sink old patch bonus i pos s).1.2 ≠ .abort :=
      applyChunk_ne_abort hhere s
    rw [applyChunks]
    rcases hr : applyChunk lib sink old patch bonus i pos s with ⟨⟨s', status⟩, pos'⟩
    rw [hr] at hrest hne
    cases status with
    | success => exact applyChunks_ne_abort hrest
    | failure => nofun
    | abort => exact absurd rfl hne

end Aborts

/-! ## Whole patches -/

/-- `ApplyImagePatch` comes back, and nothing goes wrong on the way. -/
structure SafeRun (heap : Heap) (lib : PatchLib) (sink : Sink σ) (old patch : Bytes)
    (bonus : Option Bytes) (s : σ) : Prop where
  returns : (applyImagePatch lib sink old patch bonus s).2 ≠ .abort
  ops : ∀ op ∈ imagePatchOps lib sink old patch bonus s, op.Ok heap old patch

/-- A run is safe exactly if every header it gets to is in order. -/
theorem image_patch_safe_iff (heap : Heap) (lib : PatchLib) (sink : Sink σ) (old patch : Bytes)
    (bonus : Option Bytes) (s : σ) (hold : old.length < 2 ^ 64)
    (hpatch : patch.length < 2 ^ 64) :
    SafeRun heap lib sink old patch bonus s ↔
      ∀ c ∈ reachedChunks lib sink old patch bonus s,
        HeaderOk heap lib old patch bonus c.1 c.2 := by
  have hchunks : (∀ op ∈ (reachedChunks lib sink old patch bonus s).flatMap
      (fun (i, pos) => chunkOps lib old patch bonus i pos), op.Ok heap old patch) ↔
      ∀ c ∈ reachedChunks lib sink old patch bonus s,
        HeaderOk heap lib old patch bonus c.1 c.2 := by
    constructor
    · intro h c hc
      exact (forall_ok_chunkOps hold hpatch).mp fun op hop => h op (mem_flatMap.mpr ⟨c, hc, hop⟩)
    · intro h op hop
      obtain ⟨c, hc, hop⟩ := mem_flatMap.mp hop
      exact (forall_ok_chunkOps hold hpatch).mpr (h c hc) op hop
  by_cases hshort : patch.length < 12
  · refine ⟨fun _ c hc => ?_, fun _ => ⟨?_, fun op hop => ?_⟩⟩
    · rw [reachedChunks, if_pos hshort] at hc
      cases hc
    · rw [applyImagePatch, if_pos hshort]
      nofun
    · rw [imagePatchOps, if_pos hshort] at hop
      cases hop
  by_cases hmagic : patch.take 8 = imgdiffMagic
  · constructor
    · rintro ⟨_, hops⟩
      rw [imagePatchOps, if_neg hshort, if_neg (not_not.mpr hmagic), forall_mem_cons,
        forall_mem_cons] at hops
      exact hchunks.mp hops.2.2
    · intro h
      refine ⟨?_, ?_⟩
      · rw [reachedChunks, if_neg hshort, if_neg (not_not.mpr hmagic)] at h
        rw [applyImagePatch, if_neg hshort, if_neg (not_not.mpr hmagic)]
        exact applyChunks_ne_abort h
      · rw [imagePatchOps, if_neg hshort, if_neg (not_not.mpr hmagic), forall_mem_cons,
          forall_mem_cons]
        refine ⟨.inr ?_, .inr ?_, hchunks.mpr h⟩ <;> omega
  · refine ⟨fun _ c hc => ?_, fun _ => ⟨?_, ?_⟩⟩
    · rw [reachedChunks, if_neg hshort, if_pos hmagic] at hc
      cases hc
    · rw [applyImagePatch, if_neg hshort, if_pos hmagic]
      nofun
    · rw [imagePatchOps, if_neg hshort, if_pos hmagic, forall_mem_singleton]
      refine .inr ?_
      omega

/-! ## Three headers -/

def Sample.oneChunk (chunk : Bytes) : Bytes := imgdiffMagic ++ ([1, 0, 0, 0] ++ chunk)

def Sample.noLib : PatchLib where
  bspatch _ _ := ([], false)
  inflate _ := none
  deflateInit _ := false
  deflate _ _ _ _ := none

theorem raw_chunk_safe : SafeRun heap noLib memorySink []
      (oneChunk [3, 0, 0, 0, 1, 0, 0, 0, 7]) none [] := by
  refine (image_patch_safe_iff _ _ memorySink [] _ none [] (by decide) (by decide)).mpr ?_
  have hreached : reachedChunks noLib memorySink []
      (oneChunk [3, 0, 0, 0, 1, 0, 0, 0, 7]) none [] = [(0, 12)] := by decide +kernel
  rw [hreached, forall_mem_singleton]
  exact ⟨fun h => absurd h (by decide), fun _ _ _ => by decide +kernel,
    fun h => absurd h (by decide)⟩

/--
A normal chunk whose patch is said to begin behind the end of the patch file runs into a `CHECK`.
A raw chunk with the length -20 passes the guard, and the sink is handed bytes from outside of the
patch. So is `bspatch`, of the old data, for a source that begins one byte before it.
-/
theorem stray_headers : (applyImagePatch noLib memorySink []
      (oneChunk ([0, 0, 0, 0] ++ List.replicate 16 0 ++ [255, 0, 0, 0, 0, 0, 0, 0])) none
        []).2 = .abort ∧
    Operation.read .patch 20 (2 ^ 64 - 20) ∈ imagePatchOps noLib memorySink []
      (oneChunk [3, 0, 0, 0, 0xec, 255, 255, 255]) none [] ∧
    Operation.read .old (2 ^ 64 - 1) 2 ∈ imagePatchOps noLib memorySink [7]
      (oneChunk ([0, 0, 0, 0] ++ List.replicate 8 255 ++ [2, 0, 0, 0, 0, 0, 0, 0]
        ++ List.replicate 8 0)) none [] := by
  decide +kernel

end Pterodon.ApplyPatch
