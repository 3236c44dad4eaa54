import Pterodon.ImgDiff.Chunk

/-!
# The patch file, written and read

`WritePatchDataToFd` computes every offset before it writes, from sizes it adds up in two
loops; `ApplyImagePatch` walks over the headers by sizes of its own. `applied` says what
a chunk does when no bytes are in between: its fields are taken from the chunk and its
patch is the bytes from its own data on. The result of the module is that the decoder,
run on the written file, does just that chunk by chunk (`applyImagePatch_written`), as
long as every size fits the field it is written to.
-/

namespace Pterodon.ImgDiff

open Lib ApplyPatch ImageChunk List PatchChunk

/-! ## Bytes at a position -/

/-- The bytes `x` stand at `pos`. -/
def StandsAt (data : Bytes) (pos : Nat) (x : Bytes) : Prop :=
  ∃ rest, data.drop pos = x ++ rest

namespace StandsAt

variable {data x y : Bytes} {pos : Nat}

theorem left (h : StandsAt data pos (x ++ y)) : StandsAt data pos x := by
  obtain ⟨rest, h⟩ := h
  exact ⟨y ++ rest, by rw [h, append_assoc]⟩

theorem right (h : StandsAt data pos (x ++ y)) : StandsAt data (pos + x.length) y := by
  obtain ⟨rest, h⟩ := h
  refine ⟨rest, ?_⟩
  rw [← drop_drop, h, append_assoc, drop_left]

theorem sliceOf_eq (h : StandsAt data pos x) : sliceOf data pos x.length = x := by
  obtain ⟨rest, h⟩ := h
  rw [sliceOf, h, take_left]

theorem le (h : StandsAt data pos x) (hx : x ≠ []) : pos + x.length ≤ data.length := by
  obtain ⟨rest, h⟩ := h
  have hlen := congrArg List.length h
  rw [length_drop, length_append] at hlen
  have hpos := length_pos_iff.mpr hx
  omega

end StandsAt

/-- Whether an `int` has a value. -/
def IsInt (z : Int) : Prop := -2 ^ 31 ≤ z ∧ z < 2 ^ 31

theorem read4_write4 {data : Bytes} {pos : Nat} {z : Int} (hz : IsInt z)
    (h : StandsAt data pos (write4 z)) : read4 data pos = z := by
  obtain ⟨hlo, hhi⟩ := hz
  have hlt : unsigned 4 z < 256 ^ 4 := by unfold unsigned; omega
  have hslice := h.sliceOf_eq
  rw [write4, leBytes_length] at hslice
  rw [read4, hslice, leNat_leBytes hlt]
  unfold signed unsigned
  omega

theorem read4_write4Size {data : Bytes} {pos n : Nat} (hn : n < 2 ^ 31)
    (h : StandsAt data pos (write4Size n)) : read4 data pos = n := by
  have hslice := h.sliceOf_eq
  rw [write4Size, leBytes_length] at hslice
  rw [read4, hslice, leNat_leBytes (by omega)]
  exact signed_of_lt (by omega)

theorem read8_write8 {data : Bytes} {pos n : Nat} (hn : n < 2 ^ 64)
    (h : StandsAt data pos (write8 n)) : read8 data pos = n := by
  have hslice := h.sliceOf_eq
  rw [write8, leBytes_length] at hslice
  rw [read8, hslice, leNat_leBytes (by omega)]

/-! ## Sizes -/

namespace PatchChunk

@[simp] theorem write4_length (z : Int) : (write4 z).length = 4 := leBytes_length 4 _

@[simp] theorem write4Size_length (n : Nat) : (write4Size n).length = 4 := leBytes_length 4 _

@[simp] theorem write8_length (n : Nat) : (write8 n).length = 8 := leBytes_length 8 _

theorem writeHeaderToFd_length (p : PatchChunk) (offset : Nat) :
    (p.writeHeaderToFd offset).1.length = p.getHeaderSize := by
  unfold writeHeaderToFd headerFields getHeaderSize
  cases p.type <;> simp only [length_append, write4_length, write8_length, write4Size_length]
  omega

theorem headers_length : ∀ (ps : List PatchChunk) (offset : Nat),
    (headers offset ps).length = (ps.map getHeaderSize).sum
  | [], _ => rfl
  | p :: ps, offset => by
    rw [headers, length_append, writeHeaderToFd_length, headers_length ps, map_cons, sum_cons]

theorem bodies_cons (p : PatchChunk) (ps : List PatchChunk) :
    bodies (p :: ps) = p.body ++ bodies ps := rfl

theorem patchSize_eq (p : PatchChunk) : p.patchSize = p.getHeaderSize + p.body.length := by
  unfold patchSize body
  split <;> rfl

theorem sum_patchSize : ∀ ps : List PatchChunk,
    (ps.map patchSize).sum = (ps.map getHeaderSize).sum + (bodies ps).length
  | [] => rfl
  | p :: ps => by
    rw [map_cons, sum_cons, map_cons, sum_cons, sum_patchSize ps,
      patchSize_eq, bodies_cons, length_append]
    omega

theorem writePatchDataToFd_length (ps : List PatchChunk) :
    (writePatchDataToFd ps).length = 12 + (ps.map patchSize).sum := by
  unfold writePatchDataToFd
  simp only [length_append, write4Size_length, headers_length, sum_patchSize]
  simp only [imgdiffMagic, length_cons, length_nil]
  omega

/-- Every number of the chunk fits the field it is written to. -/
structure Fits (p : PatchChunk) : Prop where
  sourceStart : p.sourceStart < 2 ^ 64
  sourceLen : p.sourceLen < 2 ^ 64
  sourceUncompressedLen : p.sourceUncompressedLen < 2 ^ 64
  targetUncompressedLen : p.targetUncompressedLen < 2 ^ 64
  level : IsInt p.targetCompressLevel
  raw : p.type = .raw → p.data.length < 2 ^ 31

end PatchChunk

/-! ## What a chunk does -/

section Applied

variable {σ : Type}

/-- `ApplyImagePatch` on chunk number `i`, whose own data and everything behind it is `tail`. -/
def applied (lib : PatchLib) (sink : Sink σ) (old : Bytes) (bonus : Option Bytes)
    (i : Nat) (p : PatchChunk) (tail : Bytes) (s : σ) : σ × PatchStatus :=
  match p.type with
  | .normal =>
    if tooShort old p.sourceStart p.sourceLen then (s, .failure)
    else applyBSDiffPatch lib sink (sliceOf old p.sourceStart p.sourceLen) tail 0 s
  | .deflate =>
    if tooShort old p.sourceStart p.sourceLen then (s, .failure)
    else
      match expandSource lib (sliceOf old p.sourceStart p.sourceLen)
          (if i = 1 then bonus.getD [] else []) p.sourceUncompressedLen with
      | none => (s, .failure)
      | some expanded =>
        applyBSDiffPatchAndStreamOutput lib sink expanded tail 0 p.targetUncompressedLen
          (deflateParams p.targetCompressLevel) s
  | .raw =>
    let r := feed sink [p.data] s
    (r.1, if r.2 then .success else .failure)

/-- One chunk after the other, the first being number `i`. -/
def appliedAll (lib : PatchLib) (sink : Sink σ) (old : Bytes) (bonus : Option Bytes) :
    Nat → List PatchChunk → σ → σ × PatchStatus
  | _, [], s => (s, .success)
  | i, p :: ps, s =>
    match applied lib sink old bonus i p (PatchChunk.bodies (p :: ps)) s with
    | (s, .success) => appliedAll lib sink old bonus (i + 1) ps s
    | r => r

variable {lib : PatchLib} {sink : Sink σ} {old : Bytes} {bonus : Option Bytes}

theorem applyBSDiffPatch_drop {src patch : Bytes} {offset : Nat} (h : offset ≤ patch.length)
    (s : σ) :
    applyBSDiffPatch lib sink src patch offset s
      = applyBSDiffPatch lib sink src (patch.drop offset) 0 s := by
  unfold applyBSDiffPatch
  rw [if_neg (by omega), if_neg (by omega), drop_zero]

theorem streamOutput_drop {src patch : Bytes} {offset : Nat} (h : offset ≤ patch.length)
    (expected : Nat) (params : DeflateParams) (s : σ) :
    applyBSDiffPatchAndStreamOutput lib sink src patch offset expected params s
      = applyBSDiffPatchAndStreamOutput lib sink src (patch.drop offset) 0 expected params s := by
  unfold applyBSDiffPatchAndStreamOutput
  rw [applyBSDiffPatch_drop h]

/-! ## What the decoder reads

One lemma for each type of chunk, about a header that stands at `pos` and whose patch is at
`offset`. -/

variable {p : PatchChunk} {patch : Bytes} {pos offset : Nat}

theorem applyNormalChunk_written (hp : p.Fits) (ht : p.type = .normal)
    (hat : StandsAt patch pos (p.headerFields offset)) (hoff : offset ≤ patch.length)
    (hlen : patch.length < 2 ^ 64) (bonus : Option Bytes) (i : Nat) (s : σ) :
    applyNormalChunk lib sink old patch pos s
      = applied lib sink old bonus i p (patch.drop offset) s := by
  unfold headerFields at hat
  rw [ht] at hat
  have h₁ := read8_write8 hp.sourceStart hat.left
  have h₂ := read8_write8 hp.sourceLen hat.right.left
  have h₃ := read8_write8 (Nat.lt_of_le_of_lt hoff hlen) hat.right.right
  simp only [write8_length] at h₂ h₃
  unfold applyNormalChunk applied
  dsimp only
  rw [h₁, h₂, h₃, ht, applyBSDiffPatch_drop hoff]

theorem applyDeflateChunk_written (hp : p.Fits) (ht : p.type = .deflate)
    (hat : StandsAt patch pos (p.headerFields offset)) (hoff : offset ≤ patch.length)
    (hlen : patch.length < 2 ^ 64) (i : Nat) (s : σ) :
    applyDeflateChunk lib sink old patch (if i = 1 then bonus.getD [] else []) pos s
      = applied lib sink old bonus i p (patch.drop offset) s := by
  unfold headerFields at hat
  rw [ht] at hat
  have h₁ := read8_write8 hp.sourceStart hat.left
  have h₂ := read8_write8 hp.sourceLen hat.right.left
  have h₃ := read8_write8 (Nat.lt_of_le_of_lt hoff hlen) hat.right.right.left
  have h₄ := read8_write8 hp.sourceUncompressedLen hat.right.right.right.left
  have hrest := hat.right.right.right.right
  have h₅ := read8_write8 hp.targetUncompressedLen hrest.left
  have h₆ := read4_write4 hp.level hrest.right.left
  have h₇ := read4_write4 (by unfold IsInt METHOD; omega) hrest.right.right.left
  have h₈ := read4_write4 (by unfold IsInt WINDOWBITS; omega)
    hrest.right.right.right.left
  have h₉ := read4_write4 (by unfold IsInt MEMLEVEL; omega)
    hrest.right.right.right.right.left
  have h₁₀ := read4_write4 (by unfold IsInt STRATEGY; omega)
    hrest.right.right.right.right.right
  simp only [write8_length, write4_length]
    at h₂ h₃ h₄ h₅ h₆ h₇ h₈ h₉ h₁₀
  unfold applyDeflateChunk applied
  dsimp only
  rw [h₁, h₂, h₃, h₄, h₅, h₆, h₇, h₈, h₉, h₁₀, ht]
  split
  · rfl
  · cases expandSource lib (sliceOf old p.sourceStart p.sourceLen)
        (if i = 1 then bonus.getD [] else []) p.sourceUncompressedLen with
    | none => rfl
    | some expanded => exact streamOutput_drop hoff _ _ s

theorem rawLength_written (ht : p.type = .raw) (hraw : p.data.length < 2 ^ 31)
    (hat : StandsAt patch pos (p.headerFields offset)) : rawLength patch pos = p.data.length := by
  unfold headerFields at hat
  rw [ht] at hat
  rw [rawLength, read4_write4Size hraw hat.left]
  unfold unsigned
  omega

theorem applyRawChunk_written (ht : p.type = .raw)
    (hat : StandsAt patch pos (p.headerFields offset)) (hlen : patch.length < 2 ^ 64)
    (lib : PatchLib) (old : Bytes) (bonus : Option Bytes) (i : Nat)
    (tail : Bytes) (s : σ) :
    applyRawChunk sink patch (pos + 4) p.data.length s = applied lib sink old bonus i p tail s := by
  unfold headerFields at hat
  rw [ht] at hat
  have hle := hat.le (by
    intro h
    have := congrArg List.length h
    rw [length_append, write4Size_length, length_nil] at this
    omega)
  have hdata := hat.right.sliceOf_eq
  rw [length_append, write4Size_length] at hle
  rw [write4Size_length] at hdata
  unfold applyRawChunk applied
  rw [if_neg (by omega), hdata, ht]

theorem applyChunk_written (hp : p.Fits)
    (hat : StandsAt patch pos (p.writeHeaderToFd offset).1) (hoff : offset ≤ patch.length)
    (hlen : patch.length < 2 ^ 64) (i : Nat) (s : σ) :
    applyChunk lib sink old patch bonus i pos s
      = (applied lib sink old bonus i p (patch.drop offset) s, pos + p.getHeaderSize) := by
  have hsize := p.writeHeaderToFd_length offset
  have hle := hat.le (by
    intro h
    rw [h] at hsize
    unfold getHeaderSize at hsize
    cases ht : p.type <;> rw [ht] at hsize <;> simp only [length_nil] at hsize <;> omega)
  rw [hsize] at hle
  have hfields := hat.right
  rw [write4_length] at hfields
  have htype := read4_write4
    (by cases p.type <;>
          simp only [IsInt, ChunkType.code, CHUNK_NORMAL, CHUNK_DEFLATE, CHUNK_RAW] <;> omega)
    hat.left
  unfold getHeaderSize at hle ⊢
  unfold applyChunk
  rw [htype]
  cases ht : p.type with
  | normal =>
    rw [ht] at hle
    dsimp only at hle
    rw [if_neg (by omega), if_pos (by decide),
      if_neg (by omega), applyNormalChunk_written hp ht hfields hoff hlen bonus i]
    rfl
  | deflate =>
    rw [ht] at hle
    dsimp only at hle
    rw [if_neg (by omega), if_neg (by decide), if_neg (by decide),
      if_pos (by decide), if_neg (by omega), applyDeflateChunk_written hp ht hfields hoff hlen i]
    rfl
  | raw =>
    rw [ht] at hle
    dsimp only at hle ⊢
    rw [if_neg (by omega), if_neg (by decide), if_pos (by decide), if_neg (by omega),
      rawLength_written ht (hp.raw ht) hfields,
      applyRawChunk_written ht hfields hlen lib old bonus i (patch.drop offset) s,
      Nat.mod_eq_of_lt (by omega), Nat.add_assoc, Nat.add_assoc, Nat.add_assoc]

/-- The loop over the chunks, from a place where the headers of `ps` stand on. -/
theorem applyChunks_written (hlen : patch.length < 2 ^ 64) : ∀ (ps : List PatchChunk)
    (pos offset i : Nat) (s : σ), (∀ p ∈ ps, p.Fits) →
    StandsAt patch pos (headers offset ps) → offset ≤ patch.length →
    patch.drop offset = bodies ps →
    applyChunks lib sink old patch bonus ps.length i pos s = appliedAll lib sink old bonus i ps s
  | [], _, _, _, _, _, _, _, _ => rfl
  | p :: ps, pos, offset, i, s, hfits, hat, hoff, htail => by
    have hchunk : applyChunk lib sink old patch bonus i pos s = _ :=
      applyChunk_written (hfits p mem_cons_self) hat.left hoff hlen i s
    have hnext := hat.right
    rw [writeHeaderToFd_length] at hnext
    -- The offset of the next patch is where the rest of the bodies starts.
    have hrest : patch.drop (p.writeHeaderToFd offset).2 = bodies ps := by
      change patch.drop (offset + p.body.length) = _
      rw [← drop_drop, htail, bodies_cons, drop_left]
    have hoff' : (p.writeHeaderToFd offset).2 ≤ patch.length := by
      have hlen' := congrArg List.length htail
      rw [length_drop, bodies_cons, length_append] at hlen'
      change offset + p.body.length ≤ _
      omega
    rw [length_cons, applyChunks, hchunk, htail, appliedAll]
    cases hr : applied lib sink old bonus i p (bodies (p :: ps)) s with
    | mk s' status =>
      cases status with
      | success =>
        exact applyChunks_written hlen ps _ _ (i + 1) s'
          (fun q hq => hfits q (mem_cons_of_mem p hq)) hnext hoff' hrest
      | failure => rfl
      | abort => rfl

theorem applyImagePatch_written {ps : List PatchChunk} (hcount : ps.length < 2 ^ 31)
    (hfits : ∀ p ∈ ps, p.Fits) (hlen : (writePatchDataToFd ps).length < 2 ^ 64)
    (s : σ) :
    applyImagePatch lib sink old (writePatchDataToFd ps) bonus s
      = appliedAll lib sink old bonus 0 ps s := by
  have hmagic : StandsAt (writePatchDataToFd ps) 0 (imgdiffMagic ++ (write4Size ps.length ++
        (headers (12 + (ps.map getHeaderSize).sum) ps
          ++ bodies ps))) := ⟨[], (append_nil _).symm⟩
  have hsize := writePatchDataToFd_length ps
  rw [sum_patchSize] at hsize
  have h12 : imgdiffMagic.length = 8 := rfl
  have hcount' := read4_write4Size hcount hmagic.right.left
  have hheaders := hmagic.right.right.left
  rw [h12] at hcount'
  have hbodies : (writePatchDataToFd ps).drop (12 + (ps.map getHeaderSize).sum) = bodies ps := by
    obtain ⟨rest, hrest⟩ := hmagic.right.right.right
    rw [write4Size_length, headers_length] at hrest
    have hrest' : rest = [] := by
      have := congrArg List.length hrest
      rw [length_drop, length_append] at this
      exact length_eq_zero_iff.mp (by omega)
    rw [hrest', append_nil] at hrest
    exact hrest
  unfold applyImagePatch
  rw [if_neg (by omega), if_neg, hcount']
  · exact applyChunks_written hlen ps 12 _ 0 s hfits hheaders (by omega) hbodies
  · rw [not_not]
    exact hmagic.left.sliceOf_eq

end Applied

end Pterodon.ImgDiff
