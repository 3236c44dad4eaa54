import Pterodon.Lib.Reads
import Pterodon.Lib.Zlib
import Pterodon.ImgDiff.Tiling

/-!
# Checking that a chunk can be rebuilt

`TryReconstruction` deflates the contents of a chunk again and compares what comes out with the
file, a buffer at a time, from the start of the chunk on. Whether as much came out as the chunk
has is only looked at when the stream has ended. Up to there nothing keeps the comparison inside
the chunk, nor inside the file.

The check gives the right answer (`compareLoop_eq`), and `reconstructDeflateChunk_iff` says when it
does so without looking past the end of the file.
-/

namespace Pterodon.ImgDiff.Reconstruction

open Lib Lib.Zlib ApplyPatch ImageChunk List

/-! ## The code -/

def BUFFER_SIZE : Nat := 0x8000

section Code

variable {ζ : Type}

/-- The loop of `TryReconstruction` and the test behind it; `none` when it took more than `fuel`
rounds. `memcmp` looks at as many bytes of the file as `deflate` put out. -/
def compareLoop (zlib : Deflate DeflateParams ζ) (start rawDataLen : Nat) :
    Nat → ζ → Bytes → Nat → Reads (Option Bool)
  | 0, _, _, _ => pure none
  | fuel + 1, strm, input, offset =>
    let call := zlib.deflate strm input BUFFER_SIZE true
    if call.ret = .error then pure (some false)
    else do
      let bytes ← Reads.slice (start + offset) call.out.length
      if bytes ≠ call.out then pure (some false)
      else if call.ret ≠ .streamEnd then
        compareLoop zlib start rawDataLen fuel call.strm call.rest (offset + call.out.length)
      else pure (some (decide (offset + call.out.length = rawDataLen)))

/-- `TryReconstruction`, on the file of the chunk. -/
def tryReconstruction (zlib : Deflate DeflateParams ζ) (fuel : Nat) (c : ImageChunk) (level : Int) :
    Reads (Option Bool) :=
  match zlib.deflateInit (deflateParams level) with
  | none => pure (some false)
  | some strm =>
    -- `avail_in` has 32 bits.
    compareLoop zlib c.start c.rawDataLen fuel strm
      (c.uncompressedData.take (c.uncompressedData.length % 2 ^ 32)) 0

def tryLevels (zlib : Deflate DeflateParams ζ) (fuel : Nat) (c : ImageChunk) :
    List Int → Reads (Option (Option ImageChunk))
  | [] => pure (some none)
  | level :: levels => do
    match ← tryReconstruction zlib fuel c level with
    | none => pure none
    | some true => pure (some (some { c with compressLevel := level }))
    | some false => tryLevels zlib fuel c levels

/-- `ReconstructDeflateChunk`: the chunk with its level, or `none` if it returns false. -/
def reconstructDeflateChunk (zlib : Deflate DeflateParams ζ) (fuel : Nat) (c : ImageChunk) :
    Reads (Option (Option ImageChunk)) :=
  if c.type ≠ .deflate then pure (some none) else tryLevels zlib fuel c [6, 9]

end Code

/-! ## Buffers -/

/-- Buffers as `deflate` fills them: all but the last are full. -/
inductive Filled (room : Nat) : List Bytes → Prop
  | last {b : Bytes} (h : b.length ≤ room) : Filled room [b]
  | cons {b : Bytes} {bufs : List Bytes} (h : b.length = room)
      (rest : Filled room bufs) : Filled room (b :: bufs)

/-- How far two byte strings agree. -/
def commonPrefix : Bytes → Bytes → Nat
  | x :: xs, y :: ys => if x = y then commonPrefix xs ys + 1 else 0
  | _, _ => 0

/-- The number of bytes that are compared when `out` comes in buffers of size `room`: it ends with
the buffer that has the first difference. -/
def compared (room : Nat) (out bytes : Bytes) : Nat :=
  min out.length ((commonPrefix out bytes / room + 1) * room)

/-- The indices that the comparison of `bufs` looks at. -/
def comparedAt (file : Bytes) (start : Nat) : Nat → List Bytes → List Nat
  | _, [] => []
  | offset, b :: bufs =>
    List.range' (start + offset) b.length ++
      if sliceOf file (start + offset) b.length = b then
        comparedAt file start (offset + b.length) bufs
      else []

section Buffers

variable {ζ : Type} {zlib : Deflate DeflateParams ζ} {room : Nat} {z z' : ζ}
  {input : Bytes} {bufs : List Bytes}

theorem filled_of_finishes
    (hle : ∀ z input finish, (zlib.deflate z input room finish).out.length ≤ room)
    (h : Finishes zlib room z input bufs z') : Filled room bufs := by
  induction h with
  | last hcall _ => exact .last (hcall ▸ hle _ _ _)
  | more _ _ hfull _ ih => exact .cons hfull ih

variable {b ys : Bytes}

theorem commonPrefix_append (xs : Bytes) (h : ys.take b.length = b) :
    commonPrefix (b ++ xs) ys = b.length + commonPrefix xs (ys.drop b.length) := by
  induction b generalizing ys with
  | nil => simp
  | cons x b ih =>
    cases ys with
    | nil => simp at h
    | cons y ys =>
      obtain ⟨rfl, hrest⟩ : y = x ∧ ys.take b.length = b := by simpa using h
      simp only [cons_append, commonPrefix, if_true, length_cons, drop_succ_cons, ih hrest]
      omega

theorem commonPrefix_lt (xs : Bytes) (h : ys.take b.length ≠ b) :
    commonPrefix (b ++ xs) ys < b.length := by
  induction b generalizing ys with
  | nil => simp at h
  | cons x b ih =>
    cases ys with
    | nil => simp [commonPrefix]
    | cons y ys =>
      simp only [cons_append, commonPrefix]
      split
      · next hxy =>
        subst hxy
        have hrest : ys.take b.length ≠ b := by simpa using h
        exact Nat.succ_lt_succ (ih hrest)
      · exact Nat.succ_pos _

theorem compared_append (xs : Bytes) (hroom : 0 < room) (hfull : b.length = room)
    (h : ys.take b.length = b) :
    compared room (b ++ xs) ys = room + compared room xs (ys.drop room) := by
  rw [compared, compared, commonPrefix_append xs h, hfull, Nat.add_div_left _ hroom,
    length_append, hfull, Nat.succ_mul, Nat.add_comm _ room, Nat.add_min_add_left]

theorem compared_differs (xs : Bytes) (hfull : b.length = room) (h : ys.take b.length ≠ b) :
    compared room (b ++ xs) ys = room := by
  have hlt : commonPrefix (b ++ xs) ys < room := hfull ▸ commonPrefix_lt xs h
  rw [compared, Nat.div_eq_of_lt hlt, Nat.one_mul, length_append, hfull]
  exact Nat.min_eq_right (Nat.le_add_right _ _)

theorem comparedAt_eq (hroom : 0 < room) (h : Filled room bufs) (file : Bytes)
    (start offset : Nat) :
    comparedAt file start offset bufs =
      List.range' (start + offset) (compared room bufs.flatten (file.drop (start + offset))) := by
  induction h generalizing offset with
  | @last b hle =>
    have hall : compared room [b].flatten (file.drop (start + offset)) = b.length := by
      rw [compared, flatten_singleton, Nat.min_eq_left]
      exact Nat.le_trans hle (Nat.le_mul_of_pos_left _ (Nat.succ_pos _))
    rw [hall, comparedAt]
    split <;> simp [comparedAt]
  | @cons b bufs hfull rest ih =>
    rw [comparedAt, flatten_cons]
    by_cases hsame : sliceOf file (start + offset) b.length = b
    · rw [if_pos hsame, ih, compared_append _ hroom hfull hsame, drop_drop, hfull,
        ← Nat.add_assoc, range'_append_1]
    · rw [if_neg hsame, compared_differs _ hfull hsame, hfull, append_nil]

theorem compareLoop_succ {call : Call ζ} (hcall : zlib.deflate z input BUFFER_SIZE true = call)
    (hret : call.ret ≠ .error) (start rawDataLen fuel offset : Nat) (file : Bytes) :
    compareLoop zlib start rawDataLen (fuel + 1) z input offset file =
      if sliceOf file (start + offset) call.out.length = call.out then
        if call.ret = .streamEnd then
          (some (decide (offset + call.out.length = rawDataLen)),
            List.range' (start + offset) call.out.length)
        else
          let rest := compareLoop zlib start rawDataLen fuel call.strm call.rest
            (offset + call.out.length) file
          (rest.1, range' (start + offset) call.out.length ++ rest.2)
      else (some false, range' (start + offset) call.out.length) := by
  rw [compareLoop]
  simp only [hcall, if_neg hret]
  show Reads.bind _ _ file = _
  unfold Reads.bind Reads.slice
  by_cases hsame : sliceOf file (start + offset) call.out.length = call.out
  · rw [if_pos hsame]
    unfold sliceOf at hsame
    by_cases hend : call.ret = .streamEnd
    · simp [hsame, hend, pure, Reads.pure]
    · simp [hsame, hend]
  · rw [if_neg hsame]
    unfold sliceOf at hsame
    simp [hsame, pure, Reads.pure]

theorem compareLoop_eq (h : Finishes zlib BUFFER_SIZE z input bufs z') (start rawDataLen : Nat)
    (file : Bytes) :
    ∀ fuel ≥ bufs.length, ∀ offset,
      compareLoop zlib start rawDataLen fuel z input offset file =
        (some (decide (compareBuffers file start offset bufs = some rawDataLen)),
          comparedAt file start offset bufs) := by
  induction h with
  | @last z input call hcall hret =>
    intro fuel hfuel offset
    obtain ⟨fuel, rfl⟩ := Nat.exists_eq_add_of_le' hfuel
    have herr : call.ret ≠ .error := by rw [hret]; decide
    rw [length_singleton, compareLoop_succ hcall herr]
    simp only [compareBuffers, comparedAt]
    split <;> simp
  | @more z z' input call bufs hcall hret hfull _ ih =>
    intro fuel hfuel offset
    obtain ⟨fuel, rfl⟩ := Nat.exists_eq_add_of_le' hfuel
    have herr : call.ret ≠ .error := by rw [hret]; decide
    have hgo : call.ret ≠ .streamEnd := by rw [hret]; decide
    rw [length_cons, ← Nat.add_assoc, compareLoop_succ hcall herr, ih _ (Nat.le_add_left _ _)]
    simp only [compareBuffers, comparedAt]
    split <;> simp

end Buffers

/-! ## The check -/

/-- The comparison of a chunk with `out` stays inside the file. -/
def Within (c : ImageChunk) (out : Bytes) : Prop :=
  c.start + compared BUFFER_SIZE out (c.inputFile.drop c.start) ≤ c.inputFile.length

/-- What the check is for: it finds the first of the two levels at which `encode` gives back the
bytes of the chunk, and looks at the file only. -/
structure Checked (encode : Int → Bytes → Bytes) (c : ImageChunk)
    (result : Option ImageChunk) (looked : List Nat) : Prop where
  level : result =
    if encode 6 c.uncompressedData = c.raw then some { c with compressLevel := 6 }
    else if encode 9 c.uncompressedData = c.raw then some { c with compressLevel := 9 }
    else none
  inside : ∀ i ∈ looked, i < c.inputFile.length

section Check

variable {ζ : Type} {zlib : Deflate DeflateParams ζ} {encode : Int → Bytes → Bytes}
  {c : ImageChunk} {level : Int}

theorem BUFFER_SIZE_pos : 0 < BUFFER_SIZE := by decide

/-- One level: whether `out` is the chunk, and what is looked at to find out. -/
theorem tryReconstruction_eq (spec : DeflateSpec zlib (deflateParams level) (encode level))
    (hinit : (zlib.deflateInit (deflateParams level)).isSome)
    (hin : c.start + c.rawDataLen ≤ c.inputFile.length)
    (hlen : c.uncompressedData.length < 2 ^ 32) :
    ∃ n, ∀ fuel ≥ n, tryReconstruction zlib fuel c level c.inputFile =
      (some (decide (encode level c.uncompressedData = c.raw)),
        List.range' c.start (compared BUFFER_SIZE (encode level c.uncompressedData)
          (c.inputFile.drop c.start))) := by
  obtain ⟨z, hz⟩ := Option.isSome_iff_exists.1 hinit
  obtain ⟨bufs, z', hfin, hout, -⟩ :=
    spec.finishes BUFFER_SIZE_pos (spec.start (spec.init hz) c.uncompressedData)
  rw [nil_append, nil_append] at hout
  refine ⟨bufs.length, fun fuel hfuel => ?_⟩
  have hfilled := filled_of_finishes (fun z input finish => spec.out_le z input _ finish) hfin
  simp only [tryReconstruction, hz, Nat.mod_eq_of_lt hlen, take_length]
  rw [compareLoop_eq hfin _ _ _ fuel hfuel, comparedAt_eq BUFFER_SIZE_pos hfilled, hout]
  congr 2
  rw [decide_eq_decide, compareBuffers_iff, hout, Nat.add_zero, Nat.zero_add]
  constructor
  · intro h
    rw [ImageChunk.raw, h.1, h.2]
  · intro h
    have hsize : c.rawDataLen = (encode level c.uncompressedData).length := by
      rw [h, ImageChunk.raw, sliceOf_length hin]
    exact ⟨hsize, by rw [← hsize, h, ImageChunk.raw]⟩

theorem tryLevels_cons {fuel : Nat} {ok : Bool} {looked : List Nat} (levels : List Int)
    (h : tryReconstruction zlib fuel c level c.inputFile = (some ok, looked)) :
    tryLevels zlib fuel c (level :: levels) c.inputFile =
      if ok then (some (some { c with compressLevel := level }), looked)
      else
        ((tryLevels zlib fuel c levels c.inputFile).1,
          looked ++ (tryLevels zlib fuel c levels c.inputFile).2) := by
  rw [tryLevels]
  show Reads.bind _ _ c.inputFile = _
  unfold Reads.bind
  rw [h]
  cases ok
  · rfl
  · simp [pure, Reads.pure]

theorem forall_range'_lt {start n len : Nat} (h : start ≤ len) :
    (∀ i ∈ List.range' start n, i < len) ↔ start + n ≤ len := by
  constructor
  · intro hall
    rcases Nat.eq_zero_or_pos n with rfl | hpos
    · exact h
    · have := hall (start + n - 1) (mem_range'_1.2 (by omega))
      omega
  · intro hle i hi
    have := (mem_range'_1.1 hi).2
    omega

/-- The stretch of the file that is looked at for a level. -/
def stretch (encode : Int → Bytes → Bytes) (c : ImageChunk) (level : Int) : List Nat :=
  List.range' c.start (compared BUFFER_SIZE (encode level c.uncompressedData)
    (c.inputFile.drop c.start))

theorem within_iff (hin : c.start + c.rawDataLen ≤ c.inputFile.length) :
    (∀ i ∈ stretch encode c level, i < c.inputFile.length) ↔
      Within c (encode level c.uncompressedData) :=
  forall_range'_lt (Nat.le_trans (Nat.le_add_right _ _) hin)

theorem reconstructDeflateChunk_eq
    (spec : ∀ level, DeflateSpec zlib (deflateParams level) (encode level))
    (hinit : ∀ level, (zlib.deflateInit (deflateParams level)).isSome)
    (htype : c.type = .deflate) (hin : c.start + c.rawDataLen ≤ c.inputFile.length)
    (hlen : c.uncompressedData.length < 2 ^ 32) :
    ∃ n, ∀ fuel ≥ n, reconstructDeflateChunk zlib fuel c c.inputFile =
      if encode 6 c.uncompressedData = c.raw then
        (some (some { c with compressLevel := 6 }), stretch encode c 6)
      else
        (some (if encode 9 c.uncompressedData = c.raw then some { c with compressLevel := 9 }
          else none), stretch encode c 6 ++ stretch encode c 9) := by
  obtain ⟨n6, h6⟩ := tryReconstruction_eq (spec 6) (hinit 6) hin hlen
  obtain ⟨n9, h9⟩ := tryReconstruction_eq (spec 9) (hinit 9) hin hlen
  refine ⟨max n6 n9, fun fuel hfuel => ?_⟩
  rw [reconstructDeflateChunk, if_neg (not_not_intro htype),
    tryLevels_cons _ (h6 fuel (by omega)), tryLevels_cons _ (h9 fuel (by omega))]
  by_cases hsix : encode 6 c.uncompressedData = c.raw
  · simp [hsix, stretch]
  · by_cases hnine : encode 9 c.uncompressedData = c.raw
    · simp [hnine, stretch]
    · simp [hnine, stretch, tryLevels, pure, Reads.pure]

theorem eventually_iff {α : Type} {m : Nat → Reads (Option α)} {file : Bytes} {n : Nat}
    {result : α} {looked : List Nat} (h : ∀ fuel ≥ n, m fuel file = (some result, looked))
    {P : α → List Nat → Prop} :
    (∃ n, ∀ fuel ≥ n, ∃ r, (m fuel).run file = some r ∧ P r ((m fuel).indices file)) ↔
      P result looked := by
  unfold Reads.run Reads.indices
  constructor
  · intro hsome
    obtain ⟨k, hk⟩ := hsome
    obtain ⟨r, hr, hp⟩ := hk (max n k) (Nat.le_max_right _ _)
    rw [h _ (Nat.le_max_left _ _)] at hr hp
    exact Option.some.inj hr ▸ hp
  · intro hp
    refine ⟨n, fun fuel hfuel => ⟨result, ?_⟩⟩
    rw [h fuel hfuel]
    exact ⟨rfl, hp⟩

/-- The check does what it is for exactly when the comparison stays inside the file, at level 6
and, if that does not give back the chunk, at level 9. -/
theorem reconstructDeflateChunk_iff
    (spec : ∀ level, DeflateSpec zlib (deflateParams level) (encode level))
    (hinit : ∀ level, (zlib.deflateInit (deflateParams level)).isSome) (c : ImageChunk)
    (htype : c.type = .deflate) (hin : c.start + c.rawDataLen ≤ c.inputFile.length)
    (hlen : c.uncompressedData.length < 2 ^ 32) :
    (∃ n, ∀ fuel ≥ n, ∃ result,
      (reconstructDeflateChunk zlib fuel c).run c.inputFile = some result ∧
      Checked encode c result ((reconstructDeflateChunk zlib fuel c).indices c.inputFile)) ↔
      Within c (encode 6 c.uncompressedData) ∧
        (encode 6 c.uncompressedData ≠ c.raw → Within c (encode 9 c.uncompressedData)) := by
  obtain ⟨n, hrun⟩ := reconstructDeflateChunk_eq spec hinit htype hin hlen
  rw [← within_iff hin, ← within_iff hin]
  by_cases hsix : encode 6 c.uncompressedData = c.raw
  · simp only [if_pos hsix] at hrun
    rw [eventually_iff hrun]
    refine ⟨fun h => ⟨h.inside, fun hne => absurd hsix hne⟩, fun h => ⟨?_, h.1⟩⟩
    rw [if_pos hsix]
  · simp only [if_neg hsix] at hrun
    rw [eventually_iff hrun]
    refine ⟨fun h => ?_, fun h => ⟨?_, forall_mem_append.2 ⟨h.1, h.2 hsix⟩⟩⟩
    · have hboth := forall_mem_append.1 h.inside
      exact ⟨hboth.1, fun _ => hboth.2⟩
    · rw [if_neg hsix]

end Check

namespace Sample

/-- Whatever the data and the level, three bytes come out. -/
def zlib : Deflate DeflateParams (Held DeflateParams) := Held.zlib fun _ _ => [1, 2, 3]

/-- A chunk at the start of `file`. -/
def chunk (file : Bytes) (rawDataLen : Nat) : ImageChunk where
  type := .deflate
  start := 0
  inputFile := file
  rawDataLen := rawDataLen
  uncompressedData := [9]

/-- The chunk is all of a file with two bytes, and three are compared with it: the third is behind
the end of the file. -/
theorem compares_past_end :
    (chunk [1, 2] 2).start + (chunk [1, 2] 2).rawDataLen = (chunk [1, 2] 2).inputFile.length ∧
      ∀ fuel, (chunk [1, 2] 2).inputFile.length ∈
        (reconstructDeflateChunk zlib (fuel + 1) (chunk [1, 2] 2)).indices
          (chunk [1, 2] 2).inputFile := by
  refine ⟨rfl, fun fuel => ?_⟩
  have hcall : zlib.deflate (.reading (deflateParams 6) []) [9] BUFFER_SIZE true =
      ⟨.ended, [], [1, 2, 3], .streamEnd⟩ := rfl
  have htry : tryReconstruction zlib (fuel + 1) (chunk [1, 2] 2) 6 [1, 2] =
      (some false, [0, 1, 2]) :=
    compareLoop_succ hcall (by decide) 0 2 fuel 0 [1, 2]
  rw [Reads.indices, reconstructDeflateChunk, if_neg (by decide), tryLevels_cons [9] htry]
  simp [chunk]

theorem reconstructs_at_six : ∃ n, ∀ fuel ≥ n, ∃ result,
      (reconstructDeflateChunk zlib fuel (chunk [1, 2, 3] 3)).run [1, 2, 3] = some result ∧
      Checked (fun _ _ => [1, 2, 3]) (chunk [1, 2, 3] 3) result
        ((reconstructDeflateChunk zlib fuel (chunk [1, 2, 3] 3)).indices [1, 2, 3]) :=
  (reconstructDeflateChunk_iff (fun level => Held.spec _ (deflateParams level)) (fun _ => rfl)
    (chunk [1, 2, 3] 3) rfl (by decide) (by decide)).2
    ⟨by unfold Within; decide +kernel, fun h => absurd rfl h⟩

end Sample

end Pterodon.ImgDiff.Reconstruction
