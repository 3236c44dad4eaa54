import Pterodon.ApplyPatch.ImgPatch
import Pterodon.Lib.Zlib

/-!
# Recompressing a stream

`ApplyBSDiffPatchAndStreamOutput` deflates what `bspatch` hands it, piece by piece, and passes
the deflated bytes on. `compressionSink` takes a whole piece through `deflate` at once; here is
the loop that does so, one `deflate` call and one buffer at a time, with its tests on
`avail_in`, `avail_out` and the return code.

What a stream has read and put out is a relation that the calls maintain (`DeflateSpec`), and
from it follows what one piece yields (`Yields`), then what all pieces do (`bspatchFeed_spec`).
The stream is finished by the piece that reaches the expected length. A patch that yields
nothing has no such piece: where nothing is expected, the function fails all the same.
-/

namespace Pterodon.ApplyPatch.Recompression

open Lib Lib.Zlib List

/-! ## The code -/

def bufferSize : Nat := 32768

/-- The variables that `compression_sink` captures. -/
structure Stream (ζ σ : Type) where
  strm : ζ
  actualTargetLength : Nat
  ret : Ret
  inner : σ

/-- The condition of the loop in `compression_sink`. -/
def again {ζ : Type} (call : Call ζ) : Bool :=
  (call.rest ≠ [] || call.out.length = bufferSize) && call.ret ≠ .streamEnd

section Code

variable {ζ σ : Type}

/-- The loop, at most `fuel` rounds of it. The flag says whether it ran to its end. -/
def deflateLoop (zlib : Deflate DeflateParams ζ) (sink : Sink σ) (finish : Bool) :
    Nat → Bytes → Stream ζ σ → Option (Stream ζ σ × Bool)
  | 0, _, _ => none
  | fuel + 1, input, st =>
    let call := zlib.deflate st.strm input bufferSize finish
    if call.ret = .error then some ({ st with strm := call.strm, ret := call.ret }, false)
    else
      let r := sink st.inner call.out
      let st := { st with strm := call.strm, ret := call.ret, inner := r.1 }
      if r.2 ≠ call.out.length then some (st, false)
      else if again call then deflateLoop zlib sink finish fuel call.rest st
      else some (st, true)

/-- `compression_sink`. `avail_in` has 32 bits. -/
def compressionSink (zlib : Deflate DeflateParams ζ) (sink : Sink σ) (expected fuel : Nat)
    (st : Stream ζ σ)
    (data : Bytes) : Option (Stream ζ σ × Nat) :=
  let finish := !decide (st.actualTargetLength + data.length < expected)
  match deflateLoop zlib sink finish fuel (data.take (data.length % 2 ^ 32)) st with
  | none => none
  | some (st, false) => some (st, 0)
  | some (st, true) =>
    some ({ st with actualTargetLength := st.actualTargetLength + data.length }, data.length)

/-- `bspatch` hands its pieces to the sink until one is not taken whole. -/
def bspatchFeed (zlib : Deflate DeflateParams ζ) (sink : Sink σ) (expected fuel : Nat) :
    List Bytes → Stream ζ σ → Option (Stream ζ σ × Bool)
  | [], st => some (st, true)
  | x :: xs, st =>
    match compressionSink zlib sink expected fuel st x with
    | none => none
    | some (st, n) =>
      if n = x.length then bspatchFeed zlib sink expected fuel xs st else some (st, false)

def applyBSDiffPatchAndStreamOutput (zlib : Deflate DeflateParams ζ) (lib : PatchLib)
    (sink : Sink σ) (fuel : Nat)
    (src patch : Bytes) (patchOffset expected : Nat) (params : DeflateParams) (s : σ) :
    Option (σ × PatchStatus) :=
  match zlib.deflateInit params with
  | none => some (s, .failure)
  | some strm =>
    if patch.length < patchOffset then some (s, .abort)
    else
      let (pieces, ok) := lib.bspatch src (patch.drop patchOffset)
      match bspatchFeed zlib sink expected fuel pieces ⟨strm, 0, .ok, s⟩ with
      | none => none
      | some (st, taken) =>
        some (st.inner,
          if (taken && ok) ∧ st.ret = .streamEnd ∧ expected = st.actualTargetLength then
            .success
          else .failure)

/-- Hand every buffer to the sink, the empty ones too, until it refuses one. -/
def deliver (sink : Sink σ) : List Bytes → σ → σ × Bool
  | [], s => (s, true)
  | x :: xs, s =>
    let r := sink s x
    if r.2 = x.length then deliver sink xs r.1 else (r.1, false)

theorem deliver_append (sink : Sink σ) (xs ys : List Bytes) (s : σ) : deliver sink (xs ++ ys) s =
      if (deliver sink xs s).2 then deliver sink ys (deliver sink xs s).1
      else deliver sink xs s := by
  induction xs generalizing s with
  | nil => rfl
  | cons x xs ih =>
    simp only [cons_append, deliver]
    split
    · exact ih _
    · rfl

end Code

/-! ## One piece -/

/-- The loop on `input` yields `bufs`, if every buffer is taken, and leaves the stream at `z'`. -/
inductive Yields {ζ : Type} (zlib : Deflate DeflateParams ζ) (finish : Bool) :
    ζ → Bytes → List Bytes → ζ → Ret → Prop
  | last {z : ζ} {input : Bytes} {call : Call ζ}
      (hcall : zlib.deflate z input bufferSize finish = call) (hret : call.ret ≠ .error)
      (hstop : again call = false) : Yields zlib finish z input [call.out] call.strm call.ret
  | more {z z' : ζ} {input : Bytes} {call : Call ζ} {bufs : List Bytes}
      {ret : Ret} (hcall : zlib.deflate z input bufferSize finish = call)
      (hret : call.ret ≠ .error) (hagain : again call = true)
      (rest : Yields zlib finish call.strm call.rest bufs z' ret) :
      Yields zlib finish z input (call.out :: bufs) z' ret

section Piece

variable {ζ σ : Type} {zlib : Deflate DeflateParams ζ} {finish : Bool} {z z' : ζ} {input : Bytes}
  {bufs : List Bytes} {ret : Ret}

theorem deflateLoop_succ {call : Call ζ} (sink : Sink σ) (fuel : Nat) (st : Stream ζ σ)
    (hcall : zlib.deflate st.strm input bufferSize finish = call) (hret : call.ret ≠ .error) :
    deflateLoop zlib sink finish (fuel + 1) input st =
      if (sink st.inner call.out).2 = call.out.length then
        if again call then
          deflateLoop zlib sink finish fuel call.rest
            ⟨call.strm, st.actualTargetLength, call.ret, (sink st.inner call.out).1⟩
        else
          some (⟨call.strm, st.actualTargetLength, call.ret, (sink st.inner call.out).1⟩, true)
      else some (⟨call.strm, st.actualTargetLength, call.ret, (sink st.inner call.out).1⟩,
        false) := by
  rw [deflateLoop]
  simp only [hcall, if_neg hret, ite_not]

theorem Yields.deflateLoop (h : Yields zlib finish z input bufs z' ret) (sink : Sink σ) :
    ∀ fuel ≥ bufs.length, ∀ st : Stream ζ σ, st.strm = z →
      ∃ st', deflateLoop zlib sink finish fuel input st =
          some (st', (deliver sink bufs st.inner).2) ∧
        st'.inner = (deliver sink bufs st.inner).1 ∧
        ((deliver sink bufs st.inner).2 = true →
          st'.strm = z' ∧ st'.ret = ret ∧ st'.actualTargetLength = st.actualTargetLength) := by
  induction h with
  | @last z input call hcall hret hstop =>
    intro fuel hfuel st hst
    obtain ⟨fuel, rfl⟩ := Nat.exists_eq_add_of_le' hfuel
    rw [length_singleton, deflateLoop_succ sink fuel st (hst ▸ hcall) hret]
    simp only [deliver, hstop]
    by_cases htaken : (sink st.inner call.out).2 = call.out.length
    · rw [if_pos htaken, if_pos htaken]
      exact ⟨_, rfl, rfl, fun _ => ⟨rfl, rfl, rfl⟩⟩
    · rw [if_neg htaken, if_neg htaken]
      exact ⟨_, rfl, rfl, nofun⟩
  | @more z z' input call bufs ret hcall hret hagain rest ih =>
    intro fuel hfuel st hst
    obtain ⟨fuel, rfl⟩ := Nat.exists_eq_add_of_le' hfuel
    rw [length_cons, ← Nat.add_assoc, deflateLoop_succ sink _ st (hst ▸ hcall) hret]
    simp only [deliver, hagain]
    by_cases htaken : (sink st.inner call.out).2 = call.out.length
    · rw [if_pos htaken, if_pos htaken]
      exact ih _ (Nat.le_add_left _ _) _ rfl
    · rw [if_neg htaken, if_neg htaken]
      exact ⟨_, rfl, rfl, nofun⟩

end Piece

/-! ## What zlib promises of it -/

section Spec

variable {ζ : Type} {zlib : Deflate DeflateParams ζ} {params : DeflateParams}
  {encode : Bytes → Bytes}
  (spec : DeflateSpec zlib params encode)

theorem bufferSize_pos : 0 < bufferSize := by decide

/-- A piece that does not reach the end is read whole. The loop ends because what comes out is
part of the encoding, and every further round adds a full buffer to it. -/
theorem yields_noFlush {z : ζ} {fed out input : Bytes} {full : Bool}
    (h : spec.reading z fed out full) (hdo : input ≠ [] ∨ full = true) :
    ∃ bufs z', Yields zlib false z input bufs z' .ok ∧
      spec.reading z' (fed ++ input) (out ++ bufs.flatten) false := by
  induction hn : (encode (fed ++ input)).length - out.length using Nat.strongRecOn
    generalizing z fed out input full with
  | _ n ih =>
    obtain ⟨taken, hinput, hret, hstop, hreading⟩ := spec.noFlush h hdo bufferSize_pos
    generalize hcall : zlib.deflate z input bufferSize false = call at *
    have herr : call.ret ≠ .error := by rw [hret]; decide
    have hall : fed ++ taken ++ call.rest = fed ++ input := by rw [append_assoc, ← hinput]
    by_cases hfull : call.out.length = bufferSize
    · have hagain : again call = true := by simp [again, hfull, hret]
      have hprefix := (spec.reading_prefix hreading call.rest).length_le
      rw [hall, length_append] at hprefix
      have hpos := bufferSize_pos
      rw [decide_eq_true hfull] at hreading
      have hless : (encode (fed ++ taken ++ call.rest)).length - (out ++ call.out).length < n := by
        rw [hall, length_append]
        omega
      obtain ⟨bufs, z', hyields, hreading'⟩ := ih _ hless hreading (.inr rfl) rfl
      refine ⟨call.out :: bufs, z', .more hcall herr hagain hyields, ?_⟩
      rwa [hall, append_assoc] at hreading'
    · have hrest : call.rest = [] := hstop.resolve_right hfull
      have hagain : again call = false := by simp [again, hfull, hrest]
      refine ⟨[call.out], call.strm, hret ▸ .last hcall herr hagain, ?_⟩
      rw [decide_eq_false hfull] at hreading
      rw [hrest, append_nil] at hall
      rwa [hall, ← flatten_singleton (l := call.out)] at hreading

theorem yields_of_finishes {z z' : ζ} {input : Bytes} {bufs : List Bytes}
    (h : Finishes zlib bufferSize z input bufs z') :
      Yields zlib true z input bufs z' .streamEnd := by
  induction h with
  | @last z input call hcall hret =>
    exact hret ▸ .last hcall (by rw [hret]; decide) (by simp [again, hret])
  | @more z z' input call bufs hcall hret hfull _ ih =>
    exact .more hcall (by rw [hret]; decide) (by simp [again, hfull, hret]) ih

end Spec

/-! ## All pieces -/

section Pieces

variable {ζ σ : Type} {zlib : Deflate DeflateParams ζ} {params : DeflateParams}
  {encode : Bytes → Bytes}
  {expected fuel : Nat} {x : Bytes} {bufs : List Bytes} {z' : ζ} {ret : Ret}

/-- A piece that `bspatch` hands out: not empty, and within the range of `avail_in`. -/
def Piece (x : Bytes) : Prop := x ≠ [] ∧ x.length < 2 ^ 32

theorem Piece.take_eq (hx : Piece x) : x.take (x.length % 2 ^ 32) = x := by
  rw [Nat.mod_eq_of_lt hx.2, take_length]

theorem bspatchFeed_cons (hx : Piece x) (sink : Sink σ) (st : Stream ζ σ)
    (h : Yields zlib (!decide (st.actualTargetLength + x.length < expected)) st.strm x bufs z' ret)
    (hfuel : bufs.length ≤ fuel) (xs : List Bytes) :
    ∃ st' : Stream ζ σ, st'.inner = (deliver sink bufs st.inner).1 ∧
      ((deliver sink bufs st.inner).2 = true →
        st'.strm = z' ∧ st'.ret = ret ∧
          st'.actualTargetLength = st.actualTargetLength + x.length) ∧
      bspatchFeed zlib sink expected fuel (x :: xs) st =
        if (deliver sink bufs st.inner).2 then bspatchFeed zlib sink expected fuel xs st'
        else some (st', false) := by
  obtain ⟨st', hloop, hinner, hst'⟩ := h.deflateLoop sink fuel hfuel st rfl
  have hpos : 0 ≠ x.length := fun h0 => hx.1 (length_eq_zero_iff.1 h0.symm)
  cases htaken : (deliver sink bufs st.inner).2 with
  | true =>
    obtain ⟨hstrm, hret, hactual⟩ := hst' htaken
    refine ⟨{ st' with actualTargetLength := st'.actualTargetLength + x.length }, hinner,
      fun _ => ⟨hstrm, hret, by rw [hactual]⟩, ?_⟩
    rw [htaken] at hloop
    simp only [bspatchFeed, compressionSink, hx.take_eq, hloop]
  | false =>
    refine ⟨st', hinner, nofun, ?_⟩
    rw [htaken] at hloop
    simp only [bspatchFeed, compressionSink, hx.take_eq, hloop, if_neg hpos]
    rfl

/-- An error ends `bspatch`; the sink sees nothing of it. -/
theorem bspatchFeed_error (hx : Piece x) (sink : Sink σ) (st : Stream ζ σ)
    (herr : (zlib.deflate st.strm x bufferSize
      (!decide (st.actualTargetLength + x.length < expected))).ret = .error)
    (hfuel : 1 ≤ fuel) (xs : List Bytes) :
    ∃ st' : Stream ζ σ, st'.inner = st.inner ∧
      bspatchFeed zlib sink expected fuel (x :: xs) st = some (st', false) := by
  have hpos : 0 ≠ x.length := fun h0 => hx.1 (length_eq_zero_iff.1 h0.symm)
  obtain ⟨fuel, rfl⟩ := Nat.exists_eq_add_of_le' hfuel
  let finish := !decide (st.actualTargetLength + x.length < expected)
  refine ⟨⟨(zlib.deflate st.strm x bufferSize finish).strm, st.actualTargetLength, .error,
    st.inner⟩,
    rfl, ?_⟩
  simp only [bspatchFeed, compressionSink, hx.take_eq, deflateLoop, finish, herr, if_true,
    if_neg hpos]

/-- What `bspatch` and the sink make of the pieces from here on: the buffers `bufs` go to the
sink, and the test behind `bspatch` succeeds if `total` has the expected length and the sink takes
them all. -/
def Outcome (zlib : Deflate DeflateParams ζ) (expected : Nat) (pieces : List Bytes) (total : Bytes)
    (bufs : List Bytes) (sink : Sink σ) (st : Stream ζ σ) (fuel : Nat) : Prop :=
  ∃ st' taken, bspatchFeed zlib sink expected fuel pieces st = some (st', taken) ∧
    st'.inner = (deliver sink bufs st.inner).1 ∧
    ((taken = true ∧ st'.ret = .streamEnd ∧ expected = st'.actualTargetLength) ↔
      total.length = expected ∧ (deliver sink bufs st.inner).2 = true)

theorem Outcome.cons (hx : Piece x) {sink : Sink σ} {st : Stream ζ σ} {xs : List Bytes}
    {total : Bytes} {more : List Bytes}
    (h : Yields zlib (!decide (st.actualTargetLength + x.length < expected)) st.strm x bufs z' ret)
    (hfuel : bufs.length ≤ fuel)
    (hrest : ∀ st' : Stream ζ σ, st'.strm = z' → st'.ret = ret →
      st'.actualTargetLength = st.actualTargetLength + x.length →
      Outcome zlib expected xs total more sink st' fuel) :
    Outcome zlib expected (x :: xs) total (bufs ++ more) sink st fuel := by
  obtain ⟨st', hinner, hst', hfeed⟩ := bspatchFeed_cons hx sink st h hfuel xs
  unfold Outcome
  rw [hfeed, deliver_append]
  cases htaken : (deliver sink bufs st.inner).2 with
  | true =>
    obtain ⟨hstrm, hret, hactual⟩ := hst' htaken
    rw [← hinner]
    exact hrest st' hstrm hret hactual
  | false =>
    refine ⟨st', false, rfl, hinner, ?_⟩
    simp [htaken]

/-- What follows behind the end of the stream is refused, and is too much. -/
theorem Outcome.ended (spec : DeflateSpec zlib params encode) {sink : Sink σ} {st : Stream ζ σ}
    {xs : List Bytes} {total : Bytes} (hxs : ∀ x ∈ xs, Piece x)
    (h : spec.ended st.strm) (hret : st.ret = .streamEnd) (hle : expected ≤ st.actualTargetLength)
    (htotal : total.length = st.actualTargetLength + xs.flatten.length) (hfuel : 1 ≤ fuel) :
    Outcome zlib expected xs total [] sink st fuel := by
  cases xs with
  | nil =>
    refine ⟨st, true, rfl, rfl, ?_⟩
    rw [htotal]
    simp [hret, deliver, eq_comm]
  | cons x xs =>
    have hx := hxs x mem_cons_self
    obtain ⟨st', hinner, hfeed⟩ :=
      bspatchFeed_error hx sink st (spec.ended_error h _ _ hx.1) hfuel xs
    refine ⟨st', false, hfeed, hinner, ?_⟩
    have hpos : 0 < x.length := length_pos_iff.2 hx.1
    rw [htotal, flatten_cons, length_append]
    refine iff_of_false (by simp) fun hlen => ?_
    omega

/-- From a stream that is still reading. The piece that reaches the expected length finishes it;
without such a piece it is never finished. -/
theorem bspatchFeed_spec (spec : DeflateSpec zlib params encode) (pieces : List Bytes)
    (hpieces : ∀ x ∈ pieces, Piece x) {z : ζ} {fed out : Bytes}
    (h : spec.reading z fed out false) (hfed : fed = [] ∨ fed.length < expected)
    (hsome : ¬(expected = 0 ∧ fed ++ pieces.flatten = [])) :
    ∃ (bufs : List Bytes) (n : Nat),
      ((fed ++ pieces.flatten).length = expected →
        out ++ bufs.flatten = encode (fed ++ pieces.flatten)) ∧
      ∀ {σ : Type} (sink : Sink σ) (st : Stream ζ σ), st.strm = z →
        st.actualTargetLength = fed.length → st.ret = .ok → ∀ fuel ≥ n,
          Outcome zlib expected pieces (fed ++ pieces.flatten) bufs sink st fuel := by
  induction pieces generalizing z fed out with
  | nil =>
    have hlen : fed.length ≠ expected := by
      rcases hfed with rfl | hlt
      · intro h0
        exact hsome ⟨h0.symm, rfl⟩
      · exact Nat.ne_of_lt hlt
    refine ⟨[], 0, fun h0 => absurd (by simpa using h0) hlen, ?_⟩
    intro σ sink st _ _ hret fuel _
    refine ⟨st, true, rfl, rfl, ?_⟩
    simp [hret, hlen]
  | cons x xs ih =>
    have hx := hpieces x mem_cons_self
    have hxs : ∀ y ∈ xs, Piece y := (forall_mem_cons.mp hpieces).2
    rw [flatten_cons, ← append_assoc] at hsome ⊢
    by_cases hlt : fed.length + x.length < expected
    · obtain ⟨bufs, z', hyields, hreading⟩ := yields_noFlush spec h (.inl hx.1)
      obtain ⟨more, n, hmore, hrest⟩ :=
        ih hxs hreading (.inr (by rw [length_append]; exact hlt)) hsome
      refine ⟨bufs ++ more, max bufs.length n, fun hlen => ?_, ?_⟩
      · rw [flatten_append, ← append_assoc]
        exact hmore hlen
      · intro σ sink st hstrm hactual _ fuel hfuel
        have hy : Yields zlib (!decide (st.actualTargetLength + x.length < expected)) st.strm x
            bufs z' .ok := by
          rwa [hstrm, hactual, decide_eq_true hlt]
        refine Outcome.cons hx hy (by omega) fun st' hz hr ha => ?_
        refine hrest sink st' hz ?_ hr fuel (by omega)
        rw [ha, hactual, length_append]
    · obtain ⟨bufs, z', hfinishes, hout, hended⟩ := spec.finishes bufferSize_pos (spec.start h x)
      have hyields := yields_of_finishes hfinishes
      refine ⟨bufs, max bufs.length 1, fun hlen => ?_, ?_⟩
      · -- nothing can follow, or there would be too much
        rw [length_append, length_append] at hlen
        have hnil : xs.flatten = [] := length_eq_zero_iff.1 (by omega)
        rw [hnil, append_nil, hout]
      · intro σ sink st hstrm hactual _ fuel hfuel
        rw [← append_nil bufs]
        have hy : Yields zlib (!decide (st.actualTargetLength + x.length < expected)) st.strm x
            bufs z' .streamEnd := by
          rwa [hstrm, hactual, decide_eq_false hlt]
        refine Outcome.cons hx hy (by omega) fun st' hz hr ha => ?_
        refine Outcome.ended spec hxs (hz ▸ hended) hr (by omega) ?_ (by omega)
        rw [ha, hactual, length_append, length_append]

end Pieces

/-! ## The whole function -/

theorem deliver_memorySink (bufs : List Bytes) (s : Bytes) :
    deliver memorySink bufs s = (s ++ bufs.flatten, true) := by
  induction bufs generalizing s with
  | nil => simp [deliver]
  | cons x xs ih =>
    simp only [deliver, memorySink, if_true]
    rw [ih, flatten_cons, append_assoc]

/-- What the function is for: it comes to an end, and succeeds if `output` has the expected
length and the sink takes every buffer; the buffers are then the encoding of `output`. -/
def Recompresses {ζ : Type} (zlib : Deflate DeflateParams ζ) (lib : PatchLib)
    (encode : Bytes → Bytes)
    (src patch : Bytes) (patchOffset expected : Nat) (params : DeflateParams)
    (output : Bytes) : Prop :=
  ∃ (bufs : List Bytes) (n : Nat), (output.length = expected → bufs.flatten = encode output) ∧
    ∀ {σ : Type} (sink : Sink σ) (s : σ), ∀ fuel ≥ n,
      applyBSDiffPatchAndStreamOutput zlib lib sink fuel src patch patchOffset expected params s =
        some ((deliver sink bufs s).1,
          if output.length = expected ∧ (deliver sink bufs s).2 = true then .success else .failure)

section Whole

variable {ζ : Type} {zlib : Deflate DeflateParams ζ} {lib : PatchLib} {src patch : Bytes}
  {patchOffset : Nat}
  {params : DeflateParams} {encode : Bytes → Bytes}

/-- The function recompresses the output of a good patch, whatever pieces it comes in, except
where nothing is expected and nothing comes. -/
theorem recompresses_iff (spec : DeflateSpec zlib params encode) (expected : Nat)
    (pieces : List Bytes) (hinit : (zlib.deflateInit params).isSome)
    (hoffset : patchOffset ≤ patch.length)
    (hpatch : lib.bspatch src (patch.drop patchOffset) = (pieces, true))
    (hpieces : ∀ x ∈ pieces, x ≠ [] ∧ x.length < 2 ^ 32) :
    Recompresses zlib lib encode src patch patchOffset expected params pieces.flatten ↔
      ¬(expected = 0 ∧ pieces.flatten = []) := by
  obtain ⟨z, hz⟩ := Option.isSome_iff_exists.1 hinit
  have hoff : ¬patch.length < patchOffset := Nat.not_lt.2 hoffset
  constructor
  · rintro ⟨bufs, n, -, hrun⟩ ⟨rfl, hnil⟩
    -- no piece comes, so `deflate` is never called and `ret` is still `Z_OK`
    have hno : pieces = [] := by
      cases pieces with
      | nil => rfl
      | cons x xs =>
        rw [flatten_cons, append_eq_nil_iff] at hnil
        exact absurd hnil.1 (hpieces x mem_cons_self).1
    have hfail := hrun memorySink [] n (Nat.le_refl n)
    rw [deliver_memorySink] at hfail
    simp [applyBSDiffPatchAndStreamOutput, hz, hoff, hpatch, hno, bspatchFeed] at hfail
  · intro hsome
    obtain ⟨bufs, n, hbytes, hrun⟩ :=
      bspatchFeed_spec spec pieces hpieces (spec.init hz) (.inl rfl) hsome
    refine ⟨bufs, n, hbytes, ?_⟩
    intro σ sink s fuel hfuel
    obtain ⟨st', taken, hfeed, hinner, hiff⟩ := hrun sink ⟨z, 0, .ok, s⟩ rfl rfl rfl fuel hfuel
    simp only [applyBSDiffPatchAndStreamOutput, hz, if_neg hoff, hpatch, hfeed, hinner,
      Bool.and_true, nil_append] at hiff ⊢
    simp only [hiff]

end Whole

/-! ## The sink that deflates at once -/

/-- `lib.deflate` is what the loop makes of a piece: `rel z fed` when the stream has been fed
`fed` and is not finished. -/
structure Renders {ζ : Type} (zlib : Deflate DeflateParams ζ) (lib : PatchLib)
    (params : DeflateParams)
    (rel : ζ → Bytes → Prop) : Prop where
  deflateInit : lib.deflateInit params = (zlib.deflateInit params).isSome
  init : ∀ {z}, zlib.deflateInit params = some z → rel z []
  piece : ∀ {z fed x finish bufs}, rel z fed → Piece x →
    lib.deflate params fed x finish = some bufs →
    ∃ z', Yields zlib finish z x bufs z' (if finish then .streamEnd else .ok) ∧
      (finish = false → rel z' (fed ++ x))
  error : ∀ {z fed x finish}, rel z fed → Piece x → lib.deflate params fed x finish = none →
    (zlib.deflate z x bufferSize finish).ret = .error

section Coarse

variable {ζ σ : Type} {zlib : Deflate DeflateParams ζ} {lib : PatchLib} {params : DeflateParams}
  {rel : ζ → Bytes → Prop} {sink : Sink σ}

/-- A sink that does nothing with nothing does not see the empty buffers. -/
theorem deliver_eq_feed (hnil : ∀ s, sink s [] = (s, 0)) (bufs : List Bytes) (s : σ) :
    deliver sink bufs s = feed sink bufs s := by
  induction bufs generalizing s with
  | nil => rfl
  | cons x xs ih =>
    rw [deliver, feed]
    by_cases hx : x = []
    · subst hx
      simp only [hnil]
      exact ih s
    · rw [if_neg hx]
      simp only [ih]

/-- A stream in the middle of a run, and what `compressionSink` keeps of it. -/
structure Follows (rel : ζ → Bytes → Prop) (expected : Nat) (st : Stream ζ σ)
    (co : Compression σ) : Prop where
  fed : co.fed.length < expected → rel st.strm co.fed
  actual : st.actualTargetLength = co.fed.length
  ended : st.ret = .streamEnd ↔ co.ended = true
  inner : st.inner = co.inner

/-- On pieces that are no more than expected the loop and `compressionSink` come to the same. -/
theorem bspatchFeed_eq_feed (h : Renders zlib lib params rel) (hnil : ∀ s, sink s [] = (s, 0))
    (expected : Nat) (pieces : List Bytes) (hpieces : ∀ x ∈ pieces, Piece x)
    (st : Stream ζ σ) (co : Compression σ) (hst : Follows rel expected st co)
    (hroom : co.fed.length + pieces.flatten.length ≤ expected) :
    ∃ n, ∀ fuel ≥ n, ∃ st' : Stream ζ σ,
      bspatchFeed zlib sink expected fuel pieces st =
        some (st', (feed (ApplyPatch.compressionSink lib params expected sink) pieces co).2) ∧
      st'.inner = (feed (ApplyPatch.compressionSink lib params expected sink) pieces co).1.inner ∧
      ((feed (ApplyPatch.compressionSink lib params expected sink) pieces co).2 = true →
        Follows rel expected st'
          (feed (ApplyPatch.compressionSink lib params expected sink) pieces co).1) := by
  induction pieces generalizing st co with
  | nil => exact ⟨0, fun fuel _ => ⟨st, rfl, hst.inner, fun _ => hst⟩⟩
  | cons x xs ih =>
    have hx := hpieces x mem_cons_self
    have hxs : ∀ y ∈ xs, Piece y := (forall_mem_cons.mp hpieces).2
    have hpos : 0 ≠ x.length := fun h0 => hx.1 (length_eq_zero_iff.1 h0.symm)
    rw [flatten_cons, length_append] at hroom
    have hfed := hst.fed (by omega)
    rw [feed, if_neg hx.1]
    cases hdef : lib.deflate params co.fed x (!decide (co.fed.length + x.length < expected)) with
    | none =>
      have herr := h.error hfed hx hdef
      rw [← hst.actual] at herr
      refine ⟨1, fun fuel hfuel => ?_⟩
      obtain ⟨st', hinner, hfeed⟩ := bspatchFeed_error hx sink st herr hfuel xs
      simp only [ApplyPatch.compressionSink, hdef, if_neg hpos]
      exact ⟨st', hfeed, hinner.trans hst.inner, nofun⟩
    | some bufs =>
      obtain ⟨z', hyields, hrel⟩ := h.piece hfed hx hdef
      rw [← hst.actual] at hyields
      simp only [ApplyPatch.compressionSink, hdef]
      rcases hfeed : feed sink bufs co.inner with ⟨s, taken⟩
      rw [← hst.inner, ← deliver_eq_feed hnil] at hfeed
      cases taken with
      | false =>
        refine ⟨bufs.length, fun fuel hfuel => ?_⟩
        obtain ⟨st', hinner, -, hrun⟩ := bspatchFeed_cons hx sink st hyields hfuel xs
        rw [hfeed] at hinner hrun
        simp only [if_neg hpos]
        exact ⟨st', hrun, hinner, nofun⟩
      | true =>
        -- what the loop leaves of the stream does not depend on the fuel
        let ret : Ret := if !decide (st.actualTargetLength + x.length < expected) then .streamEnd
          else .ok
        have hnext : Follows rel expected (⟨z', st.actualTargetLength + x.length, ret, s⟩ :
            Stream ζ σ)
            ⟨co.fed ++ x, !decide (co.fed.length + x.length < expected), s⟩ := by
          refine ⟨fun hlt => hrel ?_, by rw [hst.actual, length_append], ?_, rfl⟩
          · rw [length_append] at hlt
            simp [hlt]
          rw [← hst.actual]
          cases hfin : !decide (st.actualTargetLength + x.length < expected) <;> simp [ret, hfin]
        obtain ⟨n, hn⟩ := ih hxs _ _ hnext (by rw [length_append]; omega)
        refine ⟨max bufs.length n, fun fuel hfuel => ?_⟩
        obtain ⟨st', hinner, hst', hrun⟩ :=
          bspatchFeed_cons hx sink st hyields (by omega : bufs.length ≤ fuel) xs
        rw [hfeed] at hinner hst' hrun
        obtain ⟨hstrm, hret, hactual⟩ := hst' rfl
        have heq : st' = ⟨z', st.actualTargetLength + x.length, ret, s⟩ := by
          cases st'
          simp only at hinner hstrm hret hactual
          rw [hinner, hstrm, hret, hactual]
        rw [hrun, heq]
        simp only [if_true]
        exact hn fuel (by omega)

/-- With enough fuel the function is the one of `ImgPatch`, on a patch that does not yield more than
is expected. -/
theorem applyBSDiffPatchAndStreamOutput_eq (h : Renders zlib lib params rel)
    (hnil : ∀ s, sink s [] = (s, 0)) (src patch : Bytes) (patchOffset expected : Nat) (s : σ)
    (hpieces : ∀ x ∈ (lib.bspatch src (patch.drop patchOffset)).1, Piece x)
    (hroom : (lib.bspatch src (patch.drop patchOffset)).1.flatten.length ≤ expected) :
    ∃ n, ∀ fuel ≥ n,
      applyBSDiffPatchAndStreamOutput zlib lib sink fuel src patch patchOffset expected params s =
        some (ApplyPatch.applyBSDiffPatchAndStreamOutput lib sink src patch patchOffset expected
          params s) := by
  unfold applyBSDiffPatchAndStreamOutput ApplyPatch.applyBSDiffPatchAndStreamOutput applyBSDiffPatch
  generalize lib.bspatch src (patch.drop patchOffset) = patched at hpieces hroom ⊢
  obtain ⟨pieces, ok⟩ := patched
  rw [h.deflateInit]
  cases hz : zlib.deflateInit params with
  | none => exact ⟨0, fun _ _ => rfl⟩
  | some z =>
    simp only [Option.isSome_some, Bool.not_true, Bool.false_eq_true, if_false]
    by_cases hoff : patch.length < patchOffset
    · simp only [if_pos hoff]
      exact ⟨0, fun _ _ => trivial⟩
    · simp only [if_neg hoff]
      have hfirst : Follows rel expected (⟨z, 0, .ok, s⟩ : Stream ζ σ) ⟨[], false, s⟩ :=
        ⟨fun _ => h.init hz, rfl, by simp, rfl⟩
      obtain ⟨n, hn⟩ := bspatchFeed_eq_feed h hnil expected pieces hpieces _ _ hfirst
        (by simpa using hroom)
      refine ⟨n, fun fuel hfuel => ?_⟩
      obtain ⟨st', hrun, hinner, hst'⟩ := hn fuel hfuel
      rw [hrun]
      generalize feed (ApplyPatch.compressionSink lib params expected sink) pieces ⟨[], false, s⟩ =
        r at hinner hst' ⊢
      obtain ⟨co, taken⟩ := r
      cases hboth : taken && ok with
      | false => simp [hboth, hinner]
      | true =>
        have hco := hst' (Bool.and_eq_true_iff.1 hboth).1
        simp only [hboth, true_and, if_true, hco.inner, hco.ended, hco.actual, eq_comm]

end Coarse

namespace Sample

/-- Streams that copy their input and put a mark behind it. -/
def encode (x : Bytes) : Bytes := x ++ [0xff]

def params : DeflateParams := ⟨6, 8, -15, 8, 0⟩

def zlib : Deflate DeflateParams (Held DeflateParams) := Held.zlib fun _ => encode

/-- A library whose patches are their own output, byte by byte. -/
def lib : PatchLib where
  bspatch _ patch := (patch.map ([·]), true)
  inflate _ := none
  deflateInit _ := true
  deflate _ _ _ _ := none

/-- The library whose streams hold their input and then put out the mark. -/
def marked : PatchLib :=
  { lib with deflate := fun _ _ _ finish => some [if finish then [0xff] else []] }

theorem renders_marked : Renders (Held.zlib fun _ _ => [0xff]) marked params
    (fun z fed => z = .reading params fed) where
  deflateInit := rfl
  init h := (Option.some.inj h).symm
  piece := by
    rintro _ fed x finish _ rfl _ ⟨⟩
    cases finish with
    | false => exact ⟨_, .last rfl (fun h => Ret.noConfusion h) rfl, fun _ => rfl⟩
    | true => exact ⟨_, .last rfl (fun h => Ret.noConfusion h) rfl, nofun⟩
  error _ _ h := nomatch h

theorem marked_two_eq : ∃ n, ∀ fuel ≥ n,
    applyBSDiffPatchAndStreamOutput (Held.zlib fun _ _ => [0xff])
      marked memorySink fuel [] [7, 8] 0 2
      params [] =
    some (ApplyPatch.applyBSDiffPatchAndStreamOutput marked memorySink [] [7, 8] 0 2 params []) :=
  applyBSDiffPatchAndStreamOutput_eq renders_marked (by simp [memorySink]) [] [7, 8] 0 2 []
    (by simp [marked, lib, Piece]) (by decide)

theorem recompresses_two : Recompresses zlib lib encode [] [7, 8] 0 2 params [7, 8] :=
  (recompresses_iff (Held.spec _ params) 2 [[7], [8]] rfl (by decide) rfl (by decide)).2 (by decide)

/-- The patch yields nothing, as expected, and the function fails: it hands no byte on, though
an empty stream has an encoding. -/
theorem empty_output_fails :
    (lib.bspatch [] []).1.flatten.length = 0 ∧ encode [] = [0xff] ∧
      ∀ fuel, applyBSDiffPatchAndStreamOutput zlib lib memorySink fuel [] [] 0 0 params [] =
        some ([], .failure) :=
  ⟨rfl, rfl, fun _ => rfl⟩

end Sample

end Pterodon.ApplyPatch.Recompression
