import Pterodon.Lib.CString

/-!
# Streams of zlib

`deflate` is called with some input and some room for output. It reads a part of the one, fills
a part of the other, and is called again. What a caller may rely on is told by the manual in
terms of the data that went in and came out over all calls, and so it is here: a `DeflateSpec`
relates the state of a stream to what it has read and put out, and says how each call changes
that. The whole output is a function of the whole input, `encode`.

`Finishes` is the loop that every caller writes in the end, which calls `deflate` with
`Z_FINISH` until the stream ends. `inflate` is called in the same way; an `InflateSpec` says what
its calls with `Z_NO_FLUSH` promise.
-/

namespace Pterodon.Lib.Zlib

open List

/-- What a call returns: `Z_OK`, `Z_STREAM_END` or a negative number. -/
inductive Ret where
  | ok
  | streamEnd
  | error
  deriving DecidableEq

/-- One call: the stream after it, the input it left, and what it put out. -/
structure Call (ζ : Type) where
  strm : ζ
  rest : Bytes
  out : Bytes
  ret : Ret

/-- Compression with parameters `π` on streams `ζ`. `deflate strm input room finish` is called
with `Z_FINISH` or `Z_NO_FLUSH`. -/
structure Deflate (π ζ : Type) where
  deflateInit : π → Option ζ
  deflate : ζ → Bytes → Nat → Bool → Call ζ

/-- What the manual promises of the streams with one set of parameters. -/
structure DeflateSpec {π ζ : Type} (zlib : Deflate π ζ) (params : π) (encode : Bytes → Bytes) where
  /-- `reading z fed out full`: read `fed` and put out `out`; `full` when the last call left no
  room. -/
  reading : ζ → Bytes → Bytes → Bool → Prop
  /-- `finishing z input total out`: with `input` the stream has been given all of `total`. -/
  finishing : ζ → Bytes → Bytes → Bytes → Prop
  ended : ζ → Prop
  init : ∀ {z}, zlib.deflateInit params = some z → reading z [] [] false
  start : ∀ {z fed out full}, reading z fed out full →
    ∀ input, finishing z input (fed ++ input) out
  reading_prefix : ∀ {z fed out full}, reading z fed out full → ∀ more, out <+: encode (fed ++ more)
  finishing_prefix : ∀ {z input total out}, finishing z input total out → out <+: encode total
  out_le : ∀ z input room finish, (zlib.deflate z input room finish).out.length ≤ room
  /-- `Z_NO_FLUSH` goes on until the input is read or the room is used up; it is an error only
  where there is nothing to do. -/
  noFlush : ∀ {z fed out full} {input : Bytes} {room : Nat}, reading z fed out full →
    input ≠ [] ∨ full = true → 0 < room →
    ∃ taken, input = taken ++ (zlib.deflate z input room false).rest ∧
      (zlib.deflate z input room false).ret = .ok ∧
      ((zlib.deflate z input room false).rest = [] ∨
        (zlib.deflate z input room false).out.length = room) ∧
      reading (zlib.deflate z input room false).strm (fed ++ taken)
        (out ++ (zlib.deflate z input room false).out)
        (decide ((zlib.deflate z input room false).out.length = room))
  /-- `Z_FINISH` ends the stream or uses up the room. -/
  finish : ∀ {z input total out} {room : Nat}, finishing z input total out → 0 < room →
    ((zlib.deflate z input room true).ret = .streamEnd ∧
      out ++ (zlib.deflate z input room true).out = encode total ∧
      ended (zlib.deflate z input room true).strm) ∨
    ((zlib.deflate z input room true).ret = .ok ∧
      (zlib.deflate z input room true).out.length = room ∧
      finishing (zlib.deflate z input room true).strm (zlib.deflate z input room true).rest total
        (out ++ (zlib.deflate z input room true).out))
  /-- An ended stream takes no more input. -/
  ended_error : ∀ {z}, ended z → ∀ {input : Bytes} (room : Nat) (finish : Bool), input ≠ [] →
    (zlib.deflate z input room finish).ret = .error

/-- Decompression. `start` is the stream that `inflateInit2` sets up; `inflate strm input room` is
called with `Z_NO_FLUSH`. -/
structure Inflate (ζ : Type) where
  start : ζ
  inflate : ζ → Bytes → Nat → Call ζ

/-- What the manual promises, `IsStream` telling which bytes are a stream and what is in it. -/
structure InflateSpec {ζ : Type} (zlib : Inflate ζ) (IsStream : Bytes → Bytes → Prop) where
  /-- `reading data z rest out`: all of `data` but `rest` is read, and `out` was put out. -/
  reading : Bytes → ζ → Bytes → Bytes → Prop
  start : ∀ data, reading data zlib.start data []
  /-- Data can be expanded only so far. -/
  bounded : ∀ data, ∃ bound, ∀ {z rest out}, reading data z rest out → out.length ≤ bound
  out_le : ∀ z input room, (zlib.inflate z input room).out.length ≤ room
  /-- Without any progress a call returns `Z_BUF_ERROR`. -/
  ok : ∀ {data z rest out} {room : Nat}, reading data z rest out →
    (zlib.inflate z rest room).ret = .ok →
    reading data (zlib.inflate z rest room).strm (zlib.inflate z rest room).rest
        (out ++ (zlib.inflate z rest room).out) ∧
      (zlib.inflate z rest room).rest.length ≤ rest.length ∧
      ((zlib.inflate z rest room).rest.length < rest.length ∨
        0 < (zlib.inflate z rest room).out.length)
  streamEnd : ∀ {data z rest out} {room : Nat}, reading data z rest out →
    (zlib.inflate z rest room).ret = .streamEnd →
    ∃ stream, data = stream ++ (zlib.inflate z rest room).rest ∧ stream ≠ [] ∧
      IsStream stream (out ++ (zlib.inflate z rest room).out)

/-- Called with `Z_FINISH` until it ends, the stream fills the buffers `bufs`. -/
inductive Finishes {π ζ : Type} (zlib : Deflate π ζ) (room : Nat) :
    ζ → Bytes → List Bytes → ζ → Prop
  | last {z : ζ} {input : Bytes} {call : Call ζ}
      (hcall : zlib.deflate z input room true = call) (hret : call.ret = .streamEnd) :
      Finishes zlib room z input [call.out] call.strm
  | more {z z' : ζ} {input : Bytes} {call : Call ζ} {bufs : List Bytes}
      (hcall : zlib.deflate z input room true = call) (hret : call.ret = .ok)
      (hfull : call.out.length = room) (rest : Finishes zlib room call.strm call.rest bufs z') :
      Finishes zlib room z input (call.out :: bufs) z'

section Finishing

variable {π ζ : Type} {zlib : Deflate π ζ} {params : π} {encode : Bytes → Bytes}
  {room : Nat} {z z' : ζ} {input : Bytes} {bufs : List Bytes}

/-- Every stream that is told to finish does: what comes out is part of the encoding, and every
call but the last adds a full buffer to it. -/
theorem DeflateSpec.finishes (spec : DeflateSpec zlib params encode) (hroom : 0 < room)
    {total out : Bytes} (h : spec.finishing z input total out) :
    ∃ bufs z', Finishes zlib room z input bufs z' ∧
      out ++ bufs.flatten = encode total ∧ spec.ended z' := by
  induction hn : (encode total).length - out.length using Nat.strongRecOn
    generalizing z input out with
  | _ n ih =>
    have hstep := spec.finish h hroom
    generalize hcall : zlib.deflate z input room true = call at hstep
    rcases hstep with ⟨hret, hout, hended⟩ | ⟨hret, hfull, hfin⟩
    · refine ⟨[call.out], call.strm, .last hcall hret, ?_, hended⟩
      rw [flatten_singleton, hout]
    · have hprefix := (spec.finishing_prefix hfin).length_le
      rw [length_append] at hprefix
      have hless : (encode total).length - (out ++ call.out).length < n := by
        rw [length_append]
        omega
      obtain ⟨bufs, z', hrest, hout, hended⟩ := ih _ hless hfin rfl
      refine ⟨call.out :: bufs, z', .more hcall hret hfull hrest, ?_, hended⟩
      rw [flatten_cons, ← append_assoc, hout]

end Finishing

/-! ## The simplest streams -/

/-- A stream that holds its input back until it is told to finish. -/
inductive Held (π : Type) where
  | reading (params : π) (input : Bytes)
  | writing (output : Bytes)
  | ended

namespace Held

variable {π : Type}

def write (output : Bytes) (room : Nat) : Call (Held π) :=
  if output.length ≤ room then ⟨.ended, [], output, .streamEnd⟩
  else ⟨.writing (output.drop room), [], output.take room, .ok⟩

/-- Compression by any function at all. -/
def zlib (encode : π → Bytes → Bytes) : Deflate π (Held π) where
  deflateInit params := some (.reading params [])
  deflate
    | .reading params fed, input, _, false => ⟨.reading params (fed ++ input), [], [], .ok⟩
    | .reading params fed, input, room, true => write (encode params (fed ++ input)) room
    | .writing output, _, room, _ => write output room
    | .ended, _, _, _ => ⟨.ended, [], [], .error⟩

/-- What calls with `Z_FINISH` have to put out in all. -/
def pending (encode : π → Bytes → Bytes) : Held π → Bytes → Option Bytes
  | .reading params fed, input => some (encode params (fed ++ input))
  | .writing output, _ => some output
  | .ended, _ => none

theorem write_out_le (output : Bytes) (room : Nat) :
    (write output room : Call (Held π)).out.length ≤ room := by
  unfold write
  split
  · assumption
  · exact length_take_le _ _

/-- Whatever the function, the promises can be kept. -/
def spec (encode : π → Bytes → Bytes) (params : π) :
    DeflateSpec (zlib encode) params (encode params) where
  reading z fed out full := z = .reading params fed ∧ out = [] ∧ full = false
  finishing z input total out :=
    ∃ left, z.pending encode input = some left ∧ out ++ left = encode params total
  ended z := z = .ended
  init h := by
    cases h
    exact ⟨rfl, rfl, rfl⟩
  start := by
    intro z fed out full h input
    obtain ⟨rfl, rfl, -⟩ := h
    exact ⟨_, rfl, rfl⟩
  reading_prefix := by
    intro z fed out full h more
    obtain ⟨-, rfl, -⟩ := h
    exact nil_prefix
  finishing_prefix := by
    intro z input total out h
    obtain ⟨left, -, hout⟩ := h
    exact ⟨left, hout⟩
  out_le := by
    intro z input room finish
    cases z with
    | reading params fed =>
      cases finish
      · exact Nat.zero_le _
      · exact write_out_le _ _
    | writing output => exact write_out_le _ _
    | ended => exact Nat.zero_le _
  noFlush := by
    intro z fed out full input room h _ hroom
    obtain ⟨rfl, rfl, -⟩ := h
    refine ⟨input, by simp [zlib], rfl, .inl rfl, rfl, rfl, ?_⟩
    exact decide_eq_false (Nat.ne_of_lt hroom)
  finish := by
    intro z input total out room h hroom
    obtain ⟨left, hleft, hout⟩ := h
    have hcall : (zlib encode).deflate z input room true = write left room := by
      cases z with
      | reading params fed => obtain rfl := Option.some.inj hleft; rfl
      | writing output => obtain rfl := Option.some.inj hleft; rfl
      | ended => cases hleft
    rw [hcall, write]
    split
    · exact .inl ⟨rfl, hout, rfl⟩
    · refine .inr ⟨rfl, ?_, left.drop room, rfl, ?_⟩
      · rw [length_take]
        omega
      · rw [append_assoc, take_append_drop, hout]
  ended_error := by
    intro z h input room finish _
    obtain rfl := h
    rfl

end Held

namespace Whole

/-- Put out what is left, once the stream is decoded. -/
def write (left rest : Bytes) (room : Nat) : Call (Option Bytes) :=
  if left.length ≤ room then ⟨some [], rest, left, .streamEnd⟩
  else ⟨some (left.drop room), rest, left.take room, .ok⟩

/-- Decompression by a function that finds the contents and the length of a stream. -/
def zlib (decode : Bytes → Option (Bytes × Nat)) : Inflate (Option Bytes) where
  start := none
  inflate
    | none, input, room =>
      match decode input with
      | none => ⟨none, input, [], .error⟩
      | some (contents, n) => write contents (input.drop n) room
    | some left, input, room =>
      if room = 0 then ⟨some left, input, [], .error⟩ else write left input room

theorem write_out_le (left rest : Bytes) (room : Nat) : (write left rest room).out.length ≤
    room := by
  unfold write
  split
  · assumption
  · exact length_take_le _ _

/-- Nothing is decoded yet, or some of the contents is put out. -/
def Reading (decode : Bytes → Option (Bytes × Nat)) (data : Bytes)
    (z : Option Bytes) (rest out : Bytes) : Prop :=
  (z = none ∧ rest = data ∧ out = []) ∨ ∃ contents n left, decode data = some (contents, n) ∧
    z = some left ∧ rest = data.drop n ∧ out ++ left = contents

variable {decode : Bytes → Option (Bytes × Nat)}

/-- A call that is no error puts out the contents, as far as it has room. -/
theorem Reading.call {data rest out : Bytes} {z : Option Bytes}
    (h : Reading decode data z rest out) (room : Nat) :
    ((zlib decode).inflate z rest room).ret = .error ∨
    ∃ contents n left, decode data = some (contents, n) ∧ out ++ left = contents ∧
      (rest = data ∨ rest = data.drop n ∧ 0 < room) ∧
      (zlib decode).inflate z rest room = write left (data.drop n) room := by
  rcases h with ⟨rfl, rfl, rfl⟩ | ⟨contents, n, left, hdecode, rfl, rfl, hout⟩
  · cases hdecode : decode rest with
    | none => exact .inl (by simp only [zlib, hdecode])
    | some found =>
      exact .inr ⟨found.1, found.2, found.1, rfl, rfl, .inl rfl, by simp only [zlib, hdecode]⟩
  · by_cases hroom : room = 0
    · exact .inl (by simp only [zlib, if_pos hroom])
    · exact .inr ⟨contents, n, left, hdecode, hout, .inr ⟨rfl, by omega⟩,
        by simp only [zlib, if_neg hroom]⟩

/-- The promises are kept by any function that finds streams. -/
def spec {IsStream : Bytes → Bytes → Prop}
    (hdecode : ∀ {data contents n}, decode data = some (contents, n) →
      0 < n ∧ n ≤ data.length ∧ IsStream (data.take n) contents) :
    InflateSpec (zlib decode) IsStream where
  reading := Reading decode
  start data := .inl ⟨rfl, rfl, rfl⟩
  bounded data := by
    refine ⟨((decode data).map fun r => r.1.length).getD 0, fun h => ?_⟩
    rcases h with ⟨-, -, rfl⟩ | ⟨contents, n, left, hdecode, -, -, rfl⟩
    · exact Nat.zero_le _
    · rw [hdecode, Option.map_some, Option.getD_some, length_append]
      omega
  out_le z input room := by
    simp only [zlib]
    split
    · split
      · exact Nat.zero_le _
      · exact write_out_le _ _ _
    · split
      · exact Nat.zero_le _
      · exact write_out_le _ _ _
  ok := by
    intro data z rest out room h hret
    rcases h.call room with herror | ⟨contents, n, left, hfound, hout, hrest, hcall⟩
    · rw [herror] at hret
      cases hret
    rw [hcall] at hret ⊢
    unfold write at hret ⊢
    split at hret
    · cases hret
    rename_i hlong
    rw [if_neg hlong]
    obtain ⟨hn, hle, -⟩ := hdecode hfound
    refine ⟨.inr ⟨contents, n, left.drop room, hfound, rfl, rfl, ?_⟩, ?_⟩
    · rw [append_assoc, take_append_drop, hout]
    · rcases hrest with rfl | ⟨rfl, hroom⟩
      · simp only [length_drop]
        omega
      · simp only [length_drop, length_take]
        omega
  streamEnd := by
    intro data z rest out room h hret
    rcases h.call room with herror | ⟨contents, n, left, hfound, hout, -, hcall⟩
    · rw [herror] at hret
      cases hret
    rw [hcall] at hret ⊢
    unfold write at hret ⊢
    split at hret
    · rename_i hshort
      rw [if_pos hshort]
      obtain ⟨hn, hle, hstream⟩ := hdecode hfound
      refine ⟨data.take n, (take_append_drop n data).symm, fun h => ?_, ?_⟩
      · have := congrArg List.length h
        rw [length_take, length_nil] at this
        omega
      · rw [hout]
        exact hstream
    · cases hret

end Whole

end Pterodon.Lib.Zlib
