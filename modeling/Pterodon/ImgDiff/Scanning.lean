import Mathlib.Data.Finset.Lattice.Fold
import Mathlib.Data.Finset.Range
import Pterodon.ImgDiff.ImageRoundTrip
import Pterodon.ImgDiff.Reconstruction

/-!
# Searching an image for gzip streams

`Initialize` inflates what follows on a gzip header, to find out where the stream ends. The loop
around `inflate` doubles its buffer whenever it is full. It ends because every call gets on, and
what it takes for the contents is right as long as its length fits into the footer.

Behind the stream the footer is looked up. With less than four bytes behind the stream the place
of its second half is past the end of the file, `sz - footer_index` wraps around, and the test that
should have noticed passes. `initialize_partitions_iff` says that nothing else goes wrong.
-/

namespace Pterodon.ImgDiff.ImageMode

open Lib Lib.Zlib ApplyPatch ImageChunk Reconstruction List Literal

/-! ## Inflating a body -/

section Code

variable {ζ : Type} (zlib : Inflate ζ)

/-- `resize` of a vector. -/
def resize (data : Bytes) (len : Nat) : Bytes :=
  data.take len ++ List.replicate (len - data.length) 0

/-- The loop around `inflate`, with `allocated` and `uncompressed_len`: the contents and the input
that is left, `some none` after an error and `none` when it took more than `fuel` rounds.
`avail_out` has 32 bits. -/
def inflateLoop : Nat → ζ → Bytes → Nat → Nat → Bytes →
    Option (Option (Bytes × Bytes))
  | 0, _, _, _, _, _ => none
  | fuel + 1, strm, input, allocated, uncompressedLen, out =>
    let room := (allocated - uncompressedLen) % 2 ^ 32
    let call := zlib.inflate strm input room
    if call.ret = .error then some none
    else
      let availOut := room - call.out.length
      let uncompressedLen := allocated - availOut
      let out := out ++ call.out
      if call.ret = .streamEnd then some (some (resize out uncompressedLen, call.rest))
      else
        inflateLoop fuel call.strm call.rest (if availOut = 0 then allocated * 2 else allocated)
          uncompressedLen out

/-- What `Initialize` does with the data behind a header: the contents and `raw_data_len`.
`avail_in` has 32 bits. -/
def inflateBody (fuel : Nat) (data : Bytes) : Option (Option (Bytes × Nat)) :=
  (inflateLoop zlib fuel zlib.start (data.take (data.length % 2 ^ 32)) BUFFER_SIZE 0 []).map
    (Option.map fun r => (r.1, data.length - r.2.length))

/-- The library with streams that are inflated by this loop. -/
def withZlib (lib : DiffLib) (fuel : Nat) : DiffLib :=
  { lib with inflateStream := fun data => (inflateBody zlib fuel data).join }

end Code

/-! ## The rounds of the search -/

/-- A gzip header with as many bytes behind it as header and footer need. -/
def GzipAt (file : Bytes) (pos : Nat) : Prop :=
  sliceOf file pos 4 = gzipMagic ∧ GZIP_HEADER_LEN + GZIP_FOOTER_LEN ≤ file.length - pos

/-- Where the round after the one at `pos` starts, if there is another. -/
def nextPos (lib : DiffLib) (file : Bytes) (pos : Nat) : Option Nat :=
  if file.length ≤ pos then none
  else if sliceOf file pos 4 = gzipMagic then
    if file.length - pos < GZIP_HEADER_LEN + GZIP_FOOTER_LEN then none
    else
      let body := pos + GZIP_HEADER_LEN
      match gzipBody lib file body with
      | none => some body
      | some (_, rawDataLen) => some (body + rawDataLen + GZIP_FOOTER_LEN)
  else some (pos + untilGzip (file.drop pos))

/-- The stretches of the file that a round looks at: the magic number, what `inflate` is given and
the size in the footer, or each place at which a header is searched. -/
def stretches (lib : DiffLib) (file : Bytes) (pos : Nat) : Pairs :=
  if file.length ≤ pos then []
  else if sliceOf file pos 4 = gzipMagic then
    (pos, pos + 4) ::
      if file.length - pos < GZIP_HEADER_LEN + GZIP_FOOTER_LEN then []
      else
        let body := pos + GZIP_HEADER_LEN
        (body, body + (file.length - body) % 2 ^ 32) ::
          match lib.inflateStream (file.drop body) with
          | none => []
          | some (_, rawDataLen) =>
            let footerIndex := body + rawDataLen + GZIP_FOOTER_LEN - 4
            if (file.length + 2 ^ 64 - footerIndex) % 2 ^ 64 < 4 then []
            else [(footerIndex, footerIndex + 4)]
  else
    -- with the place of the next header, at which the search stops
    ((List.range' pos (untilGzip (file.drop pos) + 1)).filter (· + 4 ≤ file.length)).map
      fun i => (i, i + 4)

/-- The positions at which a round starts. -/
inductive Visits (lib : DiffLib) (file : Bytes) : Nat → Prop
  | start : Visits lib file 0
  | next {pos pos' : Nat} : Visits lib file pos → nextPos lib file pos = some pos' →
      Visits lib file pos'

/-- The image is cut into chunks, and no byte outside it is looked at. A deflate chunk of 4 GiB and
more may go on behind its stream. -/
structure Partitioned (IsStream : Bytes → Bytes → Prop) (lib : DiffLib) (file : Bytes) : Prop where
  inside : ∀ pos, Visits lib file pos → ∀ r ∈ stretches lib file pos, r.2 ≤ file.length
  tiles : Tiles file 0 (initializeImage lib file) file.length
  nonEmpty : ∀ c ∈ initializeImage lib file, 0 < c.rawDataLen
  inflates : ∀ c ∈ initializeImage lib file, c.type = .deflate →
    ∃ n, IsStream (c.raw.take n) c.uncompressedData ∧ (file.length < 2 ^ 32 → n = c.rawDataLen)

/-- Where the data behind a header inflates, at least four bytes follow on the stream. -/
def Footed (lib : DiffLib) (file : Bytes) (pos : Nat) : Prop :=
  GzipAt file pos → ∀ contents rawDataLen,
    lib.inflateStream (file.drop (pos + GZIP_HEADER_LEN)) = some (contents, rawDataLen) →
    pos + GZIP_HEADER_LEN + rawDataLen + 4 ≤ file.length

/-! ## What the loop around `inflate` finds -/

theorem resize_length (data : Bytes) (len : Nat) : (resize data len).length = len := by
  unfold resize
  rw [length_append, length_take, length_replicate]
  omega

theorem resize_self (data : Bytes) : resize data data.length = data := by
  unfold resize
  rw [take_length, Nat.sub_self, replicate_zero, append_nil]

/-- Up to 4 GiB the buffer is a power of two and `uncompressed_len` is what came out. From there on
the room is taken modulo `2 ^ 32`, and all that is known is that there was so much. -/
def Sized (allocated uncompressedLen : Nat) (out : Bytes) : Prop :=
  (∃ k ≤ 32, allocated = 2 ^ k ∧ uncompressedLen = out.length ∧ uncompressedLen < allocated ∧
    (k = 32 → 0 < uncompressedLen)) ∨ (2 ^ 32 ≤ uncompressedLen ∧ uncompressedLen ≤ allocated)

theorem Sized.grow {allocated len len' : Nat} {out more : Bytes} (h : Sized allocated len out)
    (hmore : more.length ≤ (allocated - len) % 2 ^ 32)
    (hlen' : len' = allocated - ((allocated - len) % 2 ^ 32 - more.length)) :
    (len' = (out ++ more).length ∨ 2 ^ 32 ≤ len') ∧
      Sized (if (allocated - len) % 2 ^ 32 - more.length = 0 then allocated * 2 else allocated) len'
        (out ++ more) := by
  rcases h with ⟨k, hk, rfl, rfl, hlt, hpos⟩ | ⟨hbig, hle⟩
  · have hroom : (2 ^ k - out.length) % 2 ^ 32 = 2 ^ k - out.length := by
      rcases Nat.lt_or_eq_of_le hk with hk | rfl
      · have : 2 ^ k < 2 ^ 32 := Nat.pow_lt_pow_right (by omega) hk
        omega
      · omega
    rw [length_append]
    refine ⟨.inl (by omega), ?_⟩
    split
    · -- the buffer is full, and doubled
      rcases Nat.lt_or_eq_of_le hk with hk | rfl
      · refine .inl ⟨k + 1, hk, (Nat.pow_succ 2 k).symm, ?_, by omega, by omega⟩
        rw [length_append]
        omega
      · exact .inr ⟨by omega, by omega⟩
    · refine .inl ⟨k, hk, rfl, ?_, by omega, fun h => ?_⟩
      · rw [length_append]
        omega
      · omega
  · refine ⟨.inr (by omega), .inr ⟨by omega, ?_⟩⟩
    split <;> omega

section Inflating

variable {ζ : Type} {zlib : Inflate ζ} {IsStream : Bytes → Bytes → Prop}
  (spec : InflateSpec zlib IsStream) {data : Bytes}

/-- Every round reads or puts out a byte, and there are only so many of either. -/
theorem inflateLoop_ends {bound : Nat}
    (hbound : ∀ {z rest out}, spec.reading data z rest out → out.length ≤ bound) {fuel : Nat} :
    ∀ {z : ζ} {rest out : Bytes} {allocated len : Nat}, spec.reading data z rest out →
    rest.length + (bound - out.length) < fuel →
    inflateLoop zlib fuel z rest allocated len out ≠ none := by
  induction fuel with
  | zero => exact fun _ h => absurd h (Nat.not_lt_zero _)
  | succ fuel ih =>
    intro z rest out allocated len h hfuel
    rw [inflateLoop]
    cases hret : (zlib.inflate z rest ((allocated - len) % 2 ^ 32)).ret with
    | error => exact nofun
    | streamEnd => exact nofun
    | ok =>
      obtain ⟨hnext, hle, hprogress⟩ := spec.ok h hret
      have hlast := hbound hnext
      refine ih hnext ?_
      rw [length_append] at hlast ⊢
      omega

/-- The bytes that were read are a stream. The contents are its contents, unless they are too long
for a footer. -/
theorem inflateLoop_stream {fuel : Nat} : ∀ {z : ζ} {rest out contents left : Bytes}
    {allocated len : Nat}, spec.reading data z rest out → Sized allocated len out →
    inflateLoop zlib fuel z rest allocated len out = some (some (contents, left)) →
    ∃ stream, data = stream ++ left ∧ stream ≠ [] ∧
      (contents.length < 2 ^ 32 → IsStream stream contents) := by
  induction fuel with
  | zero => exact fun _ _ h => absurd h nofun
  | succ fuel ih =>
    intro z rest out contents left allocated len h hsized hloop
    have hout := spec.out_le z rest ((allocated - len) % 2 ^ 32)
    obtain ⟨hlen, hsized⟩ := hsized.grow hout rfl
    rw [inflateLoop] at hloop
    cases hret : (zlib.inflate z rest ((allocated - len) % 2 ^ 32)).ret with
    | error =>
      rw [hret] at hloop
      exact absurd hloop nofun
    | ok =>
      rw [hret] at hloop
      exact ih (spec.ok h hret).1 hsized hloop
    | streamEnd =>
      rw [hret] at hloop
      obtain ⟨rfl, rfl⟩ := Prod.mk.inj (Option.some.inj (Option.some.inj hloop))
      obtain ⟨stream, hdata, hne, hstream⟩ := spec.streamEnd h hret
      refine ⟨stream, hdata, hne, fun hshort => ?_⟩
      rw [resize_length] at hshort
      rw [hlen.resolve_right (by omega), resize_self]
      exact hstream

include spec in
/-- The same of a body. What `inflate` was not shown counts as part of the stream. -/
theorem inflateBody_stream {fuel n : Nat} {contents : Bytes}
    (h : (inflateBody zlib fuel data).join = some (contents, n)) :
    0 < n ∧ n ≤ data.length ∧
      (contents.length < 2 ^ 32 → ∃ m, IsStream ((data.take n).take m) contents ∧
        (data.length < 2 ^ 32 → m = n)) := by
  obtain ⟨body, hbody, hsome⟩ := Option.join_eq_some_iff.mp h |> Option.map_eq_some_iff.mp
  obtain ⟨⟨contents', left⟩, rfl, hpair⟩ := Option.map_eq_some_iff.mp hsome
  obtain ⟨rfl, rfl⟩ := Prod.mk.inj hpair
  have hstart : Sized BUFFER_SIZE 0 [] := .inl ⟨15, by omega, rfl, rfl, by decide, nofun⟩
  obtain ⟨stream, hshown, hne, hstream⟩ := inflateLoop_stream spec (spec.start _) hstart hbody
  have hpos : 0 < stream.length := length_pos_iff.mpr hne
  have hlength := congrArg List.length hshown
  rw [length_take, length_append] at hlength
  have hmod := Nat.mod_le data.length (2 ^ 32)
  dsimp only
  refine ⟨by omega, by omega, fun hshort => ⟨stream.length, ?_, fun hsmall => ?_⟩⟩
  · have htake : (data.take (data.length - left.length)).take stream.length = stream := by
      rw [take_take, Nat.min_eq_left (by omega)]
      have := congrArg (List.take stream.length) hshown
      rw [take_take, Nat.min_eq_left (by omega), take_left] at this
      exact this
    rw [htake]
    exact hstream hshort
  · rw [Nat.mod_eq_of_lt hsmall] at hlength
    omega

include spec in
theorem inflateBody_ends (data : Bytes) :
    ∃ enough, ∀ fuel ≥ enough, inflateBody zlib fuel data ≠ none := by
  obtain ⟨bound, hbound⟩ := spec.bounded (data.take (data.length % 2 ^ 32))
  refine ⟨(data.take (data.length % 2 ^ 32)).length + bound + 1, fun fuel hfuel hnone => ?_⟩
  refine inflateLoop_ends spec hbound (spec.start _) ?_ (Option.map_eq_none_iff.mp hnone)
  rw [length_nil]
  omega

end Inflating

/-! ## The search -/

theorem untilGzip_le (data : Bytes) : untilGzip data ≤ data.length := by
  induction data with
  | nil => exact Nat.le_refl _
  | cons b rest ih =>
    rw [untilGzip, length_cons]
    split <;> omega

section Scan

variable {lib : DiffLib} {file : Bytes} (hfile : file.length < 2 ^ 63)
  (hstream : ∀ {pos contents n}, lib.inflateStream (file.drop pos) = some (contents, n) →
    0 < n ∧ n ≤ file.length - pos)
include hfile hstream

/-- A round looks at the file only, exactly if there are four bytes behind the stream. -/
theorem stretches_inside_iff (pos : Nat) :
    (∀ r ∈ stretches lib file pos, r.2 ≤ file.length) ↔ Footed lib file pos := by
  unfold stretches Footed GzipAt GZIP_HEADER_LEN GZIP_FOOTER_LEN
  by_cases hend : file.length ≤ pos
  · rw [if_pos hend]
    exact ⟨fun _ hgzip => by omega, fun _ => forall_mem_nil _⟩
  rw [if_neg hend]
  by_cases hmagic : sliceOf file pos 4 = gzipMagic
  · have hfour : pos + 4 ≤ file.length := by
      have := congrArg List.length hmagic
      rw [sliceOf, length_take, length_drop, gzipMagic] at this
      simp only [length_cons] at this
      omega
    rw [if_pos hmagic, forall_mem_cons, and_iff_right hfour]
    by_cases hshort : file.length - pos < 10 + 8
    · rw [if_pos hshort]
      exact ⟨fun _ hgzip => by omega, fun _ => forall_mem_nil _⟩
    rw [if_neg hshort, forall_mem_cons,
      and_iff_right (show pos + 10 + (file.length - (pos + 10)) % 2 ^ 32 ≤ file.length by omega)]
    cases hbody : lib.inflateStream (file.drop (pos + 10)) with
    | none => exact ⟨fun _ _ _ _ h => (by cases h), fun _ => forall_mem_nil _⟩
    | some found =>
      obtain ⟨hpos, hle⟩ := hstream hbody
      have hpair : (∀ contents n, some found = some (contents, n) →
          pos + 10 + n + 4 ≤ file.length) ↔
          pos + 10 + found.2 + 4 ≤ file.length :=
        ⟨fun h => h found.1 found.2 rfl, fun h contents n heq =>
          by rw [Option.some.inj heq] at h; exact h⟩
      rw [hpair, forall_prop_of_true ⟨hmagic, Nat.le_of_not_lt hshort⟩]
      dsimp only
      split
      · -- the footer is cut off, but not so much that the subtraction wraps
        exact ⟨fun _ => by omega, fun _ => forall_mem_nil _⟩
      · rw [forall_mem_singleton]
        omega
  · rw [if_neg hmagic]
    refine ⟨fun _ hgzip => absurd hgzip.1 hmagic, fun _ r hr => ?_⟩
    obtain ⟨i, hi, rfl⟩ := mem_map.mp hr
    exact of_decide_eq_true (mem_filter.mp hi).2

theorem chunksFrom_tiles (hfooted : ∀ pos, Visits lib file pos → Footed lib file pos) :
    ∀ {rounds pos : Nat}, Visits lib file pos → pos ≤ file.length → file.length - pos ≤ rounds →
    Tiles file pos (chunksFrom lib file rounds pos) file.length ∧
      ∀ c ∈ chunksFrom lib file rounds pos, 0 < c.rawDataLen := by
  intro rounds
  induction rounds with
  | zero =>
    intro pos _ hle hrounds
    exact ⟨show pos = file.length by omega, forall_mem_nil _⟩
  | succ rounds ih =>
    intro pos hvisits hle hrounds
    have hnext : ∀ pos', nextPos lib file pos = some pos' → Visits lib file pos' :=
      fun pos' => hvisits.next
    unfold nextPos at hnext
    rw [chunksFrom]
    by_cases hend : file.length ≤ pos
    · rw [if_pos hend]
      exact ⟨show pos = file.length by omega, forall_mem_nil _⟩
    rw [if_neg hend] at hnext ⊢
    by_cases hmagic : sliceOf file pos 4 = gzipMagic
    · rw [if_pos hmagic] at hnext ⊢
      by_cases hshort : file.length - pos < GZIP_HEADER_LEN + GZIP_FOOTER_LEN
      · rw [if_pos hshort]
        refine ⟨⟨⟨rfl, ?_⟩, rfl, ?_⟩, forall_mem_singleton.mpr (Nat.sub_pos_of_lt (by omega))⟩
        · exact Nat.le_of_eq (Nat.add_sub_cancel' hle)
        · exact Nat.add_sub_cancel' hle
      rw [if_neg hshort] at hnext ⊢
      have hfoot := hfooted pos hvisits ⟨hmagic, Nat.le_of_not_lt hshort⟩
      dsimp only at hnext ⊢
      unfold GZIP_HEADER_LEN GZIP_FOOTER_LEN at *
      cases hbody : gzipBody lib file (pos + 10) with
      | none =>
        rw [hbody] at hnext
        obtain ⟨htiles, hpos⟩ := ih (hnext _ rfl) (by omega) (by omega)
        exact ⟨⟨⟨rfl, show pos + 10 ≤ _ by omega⟩, rfl, htiles⟩,
          forall_mem_cons.mpr ⟨show 0 < 10 by omega, hpos⟩⟩
      | some found =>
        obtain ⟨contents, n⟩ := found
        rw [hbody] at hnext
        obtain ⟨hinflates, _, hplace⟩ := gzipBody_some hbody
        unfold GZIP_FOOTER_LEN at hplace
        have hfour := hfoot contents n hinflates
        have hn := (hstream hinflates).1
        obtain ⟨htiles, hpos⟩ := ih (hnext _ rfl) (by omega) (by omega)
        refine ⟨⟨⟨rfl, show pos + 10 ≤ _ by omega⟩, rfl, ⟨rfl, show pos + 10 + n ≤ _ by omega⟩, rfl,
          ⟨rfl, show pos + 10 + n + 8 ≤ _ by omega⟩, rfl, htiles⟩, ?_⟩
        simp only [forall_mem_cons]
        exact ⟨show 0 < 10 by omega, hn, show 0 < 8 by omega, hpos⟩
    · rw [if_neg hmagic] at hnext ⊢
      have hlen : 0 < untilGzip (file.drop pos) :=
        untilGzip_pos (fun h => hend (drop_eq_nil_iff.mp h)) hmagic
      have hmax := untilGzip_le (file.drop pos)
      rw [length_drop] at hmax
      obtain ⟨htiles, hpos⟩ := ih (hnext _ rfl) (by omega) (by omega)
      exact ⟨⟨⟨rfl, show pos + untilGzip (file.drop pos) ≤ _ by omega⟩, rfl, htiles⟩,
        forall_mem_cons.mpr ⟨hlen, hpos⟩⟩

end Scan

theorem chunksFrom_enough (lib : DiffLib) (file : Bytes) (extra : Nat) :
    chunksFrom lib file (file.length + extra) 0 = initializeImage lib file := by
  induction extra with
  | zero => rfl
  | succ extra ih => rw [← Nat.add_assoc, chunksFrom_rounds _ _ (by omega), ih]

/--
**Image chunking partitions the file**, for every image and every inflate that keeps its promises:
both loops end; and the image is cut into non-empty chunks that tile it, each deflate chunk with the
contents of its stream and no byte outside looked at, if and only if at every gzip header the search
comes to, the data of which inflates, four bytes are left behind the stream.
-/
theorem initialize_partitions_iff {ζ : Type} {zlib : Inflate ζ}
    {IsStream : Bytes → Bytes → Prop} (spec : InflateSpec zlib IsStream) (lib : DiffLib)
    (file : Bytes) (hfile : file.length < 2 ^ 63) :
    ∃ enough, ∀ fuel ≥ enough,
      (∀ pos, inflateBody zlib fuel (file.drop pos) ≠ none) ∧
      (∀ extra, chunksFrom (withZlib zlib lib fuel) file (file.length + extra) 0 =
        initializeImage (withZlib zlib lib fuel) file) ∧
      (Partitioned IsStream (withZlib zlib lib fuel) file ↔
        ∀ pos, Visits (withZlib zlib lib fuel) file pos →
        Footed (withZlib zlib lib fuel) file pos) := by
  choose enough henough using fun pos => inflateBody_ends spec (file.drop pos)
  refine ⟨(Finset.range (file.length + 1)).sup enough, fun fuel hfuel => ⟨fun pos => ?_, ?_, ?_⟩⟩
  · -- behind the end of the file there is nothing, as at its end
    have hdrop : file.drop pos = file.drop (min pos file.length) := by
      rcases Nat.le_total pos file.length with hle | hle
      · rw [Nat.min_eq_left hle]
      · rw [Nat.min_eq_right hle, drop_eq_nil_of_le hle, drop_length]
    have hmem : min pos file.length ∈ Finset.range (file.length + 1) :=
      Finset.mem_range.mpr (by omega)
    rw [hdrop]
    exact henough _ fuel (Nat.le_trans (Finset.le_sup hmem) hfuel)
  · exact chunksFrom_enough _ file
  have hstream : ∀ {pos contents n}, (withZlib zlib lib fuel).inflateStream (file.drop pos)
      = some (contents, n) → 0 < n ∧ n ≤ file.length - pos := by
    intro pos contents n h
    obtain ⟨hpos, hle, _⟩ := inflateBody_stream spec h
    exact ⟨hpos, by rwa [length_drop] at hle⟩
  constructor
  · exact fun h pos hvisits => (stretches_inside_iff hfile hstream pos).mp (h.inside pos hvisits)
  intro hfooted
  obtain ⟨htiles, hpos⟩ := chunksFrom_tiles hfile hstream hfooted .start (Nat.zero_le _)
    (Nat.le_refl _)
  refine ⟨fun pos hvisits => (stretches_inside_iff hfile hstream pos).mpr (hfooted pos hvisits),
    htiles, hpos, fun c hc hdeflate => ?_⟩
  obtain ⟨hinflates, hshort⟩ := (built_chunksFrom _ _ c hc).stream hdeflate
  obtain ⟨_, _, hcontents⟩ := inflateBody_stream spec hinflates
  obtain ⟨m, hm, hwhole⟩ := hcontents hshort
  rw [raw, (htiles.inside c hc).inputFile]
  refine ⟨m, hm, fun hsmall => hwhole ?_⟩
  rw [length_drop]
  omega

/-! ## A gzip file with and without its end -/

namespace Gzip

/-- `inflate` on the streams of the literal compression. -/
def zlib : Inflate (Option Bytes) := Whole.zlib inflateStream

def IsStream (stream contents : Bytes) : Prop :=
  (inflateStream stream).map (fun r => r.1) = some contents

def spec : InflateSpec zlib IsStream := Whole.spec inflateStream_take

/-- A header and the stream of `abcdef`, which has eight bytes. -/
def cutOff : Bytes :=
  gzipMagic ++ ([0, 0, 0, 0, 0, 3] ++ compress [0x61, 0x62, 0x63, 0x64, 0x65, 0x66])

/-- With the checksum and the size. -/
def complete : Bytes := cutOff ++ [0xef, 0x39, 0x8e, 0x4b, 6, 0, 0, 0]

theorem inflateBody_one {data contents : Bytes} {fuel n : Nat} (hsmall : data.length < 2 ^ 32)
    (hret : (zlib.inflate zlib.start data BUFFER_SIZE).ret = .streamEnd)
    (h : (inflateBody zlib fuel data).join = some (contents, n)) :
    n = data.length - (zlib.inflate zlib.start data BUFFER_SIZE).rest.length := by
  cases fuel with
  | zero => exact absurd h nofun
  | succ fuel =>
    have hroom : (BUFFER_SIZE - 0) % 2 ^ 32 = BUFFER_SIZE := rfl
    rw [inflateBody, Nat.mod_eq_of_lt hsmall, take_length, inflateLoop] at h
    rw [hroom, hret] at h
    exact (Prod.mk.inj (Option.some.inj h)).2.symm

theorem footed_complete (fuel pos : Nat) : Footed (withZlib zlib literalLib fuel) complete pos := by
  intro hgzip contents n hstream
  have hlength : complete.length = 26 := by decide +kernel
  have hle : pos ≤ 8 := by
    have := hgzip.2
    unfold GZIP_HEADER_LEN GZIP_FOOTER_LEN at this
    omega
  have hfirst : ∀ pos ≤ 8, sliceOf complete pos 4 = gzipMagic → pos = 0 := by decide +kernel
  obtain rfl := hfirst pos hle hgzip.1
  have hret : (zlib.inflate zlib.start (complete.drop (0 + GZIP_HEADER_LEN)) BUFFER_SIZE).ret
      = .streamEnd := by decide +kernel
  have hrest : (zlib.inflate zlib.start (complete.drop (0 + GZIP_HEADER_LEN))
      BUFFER_SIZE).rest.length
      = 8 := by decide +kernel
  have hn := inflateBody_one (by rw [length_drop]; omega) hret hstream
  rw [hrest, length_drop] at hn
  unfold GZIP_HEADER_LEN at hn ⊢
  omega

end Gzip

theorem complete_partitioned : ∃ enough, ∀ fuel ≥ enough,
    Partitioned Gzip.IsStream (withZlib Gzip.zlib literalLib fuel) Gzip.complete := by
  obtain ⟨enough, h⟩ := initialize_partitions_iff Gzip.spec literalLib Gzip.complete
    (by decide +kernel)
  exact ⟨enough, fun fuel hfuel =>
    (h fuel hfuel).2.2.mpr fun pos _ => Gzip.footed_complete fuel pos⟩

/-- Nothing follows on the stream: the size is looked up four bytes behind the end of the file. -/
theorem cut_off_footer_read : inflateBody Gzip.zlib 1 (Gzip.cutOff.drop 10)
      = some (some ([0x61, 0x62, 0x63, 0x64, 0x65, 0x66], 8)) ∧
    Gzip.cutOff.length = 18 ∧
    (22, 26) ∈ stretches (withZlib Gzip.zlib literalLib 1) Gzip.cutOff 0 ∧
    ¬ Partitioned Gzip.IsStream (withZlib Gzip.zlib literalLib 1) Gzip.cutOff := by
  have hlength : Gzip.cutOff.length = 18 := by decide +kernel
  have hread : (22, 26) ∈ stretches (withZlib Gzip.zlib literalLib 1) Gzip.cutOff 0 := by
    decide +kernel
  refine ⟨by decide +kernel, hlength, hread, fun h => ?_⟩
  have := h.inside 0 .start _ hread
  omega

end Pterodon.ImgDiff.ImageMode
