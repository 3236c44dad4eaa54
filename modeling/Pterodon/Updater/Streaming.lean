import Pterodon.Updater.Contents

/-!
# Streaming is writing

`RangeSinkWriter` as the code keeps it: which range comes next, how much of the current one is left,
how many bytes were written, and where the file descriptor stands. It goes to a range only when
there is a byte for it, and with a retry discards the range then.

It does what the sink of the patches and the new data does, whatever fails (`write_sink`).

It is given its data in pieces, while `WriteBlocks` has all of it and goes through
one range after the other. Both fill in the same form. So whatever the pieces are, the bytes of the
device are changed in the same order and to the same values, also where ranges overlap
(`streaming_is_bulk`).
-/

namespace Pterodon.Updater

open Lib List ApplyPatch Sample

variable (cfg : Config)

/-! ## The writer -/

/-- `RangeSinkWriter`, with the position of its file descriptor, what it has done to the device and
the outcomes of the system calls to come. -/
structure Writer where
  nextRange : Nat
  currentRangeLeft : Nat
  bytesWritten : Nat
  position : Nat
  trace : List Event
  faults : List Bool

namespace Writer

/-- A new writer, on a descriptor that stands anywhere. -/
def new (position : Nat) : Writer := ⟨0, 0, 0, position, [], []⟩

def finished (tgt : RangeSet) (w : Writer) : Bool :=
  decide (w.nextRange = tgt.ranges.length) && decide (w.currentRangeLeft = 0)

def availableSpace (tgt : RangeSet) (w : Writer) : Nat := tgt.blocks * BLOCKSIZE - w.bytesWritten

/-- `SeekToOutputRange`. -/
def seek (tgt : RangeSet) (w : Writer) : Writer × Bool :=
  if w.currentRangeLeft ≠ 0 then (w, true)
  else
    match tgt.ranges[w.nextRange]? with
    | none => (w, false)
    | some range =>
      let s := seekToOutputRange cfg range w.faults
      ({ w with
          currentRangeLeft := RangeSinkWriter.rangeBytes range
          nextRange := w.nextRange + 1
          position := if s.2.2 then range.1 * BLOCKSIZE else w.position
          trace := w.trace ++ s.1
          faults := s.2.1 }, s.2.2)

/-- The loop of `Write`; every round that does not end it writes a byte at least. Where a failed
write leaves the descriptor does not matter. -/
def writeRounds (tgt : RangeSet) : Nat → Writer → Bytes → Writer × Nat
  | 0, w, _ => (w, 0)
  | fuel + 1, w, data =>
    if data = [] then (w, 0)
    else
      let s := seek cfg tgt w
      if !s.2 then (s.1, 0)
      else
        let writeNow := min data.length s.1.currentRangeLeft
        let r := writeAll cfg writeNow s.1.position (data.take writeNow) s.1.faults
        if !r.2.2 then ({ s.1 with trace := s.1.trace ++ r.1, faults := r.2.1 }, 0)
        else
          let rest := writeRounds tgt fuel
            { s.1 with
              currentRangeLeft := s.1.currentRangeLeft - writeNow
              position := s.1.position + writeNow
              trace := s.1.trace ++ r.1
              faults := r.2.1 } (data.drop writeNow)
          (rest.1, writeNow + rest.2)

/-- `Write`: the writer after it, and the number of bytes written. -/
def write (tgt : RangeSet) (w : Writer) (data : Bytes) : Writer × Nat :=
  if w.finished tgt then (w, 0)
  else
    let r := writeRounds cfg tgt data.length w data
    ({ r.1 with bytesWritten := r.1.bytesWritten + r.2 }, r.2)

/-- One `Write` after the other: the writer in the end, and what the calls returned. -/
def writeAllPieces (tgt : RangeSet) : Writer → List Bytes → Writer × List Nat
  | w, [] => (w, [])
  | w, piece :: pieces =>
    let r := write cfg tgt w piece
    let rest := writeAllPieces tgt r.1 pieces
    (rest.1, r.2 :: rest.2)

end Writer

/-! ## The writer as a sink -/

section Stream

variable {cfg : Config} {tgt : RangeSet} {w : Writer} {p : Nat × Nat} {data : Bytes}
  {trace : List Event} {faults : List Bool} {pending : Pairs} {a offset left fuel : Nat}

theorem writeAll_fuel {n : Nat} (hfuel : data.length ≤ fuel) (hn : data.length ≤ n) :
    writeAll cfg fuel a data faults = writeAll cfg n a data faults := by
  induction fuel generalizing n a data faults with
  | zero =>
    obtain rfl := length_eq_zero_iff.mp (Nat.le_zero.mp hfuel)
    cases n <;> rfl
  | succ fuel ih =>
    cases n with
    | zero =>
      obtain rfl := length_eq_zero_iff.mp (Nat.le_zero.mp hn)
      rfl
    | succ n =>
      by_cases hnil : data = []
      · subst hnil
        rfl
      have hmod : a % BLOCKSIZE < BLOCKSIZE := Nat.mod_lt a (by decide)
      have hrest := @ih (data.drop (BLOCKSIZE - a % BLOCKSIZE)) (pop faults).2
        (a + (BLOCKSIZE - a % BLOCKSIZE)) n (by rw [length_drop]; omega)
        (by rw [length_drop]; omega)
      simp only [writeAll, hrest]

theorem currentWrite_none (h : min data.length left = 0) :
    currentWrite cfg offset left data faults = ([], faults, true) := by
  unfold currentWrite
  rw [h]
  cases data.length <;> rfl

theorem writeLoop_step {c : List Event × List Bool × Bool}
    (hc : currentWrite cfg offset left data faults = c) (hok : c.2.2 = true) :
    writeLoop cfg pending offset left data trace faults =
      let r := writeLoop cfg pending (offset + min data.length left) (left - min data.length left)
        (data.drop (min data.length left)) (trace ++ c.1) c.2.1
      (r.1, min data.length left + r.2) := by
  rw [writeLoop_eq, hc, writeLoop_eq, currentWrite_none (by rw [length_drop]; omega)]
  rcases Nat.lt_or_ge left data.length with hgt | hle
  · have hmore : data.length - left ≠ 0 := by omega
    rw [Nat.min_eq_right (Nat.le_of_lt hgt)]
    cases pending with
    | nil => simp [hok]
    | cons p ps =>
      cases hs : (seekToOutputRange cfg p c.2.1).2.2 <;>
        simp [hok, hs, hmore, Nat.not_le_of_lt hgt]
  · simp [hok, hle]

/-- The state of the writer, as one of the sink. -/
def Writer.sink (tgt : RangeSet) (w : Writer) : SinkState :=
  ⟨⟨tgt.ranges.drop w.nextRange, w.position, w.currentRangeLeft⟩, w.trace, w.faults⟩

/-- The loop of the sink ends as that of the writer does, with `r`. -/
structure Agrees (cfg : Config) (tgt : RangeSet) (w : Writer) (data : Bytes) (r : Writer × Nat) :
    Prop where
  loop : writeLoop cfg (tgt.ranges.drop w.nextRange) w.position w.currentRangeLeft data w.trace
    w.faults = (r.1.sink tgt, r.2)
  next : r.1.nextRange ≤ tgt.ranges.length
  count : r.1.bytesWritten = w.bytesWritten

/-- The writer at the start of the next range; `s` is the outcome of the step to it. -/
def Writer.enter (w : Writer) (p : Nat × Nat) (s : List Event × List Bool × Bool) : Writer :=
  { w with
    currentRangeLeft := RangeSinkWriter.rangeBytes p
    nextRange := w.nextRange + 1
    position := p.1 * BLOCKSIZE
    trace := w.trace ++ s.1
    faults := s.2.1 }

theorem seek_current (hleft : w.currentRangeLeft ≠ 0) : w.seek cfg tgt = (w, true) := if_pos hleft

section Sink

variable (hnext : w.nextRange ≤ tgt.ranges.length)
include hnext

theorem agrees_nil : Agrees cfg tgt w [] (w, 0) := by
  refine ⟨?_, hnext, rfl⟩
  rw [writeLoop_eq, currentWrite_none (Nat.zero_min _)]
  simp [Writer.sink]

theorem agrees_current (hleft : w.currentRangeLeft ≠ 0) (hdata : data ≠ [])
    (ih : ∀ {w : Writer} {xs : Bytes}, w.nextRange ≤ tgt.ranges.length →
      xs.length < data.length → Agrees cfg tgt w xs (w.writeRounds cfg tgt fuel xs)) :
    Agrees cfg tgt w data (w.writeRounds cfg tgt (fuel + 1) data) := by
  have hpos := length_pos_iff.mpr hdata
  have hfuel : writeAll cfg (min data.length w.currentRangeLeft) w.position
      (data.take (min data.length w.currentRangeLeft)) w.faults =
        currentWrite cfg w.position w.currentRangeLeft data w.faults :=
    writeAll_fuel (by rw [length_take]; omega) (by rw [length_take]; omega)
  rw [Writer.writeRounds, if_neg hdata, seek_current hleft]
  simp only [hfuel]
  cases hok : (currentWrite cfg w.position w.currentRangeLeft data w.faults).2.2 with
  | false =>
    refine ⟨?_, hnext, rfl⟩
    rw [writeLoop_eq]
    simp only [hok]
    rfl
  | true =>
    obtain ⟨hloop, hnext', hcount⟩ := @ih
      { w with
        currentRangeLeft := w.currentRangeLeft - min data.length w.currentRangeLeft
        position := w.position + min data.length w.currentRangeLeft
        trace := w.trace ++ (currentWrite cfg w.position w.currentRangeLeft data w.faults).1
        faults := (currentWrite cfg w.position w.currentRangeLeft data w.faults).2.1 }
      (data.drop (min data.length w.currentRangeLeft)) hnext (by rw [length_drop]; omega)
    refine ⟨?_, hnext', hcount⟩
    rw [writeLoop_step rfl hok, hloop]
    rfl

theorem writeRounds_sink (hfuel : data.length ≤ fuel) :
    Agrees cfg tgt w data (w.writeRounds cfg tgt fuel data) := by
  induction fuel generalizing w data with
  | zero =>
    obtain rfl := length_eq_zero_iff.mp (Nat.le_zero.mp hfuel)
    exact agrees_nil hnext
  | succ fuel ih =>
    by_cases hdata : data = []
    · subst hdata
      exact agrees_nil hnext
    have hstep : ∀ {w : Writer}, w.nextRange ≤ tgt.ranges.length → w.currentRangeLeft ≠ 0 →
        Agrees cfg tgt w data (w.writeRounds cfg tgt (fuel + 1) data) :=
      fun hnext hleft => agrees_current hnext hleft hdata fun h hlt => ih h (by omega)
    by_cases hleft : w.currentRangeLeft = 0
    case neg => exact hstep hnext hleft
    have hnone := @currentWrite_none cfg data w.faults w.position w.currentRangeLeft (by omega)
    cases hrange : tgt.ranges[w.nextRange]? with
    | none =>
      have hdrop : tgt.ranges.drop w.nextRange = [] :=
        drop_eq_nil_of_le (getElem?_eq_none_iff.mp hrange)
      have hseek : w.seek cfg tgt = (w, false) := by simp [Writer.seek, hleft, hrange]
      rw [Writer.writeRounds, if_neg hdata, hseek]
      refine ⟨?_, hnext, rfl⟩
      rw [writeLoop_eq, hnone]
      simp [Writer.sink, hleft, hdrop, hdata]
    | some p =>
      obtain ⟨hlt, hp⟩ := List.getElem?_eq_some_iff.mp hrange
      have hdrop : tgt.ranges.drop w.nextRange = p :: tgt.ranges.drop (w.nextRange + 1) := by
        rw [drop_eq_getElem_cons hlt, hp]
      have hbytes : RangeSinkWriter.rangeBytes p ≠ 0 := by
        have := tgt.ordered p (mem_of_getElem? hrange)
        exact Nat.mul_ne_zero (by omega) (by decide)
      cases hs : (seekToOutputRange cfg p w.faults).2.2 with
      | false =>
        rw [Writer.writeRounds, if_neg hdata, Writer.seek, if_neg (not_not.mpr hleft), hrange]
        simp only [hs]
        refine ⟨?_, hlt, rfl⟩
        rw [hdrop, writeLoop_eq, hnone]
        simp [Writer.sink, hleft, hdata, hs]
      | true =>
        have hseek : w.seek cfg tgt = (w.enter p (seekToOutputRange cfg p w.faults), true) := by
          simp [Writer.seek, Writer.enter, hleft, hrange, hs]
        obtain ⟨hloop, hnext', hcount⟩ := @hstep (w.enter p (seekToOutputRange cfg p w.faults)) hlt
          hbytes
        have hrounds : w.writeRounds cfg tgt (fuel + 1) data = (w.enter p
            (seekToOutputRange cfg p w.faults)).writeRounds cfg tgt (fuel + 1) data := by
          rw [Writer.writeRounds, Writer.writeRounds, hseek, seek_current hbytes, if_neg hdata,
            if_neg hdata]
        rw [hrounds]
        refine ⟨?_, hnext', hcount⟩
        rw [← hloop, hdrop, writeLoop_eq, hnone]
        simp [Writer.enter, hleft, hdata, hs]

theorem finished_sink : (w.sink tgt).writer.finished = w.finished tgt := by
  have hdrop : tgt.ranges.drop w.nextRange = [] ↔ w.nextRange = tgt.ranges.length := by
    rw [drop_eq_nil_iff]
    omega
  simp [RangeSinkWriter.finished, Writer.finished, Writer.sink, hdrop]

/-- **The writer is the sink**, whatever fails. -/
theorem write_sink :
    rangeSink cfg (w.sink tgt) data = ((w.write cfg tgt data).1.sink tgt,
      (w.write cfg tgt data).2) ∧
      (w.write cfg tgt data).1.nextRange ≤ tgt.ranges.length ∧
      (w.write cfg tgt data).1.bytesWritten = w.bytesWritten + (w.write cfg tgt data).2 := by
  unfold rangeSink Writer.write
  rw [finished_sink hnext]
  split
  · exact ⟨rfl, hnext, rfl⟩
  · obtain ⟨hloop, hnext', hcount⟩ := @writeRounds_sink cfg tgt w data data.length hnext
      (Nat.le_refl _)
    exact ⟨hloop, hnext', congrArg (· + _) hcount⟩

end Sink

/-! ## Whole calls -/

/-- A new writer has been given `data`. -/
structure Progress (cfg : Config) (tgt : RangeSet) (w : Writer) (data : Bytes) : Prop where
  written : Written cfg tgt [] (w.sink tgt) data
  next : w.nextRange ≤ tgt.ranges.length
  count : w.bytesWritten = data.length

theorem Progress.finished_iff (h : Progress cfg tgt w data) :
    w.finished tgt = true ↔ data.length = tgt.addresses.length := by
  rw [← finished_sink h.next]
  exact h.written.finished_iff

section Calls

variable (hfit : ∀ x ∈ tgt.addresses, x < cfg.deviceBlocks * BLOCKSIZE)
include hfit

theorem Progress.write {piece : Bytes} (h : Progress cfg tgt w data)
    (hle : (data ++ piece).length ≤ tgt.addresses.length) :
    ∃ w', w.write cfg tgt piece = (w', piece.length) ∧ Progress cfg tgt w' (data ++ piece) := by
  obtain ⟨hsink, hnext, hcount⟩ := @write_sink cfg tgt w piece h.next
  have htaken := h.written.taken hfit hle
  have hstep := h.written.step htaken
  rw [hsink] at htaken hstep
  refine ⟨_, Prod.ext rfl htaken, hstep, hnext, ?_⟩
  rw [hcount, h.count, length_append]
  exact congrArg (data.length + ·) htaken

theorem Progress.pieces {pieces : List Bytes} (h : Progress cfg tgt w data)
    (hle : (data ++ pieces.flatten).length ≤ tgt.addresses.length) :
    ∃ w', w.writeAllPieces cfg tgt pieces = (w', pieces.map List.length) ∧
      Progress cfg tgt w' (data ++ pieces.flatten) := by
  induction pieces generalizing w data with
  | nil =>
    refine ⟨w, rfl, ?_⟩
    rw [flatten_nil, append_nil]
    exact h
  | cons piece pieces ih =>
    rw [flatten_cons, ← append_assoc] at hle ⊢
    have hfirst : (data ++ piece).length ≤ tgt.addresses.length := by
      rw [length_append] at hle
      omega
    obtain ⟨w₁, hwrite, h₁⟩ := h.write hfit hfirst
    obtain ⟨w', hrest, h'⟩ := ih h₁ hle
    refine ⟨w', ?_, h'⟩
    rw [Writer.writeAllPieces, hwrite]
    rw [hrest]
    rfl

end Calls

theorem device_ext {device device' : Nat → Block} (h : byteAt device = byteAt device') :
    device = device' := by
  funext b
  have hbytes : (device b).toBytes = (device' b).toBytes := by
    rw [← bytesAt_block, ← bytesAt_block]
    unfold bytesAt
    rw [h]
  rw [← Block.ofBytes_toBytes (device b), hbytes, Block.ofBytes_toBytes]

/-! ## `WriteBlocks` -/

section Bulk

variable {α : Type} {v : Params} {us us' : List (Nat × UInt8)}

/-- `m` gets through and changes these bytes of the device, one after the other. -/
def Puts (v : Params) (m : Blk α) (us : List (Nat × UInt8)) : Prop :=
  ∀ h d, wp (fun _ _ => True) m
    (fun _ _ v' d' => v' = v ∧ byteAt d'.device = put (byteAt d.device) us)
    (fun _ _ _ _ => False) h v d

theorem puts_pure (a : α) : Puts v (pure a) [] := fun _ _ => wp_pure ⟨rfl, rfl⟩

theorem Puts.bind {β : Type} {m : Blk α} {f : α → Blk β} (hm : Puts v m us)
    (hf : ∀ a, Puts v (f a) us') : Puts v (m >>= f) (us ++ us') := by
  intro h d
  refine wp_bind (wp_mono (hm h d) ?_ (fun _ _ _ _ hfalse => hfalse))
  rintro a h₁ _ d₁ ⟨rfl, hd₁⟩
  refine wp_mono (hf a h₁ d₁) ?_ (fun _ _ _ _ hfalse => hfalse)
  rintro _ _ _ d₂ ⟨hv, hd₂⟩
  exact ⟨hv, by rw [hd₂, hd₁, put_append]⟩

theorem puts_emit (e : Event) (he : e.InBlock) : Puts v (Prog.emit e) (byteUpdates e) :=
  fun _ d => wp_emit trivial ⟨rfl, byteAt_act he d⟩

theorem puts_call (hf : v.faults = []) : Puts v call [] := fun _ _ => wp_call_ok hf ⟨rfl, rfl⟩

theorem puts_discardAll : ∀ bs : List Nat, Puts v (discardAll cfg bs)
    (bs.flatMap fun b => (blockAddresses b).zip (cfg.discarded b).toBytes)
  | [] => puts_pure ()
  | b :: bs => (puts_emit (.discard b (cfg.discarded b)) trivial).bind fun _ => puts_discardAll bs

theorem puts_discardBlocks (hf : v.faults = []) :
    Puts v (discardBlocks cfg p) (itemUpdates cfg (.mark p)) := by
  unfold discardBlocks itemUpdates
  cases cfg.isRetry with
  | false => exact puts_pure ()
  | true => exact (puts_call hf).bind fun _ => puts_discardAll _

theorem toBytes_append (xs ys : List Block) : toBytes (xs ++ ys) = toBytes xs ++ toBytes ys :=
  flatMap_append

theorem puts_writeRun (hf : v.faults = []) : ∀ {xs : List Block} {b : Nat},
    b + xs.length ≤ cfg.deviceBlocks → Puts v (writeRun cfg b xs)
      ((List.range' (b * BLOCKSIZE) (xs.length * BLOCKSIZE)).zip (toBytes xs))
  | [], b, _ => puts_pure ()
  | x :: xs, b, hfit => by
    rw [length_cons] at hfit
    have haddr : range' (b * BLOCKSIZE) ((x :: xs).length * BLOCKSIZE) =
        blockAddresses b ++ range' ((b + 1) * BLOCKSIZE) (xs.length * BLOCKSIZE) := by
      unfold blockAddresses
      rw [length_cons, Nat.succ_mul xs.length, Nat.add_comm (xs.length * BLOCKSIZE),
        Nat.succ_mul b, range'_append_1]
    have hroom : Puts v (require (decide (b < cfg.deviceBlocks))) [] := by
      rw [decide_eq_true (show b < cfg.deviceBlocks by omega)]
      exact puts_pure ()
    rw [haddr, toBytes_cons, zip_append (by rw [Block.toBytes_length, blockAddresses,
      length_range'])]
    refine (puts_call hf).bind fun _ => hroom.bind fun _ => ?_
    exact (puts_emit (.writeBlock b x) trivial).bind fun _ => puts_writeRun hf (by omega)

theorem puts_writeRanges (hf : v.faults = []) : ∀ {ps : Pairs} {buffer : List Block},
    (∀ p ∈ ps, p.1 < p.2) → (∀ p ∈ ps, p.2 ≤ cfg.deviceBlocks) → buffer.length = size ps →
    Puts v (writeRanges cfg ps buffer)
      ((fill (ps.flatMap rangeItems) (toBytes buffer)).1.flatMap (itemUpdates cfg))
  | [], _, _, _, _ => by
    rw [flatMap_nil, fill_nil_left]
    exact puts_pure ()
  | p :: ps, buffer, hordered, hfit, hlen => by
    rw [size_cons] at hlen
    have hp := hordered p mem_cons_self
    have htake : (buffer.take (p.2 - p.1)).length = p.2 - p.1 := by
      rw [length_take]
      omega
    have hbytes : (toBytes (buffer.take (p.2 - p.1))).length = (rangeAddresses p).length := by
      rw [toBytes_length, htake, rangeAddresses, length_range']
      rfl
    have hne : toBytes (buffer.take (p.2 - p.1)) ≠ [] := by
      rw [← length_pos_iff, toBytes_length, htake]
      exact Nat.mul_pos (by omega) (by decide)
    -- what the form of the first range makes of the first blocks
    have hfeed : (fill ((p :: ps).flatMap rangeItems) (toBytes buffer)).1 =
        .mark p :: ((rangeAddresses p).zip (toBytes (buffer.take (p.2 - p.1)))).map .slot ++
          (fill (ps.flatMap rangeItems) (toBytes (buffer.drop (p.2 - p.1)))).1 := by
      have hrow := @fill_row _ _ _ (ps.flatMap rangeItems) (rangeAddresses p)
        (toBytes (buffer.take (p.2 - p.1))) (Nat.le_of_eq hbytes)
      rw [hbytes, drop_length, map_nil, nil_append] at hrow
      have hsplit : toBytes buffer =
          toBytes (buffer.take (p.2 - p.1)) ++ toBytes (buffer.drop (p.2 - p.1)) := by
        rw [← toBytes_append, take_append_drop]
      have hform : (p :: ps).flatMap rangeItems =
          .mark p :: ((rangeAddresses p).map .slot ++ ps.flatMap rangeItems) := rfl
      rw [hsplit, hform, fill_append, fill_mark _ _ hne, hrow]
    have hend := hfit p mem_cons_self
    have hrun : Puts v (writeRun cfg p.1 (buffer.take (p.2 - p.1))) _ := puts_writeRun hf (by omega)
    rw [htake] at hrun
    rw [hfeed, flatMap_append, flatMap_cons, flatMap_slot, append_assoc, writeRanges,
      if_neg (by omega)]
    exact (puts_discardBlocks hf).bind fun _ => hrun.bind fun _ => puts_writeRanges hf
      (forall_mem_cons.mp hordered).2 (forall_mem_cons.mp hfit).2 (by rw [length_drop]; omega)

end Bulk

theorem writeBlocks_bytes {v : Params} {buffer : List Block} (hf : v.faults = [])
    (hfit : ∀ p ∈ tgt.ranges, p.2 ≤ cfg.deviceBlocks) (hlen : buffer.length = tgt.blocks)
    (d : Disk) :
    (writeBlocks cfg tgt buffer v d).val = .ok () ∧
      byteAt (acts (writeBlocks cfg tgt buffer v d).trace d).device = put (byteAt d.device)
        ((fill (tgt.ranges.flatMap rangeItems) (toBytes buffer)).1.flatMap (itemUpdates cfg)) := by
  obtain ⟨_, hval, _, hbytes⟩ := wp_total (puts_writeRanges hf tgt.ordered hfit hlen [] d)
  exact ⟨hval, hbytes⟩

def packBlocks : Nat → Bytes → List Block
  | 0, _ => []
  | n + 1, bytes => Block.ofBytes (bytes.take BLOCKSIZE) :: packBlocks n (bytes.drop BLOCKSIZE)

theorem packBlocks_length : ∀ (n : Nat) (bytes : Bytes), (packBlocks n bytes).length = n
  | 0, _ => rfl
  | n + 1, _ => congrArg (· + 1) (packBlocks_length n _)

theorem toBytes_packBlocks : ∀ {n : Nat} {bytes : Bytes}, bytes.length = n * BLOCKSIZE →
    toBytes (packBlocks n bytes) = bytes
  | 0, bytes, h => (length_eq_zero_iff.mp (h.trans (Nat.zero_mul _))).symm
  | n + 1, bytes, h => by
    rw [Nat.succ_mul] at h
    rw [packBlocks, toBytes_cons, Block.toBytes_ofBytes (by rw [length_take]; omega),
      toBytes_packBlocks (by rw [length_drop]; omega), take_append_drop]

/--
**Streaming writes are bulk writes.** On a device without errors, in whatever pieces the data for a
target is handed to a new writer: every `Write` returns the size of its piece; after each of them
`AvailableSpace` is what is left of the target, and `Finished` says whether that is nothing; in the
end the device is what `WriteBlocks` makes of it; and then a `Write` of anything returns 0 and
changes nothing.
-/
theorem streaming_is_bulk (cfg : Config) (tgt : RangeSet) (data : Bytes)
    (pieces : List Bytes) (position : Nat) (v : Params) (d : Disk)
    (hfit : ∀ p ∈ tgt.ranges, p.2 ≤ cfg.deviceBlocks) (hv : v.faults = [])
    (hdata : data.length = tgt.blocks * BLOCKSIZE) (hpieces : pieces.flatten = data) :
    ((Writer.new position).writeAllPieces cfg tgt pieces).2 = pieces.map List.length ∧
    (∀ k, (((Writer.new position).writeAllPieces cfg tgt (pieces.take k)).1.finished tgt = true ↔
        (pieces.take k).flatten.length = data.length) ∧
      ((Writer.new position).writeAllPieces cfg tgt (pieces.take k)).1.availableSpace tgt =
        data.length - (pieces.take k).flatten.length) ∧
    (writeBlocks cfg tgt (packBlocks tgt.blocks data) v d).val = .ok () ∧
    (acts ((Writer.new position).writeAllPieces cfg tgt pieces).1.trace d).device =
      (acts (writeBlocks cfg tgt (packBlocks tgt.blocks data) v d).trace d).device ∧
    ∀ more, ((Writer.new position).writeAllPieces cfg tgt pieces).1.write cfg tgt more =
      (((Writer.new position).writeAllPieces cfg tgt pieces).1, 0) := by
  have hnew : Progress cfg tgt (Writer.new position) [] :=
    ⟨written_new cfg tgt position [], Nat.zero_le _, rfl⟩
  have haddr : tgt.addresses.length = data.length := by rw [addresses_length, hdata]
  have hon : ∀ b ∈ tgt.blockList, b < cfg.deviceBlocks := by
    intro b hb
    obtain ⟨p, hp, _, hlt⟩ := RangeSet.mem_blockList.mp hb
    exact Nat.lt_of_lt_of_le hlt (hfit p hp)
  -- the state after some of the pieces
  have hafter : ∀ some : List Bytes, some.flatten.length ≤ data.length →
      ∃ w, (Writer.new position).writeAllPieces cfg tgt some = (w, some.map List.length) ∧
        Progress cfg tgt w some.flatten := by
    intro some hle
    exact hnew.pieces (address_lt hon) (by rw [haddr]; exact hle)
  have hpart : ∀ k, (pieces.take k).flatten.length ≤ data.length := by
    intro k
    have hsplit := congrArg (fun l : List Bytes => l.flatten.length)
      (take_append_drop k pieces)
    rw [flatten_append, length_append, hpieces] at hsplit
    omega
  obtain ⟨w, hw, hprogress⟩ := hafter pieces (by rw [hpieces])
  rw [hpieces] at hprogress
  obtain ⟨hval, hbulk⟩ := writeBlocks_bytes hv hfit (packBlocks_length tgt.blocks data) d
  rw [hw]
  refine ⟨rfl, fun k => ?_, hval, ?_, fun more => ?_⟩
  · obtain ⟨wk, hwk, hk⟩ := hafter (pieces.take k) (hpart k)
    rw [hwk]
    constructor
    · rw [hk.finished_iff, haddr]
    · show tgt.blocks * BLOCKSIZE - wk.bytesWritten = _
      rw [hk.count, hdata]
  · have hrun := hprogress.written.renders
    refine device_ext ?_
    show byteAt (acts (w.sink tgt).trace d).device = _
    rw [byteAt_acts hrun.inBlock, hrun.updates, hbulk, toBytes_packBlocks hdata]
  · unfold Writer.write
    rw [if_pos (hprogress.finished_iff.mpr haddr.symm)]

end Stream

def Sample.again : RangeSet := ⟨[(6, 7), (2, 3), (6, 7)], by decide, by decide⟩

/-- A piece that ends in the second range, one that ends at the end of it, and the rest. -/
def Sample.threePieces : List Bytes :=
  [List.replicate 5000 1, List.replicate 3192 2, List.replicate 4096 3]

theorem three_pieces_streamed : ((Writer.new 0).writeAllPieces config again threePieces).2 =
        [5000, 3192, 4096] ∧
      (acts ((Writer.new 0).writeAllPieces config again threePieces).1.trace disk).device =
        (acts (writeBlocks config again (packBlocks again.blocks
          threePieces.flatten) (.start [] []) disk).trace disk).device := by
  have hlen : threePieces.flatten.length = again.blocks * BLOCKSIZE := by
    unfold threePieces
    simp only [flatten_cons, length_append, length_replicate]
    rfl
  have hmap : threePieces.map List.length = [5000, 3192, 4096] := by
    unfold threePieces
    simp only [map_cons, map_nil, length_replicate]
  obtain ⟨hreturned, _, _, hdevice, _⟩ := streaming_is_bulk config again
    threePieces.flatten threePieces 0 (.start [] []) disk (by decide) rfl hlen rfl
  exact ⟨hreturned.trans hmap, hdevice⟩

end Pterodon.Updater
