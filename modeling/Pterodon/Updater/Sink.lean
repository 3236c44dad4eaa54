import Pterodon.Updater.Device

/-!
# Writing a stream of bytes to a range set

`RangeSinkWriter` spreads a stream of bytes over the ranges of a target, one piece at a
time. It is the sink of a patch and the receiver of new data. What it does to the device
is collected as a list of events, so that the patch code, which knows sinks only as
functions, can be run as it is.
-/

namespace Pterodon.Updater

open Lib ApplyPatch

variable (cfg : Config)

/-- The ranges not started yet, and the rest of the current one: where it goes on and how
many bytes it has left. -/
structure RangeSinkWriter where
  pending : Pairs
  offset : Nat
  left : Nat

namespace RangeSinkWriter

def new (tgt : RangeSet) : RangeSinkWriter := ⟨tgt.ranges, 0, 0⟩

def finished (w : RangeSinkWriter) : Bool := w.pending = [] ∧ w.left = 0

def rangeBytes (p : Nat × Nat) : Nat := (p.2 - p.1) * BLOCKSIZE

def availableSpace (w : RangeSinkWriter) : Nat := w.left + (w.pending.map rangeBytes).sum

end RangeSinkWriter

/-- A writer with the events so far and the outcomes of the system calls to come. -/
structure SinkState where
  writer : RangeSinkWriter
  trace : List Event
  faults : List Bool

/-- `write_all` from a byte address on, block by block: the events, and whether it succeeds.
Every round writes a byte at least. -/
def writeAll : Nat → Nat → Bytes → List Bool → List Event × List Bool × Bool
  | 0, _, _, faults => ([], faults, true)
  | fuel + 1, address, data, faults =>
    if data = [] then ([], faults, true)
    else if !(pop faults).1 || decide (cfg.deviceBlocks ≤ address / BLOCKSIZE) then
      ([], (pop faults).2, false)
    else
      let size := BLOCKSIZE - address % BLOCKSIZE
      let r := writeAll fuel (address + size) (data.drop size) (pop faults).2
      (.write address (data.take size) :: r.1, r.2)

/-- `SeekToOutputRange`, on to the range `p`. -/
def seekToOutputRange (p : Nat × Nat) (faults : List Bool) : List Event × List Bool × Bool :=
  if !cfg.isRetry then ([], faults, true)
  else if !(pop faults).1 then ([], (pop faults).2, false)
  else ((numbers p).map (fun b => .discard b (cfg.discarded b)), (pop faults).2, true)

/-- The loop of `Write`: the state after it and the number of bytes written. -/
def writeLoop : Pairs → Nat → Nat → Bytes → List Event → List Bool →
    SinkState × Nat
  | pending, offset, left, data, trace, faults =>
    let size := min data.length left
    let r := writeAll cfg data.length offset (data.take size) faults
    if !r.2.2 then (⟨⟨pending, offset, left⟩, trace ++ r.1, r.2.1⟩, 0)
    else if data.length ≤ left then
      (⟨⟨pending, offset + size, left - size⟩, trace ++ r.1, r.2.1⟩, size)
    else
      match pending with
      | [] => (⟨⟨[], offset + size, 0⟩, trace ++ r.1, r.2.1⟩, size)
      | p :: pending =>
        let s := seekToOutputRange cfg p r.2.1
        if !s.2.2 then (⟨⟨pending, offset + size, RangeSinkWriter.rangeBytes p⟩,
          trace ++ r.1 ++ s.1, s.2.1⟩, size)
        else
          let rest := writeLoop pending (p.1 * BLOCKSIZE) (RangeSinkWriter.rangeBytes p)
            (data.drop size) (trace ++ r.1 ++ s.1) s.2.1
          (rest.1, size + rest.2)

/-- `RangeSinkWriter::Write`. -/
def rangeSink : Sink SinkState := fun s data =>
  if s.writer.finished then (s, 0)
  else writeLoop cfg s.writer.pending s.writer.offset s.writer.left data s.trace s.faults

/--
The receiver thread during one `new` command: it hands its pieces to the writer, cut to
what fits, until the writer is finished. The rest of the pieces stays; `none` if the data
ran out or a write failed.
-/
def receiveNewData : List Bytes → SinkState →
    SinkState × Option (List Bytes)
  | [], s => (s, none)
  | data :: pieces, s =>
    let writeNow := min data.length s.writer.availableSpace
    let r := rangeSink cfg s (data.take writeNow)
    if r.2 ≠ writeNow then (r.1, none)
    else if r.1.writer.finished then (r.1, some (data.drop writeNow :: pieces))
    else receiveNewData pieces r.1

/-- Run something that writes through a `RangeSinkWriter` on `tgt`. -/
def withSink {α : Type} (tgt : RangeSet) (f : SinkState → SinkState × α) : Blk α := fun v _ =>
  let r := f ⟨.new tgt, [], v.faults⟩
  ⟨r.1.trace, { v with faults := r.1.faults }, .ok r.2⟩

end Pterodon.Updater
