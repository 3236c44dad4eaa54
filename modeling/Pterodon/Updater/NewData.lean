import Pterodon.Lib.Inevitable
import Pterodon.Updater.Sink

/-!
# The thread that unpacks new data

The data of all `new` commands is one stream, unpacked by a second thread. A `new` command
puts a writer where that thread finds it and waits until it is gone. The other thread waits
for a writer before each piece of data, writes as much as fits, and takes the writer away
once its target is full. It raises a flag when it has no more data or cannot write.

A state says where either thread is in its code. Each operation on the mutex or the
condition variable is a step of its own, together with the code up to the next one. A thread
that waits is asleep until the other one broadcasts, or wakes up for no reason; either way
it then has to take the mutex.

Commands other than `new` do not touch what the threads share, and are left out.
-/

namespace Pterodon.Updater

open Lib

/-! ## Receivers -/

/--
The function that unpacks one call's worth of data: `receive_new_data` or
`receive_brotli_new_data`. `more` is the condition of its loop. `produce` is what it makes of
its data for a writer with some space left: the bytes to write and what it goes on with;
`none` if it gives up. `load` is a call with the next part of the entry.
-/
structure Receiver (δ : Type) where
  more : δ → Bool
  produce : δ → Nat → Option (Bytes × δ)
  load : δ → Bytes → δ

/-- `receive_new_data`; its state is the data it has left. -/
def plainReceiver : Receiver Bytes where
  more data := data ≠ []
  produce data space :=
    let writeNow := min data.length space
    some (data.take writeNow, data.drop writeNow)
  load _ data := data

structure Decoder (σ : Type) where
  /-- `BrotliDecoderHasMoreOutput`. -/
  hasMoreOutput : σ → Bool
  /-- `BrotliDecoderDecompressStream`, for some input and so much room for output: its state,
  the input it leaves and the output; `none` is `BROTLI_DECODER_RESULT_ERROR`. -/
  decompressStream : σ → Bytes → Nat → Option (σ × Bytes × Bytes)

/-- `receive_brotli_new_data`; its state is that of the decoder and the input it has left. -/
def brotliReceiver {σ : Type} (decoder : Decoder σ) : Receiver (σ × Bytes) where
  more s := s.2 ≠ [] || decoder.hasMoreOutput s.1
  produce s space :=
    let bufferSize := min 32768 space
    if bufferSize = 0 then none
    else (decoder.decompressStream s.1 s.2 bufferSize).map fun (state, input, out) =>
      (out, (state, input))
  load s data := (s.1, data)

/-! ## The two threads -/

inductive Thread where
  | main
  | unzip
  deriving DecidableEq

/-- The updater in `PerformBlockImageUpdate` and `PerformCommandNew`. -/
inductive MainPc where
  /-- Between two `new` commands. -/
  | commands
  /-- It has the mutex, and the writer is not there yet. -/
  | locked (tgt : RangeSet)
  /-- It has the mutex, at the head of the loop that waits for the writer to go. -/
  | test (tgt : RangeSet)
  /-- In `pthread_cond_wait`. -/
  | asleep (tgt : RangeSet)
  /-- Woken up, without the mutex. -/
  | woken (tgt : RangeSet)
  /-- The command returned -1. -/
  | failed (tgt : RangeSet)
  /-- In `pthread_join`, after all commands. -/
  | joining
  | finished
  deriving DecidableEq

/-- The receiver in `unzip_new_data`. -/
inductive UnzipPc where
  /-- In `ProcessZipEntryContents`, before the next call. -/
  | fetch
  /-- At the head of the loop of a call. -/
  | loop
  /-- It has the mutex, at the head of the loop that waits for a writer. -/
  | test
  /-- In `pthread_cond_wait`. -/
  | asleep
  /-- Woken up, without the mutex. -/
  | woken
  /-- It owns the writer. -/
  | owns
  /-- The writer is finished. -/
  | clearing
  /-- It has the mutex, to take the writer away. -/
  | clear
  /-- The writer is gone; it still has the mutex. -/
  | cleared
  /-- `ProcessZipEntryContents` has returned. -/
  | ending
  /-- It has the mutex, to raise the flag. -/
  | ends
  /-- The flag is up; it still has the mutex. -/
  | ended
  | done
  deriving DecidableEq

def MainPc.wake : MainPc → MainPc
  | .asleep tgt => .woken tgt
  | pc => pc

def UnzipPc.wake : UnzipPc → UnzipPc
  | .asleep => .woken
  | pc => pc

/-- The threads and what they share, `NewThreadInfo`. -/
structure NewThreads (δ : Type) where
  main : MainPc
  unzip : UnzipPc
  owner : Option Thread
  writer : Option RangeSinkWriter
  receiverAvailable : Bool
  /-- The targets of the `new` commands to come. -/
  todo : List RangeSet
  /-- What the receiver has of the current call, and the calls to come. -/
  source : δ
  pieces : List Bytes
  /-- The outcomes of the receiver's system calls. -/
  faults : List Bool
  /-- What was written for the current command. -/
  trace : List Event
  /-- The commands that returned 0, and what was written for each. -/
  reports : List (RangeSet × List Event)

namespace NewThreads

variable {δ : Type}

/-- The threads after `pthread_create`. -/
def start (tgts : List RangeSet) (source : δ) (pieces : List Bytes) (faults : List Bool) :
    NewThreads δ :=
  ⟨.commands, .fetch, none, none, true, tgts, source, pieces, faults, [], []⟩

/-- The receiver's step with a writer: it makes some data and hands it over. -/
def receive (cfg : Config) (r : Receiver δ) (s : NewThreads δ) (w : RangeSinkWriter) :
    NewThreads δ :=
  match r.produce s.source w.availableSpace with
  | none => { s with unzip := .ending }
  | some (data, source) =>
    let out := rangeSink cfg ⟨w, s.trace, s.faults⟩ data
    { s with
      source := source
      writer := some out.1.writer
      trace := out.1.trace
      faults := out.1.faults
      unzip :=
        if out.2 ≠ data.length then .ending
        else if out.1.writer.finished then .clearing
        else .loop }

inductive MainStep : NewThreads δ → NewThreads δ → Prop
  | lock {s tgt todo} : s.main = .commands → s.todo = tgt :: todo → s.owner = none →
      MainStep s { s with main := .locked tgt, todo := todo, owner := some .main }
  | publish {s tgt} : s.main = .locked tgt →
      MainStep s { s with
        main := .test tgt, writer := some (.new tgt), trace := [], unzip := s.unzip.wake }
  | wait {s tgt} : s.main = .test tgt → s.writer ≠ none → s.receiverAvailable = true →
      MainStep s { s with main := .asleep tgt, owner := none }
  | fail {s tgt} : s.main = .test tgt → s.writer ≠ none → s.receiverAvailable = false →
      MainStep s { s with main := .failed tgt, owner := none }
  | succeed {s tgt} : s.main = .test tgt → s.writer = none →
      MainStep s { s with
        main := .commands, owner := none, trace := [], reports := s.reports ++ [(tgt, s.trace)] }
  | relock {s tgt} : s.main = .woken tgt → s.owner = none →
      MainStep s { s with main := .test tgt, owner := some .main }
  | join {s} : s.main = .commands → s.todo = [] → MainStep s { s with main := .joining }
  | joined {s} : s.main = .joining → s.unzip = .done → MainStep s { s with main := .finished }

inductive UnzipStep (cfg : Config) (r : Receiver δ) : NewThreads δ → NewThreads δ → Prop
  | call {s piece pieces} : s.unzip = .fetch → s.pieces = piece :: pieces →
      UnzipStep cfg r s { s with
        unzip := .loop, source := r.load s.source piece, pieces := pieces }
  | noCall {s} : s.unzip = .fetch → s.pieces = [] → UnzipStep cfg r s { s with unzip := .ending }
  | return {s} : s.unzip = .loop → r.more s.source = false →
      UnzipStep cfg r s { s with unzip := .fetch }
  | lock {s} : s.unzip = .loop → r.more s.source = true → s.owner = none →
      UnzipStep cfg r s { s with unzip := .test, owner := some .unzip }
  | wait {s} : s.unzip = .test → s.writer = none →
      UnzipStep cfg r s { s with unzip := .asleep, owner := none }
  | take {s} : s.unzip = .test → s.writer ≠ none →
      UnzipStep cfg r s { s with unzip := .owns, owner := none }
  | relock {s} : s.unzip = .woken → s.owner = none →
      UnzipStep cfg r s { s with unzip := .test, owner := some .unzip }
  | write {s w} : s.unzip = .owns → s.writer = some w → UnzipStep cfg r s (s.receive cfg r w)
  | clearLock {s} : s.unzip = .clearing → s.owner = none →
      UnzipStep cfg r s { s with unzip := .clear, owner := some .unzip }
  | clear {s} : s.unzip = .clear →
      UnzipStep cfg r s { s with unzip := .cleared, writer := none, main := s.main.wake }
  | clearUnlock {s} : s.unzip = .cleared →
      UnzipStep cfg r s { s with unzip := .loop, owner := none }
  | endLock {s} : s.unzip = .ending → s.owner = none →
      UnzipStep cfg r s { s with unzip := .ends, owner := some .unzip }
  | endFlag {s} : s.unzip = .ends →
      UnzipStep cfg r s { s with
        unzip := .ended, receiverAvailable := false
        main := if s.writer = none then s.main else s.main.wake }
  | endUnlock {s} : s.unzip = .ended → UnzipStep cfg r s { s with unzip := .done, owner := none }

def Step (cfg : Config) (r : Receiver δ) (s t : NewThreads δ) : Prop :=
  MainStep s t ∨ UnzipStep cfg r s t

/-- A thread wakes up for no reason. -/
inductive Wake : NewThreads δ → NewThreads δ → Prop
  | main {s tgt} : s.main = .asleep tgt → Wake s { s with main := .woken tgt }
  | unzip {s} : s.unzip = .asleep → Wake s { s with unzip := .woken }

def Reach (cfg : Config) (r : Receiver δ) : NewThreads δ → NewThreads δ → Prop :=
  Relation.ReflTransGen (Moves (Step cfg r) Wake)

end NewThreads

end Pterodon.Updater
