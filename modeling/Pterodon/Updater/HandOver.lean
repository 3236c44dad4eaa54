import Pterodon.Updater.NewData
import Pterodon.Updater.PatchSink

/-!
# Handing over new data

The invariant of the two threads, in two parts. `Control` says who has the mutex, who owns
the writer, and that neither thread sleeps through what it waits for: whoever brings it about
broadcasts. `Accounts` says where the stream is: the bytes of the commands that returned 0,
then the bytes written for the current one, then what the receiver still has. So what was
written for the `k`-th command is the `k`-th slice of the stream.

The accounts of the current command are kept as long as the receiver gets its data written.
After a write that failed the writer stays where it is, and the command cannot return 0.
-/

namespace Pterodon.Updater

open Lib List UnzipPc

variable (pc : UnzipPc)

/-! ## Where the threads are -/

namespace MainPc

def holds : MainPc → Bool
  | .locked _ | .test _ => true
  | _ => false

/-- The target of the command that has put its writer in place. -/
def published : MainPc → Option RangeSet
  | .test tgt | .asleep tgt | .woken tgt | .failed tgt => some tgt
  | _ => none

/-- The target of the command that has begun, and did not return 0. -/
def current : MainPc → Option RangeSet
  | .locked tgt => some tgt
  | pc => pc.published

def performs : MainPc → Option RangeSet
  | .locked tgt | .test tgt | .asleep tgt | .woken tgt => some tgt
  | _ => none

@[simp] theorem wake_holds (pc : MainPc) : pc.wake.holds = pc.holds := by cases pc <;> rfl

@[simp] theorem wake_published (pc : MainPc) : pc.wake.published = pc.published := by
  cases pc <;> rfl

@[simp] theorem wake_current (pc : MainPc) : pc.wake.current = pc.current := by cases pc <;> rfl

@[simp] theorem wake_performs (pc : MainPc) : pc.wake.performs = pc.performs := by cases pc <;> rfl

@[simp] theorem wake_eq_joining (pc : MainPc) : pc.wake = .joining ↔ pc = .joining := by
  cases pc <;> simp [wake]

@[simp] theorem wake_eq_failed (pc : MainPc) (tgt : RangeSet) :
    pc.wake = .failed tgt ↔ pc = .failed tgt := by
  cases pc <;> simp [wake]

@[simp] theorem wake_eq_finished (pc : MainPc) : pc.wake = .finished ↔ pc = .finished := by
  cases pc <;> simp [wake]

@[simp] theorem wake_ne_asleep (pc : MainPc) (tgt : RangeSet) : pc.wake ≠ .asleep tgt := by
  cases pc <;> exact fun h => MainPc.noConfusion h

end MainPc

namespace UnzipPc

def holds : UnzipPc → Bool
  | .test | .clear | .cleared | .ends | .ended => true
  | _ => false

/-- The writer is its own. -/
def owning : UnzipPc → Bool
  | .owns | .clearing | .clear => true
  | _ => false

/-- The writer it owns is finished. -/
def clears : UnzipPc → Bool
  | .clearing | .clear => true
  | _ => false

def wants : UnzipPc → Bool
  | .test | .asleep | .woken | .owns => true
  | _ => false

/-- It is through with its data, or could not write it. -/
def left : UnzipPc → Bool
  | .ending | .ends | .ended | .done => true
  | _ => false

/-- Its flag is up. -/
def gone : UnzipPc → Bool
  | .ended | .done => true
  | _ => false

@[simp] theorem wake_holds : pc.wake.holds = pc.holds := by cases pc <;> rfl

@[simp] theorem wake_owning : pc.wake.owning = pc.owning := by cases pc <;> rfl

@[simp] theorem wake_clears : pc.wake.clears = pc.clears := by cases pc <;> rfl

@[simp] theorem wake_wants : pc.wake.wants = pc.wants := by cases pc <;> rfl

@[simp] theorem wake_left : pc.wake.left = pc.left := by cases pc <;> rfl

@[simp] theorem wake_gone : pc.wake.gone = pc.gone := by cases pc <;> rfl

@[simp] theorem wake_ne_asleep : pc.wake ≠ .asleep := by
  cases pc <;> exact fun h => UnzipPc.noConfusion h

@[simp] theorem wake_eq_fetch : pc.wake = .fetch ↔ pc = .fetch := by
  cases pc <;> simp [wake]

end UnzipPc

namespace NewThreads

variable {δ : Type} {cfg : Config} {r : Receiver δ} {s t : NewThreads δ}

/-- How the threads share the mutex, the writer and the flag. -/
structure Control (r : Receiver δ) (s : NewThreads δ) : Prop where
  mainOwner : s.owner = some .main ↔ s.main.holds = true
  unzipOwner : s.owner = some .unzip ↔ s.unzip.holds = true
  flag : s.receiverAvailable = !s.unzip.gone
  /-- There is a writer only during the wait of a command. -/
  writer : s.writer.isSome = true → s.main.published.isSome = true
  /-- What the updater sleeps for has not happened yet... -/
  mainAsleep : ∀ tgt, s.main = .asleep tgt → s.writer.isSome = true ∧ s.receiverAvailable = true
  /-- ... nor what the receiver sleeps for. -/
  unzipAsleep : s.unzip = .asleep → s.writer = none
  owning : s.unzip.owning = true → s.writer.isSome = true
  wants : s.unzip.wants = true → r.more s.source = true
  fetch : s.unzip = .fetch → r.more s.source = false
  joining : s.main = .joining → s.todo = []
  /-- The receiver has ended when the updater says so. -/
  failed : ∀ tgt, s.main = .failed tgt → s.unzip = .done
  finished : s.main = .finished → s.unzip = .done

theorem control_start {tgts : List RangeSet} {source : δ} {pieces : List Bytes}
    {faults : List Bool} (h : r.more source = false) :
    Control r (start tgts source pieces faults) := by
  constructor <;> simp_all [start, MainPc.holds, holds, gone, owning, wants]

/-- A receiver that has raised its flag and does not have the mutex has let go of it for the last
time. -/
theorem Control.done (h : Control r s) (hmain : s.main.holds = true)
    (hflag : s.receiverAvailable = false) : s.unzip = .done := by
  have hfree : ¬ s.unzip.holds = true := by
    rw [← h.unzipOwner, h.mainOwner.mpr hmain]
    exact fun howner => by cases howner
  rw [h.flag] at hflag
  cases hpc : s.unzip <;> simp_all [holds, gone]

theorem control_main (h : Control r s) (hstep : MainStep s t) : Control r t := by
  have hdone := h.done
  obtain ⟨hmain, hunzip, hflag, hwriter, hsleep, hsleep', howning, hwants, hfetch, hjoin, hfailed,
    hfinished⟩ := h
  cases hstep <;> constructor <;>
    simp_all [MainPc.holds, MainPc.published, Option.isSome_iff_ne_none]

theorem receive_cases (w : RangeSinkWriter) :
    s.receive cfg r w = { s with unzip := .ending } ∨
    ∃ data source out pc, r.produce s.source w.availableSpace = some (data, source) ∧
      rangeSink cfg ⟨w, s.trace, s.faults⟩ data = out ∧
      s.receive cfg r w = { s with
        source := source, writer := some out.1.writer, trace := out.1.trace
        faults := out.1.faults, unzip := pc } ∧
      (pc = .ending ∨ (pc = .clearing ∨ pc = .loop) ∧ out.2 = data.length ∧
        out.1.writer.finished = pc.clears) := by
  rw [receive]
  cases r.produce s.source w.availableSpace with
  | none => exact .inl rfl
  | some p =>
    obtain ⟨data, source⟩ := p
    refine .inr ⟨data, source, _, _, rfl, rfl, rfl, ?_⟩
    by_cases hlen : (rangeSink cfg ⟨w, s.trace, s.faults⟩ data).2 = data.length
    · rw [if_neg (not_not_intro hlen)]
      cases hfin : (rangeSink cfg ⟨w, s.trace, s.faults⟩ data).1.writer.finished with
      | true => exact .inr ⟨.inl (if_pos rfl), hlen, rfl⟩
      | false => exact .inr ⟨.inr (if_neg Bool.false_ne_true), hlen, rfl⟩
    · exact .inl (if_pos hlen)

theorem not_unzipStep_done (h : s.unzip = .done) : ¬ UnzipStep cfg r s t := by
  intro hstep
  cases hstep <;> simp_all

theorem control_unzip (h : Control r s) (hstep : UnzipStep cfg r s t) : Control r t := by
  have hrunning : s.unzip ≠ .done := fun hdone => not_unzipStep_done hdone hstep
  obtain ⟨hmain, hunzip, hflag, hwriter, hsleep, hsleep', howning, hwants, hfetch, hjoin, hfailed,
    hfinished⟩ := h
  cases hstep with
  | write hpc hw =>
    rcases @receive_cases _ cfg r s _ with heq | ⟨data, source, out, pc, -, -, heq, hpc'⟩
    · rw [heq]
      constructor <;> simp_all [holds, gone, owning, wants]
    · rw [heq]
      rcases hpc' with rfl | ⟨rfl | rfl, -⟩ <;> constructor <;> simp_all [holds, gone, wants]
  | endFlag hpc =>
    -- an updater that sleeps sees a writer, so it is woken
    cases hw : s.writer <;> constructor <;>
      simp_all [holds, gone, owning, wants]
  | _ =>
    constructor <;>
      simp_all [holds, gone, owning, wants, Option.isSome_iff_ne_none]

theorem control_wake (h : Control r s) (hwake : Wake s t) : Control r t := by
  obtain ⟨hmain, hunzip, hflag, hwriter, hsleep, hsleep', howning, hwants, hfetch, hjoin, hfailed,
    hfinished⟩ := h
  cases hwake <;> constructor <;>
    simp_all [MainPc.holds, MainPc.published, holds, gone, owning, wants]

theorem control_move (h : Control r s) (hmove : Moves (Step cfg r) Wake s t) : Control r t := by
  rcases hmove with (hmain | hunzip) | hwake
  · exact control_main h hmain
  · exact control_unzip h hunzip
  · exact control_wake h hwake

/-! ## Where the data goes -/

def written (trace : List Event) : Bytes := (payload trace).map Prod.snd

def writtenTo (trace : List Event) : List Nat := (payload trace).map Prod.fst

/-- The bytes that were written for the commands that returned 0. -/
def served (s : NewThreads δ) : Bytes := s.reports.flatMap fun report => written report.2

/-- What a receiver makes of the data of an entry is one stream, whatever the space it is
offered: `rest` is the part of the stream that is still to come. -/
structure Splits (r : Receiver δ) (rest : δ → List Bytes → Bytes) : Prop where
  produce : ∀ {source space data source'}, r.more source = true →
    r.produce source space = some (data, source') →
    data.length ≤ space ∧ ∀ pieces, rest source pieces = data ++ rest source' pieces
  load : ∀ {source} piece pieces, r.more source = false →
    rest source (piece :: pieces) = rest (r.load source piece) pieces

/-- What was written so far, for the commands `tgts` from the stream `stream`. -/
structure Accounts (tgts : List RangeSet) (rest : δ → List Bytes → Bytes)
    (stream : Bytes) (s : NewThreads δ) : Prop where
  commands : tgts = s.reports.map Prod.fst ++ s.main.current.toList ++ s.todo
  /-- Every command that returned 0 has filled its target. -/
  covered : ∀ report ∈ s.reports, writtenTo report.2 = report.1.addresses
  idle : s.main.published = none → s.trace = []
  /-- A writer that is gone has filled its target. -/
  full : ∀ tgt, s.main.published = some tgt → s.writer = none → writtenTo s.trace = tgt.addresses
  served : s.served <+: stream
  settled : s.writer = none → s.served ++ written s.trace <+: stream
  /-- The receiver's data is what comes after the data that was written... -/
  live : s.unzip.left = false → stream = s.served ++ written s.trace ++ rest s.source s.pieces
  /-- ... and its writer goes on after the addresses that were written to. -/
  cursor : s.unzip.left = false → ∀ w, s.writer = some w → ∃ tgt, s.main.published = some tgt ∧
    writtenTo s.trace ++ w.addresses = tgt.addresses ∧ (∀ p ∈ w.pending, p.1 < p.2) ∧
    w.finished = s.unzip.clears

variable {tgts : List RangeSet} {rest : δ → List Bytes → Bytes} {stream : Bytes}

theorem accounts_start (source : δ) (pieces : List Bytes) (faults : List Bool) :
    Accounts tgts rest (rest source pieces) (start tgts source pieces faults) where
  commands := rfl
  covered _ h := absurd h not_mem_nil
  idle _ := rfl
  full _ h := by cases h
  served := nil_prefix
  settled _ := nil_prefix
  live _ := rfl
  cursor _ _ h := by cases h

theorem Accounts.same (h : Accounts tgts rest stream s) (hcurrent : t.main.current = s.main.current)
    (hpublished : t.main.published = s.main.published) (htodo : t.todo = s.todo)
    (hwriter : t.writer = s.writer) (htrace : t.trace = s.trace) (hreports : t.reports = s.reports)
    (hlive : t.unzip.left = false → s.unzip.left = false ∧ t.unzip.clears = s.unzip.clears ∧
      rest t.source t.pieces = rest s.source s.pieces) : Accounts tgts rest stream t := by
  have hserved : t.served = s.served := by rw [NewThreads.served, hreports]; rfl
  refine ⟨?_, ?_, ?_, ?_, ?_, ?_, ?_, ?_⟩
  · rw [hcurrent, htodo, hreports]
    exact h.commands
  · rw [hreports]
    exact h.covered
  · rw [hpublished, htrace]
    exact h.idle
  · rw [hpublished, hwriter, htrace]
    exact h.full
  · rw [hserved]
    exact h.served
  · rw [hwriter, hserved, htrace]
    exact h.settled
  · intro hleft
    obtain ⟨hleft', -, hrest⟩ := hlive hleft
    rw [hserved, htrace, hrest]
    exact h.live hleft'
  · intro hleft
    obtain ⟨hleft', hclears, -⟩ := hlive hleft
    rw [hwriter, hpublished, htrace, hclears]
    exact h.cursor hleft'

theorem new_unfinished (tgt : RangeSet) : (RangeSinkWriter.new tgt).finished = false :=
  decide_eq_false fun h => tgt.nonempty h.1

theorem accounts_main (hcontrol : Control r s) (h : Accounts tgts rest stream s)
    (hstep : MainStep s t) : Accounts tgts rest stream t := by
  cases hstep with
  | @lock tgt todo hmain htodo =>
    have hcommands := h.commands
    rw [hmain, htodo] at hcommands
    have hidle := h.idle (by rw [hmain]; rfl)
    refine ⟨?_, h.covered, fun _ => hidle, fun _ h => (by cases h), h.served, h.settled, h.live, ?_⟩
    · rw [hcommands]
      simp [MainPc.current, MainPc.published]
    · intro hleft w hw
      obtain ⟨tgt', hpub, -⟩ := h.cursor hleft w hw
      rw [hmain] at hpub
      cases hpub
  | @publish tgt hmain =>
    have hcommands := h.commands
    rw [hmain] at hcommands
    have hidle := h.idle (by rw [hmain]; rfl)
    have hnone : s.writer = none := by
      cases hw : s.writer with
      | none => rfl
      | some w =>
        have hpub := hcontrol.writer (by rw [hw]; rfl)
        rw [hmain] at hpub
        cases hpub
    have hclears : s.unzip.clears = false := by
      have howning := hcontrol.owning
      cases hpc : s.unzip <;> simp_all [owning, clears]
    refine ⟨hcommands, h.covered, fun h => (by cases h), fun _ _ h => (by cases h), h.served,
      fun h => (by cases h), fun hleft => ?_, fun _ w hw => ?_⟩
    · rw [wake_left] at hleft
      have hlive := h.live hleft
      rwa [hidle] at hlive
    · cases hw
      refine ⟨tgt, rfl, ?_, tgt.ordered, ?_⟩
      · exact addresses_new tgt
      · rw [new_unfinished, wake_clears, hclears]
  | wait hmain | fail hmain | relock hmain | join hmain | joined hmain =>
    exact h.same (by rw [hmain]; rfl) (by rw [hmain]; rfl) rfl rfl rfl rfl fun hl => ⟨hl, rfl, rfl⟩
  | @succeed tgt hmain hnone =>
    have hcommands := h.commands
    rw [hmain] at hcommands
    have hfull := h.full tgt (by rw [hmain]; rfl) hnone
    have hserved : s.served ++ written s.trace =
        (s.reports ++ [(tgt, s.trace)]).flatMap fun report => written report.2 := by
      rw [flatMap_append, flatMap_singleton]
      rfl
    refine ⟨?_, ?_, fun _ => rfl, fun _ h => (by cases h), ?_, fun _ => ?_, fun hleft => ?_,
      fun _ w hw => ?_⟩
    · rw [hcommands]
      simp [MainPc.current, MainPc.published]
    · intro report hreport
      rcases mem_append.mp hreport with hr | hr
      · exact h.covered report hr
      · rw [mem_singleton.mp hr]
        exact hfull
    · show List.flatMap _ _ <+: stream
      rw [← hserved]
      exact h.settled hnone
    · show List.flatMap _ _ ++ [] <+: stream
      rw [append_nil, ← hserved]
      exact h.settled hnone
    · show stream = List.flatMap _ _ ++ [] ++ _
      rw [append_nil, ← hserved]
      exact h.live hleft
    · exact absurd (hnone.symm.trans hw) (by simp)

theorem accounts_receive (hsplits : Splits r rest) (hmore : r.more s.source = true)
    (h : Accounts tgts rest stream s) (hpc : s.unzip = .owns) {w : RangeSinkWriter}
    (hw : s.writer = some w) : Accounts tgts rest stream (s.receive cfg r w) := by
  have hleft : s.unzip.left = false := by rw [hpc]; rfl
  obtain ⟨tgt, hpub, haddr, hpending, hfin⟩ := h.cursor hleft w hw
  rw [hpc] at hfin
  rcases @receive_cases _ cfg r s w with heq | ⟨data, source, out, pc, hproduce, hout, heq, hpc'⟩
  · rw [heq]
    exact h.same rfl rfl rfl rfl rfl rfl fun hl => (by cases hl)
  · rw [heq]
    obtain ⟨hfits, hrest⟩ := hsplits.produce hmore hproduce
    rw [availableSpace_eq] at hfits
    -- data that is taken whole is written behind the data before it
    have handed : pc.left = false → written out.1.trace = written s.trace ++ data ∧
        writtenTo out.1.trace ++ out.1.writer.addresses = tgt.addresses ∧
        out.1.writer.finished = pc.clears ∧ ∀ p ∈ out.1.writer.pending, p ∈ w.pending := by
      intro hl
      rcases hpc' with rfl | ⟨-, hlen, hfinished⟩
      · cases hl
      rw [← hout] at hlen hfinished ⊢
      obtain ⟨hpayload, hcursor, hsub⟩ :=
        @rangeSink_payload cfg ⟨w, s.trace, s.faults⟩ data hfin hlen
      have hzip : (w.addresses.take data.length).length = data.length := by
        rw [length_take]
        omega
      refine ⟨?_, ?_, hfinished, hsub⟩
      · rw [written, hpayload, map_append, map_snd_zip (Nat.le_of_eq hzip.symm)]
        rfl
      · rw [writtenTo, hpayload, hcursor, map_append, map_fst_zip (Nat.le_of_eq hzip),
          append_assoc, take_append_drop]
        exact haddr
    refine ⟨h.commands, h.covered, fun hnone => ?_, fun _ _ h => (by cases h), h.served,
      fun h => (by cases h), fun hl => ?_, fun hl w' hw' => ?_⟩
    · exact absurd (hpub.symm.trans hnone) (by simp)
    · obtain ⟨htrace, -⟩ := handed hl
      rw [htrace, ← append_assoc, append_assoc _ data, ← hrest s.pieces]
      exact h.live hleft
    · obtain ⟨-, hto, hfinished, hsub⟩ := handed hl
      cases hw'
      exact ⟨tgt, hpub, hto, fun p hp => hpending p (hsub p hp), hfinished⟩

theorem accounts_unzip (hsplits : Splits r rest) (hcontrol : Control r s)
    (h : Accounts tgts rest stream s) (hstep : UnzipStep cfg r s t) :
    Accounts tgts rest stream t := by
  -- most steps move the receiver and nothing else
  have hmoves : ∀ {pc : UnzipPc} {owner : Option Thread}, (pc.left = false →
      s.unzip.left = false ∧ pc.clears = s.unzip.clears) →
      Accounts tgts rest stream { s with unzip := pc, owner := owner } :=
    fun hpc => h.same rfl rfl rfl rfl rfl rfl fun hl => ⟨(hpc hl).1, (hpc hl).2, rfl⟩
  cases hstep with
  | call hpc hpieces =>
    refine h.same rfl rfl rfl rfl rfl rfl fun _ => ?_
    rw [hpc, hpieces, hsplits.load _ _ (hcontrol.fetch hpc)]
    exact ⟨rfl, rfl, rfl⟩
  | noCall hpc | endLock hpc | endUnlock hpc => exact hmoves fun hl => (by cases hl)
  | «return» hpc | lock hpc | wait hpc | take hpc | relock hpc | clearLock hpc | clearUnlock hpc =>
    exact hmoves fun _ => (by rw [hpc]; exact ⟨rfl, rfl⟩)
  | write hpc hw =>
    exact accounts_receive hsplits (hcontrol.wants (by rw [hpc]; rfl)) h hpc hw
  | clear hpc =>
    have hleft : s.unzip.left = false := by rw [hpc]; rfl
    obtain ⟨w, hw⟩ := Option.isSome_iff_exists.mp (hcontrol.owning (by rw [hpc]; rfl))
    obtain ⟨tgt, hpub, haddr, -, hfin⟩ := h.cursor hleft w hw
    -- the writer is finished, so its target is full
    rw [hpc] at hfin
    rw [@addresses_of_finished ⟨w, [], []⟩ hfin, append_nil] at haddr
    have hlive := h.live hleft
    refine ⟨?_, h.covered, ?_, fun tgt' hpub' _ => ?_, h.served, fun _ => ?_, fun _ => hlive,
      fun _ _ hw => (by cases hw)⟩
    · rw [MainPc.wake_current]
      exact h.commands
    · rw [MainPc.wake_published]
      exact h.idle
    · rw [MainPc.wake_published, hpub] at hpub'
      cases hpub'
      exact haddr
    · rw [hlive]
      exact prefix_append _ _
  | endFlag hpc =>
    refine h.same ?_ ?_ rfl rfl rfl rfl fun hl => (by cases hl)
    · cases hw : s.writer <;> simp
    · cases hw : s.writer <;> simp

theorem accounts_wake (h : Accounts tgts rest stream s) (hwake : Wake s t) :
    Accounts tgts rest stream t := by
  cases hwake with
  | main hpc =>
    exact h.same (by rw [hpc]; rfl) (by rw [hpc]; rfl) rfl rfl rfl rfl fun hl => ⟨hl, rfl, rfl⟩
  | unzip hpc => exact h.same rfl rfl rfl rfl rfl rfl fun _ => (by rw [hpc]; exact ⟨rfl, rfl, rfl⟩)

/-- What holds of the threads in every state of a run. -/
def Sound (r : Receiver δ) (tgts : List RangeSet) (rest : δ → List Bytes → Bytes)
    (stream : Bytes) (s : NewThreads δ) : Prop :=
  Control r s ∧ Accounts tgts rest stream s

theorem sound_move (hsplits : Splits r rest) (h : Sound r tgts rest stream s)
    (hmove : Moves (Step cfg r) Wake s t) : Sound r tgts rest stream t := by
  refine ⟨control_move h.1 hmove, ?_⟩
  rcases hmove with (hmain | hunzip) | hwake
  · exact accounts_main h.1 h.2 hmain
  · exact accounts_unzip hsplits h.1 h.2 hunzip
  · exact accounts_wake h.2 hwake

theorem sound_reach (hsplits : Splits r rest) {source : δ} (hstart : r.more source = false)
    {pieces : List Bytes} {faults : List Bool}
    (h : Reach cfg r (start tgts source pieces faults) s) :
    Sound r tgts rest (rest source pieces) s :=
  reaches_invariant h ⟨control_start hstart, accounts_start source pieces faults⟩
    fun _ _ hs hmove => sound_move hsplits hs hmove

/-! ## Consecutive slices -/

/-- The number of bytes that a command needs. -/
def demand (tgt : RangeSet) : Nat := tgt.blocks * BLOCKSIZE

/-- Where the data of the `k`-th command begins in the stream. -/
def offset (tgts : List RangeSet) (k : Nat) : Nat := ((tgts.take k).map demand).sum

/-- What was written for the `k`-th command is its slice of the stream: every byte once, in
order, to the addresses of its target. -/
structure Slice (tgts : List RangeSet) (stream : Bytes) (k : Nat) (tgt : RangeSet)
    (trace : List Event) : Prop where
  command : tgts[k]? = some tgt
  enough : offset tgts k + demand tgt ≤ stream.length
  slice : payload trace = tgt.addresses.zip ((stream.drop (offset tgts k)).take (demand tgt))

theorem length_written {tgt : RangeSet} {trace : List Event} (h : writtenTo trace = tgt.addresses) :
    (written trace).length = demand tgt := by
  rw [written, length_map, demand, ← addresses_length, ← h, writtenTo, length_map]

theorem Accounts.served_length (h : Accounts tgts rest stream s) :
    s.served.length = (s.reports.map fun report => demand report.1).sum := by
  rw [NewThreads.served, length_flatMap]
  congr 1
  exact map_congr_left fun report hreport => length_written (h.covered report hreport)

theorem Accounts.slice (h : Accounts tgts rest stream s) {k : Nat} {tgt : RangeSet}
    {trace : List Event} (hk : s.reports[k]? = some (tgt, trace)) :
    Slice tgts stream k tgt trace := by
  obtain ⟨hlt, hget⟩ := List.getElem?_eq_some_iff.mp hk
  have hsplit : s.reports = s.reports.take k ++ (tgt, trace) :: s.reports.drop (k + 1) := by
    rw [← hget, ← drop_eq_getElem_cons hlt, take_append_drop]
  have hcovered : writtenTo trace = tgt.addresses :=
    h.covered (tgt, trace) (mem_of_getElem? hk)
  have hprefix : tgts.take k = (s.reports.take k).map Prod.fst := by
    rw [h.commands, append_assoc, take_append_of_le_length
      (by rw [length_map]; exact Nat.le_of_lt hlt), map_take]
  have hoffset : ((s.reports.take k).flatMap fun report => written report.2).length =
      offset tgts k := by
    rw [length_flatMap, offset, hprefix, map_map]
    congr 1
    refine map_congr_left fun report hreport => ?_
    exact length_written (h.covered report (mem_of_mem_take hreport))
  obtain ⟨tail, htail⟩ := h.served
  rw [NewThreads.served, hsplit, flatMap_append, flatMap_cons, append_assoc, append_assoc] at htail
  have hdata := length_written hcovered
  refine ⟨?_, ?_, ?_⟩
  · rw [h.commands, append_assoc, getElem?_append_left (by rwa [length_map]), getElem?_map, hk]
    rfl
  · rw [← htail, length_append, length_append, hdata]
    omega
  · rw [← htail, drop_left' hoffset, take_left' hdata, ← hcovered]
    exact zip_of_prod rfl rfl

/-! ## A command returns -/

/-- A command has returned, and `reports` are the commands that returned 0 before it. -/
def Returned (tgt : RangeSet) (reports : List (RangeSet × List Event)) (s : NewThreads δ) : Prop :=
  (s.main = .failed tgt ∧ s.reports = reports) ∨
  (s.main = .commands ∧ ∃ trace, s.reports = reports ++ [(tgt, trace)])

def Performs (tgt : RangeSet) (reports : List (RangeSet × List Event)) (s : NewThreads δ) : Prop :=
  s.main.performs = some tgt ∧ s.reports = reports

theorem enabled_unzip (hpc : s.unzip.holds = true) : ∃ t, UnzipStep cfg r s t := by
  cases h : s.unzip with
  | test =>
    cases hw : s.writer with
    | none => exact ⟨_, .wait h hw⟩
    | some w => exact ⟨_, .take h (by simp [hw])⟩
  | clear => exact ⟨_, .clear h⟩
  | cleared => exact ⟨_, .clearUnlock h⟩
  | ends => exact ⟨_, .endFlag h⟩
  | ended => exact ⟨_, .endUnlock h⟩
  | _ =>
    rw [h] at hpc
    cases hpc

/-- While a command waits and the mutex is free, the receiver can go on. -/
theorem enabled_free (h : Control r s) (howner : s.owner = none) (hw : s.writer.isSome = true)
    (havailable : s.receiverAvailable = true) : ∃ t, UnzipStep cfg r s t := by
  have hholds : ¬ s.unzip.holds = true := by
    rw [← h.unzipOwner, howner]
    exact fun h => Option.noConfusion rfl (heq_of_eq h)
  cases hpc : s.unzip with
  | fetch =>
    cases hpieces : s.pieces with
    | nil => exact ⟨_, .noCall hpc hpieces⟩
    | cons piece pieces => exact ⟨_, .call hpc hpieces⟩
  | loop =>
    cases hmore : r.more s.source with
    | false => exact ⟨_, .return hpc hmore⟩
    | true => exact ⟨_, .lock hpc hmore howner⟩
  | asleep =>
    -- it would have been woken when the writer came
    rw [h.unzipAsleep hpc] at hw
    cases hw
  | woken => exact ⟨_, .relock hpc howner⟩
  | owns =>
    obtain ⟨w, hw⟩ := Option.isSome_iff_exists.mp hw
    exact ⟨_, .write hpc hw⟩
  | clearing => exact ⟨_, .clearLock hpc howner⟩
  | ending => exact ⟨_, .endLock hpc howner⟩
  | done =>
    -- the flag would be up
    rw [h.flag, hpc] at havailable
    cases havailable
  | _ =>
    rw [hpc] at hholds
    exact absurd rfl hholds

/-- A thread that has the mutex while the updater has not can go on. -/
theorem enabled_owned (h : Control r s) {thread : Thread} (howner : s.owner = some thread)
    (hmain : s.main.holds = false) : ∃ t, Step cfg r s t := by
  cases thread with
  | main => exact absurd (h.mainOwner.mp howner) (Bool.eq_false_iff.mp hmain)
  | unzip =>
    obtain ⟨t, ht⟩ := @enabled_unzip _ cfg r s (h.unzipOwner.mp howner)
    exact ⟨t, .inr ht⟩

theorem enabled (h : Control r s) {tgt : RangeSet} (hmain : s.main.performs = some tgt) :
    ∃ t, Step cfg r s t := by
  cases hpc : s.main with
  | locked tgt => exact ⟨_, .inl (.publish hpc)⟩
  | test tgt =>
    cases hw : s.writer with
    | none => exact ⟨_, .inl (.succeed hpc hw)⟩
    | some w =>
      cases hflag : s.receiverAvailable with
      | true => exact ⟨_, .inl (.wait hpc (by simp [hw]) hflag)⟩
      | false => exact ⟨_, .inl (.fail hpc (by simp [hw]) hflag)⟩
  | asleep tgt =>
    obtain ⟨hw, havailable⟩ := h.mainAsleep tgt hpc
    cases howner : s.owner with
    | none =>
      obtain ⟨t, ht⟩ := @enabled_free _ cfg r s h howner hw havailable
      exact ⟨t, .inr ht⟩
    | some thread => exact enabled_owned h howner (by rw [hpc]; rfl)
  | woken tgt =>
    cases howner : s.owner with
    | none => exact ⟨_, .inl (.relock hpc howner)⟩
    | some thread => exact enabled_owned h howner (by rw [hpc]; rfl)
  | _ =>
    rw [hpc] at hmain
    cases hmain

end NewThreads

end Pterodon.Updater
