import Pterodon.Updater.Contents
import Pterodon.Updater.HandOver

/-!
# Every `new` command returns

While a command waits, the threads get on: a measure of what is left to do goes down with
each of their steps. Most of it is the receiver's data; the rest is how far either thread is
from its next sleep. Waking up for no reason costs a few steps each time and no more.

This needs a receiver that gets on with its data. The brotli decoder does not do so when it
is through with its stream and there is input left: then it neither takes nor makes
anything, and the receiver asks it again and again.

With the commands to come the measure is one for the whole run: no schedule goes on for ever, and
none gets stuck before a command has failed or all have returned.
-/

namespace Pterodon.Updater

open Lib List

/-- How far the updater is from its next sleep or from the end of the command. -/
def MainPc.rank : MainPc → Nat
  | .locked _ => 7
  | .woken _ => 3
  | .test _ => 2
  | .asleep _ => 1
  | _ => 0

/-- How far the receiver is from its next sleep, the next data, or its end. -/
def UnzipPc.rank : UnzipPc → Nat
  | .clearing => 15
  | .clear => 14
  | .cleared => 10
  | .woken | .loop => 9
  | .test => 8
  | .owns | .fetch => 7
  | .ending => 6
  | .ends | .asleep => 5
  | .ended => 1
  | .done => 0

/-- It is on the way to fill the target of the writer. -/
def UnzipPc.fills : UnzipPc → Bool
  | .fetch | .loop | .test | .asleep | .woken | .owns | .clearing => true
  | _ => false

theorem MainPc.wake_rank (pc : MainPc) : pc.wake.rank ≤ pc.rank + 2 := by
  cases pc <;> simp [wake, rank]

theorem UnzipPc.wake_rank (pc : UnzipPc) : pc.wake.rank ≤ pc.rank + 4 := by
  cases pc <;> decide

namespace NewThreads

variable {δ : Type} {cfg : Config} {r : Receiver δ} {s t : NewThreads δ} {tgts : List RangeSet}
  {rest : δ → List Bytes → Bytes} {stream : Bytes}

/-- What a receiver does with its data, whatever the space it is offered. -/
inductive Feeds (r : Receiver δ) : δ × List Bytes → δ × List Bytes → Prop
  | load {source piece pieces} : r.more source = false →
      Feeds r (source, piece :: pieces) (r.load source piece, pieces)
  | produce {source space data source' pieces} : r.more source = true → 0 < space →
      r.produce source space = some (data, source') → Feeds r (source, pieces) (source', pieces)

/-- A receiver that, whenever it can be asked to on the way from `source` and `pieces`, takes
some of its input or makes some data; `left` is the input it has left. -/
structure Advances (r : Receiver δ) (left : δ → Nat) (source : δ) (pieces : List Bytes) : Prop where
  produce : ∀ {now later space data next},
    Relation.ReflTransGen (Feeds r) (source, pieces) (now, later) → r.more now = true →
    0 < space → r.produce now space = some (data, next) →
    left next ≤ left now ∧ (data = [] → left next < left now)
  load : ∀ now piece, left (r.load now piece) ≤ piece.length

/-- The receiver's input and the data to come. -/
def work (rest : δ → List Bytes → Bytes) (left : δ → Nat) (s : NewThreads δ) : Nat :=
  left s.source + (s.pieces.map fun piece => piece.length + 1).sum + (rest s.source s.pieces).length

/-- What is left to do. -/
def toDo (rest : δ → List Bytes → Bytes) (left : δ → Nat) (s : NewThreads δ) : Nat :=
  s.main.rank + s.unzip.rank + 10 * work rest left s

variable {left : δ → Nat} {tgt : RangeSet} {reports : List (RangeSet × List Event)}
  {source : δ} {pieces : List Bytes}

theorem toDo_of_rank (hsource : t.source = s.source) (hpieces : t.pieces = s.pieces)
    (hrank : t.main.rank + t.unzip.rank < s.main.rank + s.unzip.rank) :
    toDo rest left t < toDo rest left s := by
  rw [toDo, toDo, work, work, hsource, hpieces]
  omega

theorem toDo_of_work (hwork : work rest left t < work rest left s) (hmain : t.main = s.main)
    (hrank : t.unzip.rank < s.unzip.rank + 10) : toDo rest left t < toDo rest left s := by
  rw [toDo, toDo, hmain]
  omega

theorem toDo_main (hmain : s.main.performs = some tgt) (hstep : MainStep s t) :
    toDo rest left t < toDo rest left s := by
  cases hstep with
  | publish h =>
    -- the broadcast may wake the receiver
    have hwake := s.unzip.wake_rank
    refine toDo_of_rank rfl rfl ?_
    simp only [h, MainPc.rank]
    omega
  | wait h | fail h | succeed h | relock h =>
    exact toDo_of_rank rfl rfl (by simp only [h, MainPc.rank]; omega)
  | lock h | join h | joined h => rw [h] at hmain; cases hmain

theorem availableSpace_pos {w : RangeSinkWriter} (hfin : w.finished = false)
    (hpending : ∀ p ∈ w.pending, p.1 < p.2) : 0 < w.availableSpace := by
  rw [availableSpace_eq]
  refine length_pos_iff.mpr fun hnil => ?_
  have hdone := @finished_of_addresses ⟨w, [], []⟩ hpending hnil
  rw [hfin] at hdone
  cases hdone

/-- The receiver's data in a run. -/
def Fed (r : Receiver δ) (source : δ) (pieces : List Bytes) (s : NewThreads δ) : Prop :=
  Relation.ReflTransGen (Feeds r) (source, pieces) (s.source, s.pieces)

theorem fed_unzip (hsound : Sound r tgts rest stream s) (h : Fed r source pieces s)
    (hstep : UnzipStep cfg r s t) : Fed r source pieces t := by
  cases hstep with
  | call hpc hpieces =>
    rw [Fed, hpieces] at h
    exact h.tail (.load (hsound.1.fetch hpc))
  | @write w hpc hw =>
    rcases @receive_cases _ cfg r s w with heq | ⟨_, _, _, _, hproduce, -, heq, -⟩
    · rw [heq]
      exact h
    · rw [heq]
      obtain ⟨_, -, -, hpending, hfin⟩ := hsound.2.cursor (by rw [hpc]; rfl) w hw
      rw [hpc] at hfin
      exact h.tail (.produce (hsound.1.wants (by rw [hpc]; rfl))
        (availableSpace_pos hfin hpending) hproduce)
  | _ => exact h

theorem fed_move (hsound : Sound r tgts rest stream s) (h : Fed r source pieces s)
    (hmove : Moves (Step cfg r) Wake s t) : Fed r source pieces t := by
  rcases hmove with (hmain | hunzip) | hwake
  · cases hmain <;> exact h
  · exact fed_unzip hsound h hunzip
  · cases hwake <;> exact h

/-- What holds of the threads and of the receiver's data in every state of a run. -/
def Runs (r : Receiver δ) (tgts : List RangeSet) (rest : δ → List Bytes → Bytes) (source : δ)
    (pieces : List Bytes) (s : NewThreads δ) : Prop :=
  Sound r tgts rest (rest source pieces) s ∧ Fed r source pieces s

theorem runs_start (hstart : r.more source = false) (faults : List Bool) :
    Runs r tgts rest source pieces (start tgts source pieces faults) :=
  ⟨⟨control_start hstart, accounts_start source pieces faults⟩, .refl⟩

theorem runs_move (hsplits : Splits r rest) (h : Runs r tgts rest source pieces s)
    (hmove : Moves (Step cfg r) Wake s t) : Runs r tgts rest source pieces t :=
  ⟨sound_move hsplits h.1 hmove, fed_move h.1 h.2 hmove⟩

theorem runs_reach (hsplits : Splits r rest) (hstart : r.more source = false)
    {faults : List Bool} (h : Reach cfg r (start tgts source pieces faults) s) :
    Runs r tgts rest source pieces s :=
  reaches_invariant h (runs_start hstart faults) fun _ _ hs hmove => runs_move hsplits hs hmove

theorem toDo_receive (hsplits : Splits r rest) (hadvances : Advances r left source pieces)
    (h : Runs r tgts rest source pieces s) (hpc : s.unzip = .owns) {w : RangeSinkWriter}
    (hw : s.writer = some w) : toDo rest left (s.receive cfg r w) < toDo rest left s := by
  obtain ⟨⟨hcontrol, haccounts⟩, hfed⟩ := h
  have hmore := hcontrol.wants (by rw [hpc]; rfl)
  obtain ⟨_, -, -, hpending, hfin⟩ := haccounts.cursor (by rw [hpc]; rfl) w hw
  rw [hpc] at hfin
  rcases @receive_cases _ cfg r s w with heq | ⟨data, source, out, pc, hproduce, -, heq, hpc'⟩
  · rw [heq]
    exact toDo_of_rank rfl rfl (by simp only [hpc, UnzipPc.rank]; omega)
  · obtain ⟨-, hrest⟩ := hsplits.produce hmore hproduce
    obtain ⟨hle, hlt⟩ := hadvances.produce hfed hmore (availableSpace_pos hfin hpending) hproduce
    have hwork : work rest left (s.receive cfg r w) < work rest left s := by
      rw [heq, work, work, hrest s.pieces, length_append]
      dsimp only
      rcases data with _ | ⟨b, data⟩
      · have := hlt rfl
        omega
      · rw [length_cons]
        omega
    refine toDo_of_work hwork (by rw [heq]) ?_
    rw [heq, hpc]
    show pc.rank < UnzipPc.owns.rank + 10
    rcases hpc' with rfl | ⟨rfl | rfl, -⟩ <;> decide

theorem toDo_unzip (hsplits : Splits r rest) (hadvances : Advances r left source pieces)
    (h : Runs r tgts rest source pieces s) (hstep : UnzipStep cfg r s t) :
    toDo rest left t < toDo rest left s := by
  have hwake := s.main.wake_rank
  cases hstep with
  | @call piece pieces hpc hpieces =>
    have hload := hadvances.load s.source piece
    have hrank : UnzipPc.loop.rank < s.unzip.rank + 10 := by rw [hpc]; decide
    refine toDo_of_work ?_ rfl hrank
    rw [work, work, hpieces, hsplits.load _ _ (h.1.1.fetch hpc), map_cons, sum_cons]
    dsimp only
    omega
  | noCall hpc | «return» hpc | lock hpc | wait hpc | take hpc | relock hpc | clearLock hpc
  | clear hpc | clearUnlock hpc | endLock hpc | endUnlock hpc =>
    exact toDo_of_rank rfl rfl (by simp only [hpc, UnzipPc.rank]; omega)
  | write hpc hw => exact toDo_receive hsplits hadvances h hpc hw
  | endFlag hpc =>
    refine toDo_of_rank rfl rfl ?_
    by_cases hw : s.writer = none
    · simp only [hpc, if_pos hw, UnzipPc.rank]
      omega
    · simp only [hpc, if_neg hw, UnzipPc.rank]
      omega

theorem toDo_wake (hwake : Wake s t) : toDo rest left t < toDo rest left s + 5 := by
  cases hwake with
  | main h =>
    rw [toDo, toDo, h]
    show 3 + s.unzip.rank + 10 * work rest left s < 1 + s.unzip.rank + 10 * work rest left s + 5
    omega
  | unzip h =>
    rw [toDo, toDo, h]
    show s.main.rank + 9 + 10 * work rest left s < s.main.rank + 5 + 10 * work rest left s + 5
    omega

/-! ## The command -/

theorem performs_main (h : Performs tgt reports s) (hstep : MainStep s t) :
    Performs tgt reports t ∨ Returned tgt reports t := by
  obtain ⟨hmain, hreports⟩ := h
  cases hstep with
  | lock h | join h | joined h => rw [h] at hmain; cases hmain
  | publish h | wait h | relock h => rw [h] at hmain; exact .inl ⟨hmain, hreports⟩
  | fail h =>
    rw [h] at hmain
    cases hmain
    exact .inr (.inl ⟨rfl, hreports⟩)
  | succeed h =>
    rw [h] at hmain
    cases hmain
    exact .inr (.inr ⟨rfl, _, by rw [hreports]⟩)

/-- The receiver does to the updater no more than wake it. -/
theorem unzip_main (hstep : UnzipStep cfg r s t) :
    (t.main = s.main ∨ t.main = s.main.wake) ∧ t.reports = s.reports ∧ t.todo = s.todo := by
  cases hstep with
  | write hpc hw =>
    rcases @receive_cases _ cfg r s _ with heq | ⟨_, _, _, _, -, -, heq, -⟩ <;> rw [heq] <;>
      exact ⟨.inl rfl, rfl, rfl⟩
  | clear => exact ⟨.inr rfl, rfl, rfl⟩
  | endFlag =>
    by_cases hw : s.writer = none
    · exact ⟨.inl (if_pos hw), rfl, rfl⟩
    · exact ⟨.inr (if_neg hw), rfl, rfl⟩
  | _ => exact ⟨.inl rfl, rfl, rfl⟩

theorem performs_unzip (h : Performs tgt reports s) (hstep : UnzipStep cfg r s t) :
    Performs tgt reports t := by
  obtain ⟨hmain, hreports, -⟩ := unzip_main hstep
  refine ⟨?_, hreports.trans h.2⟩
  rcases hmain with heq | heq <;> rw [heq]
  · exact h.1
  · rw [MainPc.wake_performs]
    exact h.1

theorem performs_wake (h : Performs tgt reports s) (hwake : Wake s t) : Performs tgt reports t := by
  cases hwake with
  | main hpc =>
    obtain ⟨hmain, hreports⟩ := h
    rw [hpc] at hmain
    exact ⟨hmain, hreports⟩
  | unzip => exact h

/-- A command returns, and what is kept while it is performed holds when it does. -/
theorem inevitably_returned (hsplits : Splits r rest) (hadvances : Advances r left source pieces)
    {J : NewThreads δ → Prop} (hkeep : ∀ s t, Performs tgt reports s → J s →
      Moves (Step cfg r) Wake s t → J t) (h : Runs r tgts rest source pieces s)
    (hperforms : Performs tgt reports s) (hJ : J s) (wakes : Nat) :
    Inevitably (Budgeted (Step cfg r) Wake)
      (fun p => Returned tgt reports p.1 ∧ Runs r tgts rest source pieces p.1 ∧ J p.1)
      (s, wakes) := by
  have performs : ∀ s : NewThreads δ, (Runs r tgts rest source pieces s ∧ J s ∧
      (Performs tgt reports s ∨ Returned tgt reports s)) →
      ¬ (Returned tgt reports s ∧ Runs r tgts rest source pieces s ∧ J s) →
      Performs tgt reports s :=
    fun s hs hP => hs.2.2.resolve_right fun hret => hP ⟨hret, hs.1, hs.2.1⟩
  refine Inevitably.of_budget
    (P := fun s => Returned tgt reports s ∧ Runs r tgts rest source pieces s ∧ J s)
    (I := fun s => Runs r tgts rest source pieces s ∧ J s ∧
    (Performs tgt reports s ∨ Returned tgt reports s)) (toDo rest left) 5 ?_ ?_ ?_
    ⟨h, hJ, .inl hperforms⟩ wakes
  · intro s hs hP
    exact enabled hs.1.1.1 (performs s hs hP).1
  · intro s t hs hP hstep
    have hp := performs s hs hP
    have hmove : Moves (Step cfg r) Wake s t := .inl hstep
    have hruns := runs_move hsplits hs.1 hmove
    have hJt := hkeep s t hp hs.2.1 hmove
    rcases hstep with hmain | hunzip
    · exact ⟨⟨hruns, hJt, performs_main hp hmain⟩, toDo_main hp.1 hmain⟩
    · exact ⟨⟨hruns, hJt, .inl (performs_unzip hp hunzip)⟩,
        toDo_unzip hsplits hadvances hs.1 hunzip⟩
  · intro s t hs hP hwake
    have hp := performs s hs hP
    have hmove : Moves (Step cfg r) Wake s t := .inr hwake
    exact ⟨⟨runs_move hsplits hs.1 hmove, hkeep s t hp hs.2.1 hmove,
      .inl (performs_wake hp hwake)⟩, toDo_wake hwake⟩

theorem left_move (hperforms : Performs tgt reports s)
    (h : s.unzip.left = true ∧ s.writer.isSome = true)
    (hmove : Moves (Step cfg r) Wake s t) : t.unzip.left = true ∧ t.writer.isSome = true := by
  obtain ⟨hleft, hw⟩ := h
  obtain ⟨hmain, -⟩ := hperforms
  rcases hmove with (hstep | hstep) | hwake
  · cases hstep with
    | lock h | join h | joined h => rw [h] at hmain; cases hmain
    | publish => exact ⟨by rw [UnzipPc.wake_left]; exact hleft, rfl⟩
    | succeed _ hnone => rw [hnone] at hw; cases hw
    | _ => exact ⟨hleft, hw⟩
  · cases hstep with
    | endLock | endFlag | endUnlock => exact ⟨rfl, hw⟩
    | call hpc | noCall hpc | «return» hpc | lock hpc | wait hpc | take hpc | relock hpc
    | write hpc | clearLock hpc | clear hpc | clearUnlock hpc => rw [hpc] at hleft; cases hleft
  · cases hwake with
    | main => exact ⟨hleft, hw⟩
    | unzip hpc => rw [hpc] at hleft; cases hleft

/--
Every byte that was written for a command that returned 0 is from the command's slice of the
stream. And a command that is performed returns, however often a thread wakes up for no
reason: with -1 if the receiver is through before the target is full, and if the stream ends
before it.
-/
theorem new_data_handed_over (hsplits : Splits r rest)
    (hadvances : Advances r left source pieces) (hstart : r.more source = false)
    {faults : List Bool} (hreach : Reach cfg r (start tgts source pieces faults) s) :
    (∀ k tgt trace, s.reports[k]? = some (tgt, trace) →
      Slice tgts (rest source pieces) k tgt trace) ∧
    ∀ tgt, s.main.performs = some tgt → ∀ wakes,
      Inevitably (Budgeted (Step cfg r) Wake) (fun p => Returned tgt s.reports p.1) (s, wakes) ∧
      (s.unzip.left = true ∧ s.writer.isSome = true ∨
          (rest source pieces).length < offset tgts s.reports.length + demand tgt →
        Inevitably (Budgeted (Step cfg r) Wake)
          (fun p => p.1.main = .failed tgt ∧ p.1.reports = s.reports) (s, wakes)) := by
  have hruns := runs_reach hsplits hstart hreach
  refine ⟨fun k tgt trace hk => hruns.1.2.slice hk, fun tgt hmain wakes => ⟨?_, ?_⟩⟩
  · refine (inevitably_returned hsplits hadvances (fun _ _ _ _ _ => trivial)
      hruns ⟨hmain, rfl⟩ trivial wakes).mono fun p hp => hp.1
  · rintro (hleft | hshort)
    · refine (inevitably_returned hsplits hadvances (fun _ _ hp h hmove => left_move hp h hmove)
        hruns ⟨hmain, rfl⟩ hleft wakes).mono ?_
      rintro ⟨t, n⟩ ⟨hreturned, hruns', -, hw⟩
      rcases hreturned with hfailed | ⟨hcommands, -⟩
      · exact hfailed
      · -- there is no writer between commands
        have hpub := hruns'.1.1.writer hw
        rw [hcommands] at hpub
        cases hpub
    · refine (inevitably_returned hsplits hadvances (fun _ _ _ _ _ => trivial)
        hruns ⟨hmain, rfl⟩ trivial wakes).mono ?_
      rintro ⟨t, n⟩ ⟨hreturned, hruns', -⟩
      rcases hreturned with hfailed | ⟨-, trace, hreports⟩
      · exact hfailed
      · -- the command would have got more than there is
        have hslice := @Accounts.slice _ _ _ _ _ hruns'.1.2 s.reports.length tgt trace
          (by rw [hreports, getElem?_concat_length])
        have henough := hslice.enough
        omega

/-! ## Commands that get their data -/

/-- A receiver that gets on and does not give up, and that has nothing to come without data. -/
structure Delivers (r : Receiver δ) (rest : δ → List Bytes → Bytes) (left : δ → Nat) (source : δ)
    (pieces : List Bytes) : Prop extends Advances r left source pieces where
  yields : ∀ {now later space}, Relation.ReflTransGen (Feeds r) (source, pieces) (now, later) →
    r.more now = true → 0 < space → r.produce now space ≠ none
  ends : ∀ {now}, r.more now = false → rest now [] = []

/-- A command waits while the receiver fills its target, and no write has failed. -/
structure Filling (r : Receiver δ) (tgts : List RangeSet) (rest : δ → List Bytes → Bytes)
    (source : δ) (pieces : List Bytes) (tgt : RangeSet) (todo : List RangeSet)
    (reports : List (RangeSet × List Event)) (s : NewThreads δ) : Prop where
  runs : Runs r tgts rest source pieces s
  main : s.main = .asleep tgt
  unzip : s.unzip.fills = true
  faults : s.faults = []
  todo : s.todo = todo
  reports : s.reports = reports

section Filling

variable {todo : List RangeSet} (hsplits : Splits r rest)
  (hdelivers : Delivers r rest left source pieces)
  (hfit : ∀ b ∈ tgt.blockList, b < cfg.deviceBlocks)
  (henough : (reports.map fun report => demand report.1).sum + demand tgt ≤
    (rest source pieces).length)
include hsplits hdelivers hfit henough

theorem filling_step (h : Filling r tgts rest source pieces tgt todo reports s)
    (hne : s.unzip ≠ .clearing) (hstep : UnzipStep cfg r s t) :
    Filling r tgts rest source pieces tgt todo reports t := by
  obtain ⟨hruns, hmain, hunzip, hfaults, htodo, hreports⟩ := h
  obtain ⟨⟨hcontrol, haccounts⟩, hfed⟩ := id hruns
  have hruns' := runs_move hsplits hruns (.inl (.inr hstep) : Moves (Step cfg r) Wake s t)
  have hleft : s.unzip.left = false := by
    cases hpc : s.unzip <;> simp_all [UnzipPc.fills, UnzipPc.left]
  have hclears : s.unzip.clears = false := by
    cases hpc : s.unzip <;> simp_all [UnzipPc.fills, UnzipPc.clears]
  obtain ⟨w, hw⟩ := Option.isSome_iff_exists.mp (hcontrol.mainAsleep tgt hmain).1
  obtain ⟨tgt', hpub, haddr, hpending, hfin⟩ := haccounts.cursor hleft w hw
  rw [hmain] at hpub
  cases hpub
  rw [hclears] at hfin
  have hspace := availableSpace_pos hfin hpending
  cases hstep with
  | call hpc | «return» hpc | lock hpc | take hpc | relock hpc =>
    exact ⟨hruns', hmain, rfl, hfaults, htodo, hreports⟩
  | noCall hpc hpieces =>
    -- the stream would have ended before the target is full
    have hlive := congrArg List.length (haccounts.live hleft)
    have hlen := congrArg List.length haddr
    rw [hpieces, hdelivers.ends (hcontrol.fetch hpc), append_nil, length_append,
      haccounts.served_length, hreports, written, length_map] at hlive
    rw [length_append, addresses_length, writtenTo, length_map] at hlen
    rw [availableSpace_eq] at hspace
    rw [show demand tgt = tgt.blocks * BLOCKSIZE from rfl] at henough
    omega
  | wait _ hnone => rw [hnone] at hw; cases hw
  | @write w' hpc hw' =>
    obtain rfl : w = w' := Option.some.inj (hw.symm.trans hw')
    have hmore := hcontrol.wants (by rw [hpc]; rfl)
    cases hproduce : r.produce s.source w.availableSpace with
    | none => exact absurd hproduce (hdelivers.yields hfed hmore hspace)
    | some p =>
      obtain ⟨data, source'⟩ := p
      have hmore' : ¬ (SinkState.mk w s.trace s.faults).writer.finished = true :=
        Bool.eq_false_iff.mp hfin
      obtain ⟨_, hspec⟩ := @rangeSink_spec (fun _ => True) _ cfg data hmore' fun _ _ => trivial
      have hfits := (hsplits.produce hmore hproduce).1
      rw [availableSpace_eq] at hfits
      have htaken := hspec.taken hfaults hfits fun a ha =>
        address_lt hfit a (haddr ▸ mem_append_right _ ha)
      have hconfined := hspec.confined
      rw [hfaults] at hconfined
      have hpc' : (s.receive cfg r w).unzip.fills = true := by
        simp only [receive, hproduce, htaken, ne_eq, not_true_eq_false, if_false]
        split <;> rfl
      have hsame : (s.receive cfg r w).main = s.main ∧ (s.receive cfg r w).todo = s.todo ∧
          (s.receive cfg r w).reports = s.reports := by
        simp only [receive, hproduce, and_self]
      refine ⟨hruns', hsame.1.trans hmain, hpc', ?_, hsame.2.1.trans htodo,
        hsame.2.2.trans hreports⟩
      simp only [receive, hproduce]
      rw [hfaults]
      exact hconfined.smooth
  | clearLock hpc => exact absurd hpc hne
  | clear hpc | clearUnlock hpc | endLock hpc | endFlag hpc | endUnlock hpc =>
    rw [hpc] at hunzip
    cases hunzip

theorem reach_clearing (h : Filling r tgts rest source pieces tgt todo reports s) :
    ∃ t, Relation.ReflTransGen (UnzipStep cfg r) s t ∧ t.unzip = .clearing ∧
      Filling r tgts rest source pieces tgt todo reports t := by
  refine (Inevitably.of_measure (I := Filling r tgts rest source pieces tgt todo reports)
    (toDo rest left) (fun s hs hlive => ?_) (fun s t hs hlive hstep => ⟨?_, ?_⟩) s h).reaches
  · have hcontrol := hs.runs.1.1
    obtain ⟨hw, havailable⟩ := hcontrol.mainAsleep tgt hs.main
    rcases howner : s.owner with _ | _ | _
    · exact enabled_free hcontrol howner hw havailable
    · have hholds := hcontrol.mainOwner.mp howner
      rw [hs.main] at hholds
      cases hholds
    · exact enabled_unzip (hcontrol.unzipOwner.mp howner)
  · exact filling_step hsplits hdelivers hfit henough hs (fun hpc => hlive ⟨hpc, hs⟩) hstep
  · exact toDo_unzip hsplits hdelivers.toAdvances hs.runs hstep

end Filling

/-- A step of the updater inside a command, or of the receiver. -/
def Inner (cfg : Config) (r : Receiver δ) (s t : NewThreads δ) : Prop :=
  s.main ≠ .commands ∧ MainStep s t ∨ UnzipStep cfg r s t

theorem inner_step (h : Inner cfg r s t) : Moves (Step cfg r) Wake s t :=
  .inl (h.imp And.right id)

/-- Between two commands, with a receiver that goes on and no failed write. -/
structure Idle (s : NewThreads δ) : Prop where
  main : s.main = .commands
  unzip : s.unzip = .fetch ∨ s.unzip = .loop
  faults : s.faults = []

theorem owner_free (h : Control r s) (hmain : s.main.holds = false)
    (hunzip : s.unzip.holds = false) : s.owner = none := by
  rcases howner : s.owner with _ | _ | _
  · rfl
  · rw [h.mainOwner.mp howner] at hmain
    cases hmain
  · rw [h.unzipOwner.mp howner] at hunzip
    cases hunzip

/-- With data enough, and if no write fails, there is a run in which the command returns 0 and the
receiver goes on. -/
theorem reach_command (hsplits : Splits r rest) (hdelivers : Delivers r rest left source pieces)
    (hfit : ∀ b ∈ tgt.blockList, b < cfg.deviceBlocks) {todo : List RangeSet}
    (henough : (s.reports.map fun report => demand report.1).sum + demand tgt ≤
      (rest source pieces).length)
    (hruns : Runs r tgts rest source pieces s) (hidle : Idle s) (htodo : s.todo = tgt :: todo) :
    ∃ s' t trace, MainStep s s' ∧ s'.main = .locked tgt ∧ Relation.ReflTransGen (Inner cfg r) s' t ∧
      Runs r tgts rest source pieces t ∧ Idle t ∧ t.todo = todo ∧
      t.reports = s.reports ++ [(tgt, trace)] := by
  have howner := owner_free hruns.1.1 (by rw [hidle.main]; rfl)
    (by rcases hidle.unzip with h | h <;> rw [h] <;> rfl)
  have havailable : s.receiverAvailable = true := by
    rw [hruns.1.1.flag]
    rcases hidle.unzip with h | h <;> rw [h] <;> rfl
  have hlock : MainStep s { s with main := .locked tgt, todo := todo, owner := some .main } :=
    .lock hidle.main htodo howner
  generalize hs' : { s with main := .locked tgt, todo := todo, owner := some .main } = s' at hlock
  have hwait : Relation.ReflTransGen (Inner cfg r) s'
      { s' with main := .asleep tgt, owner := none, writer := some (.new tgt), trace := []
                unzip := s'.unzip.wake } := by
    subst hs'
    refine (Relation.ReflTransGen.single (.inl ⟨MainPc.noConfusion, .publish rfl⟩)).tail
      (.inl ⟨MainPc.noConfusion, ?_⟩)
    exact @MainStep.wait _ { s with
      main := .test tgt, todo := todo, owner := some .main, writer := some (.new tgt), trace := []
      unzip := s.unzip.wake } tgt rfl (Option.some_ne_none _) havailable
  have hkeep : ∀ {a b : NewThreads δ}, Runs r tgts rest source pieces a →
      Relation.ReflTransGen (Inner cfg r) a b → Runs r tgts rest source pieces b := fun ha hrun =>
    reaches_invariant hrun ha fun _ _ hs hstep => runs_move hsplits hs (inner_step hstep)
  have hstart : Runs r tgts rest source pieces s' :=
    runs_move hsplits hruns (.inl (.inl hlock) : Moves (Step cfg r) Wake s s')
  obtain ⟨t, hfills, hpc, hfilling⟩ := reach_clearing hsplits hdelivers hfit henough
    (s := { s' with main := .asleep tgt, owner := none, writer := some (.new tgt), trace := []
                    unzip := s'.unzip.wake })
    ⟨hkeep hstart hwait, rfl, by subst hs'; rcases hidle.unzip with h | h <;> simp only [h] <;> rfl,
      by subst hs'; exact hidle.faults, by subst hs'; rfl, by subst hs'; rfl⟩
  have hinner : UnzipStep cfg r ≤ Inner cfg r := fun _ _ => Or.inr
  have hrun := hwait.trans (Relation.ReflTransGen.mono hinner _ _ hfills)
  obtain ⟨-, hmain, -, hfaults, htodo', hreports⟩ := id hfilling
  have hfree := owner_free hfilling.runs.1.1 (by rw [hmain]; rfl) (by rw [hpc]; rfl)
  obtain ⟨main, unzip, owner, writer, available, todo', now, later, faults, trace, reports'⟩ := t
  subst hmain hpc hfree hfaults htodo' hreports
  have hserved : Relation.ReflTransGen (Inner cfg r)
      ⟨.asleep tgt, .clearing, none, writer, available, todo', now, later, [], trace, s.reports⟩
      ⟨.commands, .loop, none, none, available, todo', now, later, [], [],
        s.reports ++ [(tgt, trace)]⟩ :=
    ((((Relation.ReflTransGen.single (.inr (.clearLock rfl rfl))).tail
      (.inr (.clear rfl))).tail (.inr (.clearUnlock rfl))).tail
      (.inl ⟨MainPc.noConfusion, .relock rfl rfl⟩)).tail
      (.inl ⟨MainPc.noConfusion, .succeed rfl rfl⟩)
  have hdone := hrun.trans hserved
  exact ⟨s', _, trace, hlock, by subst hs'; rfl, hdone, hkeep hstart hdone, ⟨rfl, .inr rfl, rfl⟩,
    rfl, rfl⟩

theorem reach_all (hsplits : Splits r rest) (hdelivers : Delivers r rest left source pieces)
    (hstart : r.more source = false)
    (hfit : ∀ tgt ∈ tgts, ∀ b ∈ tgt.blockList, b < cfg.deviceBlocks)
    (henough : (tgts.map demand).sum ≤ (rest source pieces).length) :
    ∃ t, Reach cfg r (start tgts source pieces []) t ∧ t.main = .commands ∧ t.todo = [] ∧
      t.reports.map Prod.fst = tgts := by
  have hrun : ∀ (todo : List RangeSet) (s : NewThreads δ), s.todo = todo →
      (∀ tgt ∈ todo, tgt ∈ tgts) →
      (s.reports.map fun report => demand report.1).sum + (todo.map demand).sum ≤
        (rest source pieces).length → Runs r tgts rest source pieces s → Idle s →
      ∃ t, Reach cfg r s t ∧ Runs r tgts rest source pieces t ∧ Idle t ∧ t.todo = [] := by
    intro todo
    induction todo with
    | nil => exact fun s htodo _ _ hruns hidle => ⟨s, .refl, hruns, hidle, htodo⟩
    | cons tgt todo ih =>
      intro s htodo hsub hlen hruns hidle
      rw [map_cons, sum_cons] at hlen
      obtain ⟨s', t, trace, hlock, -, hinner, hruns', hidle', htodo', hreports⟩ :=
        reach_command hsplits hdelivers (hfit tgt (hsub tgt mem_cons_self)) (by omega) hruns hidle
          htodo
      obtain ⟨t', hreach, hend⟩ := ih t htodo' (fun tgt' h => hsub tgt' (mem_cons_of_mem _ h))
        (by rw [hreports, map_append, sum_append, map_singleton, sum_singleton]; dsimp only; omega)
        hruns' hidle'
      have hmoves : Inner cfg r ≤ Moves (Step cfg r) Wake := fun _ _ => inner_step
      have hall : Reach cfg r s' t := Relation.ReflTransGen.mono hmoves _ _ hinner
      exact ⟨t', ((Relation.ReflTransGen.single (.inl (.inl hlock))).trans hall).trans hreach, hend⟩
  obtain ⟨t, hreach, hruns, hidle, htodo⟩ := hrun tgts (start tgts source pieces []) rfl
    (fun _ h => h) (by simpa [start] using henough) (runs_start hstart []) ⟨rfl, .inl rfl, rfl⟩
  have hcommands := hruns.1.2.commands
  rw [hidle.main, htodo] at hcommands
  exact ⟨t, hreach, hidle.main, htodo,
    by simpa [MainPc.current, MainPc.published] using hcommands.symm⟩

/-! ## The two receivers -/

theorem plain_splits : Splits plainReceiver fun data pieces => data ++ pieces.flatten where
  produce := by
    intro source space data source' _ hproduce
    cases hproduce
    refine ⟨?_, fun pieces => ?_⟩
    · rw [length_take]
      omega
    · rw [← append_assoc, take_append_drop]
  load := by
    intro source piece pieces hmore
    have hnil : source = [] := by simpa [plainReceiver] using hmore
    rw [hnil]
    rfl

theorem plain_advances (data : Bytes) (pieces : List Bytes) :
    Advances plainReceiver List.length data pieces where
  produce := by
    intro now _ space data next _ hmore hspace hproduce
    cases hproduce
    have hne : now ≠ [] := by simpa [plainReceiver] using hmore
    have hpos := length_pos_iff.mpr hne
    rw [length_drop]
    omega
  load _ _ := Nat.le_refl _

theorem plain_delivers (pieces : List Bytes) :
    Delivers plainReceiver (fun data pieces => data ++ pieces.flatten) List.length [] pieces where
  toAdvances := plain_advances [] pieces
  yields _ _ _ := Option.some_ne_none _
  ends hmore := by simpa [plainReceiver] using hmore

/-- A decoder whose output is a stream: `decoded` is what it makes of its state and all the
input to come. -/
def Decodes {σ : Type} (decoder : Decoder σ) (decoded : σ → Bytes → Bytes) : Prop :=
  ∀ {state input space state' input' out},
    decoder.decompressStream state input space = some (state', input', out) →
    out.length ≤ space ∧ input'.length ≤ input.length ∧
      ∀ more, decoded state (input ++ more) = out ++ decoded state' (input' ++ more)

/-- A decoder that, wherever the entry `pieces` takes it from `state`, takes some input or makes
some output as long as there is input or output left. -/
def NeverStalls {σ : Type} (decoder : Decoder σ) (state : σ) (pieces : List Bytes) : Prop :=
  ∀ {now input later space next input' out},
    Relation.ReflTransGen (Feeds (brotliReceiver decoder)) ((state, []), pieces)
      ((now, input), later) → input ≠ [] ∨ decoder.hasMoreOutput now = true → 0 < space →
    decoder.decompressStream now input space = some (next, input', out) →
    out = [] → input'.length < input.length

section Brotli

variable {σ : Type} {decoder : Decoder σ} {decoded : σ → Bytes → Bytes}

theorem brotli_produce {s s' : σ × Bytes} {space : Nat} {data : Bytes}
    (h : (brotliReceiver decoder).produce s space = some (data, s')) :
    0 < min 32768 space ∧
      decoder.decompressStream s.1 s.2 (min 32768 space) = some (s'.1, s'.2, data) := by
  simp only [brotliReceiver] at h
  by_cases hzero : min 32768 space = 0
  · rw [if_pos hzero] at h
    cases h
  · rw [if_neg hzero] at h
    obtain ⟨⟨state, input, out⟩, hdecode, heq⟩ := Option.map_eq_some_iff.mp h
    obtain ⟨rfl, rfl⟩ := Prod.mk.inj heq
    exact ⟨Nat.pos_of_ne_zero hzero, hdecode⟩

theorem brotli_splits (h : Decodes decoder decoded) :
    Splits (brotliReceiver decoder) fun s pieces => decoded s.1 (s.2 ++ pieces.flatten) where
  produce := by
    intro source space data source' _ hproduce
    obtain ⟨-, hdecode⟩ := brotli_produce hproduce
    obtain ⟨hlen, -, hout⟩ := h hdecode
    exact ⟨by omega, fun pieces => hout _⟩
  load := by
    intro source piece pieces hmore
    have hnil : source.2 = [] := by
      simp only [brotliReceiver, Bool.or_eq_false_iff, decide_eq_false_iff_not, not_not] at hmore
      exact hmore.1
    rw [hnil]
    rfl

theorem brotli_advances (h : Decodes decoder decoded) {state : σ} {pieces : List Bytes}
    (hstalls : NeverStalls decoder state pieces) :
    Advances (brotliReceiver decoder) (fun s => s.2.length) (state, []) pieces where
  produce := by
    intro now later space data next hfed hmore _ hproduce
    obtain ⟨hpos, hdecode⟩ := brotli_produce hproduce
    refine ⟨(h hdecode).2.1, hstalls hfed ?_ hpos hdecode⟩
    simpa [brotliReceiver] using hmore
  load _ _ := Nat.le_refl _

end Brotli

namespace Sample

open Updater.Sample

def block : RangeSet := Updater.Sample.firstBlock

/-- A command for one block waits; the receiver has a call's worth of data. -/
def waits {δ : Type} (source : δ) (unzip : UnzipPc) (owner : Option Thread) : NewThreads δ :=
  ⟨.asleep block, unzip, owner, some (.new block), true, [], source, [], [], [], []⟩

/-- The receiver is called with one byte while the command begins to wait. -/
theorem reach_waits {δ : Type} (r : Receiver δ) (source : δ) :
    Reach config r (start [block] source [[0]] []) (waits (r.load source [0]) .loop none) :=
  ((((Relation.ReflTransGen.refl.tail (.inl (.inr (.call rfl rfl)))).tail
    (.inl (.inl (.lock rfl rfl rfl)))).tail (.inl (.inl (.publish rfl)))).tail
    (.inl (.inl (.wait rfl (by exact Option.some_ne_none _) rfl))))

theorem block_fits : ∀ tgt ∈ [block], ∀ b ∈ tgt.blockList, b < config.deviceBlocks := by decide

/-- Half a block. -/
def half : Bytes := replicate 2048 0

theorem halves_length : ([] ++ [half, half].flatten).length = 4096 := by
  rw [nil_append, flatten_cons, flatten_singleton, length_append, half, length_replicate]

/-- A block in two pieces, received as it is. -/
theorem reach_halves : ∃ t, Reach config plainReceiver (start [block] [] [half, half] []) t ∧
    t.main = .commands ∧ t.todo = [] ∧ t.reports.map Prod.fst = [block] :=
  reach_all plain_splits (plain_delivers _) rfl block_fits (Nat.le_of_eq halves_length.symm)

/-- A brotli decoder for streams of one byte, which stands for `size` zeros. Its state is the
number of zeros to come, once it has seen the byte; behind it no input is taken. -/
def zeros (size : Nat) : Decoder (Option Nat) where
  hasMoreOutput state := decide (0 < state.getD 0)
  decompressStream
    | none, [], _ => some (none, [], [])
    | none, _ :: input, space =>
      some (some (size - min size space), input, replicate (min size space) 0)
    | some n, input, space => some (some (n - min n space), input, replicate (min n space) 0)

def unpacked (size : Nat) : Option Nat → Bytes → Bytes
  | none, [] => []
  | none, _ :: _ => replicate size 0
  | some n, _ => replicate n 0

theorem replicate_min (n space : Nat) :
    replicate n (0 : UInt8) = replicate (min n space) 0 ++ replicate (n - min n space) 0 := by
  rw [replicate_append_replicate]
  congr 1
  omega

theorem zeros_decodes (size : Nat) : Decodes (zeros size) (unpacked size) := by
  intro state input space state' input' out h
  rcases state with _ | n <;> rcases input with _ | ⟨b, input⟩ <;> cases h <;>
    simp only [length_replicate, length_cons, length_nil] <;>
    refine ⟨by omega, by omega, fun more => ?_⟩
  · rfl
  all_goals exact replicate_min _ _

/-- With nothing behind the byte it always gets on. -/
theorem zeros_neverStalls (size : Nat) : NeverStalls (zeros size) none [[0]] := by
  intro now input later space next input' out hfed hmore hspace hdecode hout
  -- once the byte is seen, there is no input
  have hinput : (input ++ later.flatten).length ≤ if now = none then 1 else 0 := by
    have hinv := @reaches_invariant _ (Feeds (brotliReceiver (zeros size)))
      (fun p => (p.1.2 ++ p.2.flatten).length ≤ if p.1.1 = none then 1 else 0) _ _ hfed
      (by decide) ?_
    · exact hinv
    · rintro ⟨⟨now, input⟩, later⟩ ⟨⟨next, input'⟩, later'⟩ h hfeeds
      cases hfeeds with
      | load hidle =>
        obtain rfl : input = [] := by simp_all [brotliReceiver]
        simpa [brotliReceiver] using h
      | produce _ _ hproduce =>
        obtain ⟨-, hdecode⟩ := brotli_produce hproduce
        rcases now with _ | n <;> rcases input with _ | ⟨b, input⟩ <;> cases hdecode <;>
          simp_all
  rcases now with _ | n
  · cases input <;> cases hdecode
    · simp [zeros] at hmore
    · exact Nat.lt_succ_self _
  · obtain rfl : input = [] := by simp_all
    cases hdecode
    have hmore : 0 < n := by simpa [zeros] using hmore
    have hnone := congrArg List.length hout
    rw [length_replicate, length_nil] at hnone
    omega

theorem zeros_delivers (size : Nat) : Delivers (brotliReceiver (zeros size))
    (fun s pieces => unpacked size s.1 (s.2 ++ pieces.flatten)) (fun s => s.2.length) (none, [])
    [[0]] where
  toAdvances := brotli_advances (zeros_decodes size) (zeros_neverStalls size)
  yields {now _ space} _ _ hspace := by
    obtain ⟨state, input⟩ := now
    simp only [brotliReceiver]
    rw [if_neg (by omega)]
    rcases state with _ | n <;> rcases input with _ | ⟨b, input⟩ <;> exact Option.some_ne_none _
  ends {now} hmore := by
    obtain ⟨state, input⟩ := now
    rcases state with _ | n <;> rcases input with _ | ⟨b, input⟩ <;>
      simp_all [brotliReceiver, zeros, unpacked]

/-- A block of zeros, received as one byte. -/
theorem reach_zeros : ∃ t, Reach config (brotliReceiver (zeros 4096))
    (start [block] (none, []) [[0]] []) t ∧
    t.main = .commands ∧ t.todo = [] ∧ t.reports.map Prod.fst = [block] :=
  reach_all (brotli_splits (zeros_decodes 4096)) (zeros_delivers 4096) rfl block_fits
    (Nat.le_of_eq length_replicate.symm)

/-- The receiver's round with nothing taken and nothing made. -/
def Stalls (p : NewThreads (Option Nat × Bytes) × Nat) : Prop :=
  ∃ unzip owner, p = (waits (some 0, [0]) unzip owner, 0) ∧
    ((unzip = .loop ∧ owner = none) ∨ (unzip = .test ∧ owner = some .unzip) ∨
      (unzip = .owns ∧ owner = none))

end Sample

open NewThreads.Sample Updater.Sample

/-- A command that needs a block is served from two pieces. If there is one byte it returns -1, be
the byte the data or the brotli stream that the data is unpacked from. -/
theorem short_data_fails :
    (∃ s, Reach config plainReceiver (start [block] [] [half, half] []) s ∧
      s.reports.map Prod.fst = [block] ∧ ∀ k tgt trace, s.reports[k]? = some (tgt, trace) →
        Slice [block] ([] ++ [half, half].flatten) k tgt trace) ∧
    (Reach config plainReceiver (start [block] [] [[0]] []) (waits [0] .loop none) ∧
      Inevitably (Budgeted (Step config plainReceiver) Wake)
        (fun p => p.1.main = .failed block ∧ p.1.reports = [])
        (waits [0] .loop none, 2)) ∧
    Reach config (brotliReceiver (zeros 1)) (start [block] (none, []) [[0]] [])
        (waits (none, [0]) .loop none) ∧
      Inevitably (Budgeted (Step config (brotliReceiver (zeros 1))) Wake)
        (fun p => p.1.main = .failed block ∧ p.1.reports = [])
        (waits (none, [0]) .loop none, 2) := by
  have hplain := reach_waits plainReceiver []
  have hbrotli := reach_waits (brotliReceiver (zeros 1)) (none, [])
  have hfails := new_data_handed_over plain_splits (plain_advances [] [[0]]) rfl hplain
  have hfails' := new_data_handed_over (brotli_splits (zeros_decodes 1))
    (brotli_advances (zeros_decodes 1) (zeros_neverStalls 1)) rfl hbrotli
  obtain ⟨s, hserved, -, -, hreports⟩ := reach_halves
  have hslices := (new_data_handed_over plain_splits (plain_advances [] _) rfl hserved).1
  exact ⟨⟨s, hserved, hreports, hslices⟩, ⟨hplain, (hfails.2 block rfl 2).2 (.inr (by decide))⟩,
    hbrotli, (hfails'.2 block rfl 2).2 (.inr (by decide))⟩

/-- A byte of input behind the end of a brotli stream: the stream ends before the target is
full, and the command does not return. -/
theorem trailing_input_hangs :
    Decodes (zeros 1) (unpacked 1) ∧
    Reach config (brotliReceiver (zeros 1)) (start [block] (some 0, []) [[0]] [])
      (waits (some 0, [0]) .loop none) ∧
    ¬ Inevitably (Budgeted (Step config (brotliReceiver (zeros 1))) Wake)
      (fun p => p.1.main = .failed block) (waits (some 0, [0]) .loop none, 0) := by
  refine ⟨zeros_decodes 1, reach_waits _ _, ?_⟩
  refine @not_inevitably _ _ _ Stalls ?_ _ ⟨_, _, rfl, .inl ⟨rfl, rfl⟩⟩
  rintro _ ⟨unzip, owner, rfl, ⟨rfl, rfl⟩ | ⟨rfl, rfl⟩ | ⟨rfl, rfl⟩⟩
  · exact ⟨fun h => MainPc.noConfusion h, _, .step 0 (.inr (.lock rfl rfl rfl)), _, _, rfl,
      .inr (.inl ⟨rfl, rfl⟩)⟩
  · exact ⟨fun h => MainPc.noConfusion h, _, .step 0 (.inr (.take rfl (Option.some_ne_none _))),
      _, _, rfl, .inr (.inr ⟨rfl, rfl⟩)⟩
  · exact ⟨fun h => MainPc.noConfusion h, _, .step 0 (.inr (.write rfl rfl)), _, _, rfl,
      .inl ⟨rfl, rfl⟩⟩

/-! ## Every schedule -/

section Schedules

variable {left : δ → Nat}

/-- A command has failed, or all have returned. -/
def Through (s : NewThreads δ) : Prop :=
  (∃ tgt, s.main = .failed tgt) ∨ s.main = .commands ∧ s.todo = []

/-- The updater is not past its commands. -/
def Busy (s : NewThreads δ) : Prop := s.main ≠ .joining ∧ s.main ≠ .finished

/-- What is left to do for this command and those to come. -/
def remaining (rest : δ → List Bytes → Bytes) (left : δ → Nat) (s : NewThreads δ) : Nat :=
  toDo rest left s + 8 * s.todo.length

theorem busy_enabled (h : Control r s) (hbusy : Busy s) (hlive : ¬ Through s) :
    ∃ t, Step cfg r s t := by
  cases hpc : s.main with
  | locked tgt | test tgt | asleep tgt | woken tgt =>
    exact @enabled _ cfg r s h tgt (by rw [hpc]; rfl)
  | failed tgt => exact absurd (.inl ⟨tgt, hpc⟩) hlive
  | joining => exact absurd hpc hbusy.1
  | finished => exact absurd hpc hbusy.2
  | commands =>
    cases htodo : s.todo with
    | nil => exact absurd (.inr ⟨hpc, htodo⟩) hlive
    | cons tgt todo =>
      cases howner : s.owner with
      | none => exact ⟨_, .inl (.lock hpc htodo howner)⟩
      | some thread => exact enabled_owned h howner (by rw [hpc]; rfl)

theorem busy_main (hbusy : Busy s) (hlive : ¬ Through s) (hstep : MainStep s t) :
    Busy t ∧ remaining rest left t < remaining rest left s := by
  have hless : ∀ tgt, s.main.performs = some tgt → toDo rest left t < toDo rest left s :=
    fun _ hperforms => toDo_main hperforms hstep
  cases hstep with
  | lock h htodo =>
    refine ⟨by simp [Busy], ?_⟩
    simp only [remaining, toDo, work, h, htodo, MainPc.rank, length_cons]
    omega
  | publish h | wait h | fail h | succeed h | relock h =>
    exact ⟨by simp [Busy], Nat.add_lt_add_right (hless _ (by rw [h]; rfl)) _⟩
  | join h htodo => exact absurd (.inr ⟨h, htodo⟩) hlive
  | joined h => exact absurd h hbusy.1

theorem busy_unzip (hbusy : Busy s) (hstep : UnzipStep cfg r s t) : Busy t := by
  rcases (unzip_main hstep).1 with heq | heq
  · rwa [Busy, heq]
  · rw [Busy, heq]
    cases hpc : s.main <;> simp_all [Busy, MainPc.wake]

/-- On every schedule a command fails or all return 0, each with its slice of the stream. -/
theorem every_schedule_ends (hsplits : Splits r rest)
    (hadvances : Advances r left source pieces) (hstart : r.more source = false)
    (faults : List Bool) (wakes : Nat) :
    Inevitably (Budgeted (Step cfg r) Wake)
      (fun p => (∃ tgt, p.1.main = .failed tgt) ∨ p.1.reports.map Prod.fst = tgts ∧
        ∀ k tgt trace, p.1.reports[k]? = some (tgt, trace) →
          Slice tgts (rest source pieces) k tgt trace)
      (start tgts source pieces faults, wakes) := by
  have hends := @Inevitably.of_budget _ (Step cfg r) Wake
    (fun s => Through s ∧ Accounts tgts rest (rest source pieces) s)
    (fun s => Runs r tgts rest source pieces s ∧ Busy s) (remaining rest left) 5
    (fun s hs hlive => busy_enabled hs.1.1.1 hs.2 fun h => hlive ⟨h, hs.1.1.2⟩) ?_ ?_ _
    ⟨runs_start hstart faults, by simp [Busy, start]⟩ wakes
  · refine hends.mono fun p hp => ?_
    obtain ⟨hfailed | ⟨hmain, htodo⟩, haccounts⟩ := hp
    · exact .inl hfailed
    · have hcommands := haccounts.commands
      rw [hmain, htodo] at hcommands
      exact .inr ⟨by simpa [MainPc.current, MainPc.published] using hcommands.symm,
        fun k tgt trace hk => haccounts.slice hk⟩
  · intro s t hs hlive hstep
    have hruns := runs_move hsplits hs.1 (.inl hstep)
    rcases hstep with hmain | hunzip
    · obtain ⟨hbusy, hless⟩ := busy_main hs.2 (fun h => hlive ⟨h, hs.1.1.2⟩) hmain
      exact ⟨⟨hruns, hbusy⟩, hless⟩
    · refine ⟨⟨hruns, busy_unzip hs.2 hunzip⟩, ?_⟩
      rw [remaining, remaining, (unzip_main hunzip).2.2]
      exact Nat.add_lt_add_right (toDo_unzip hsplits hadvances hs.1 hunzip) _
  · intro s t hs _ hwake
    have hruns := @runs_move _ cfg _ _ _ _ _ _ _ hsplits hs.1 (.inr hwake)
    have hless : toDo rest left t < toDo rest left s + 5 := toDo_wake hwake
    rw [remaining, remaining]
    cases hwake with
    | main h => exact ⟨⟨hruns, by simp [Busy]⟩, by dsimp only; omega⟩
    | unzip h => exact ⟨⟨hruns, hs.2⟩, by dsimp only; omega⟩

/-- One byte for a command that needs a block. -/
theorem short_data_ends : Inevitably (Budgeted (Step config plainReceiver) Wake)
    (fun p => (∃ tgt, p.1.main = .failed tgt) ∨ p.1.reports.map Prod.fst = [block] ∧
      ∀ k tgt trace, p.1.reports[k]? = some (tgt, trace) →
        Slice [block] ([] ++ [[0]].flatten) k tgt trace)
    (start [block] [] [[0]] [], 2) :=
  every_schedule_ends plain_splits (plain_advances [] [[0]]) rfl [] 2

/-- The targets of the commands that returned 0, and what was written for each. -/
def writes (s : NewThreads δ) : List (RangeSet × List (Nat × UInt8)) :=
  s.reports.map fun report => (report.1, payload report.2)

/-- A compressed entry and a plain one with the same data, each on any schedule: as far as both get,
they write the same. -/
theorem brotli_writes_as_plain {σ : Type} {decoder : Decoder σ} {decoded : σ → Bytes → Bytes}
    (h : Decodes decoder decoded) {state : σ} (hidle : decoder.hasMoreOutput state = false)
    {zipped plain : List Bytes} (hdata : decoded state zipped.flatten = plain.flatten)
    {cfg' : Config} {faults faults' : List Bool} {s : NewThreads (σ × Bytes)}
    {s' : NewThreads Bytes}
    (hreach : Reach cfg (brotliReceiver decoder) (start tgts (state, []) zipped faults) s)
    (hreach' : Reach cfg' plainReceiver (start tgts [] plain faults') s') :
    s.writes <+: s'.writes ∨ s'.writes <+: s.writes := by
  have hsame : ∀ (k : Nat) a b, s.writes[k]? = some a → s'.writes[k]? = some b → a = b := by
    intro k a b ha hb
    rw [writes, getElem?_map] at ha hb
    obtain ⟨⟨tgt, trace⟩, hk, rfl⟩ := Option.map_eq_some_iff.mp ha
    obtain ⟨⟨tgt', trace'⟩, hk', rfl⟩ := Option.map_eq_some_iff.mp hb
    have hstart : (brotliReceiver decoder).more (state, []) = false := by
      simp [brotliReceiver, hidle]
    have hzipped := (sound_reach (brotli_splits h) hstart hreach).2.slice hk
    have hplain := (sound_reach plain_splits rfl hreach').2.slice hk'
    obtain rfl : tgt = tgt' := Option.some.inj (hzipped.command.symm.trans hplain.command)
    dsimp only
    rw [hzipped.slice, hplain.slice, nil_append, nil_append, hdata]
  rcases Nat.le_total s.writes.length s'.writes.length with hle | hle
  · refine .inl (prefix_iff_getElem?.mpr fun k hk => ?_)
    have hk' := getElem?_eq_getElem (Nat.lt_of_lt_of_le hk hle)
    rw [hk', hsame k _ _ (getElem?_eq_getElem hk) hk']
  · refine .inr (prefix_iff_getElem?.mpr fun k hk => ?_)
    have hk' := getElem?_eq_getElem (Nat.lt_of_lt_of_le hk hle)
    rw [hk', hsame k _ _ hk' (getElem?_eq_getElem hk)]

/-- A byte that is unpacked to a block, and the block in two pieces. -/
theorem zeros_write_as_plain : ∃ s s',
    Reach config (brotliReceiver (zeros 4096)) (start [block] (none, []) [[0]] []) s ∧
    Reach config plainReceiver (start [block] [] [half, half] []) s' ∧
    s.writes.map Prod.fst = [block] ∧ s'.writes.map Prod.fst = [block] ∧
    (s.writes <+: s'.writes ∨ s'.writes <+: s.writes) := by
  obtain ⟨s, hzeros, -, -, hreports⟩ := reach_zeros
  obtain ⟨s', hhalves, -, -, hreports'⟩ := reach_halves
  refine ⟨s, s', hzeros, hhalves, by rw [writes, map_map]; exact hreports,
    by rw [writes, map_map]; exact hreports',
    brotli_writes_as_plain (zeros_decodes 4096) rfl ?_ hzeros hhalves⟩
  show replicate 4096 0 = half ++ (half ++ [])
  rw [append_nil, half, replicate_append_replicate]

end Schedules

end NewThreads

end Pterodon.Updater
