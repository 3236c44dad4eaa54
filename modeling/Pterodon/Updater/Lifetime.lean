import Pterodon.Updater.Resume
import Pterodon.Updater.Returns

/-!
# How long the receiver lives

`PerformBlockImageUpdate` starts the receiver before it looks at the transfer list, and joins it
after the last command. It can return on other ways too: if the header of the list is wrong or says
that there is nothing to do, if there is no stash directory, and behind a command or an `fsync` that
failed. What the receiver uses is a local variable, and the brotli decoder is destroyed before the
return.

`Invocation` adds these ways to the two threads. A failed `new` command is no problem: its reason is
that the receiver has raised its flag, and when the updater sees that flag the receiver has let go
of the mutex for the last time. Another failure is one, unless the updater does not get there: the
receiver may not have moved since it handed over the data of the last `new` command.
-/

namespace Pterodon.Updater

open Lib

/-- What the updater has to do, with the outcome as far as it is not the receiver's. -/
inductive Job where
  /-- A `new` command. -/
  | new (tgt : RangeSet)
  /-- Another command, or the `fsync` after a command. -/
  | other (ok : Bool)
  deriving DecidableEq

namespace Job

/-- The targets of the `new` commands. -/
def targets (jobs : List Job) : List RangeSet :=
  jobs.filterMap (fun job =>
    match job with
    | new tgt => some tgt
    | other _ => none)

/-- The data that the `new` commands before the first failure need, if there is one. -/
def needed : List Job → Option Nat
  | [] => none
  | other false :: _ => some 0
  | other true :: jobs => needed jobs
  | new tgt :: jobs => (needed jobs).map (NewThreads.demand tgt + ·)

theorem needed_append {jobs : List Job} (more : List Job) (h : other false ∉ jobs) :
    needed (jobs ++ other false :: more) = some ((targets jobs).map NewThreads.demand).sum := by
  induction jobs with
  | nil => rfl
  | cons job jobs ih =>
    have hrest := ih fun hmem => h (List.mem_cons_of_mem _ hmem)
    cases job with
    | new tgt =>
      rw [List.cons_append, needed, hrest]
      rfl
    | other ok =>
      cases ok with
      | true => exact hrest
      | false => exact absurd List.mem_cons_self h

end Job

/-- The jobs of a line; the outcomes are those of the command, unless it is a `new` command, and of
the `fsync` after it. -/
def lineJobs (cfg : Config) (line : Text) (outcome : Bool × Bool) : List Job :=
  if line = [] then []
  else
    match parseCommand cfg line with
    | some (.new tgt) => [.new tgt, .other outcome.2]
    | _ => [.other outcome.1, .other outcome.2]

/-- What a list has the updater do once the receiver is started; `none` if it returns without a look
at the commands. `created` is the outcome of `CreateStash`. -/
def listJobs (cfg : Config) (list : Text) (created : Bool) (outcomes : Nat → Bool × Bool) :
    Option (List Job) :=
  match parseList cfg list with
  | none => none
  | some (_, lines) =>
    if created then some (lines.zipIdx.flatMap (fun l => lineJobs cfg l.1 (outcomes l.2))) else none

/-- Where the updater is in `PerformBlockImageUpdate`, from `pthread_create` on. -/
inductive Phase where
  | working
  /-- Behind `BrotliDecoderDestroyInstance`. -/
  | cleanup
  | returned
  deriving DecidableEq

/-- A call of `PerformBlockImageUpdate` and the receiver. -/
structure Invocation (δ : Type) where
  threads : NewThreads δ
  jobs : Option (List Job)
  phase : Phase

namespace Invocation

open NewThreads

variable {δ : Type}

/-- After `pthread_create`. -/
def start (jobs : Option (List Job)) (source : δ) (pieces : List Bytes)
    (faults : List Bool) : Invocation δ :=
  ⟨NewThreads.start (Job.targets (jobs.getD [])) source pieces faults, jobs, .working⟩

/-- The memory that the receiver uses may be gone. -/
def Released (u : Invocation δ) : Prop := u.phase = .cleanup ∨ u.phase = .returned

/-- The updater is at a command or an `fsync` that fails. -/
def Failing (u : Invocation δ) : Prop :=
  u.phase = .working ∧ u.threads.main = .commands ∧ ∃ jobs, u.jobs = some (.other false :: jobs)

/-- The steps of a call. The receiver goes on whatever the updater does, also when it has
returned. -/
inductive Step (cfg : Config) (r : Receiver δ) : Invocation δ → Invocation δ → Prop
  /-- A return before the commands. -/
  | abandon {u} : u.phase = .working → u.jobs = none → Step cfg r u { u with phase := .returned }
  | succeed {u jobs} : u.phase = .working → u.threads.main = .commands →
      u.jobs = some (.other true :: jobs) → Step cfg r u { u with jobs := some jobs }
  /-- `goto pbiudone`. -/
  | fail {u} : Failing u → Step cfg r u { u with phase := .cleanup }
  | new {u tgt jobs t} : u.phase = .working → u.threads.main = .commands →
      u.jobs = some (.new tgt :: jobs) → MainStep u.threads t → t.main = .locked tgt →
      Step cfg r u { u with threads := t, jobs := some jobs }
  | join {u t} : u.phase = .working → u.threads.main = .commands → u.jobs = some [] →
      MainStep u.threads t → t.main = .joining → Step cfg r u { u with threads := t }
  /-- Inside a `new` command or `pthread_join`. -/
  | main {u t} : u.phase = .working → u.threads.main ≠ .commands → MainStep u.threads t →
      Step cfg r u { u with threads := t }
  | failNew {u tgt} : u.phase = .working → u.threads.main = .failed tgt →
      Step cfg r u { u with phase := .cleanup }
  | joined {u} : u.phase = .working → u.threads.main = .finished →
      Step cfg r u { u with phase := .cleanup }
  | return {u} : u.phase = .cleanup → Step cfg r u { u with phase := .returned }
  | unzip {u t} : UnzipStep cfg r u.threads t → Step cfg r u { u with threads := t }
  | wake {u t} : Wake u.threads t → Step cfg r u { u with threads := t }

def Reach (cfg : Config) (r : Receiver δ) : Invocation δ → Invocation δ → Prop :=
  Relation.ReflTransGen (Step cfg r)

/-! ## What holds in every run -/

/-- The call does not return before the commands, and if a command other than `new` or an `fsync`
fails, the stream is too short for the `new` commands before it. -/
def EndsInTime (jobs : Option (List Job)) (length : Nat) : Prop :=
  ∃ now, jobs = some now ∧ ∀ n, Job.needed now = some n → length < n

variable {u : Invocation δ} {cfg : Config} {r : Receiver δ} {rest : δ → List Bytes → Bytes}
  {source : δ} {pieces : List Bytes} {jobs : List Job}

/-- Between two steps: no failure is behind, and nothing is released before the receiver has
ended. -/
structure Alive (r : Receiver δ) (jobs : List Job) (rest : δ → List Bytes → Bytes) (stream : Bytes)
    (u : Invocation δ) : Prop where
  sound : NewThreads.Sound r (Job.targets jobs) rest stream u.threads
  jobs : ∃ before now, jobs = before ++ now ∧ Job.other false ∉ before ∧ u.jobs = some now ∧
    u.threads.todo = Job.targets now
  released : Released u → u.threads.unzip = .done

theorem not_released (h : u.phase = .working) : ¬ Released u := by
  rintro (hr | hr)
  · rw [h] at hr
    cases hr
  · rw [h] at hr
    cases hr

/-- Only the first step of a command takes a target from the list. -/
theorem main_todo {s t : NewThreads δ} (hstep : MainStep s t) :
    (∃ tgt, t.main = .locked tgt ∧ s.main = .commands ∧ s.todo = tgt :: t.todo) ∨
      (∀ tgt, t.main ≠ .locked tgt) ∧ t.todo = s.todo := by
  cases hstep with
  | lock h htodo => exact .inl ⟨_, rfl, h, htodo⟩
  | _ => exact .inr ⟨fun _ h => (by cases h), rfl⟩

variable {stream : Bytes} (hends : EndsInTime (some jobs) stream.length)
include hends

theorem not_failing (h : Alive r jobs rest stream u) : ¬ Failing u := by
  rintro ⟨-, hmain, more, hmore⟩
  obtain ⟨before, now, hsplit, hbefore, hnow, htodo⟩ := h.jobs
  obtain rfl := Option.some.inj (hnow.symm.trans hmore)
  obtain ⟨_, heq, hshort⟩ := hends
  cases heq
  -- all targets before the failure are full, so there was data for them
  have hlt := hshort _ (by rw [hsplit, Job.needed_append more hbefore])
  have hcommands := h.sound.2.commands
  rw [hmain, htodo, hsplit, Job.targets, List.filterMap_append] at hcommands
  have hreports : Job.targets before = u.threads.reports.map Prod.fst :=
    (List.append_cancel_right hcommands).trans (List.append_nil _)
  have hserved := h.sound.2.served.length_le
  rw [h.sound.2.served_length] at hserved
  rw [hreports, List.map_map] at hlt
  exact Nat.lt_irrefl _ (Nat.lt_of_lt_of_le hlt hserved)

theorem alive_step {u' : Invocation δ} (hsplits : Splits r rest) (h : Alive r jobs rest stream u)
    (hstep : Step cfg r u u') : Alive r jobs rest stream u' := by
  obtain ⟨before, now, hsplit, hbefore, hnow, htodo⟩ := h.jobs
  have hmoves : ∀ {t : NewThreads δ}, Moves (NewThreads.Step cfg r) Wake u.threads t →
      NewThreads.Sound r (Job.targets jobs) rest stream t :=
    fun hmove => sound_move hsplits h.sound hmove
  cases hstep with
  | abandon _ hjobs => rw [hjobs] at hnow; cases hnow
  | succeed hphase _ hjobs =>
    obtain rfl := Option.some.inj (hnow.symm.trans hjobs)
    exact ⟨h.sound,
      ⟨before ++ [.other true], _, by rw [hsplit]; simp, by simp [hbefore], rfl, htodo⟩,
      fun hr => absurd hr (not_released hphase)⟩
  | fail hf => exact absurd hf (not_failing hends h)
  | @new tgt _ _ hphase _ hjobs hmain hlocked =>
    obtain rfl := Option.some.inj (hnow.symm.trans hjobs)
    rcases main_todo hmain with ⟨_, -, -, htodo'⟩ | ⟨hother, -⟩
    · rw [htodo'] at htodo
      exact ⟨hmoves (.inl (.inl hmain)), ⟨before ++ [.new tgt], _, by rw [hsplit]; simp,
        by simp [hbefore], rfl, (List.cons.inj htodo).2⟩, fun hr => absurd hr (not_released hphase)⟩
    · exact absurd hlocked (hother _)
  | join hphase _ _ hmain hjoining =>
    rcases main_todo hmain with ⟨_, hlocked, -⟩ | ⟨-, htodo'⟩
    · rw [hlocked] at hjoining
      cases hjoining
    · exact ⟨hmoves (.inl (.inl hmain)), ⟨before, now, hsplit, hbefore, hnow, htodo'.trans htodo⟩,
        fun hr => absurd hr (not_released hphase)⟩
  | main hphase hne hmain =>
    rcases main_todo hmain with ⟨_, -, hcommands, -⟩ | ⟨-, htodo'⟩
    · exact absurd hcommands hne
    · exact ⟨hmoves (.inl (.inl hmain)), ⟨before, now, hsplit, hbefore, hnow, htodo'.trans htodo⟩,
        fun hr => absurd hr (not_released hphase)⟩
  | failNew _ hpc => exact ⟨h.sound, h.jobs, fun _ => h.sound.1.failed _ hpc⟩
  | joined _ hpc => exact ⟨h.sound, h.jobs, fun _ => h.sound.1.finished hpc⟩
  | «return» hphase => exact ⟨h.sound, h.jobs, fun _ => h.released (.inl hphase)⟩
  | unzip hunzip =>
    refine ⟨hmoves (.inl (.inr hunzip)), ⟨before, now, hsplit, hbefore, hnow, ?_⟩, fun hr => ?_⟩
    · exact (unzip_main hunzip).2.2.trans htodo
    · exact absurd hunzip (not_unzipStep_done (h.released hr))
  | wake hwake =>
    refine ⟨hmoves (.inr hwake), ⟨before, now, hsplit, hbefore, hnow, ?_⟩, fun hr => ?_⟩
    · cases hwake <;> exact htodo
    · have hdone := h.released hr
      cases hwake with
      | main => exact hdone
      | unzip hpc => rw [hdone] at hpc; cases hpc

omit hends

/-! ## A failure that is reached -/

theorem reach_inner {s t : NewThreads δ} (h : Relation.ReflTransGen (Inner cfg r) s t)
    (jobs : Option (List Job)) : Reach cfg r ⟨s, jobs, .working⟩ ⟨t, jobs, .working⟩ := by
  induction h with
  | refl => exact .refl
  | tail _ hstep ih =>
    rcases hstep with ⟨hne, hmain⟩ | hunzip
    · exact ih.tail (.main rfl hne hmain)
    · exact ih.tail (.unzip hunzip)

/-- With data enough for the `new` commands before it, there is a run to the first failure that the
receiver has not ended in. -/
theorem reach_failing {left : δ → Nat} {tgts : List RangeSet} (hsplits : Splits r rest)
    (hdelivers : Delivers r rest left source pieces) {now : List Job}
    (hfit : ∀ tgt ∈ Job.targets now, ∀ b ∈ tgt.blockList, b < cfg.deviceBlocks) {n : Nat}
    (hneeded : Job.needed now = some n) {s : NewThreads δ}
    (hruns : Runs r tgts rest source pieces s) (hidle : NewThreads.Idle s)
    (htodo : s.todo = Job.targets now)
    (henough :
      (s.reports.map fun report => demand report.1).sum + n ≤ (rest source pieces).length) :
    ∃ u, Reach cfg r ⟨s, some now, .working⟩ u ∧ Failing u ∧ u.threads.unzip ≠ .done := by
  induction now generalizing s n with
  | nil => cases hneeded
  | cons job now ih =>
    rcases job with tgt | _ | _
    · obtain ⟨m, hm, rfl⟩ := Option.map_eq_some_iff.mp hneeded
      obtain ⟨hfirst, hrest⟩ := List.forall_mem_cons.mp hfit
      obtain ⟨s', t, trace, hlock, hlocked, hinner, hruns', hidle', htodo', hreports⟩ :=
        reach_command hsplits hdelivers hfirst (by omega) hruns hidle htodo
      obtain ⟨u, hreach, hu⟩ := ih hrest hm hruns' hidle' htodo' (by
        rw [hreports, List.map_append, List.sum_append, List.map_singleton, List.sum_singleton]
        dsimp only
        omega)
      refine ⟨u, (Relation.ReflTransGen.single ?_).trans ((reach_inner hinner _).trans hreach), hu⟩
      exact .new rfl hidle.main rfl hlock hlocked
    · refine ⟨_, .refl, ⟨rfl, hidle.main, now, rfl⟩, ?_⟩
      rcases hidle.unzip with h | h <;> rw [h] <;> exact UnzipPc.noConfusion
    · obtain ⟨u, hreach, hu⟩ := ih hfit hneeded hruns hidle htodo henough
      exact ⟨u, (Relation.ReflTransGen.single (.succeed rfl hidle.main rfl)).trans hreach, hu⟩

/--
**When the receiver does not outlive the call.** If the call does not return before the commands,
and the stream is too short for the `new` commands before a failure, then nothing is released before
the receiver has ended. If no write fails and the receiver delivers its stream, this is the only
way.
-/
theorem receiver_ended_iff (jobs : Option (List Job)) (hsplits : Splits r rest)
    (hstart : r.more source = false) :
    (EndsInTime jobs (rest source pieces).length → ∀ faults u,
      Reach cfg r (start jobs source pieces faults) u → Released u → u.threads.unzip = .done) ∧
    (∀ left, Delivers r rest left source pieces →
      (∀ tgt ∈ Job.targets (jobs.getD []), ∀ b ∈ tgt.blockList, b < cfg.deviceBlocks) →
      ((∀ u, Reach cfg r (start jobs source pieces []) u → Released u → u.threads.unzip = .done) ↔
        EndsInTime jobs (rest source pieces).length)) := by
  have hends : EndsInTime jobs (rest source pieces).length → ∀ faults u,
      Reach cfg r (start jobs source pieces faults) u → Released u → u.threads.unzip = .done := by
    rintro ⟨now, rfl, hshort⟩ faults u hreach
    have halive := @reaches_invariant _ _ (Alive r now rest (rest source pieces)) _ _ hreach
      ⟨⟨control_start hstart, accounts_start source pieces faults⟩,
        ⟨[], now, rfl, List.not_mem_nil, rfl, rfl⟩, fun hr => absurd hr (not_released rfl)⟩
      fun _ _ hs hstep => alive_step ⟨now, rfl, hshort⟩ hsplits hs hstep
    exact halive.released
  refine ⟨hends, fun left hdelivers hfit => ⟨fun hall => ?_, fun hE u => hends hE [] u⟩⟩
  cases jobs with
  | none =>
    -- a return before the commands, right after the receiver was started
    have hdone := hall _ (.single (.abandon rfl rfl)) (.inr rfl)
    cases hdone
  | some now =>
    refine ⟨now, rfl, fun n hn => Nat.lt_of_not_le fun hle => ?_⟩
    obtain ⟨u, hreach, hfailing, hrunning⟩ := reach_failing hsplits hdelivers hfit hn
      (runs_start hstart []) ⟨rfl, .inl rfl, rfl⟩ rfl (by simpa [NewThreads.start] using hle)
    have hdone := hall _ (hreach.tail (.fail hfailing)) (.inl rfl)
    exact hrunning hdone

end Invocation

/-! ## Calls that return too early -/

namespace Sample

open NewThreads Invocation

/-- `move` from block 1 to block 0, which works, or fails. -/
def copyJobs (ok : Bool) : Option (List Job) :=
  listJobs config (listOf [copy]) true (fun _ => (ok, true))

/-- `new` on block 0, which needs more data than there is, and a `move` that fails. -/
def newJobs : Option (List Job) :=
  listJobs config (listOf ["new 2,0,1".toList, copy]) true (fun i => (i = 0, true))

def emptyList : Text := "4\n0\n0\n0".toList

end Sample

open Sample

open Invocation in
/-- One byte of new data for a `new` command, and a `move` behind it that would fail. -/
theorem short_receiver_ended :
    newJobs = some [.new firstBlock, .other true, .other false, .other true] ∧
    ∀ u : Invocation Bytes, Reach config plainReceiver (start newJobs [] [[0]] []) u →
      Released u → u.threads.unzip = .done := by
  have hjobs : newJobs = some [.new firstBlock, .other true, .other false, .other true] := by
    decide +kernel
  rw [hjobs]
  refine ⟨rfl, ((receiver_ended_iff _ NewThreads.plain_splits rfl).2 _
    (NewThreads.plain_delivers [[0]]) (by decide)).mpr ⟨_, rfl, ?_⟩⟩
  rintro n hn
  obtain rfl := Option.some.inj hn
  decide

open Invocation in
/-- **A receiver that outlives the call.** A list with nothing to do: the call returns and the
receiver has not ended. A command that fails: the call returns and the receiver sleeps on the
condition variable of the call. -/
theorem receiver_outlives : (∃ u : Invocation Bytes, Reach config plainReceiver
        (start (listJobs config emptyList true fun _ => (true, true)) [] [[0]] []) u ∧
      u.phase = .returned ∧ u.threads.unzip ≠ .done) ∧
    ∃ u : Invocation Bytes,
      Reach config plainReceiver (start (copyJobs false) [] [[0]] []) u ∧
      u.phase = .returned ∧ u.threads.unzip = .asleep := by
  have hempty : listJobs config emptyList true (fun _ => (true, true)) = none := by
    decide +kernel
  have hcopy : copyJobs false = some [.other false, .other true] := by decide +kernel
  rw [hempty, hcopy]
  refine ⟨⟨_, .single (.abandon rfl rfl), rfl, nofun⟩, ?_⟩
  refine ⟨⟨⟨.commands, .asleep, none, none, true, [], [0], [], [], [], []⟩,
    some [.other false, .other true], .returned⟩, ?_, rfl, rfl⟩
  exact ((((Relation.ReflTransGen.single (.unzip (.call rfl rfl))).tail
    (.unzip (.lock rfl rfl rfl))).tail (.unzip (.wait rfl rfl))).tail
    (.fail ⟨rfl, rfl, _, rfl⟩)).tail (.return rfl)

end Pterodon.Updater
