import Pterodon.Updater.Returns

/-!
# Waiting for the receiver to end

After the last command the updater joins the receiver, and it does so without a word: a
receiver that still has data waits for a writer, and there is none to come. So the stream
must not be longer than what the commands need. And once the receiver has handed over the
whole stream it must have nothing left to look at: the brotli receiver waits for a writer
even if all it has is input that makes no more output.
-/

namespace Pterodon.Updater

open Lib List NewThreads.Sample Updater.Sample

namespace NewThreads

variable {δ : Type} {cfg : Config} {r : Receiver δ} {s t : NewThreads δ} {tgts : List RangeSet}
  {rest : δ → List Bytes → Bytes} {source : δ} {pieces : List Bytes}
  {faults : List Bool}

/-- A receiver that has nothing left once the whole stream is handed over. -/
def Quiet (r : Receiver δ) (rest : δ → List Bytes → Bytes) (source : δ)
    (pieces : List Bytes) : Prop :=
  ∀ source' pieces', Relation.ReflTransGen (Feeds r) (source, pieces) (source', pieces') →
    rest source' pieces' = [] → r.more source' = false

variable {stream : Bytes}

theorem length_served (h : Accounts tgts rest stream s) (hcurrent : s.main.current = none)
    (htodo : s.todo = []) : s.served.length = (tgts.map demand).sum := by
  rw [h.served_length, h.commands, hcurrent, htodo, Option.toList_none, append_nil, append_nil,
    map_map]
  rfl

/-- With a stream that is no longer than what the commands need, and a receiver that has
nothing left at its end, the updater does not join a receiver that waits for a writer. -/
theorem join_not_stuck (hsplits : Splits r rest) (hstart : r.more source = false)
    (hlength : (rest source pieces).length ≤ (tgts.map demand).sum)
    (hquiet : Quiet r rest source pieces)
    (hreach : Reach cfg r (start tgts source pieces faults) s) :
    ¬ (s.main = .joining ∧ s.unzip = .asleep) := by
  rintro ⟨hmain, hunzip⟩
  obtain ⟨⟨hcontrol, haccounts⟩, hfed⟩ := runs_reach hsplits hstart hreach
  have hserved := length_served haccounts (by rw [hmain]; rfl) (hcontrol.joining hmain)
  have hlive := congrArg List.length (haccounts.live (by rw [hunzip]; rfl))
  rw [length_append, length_append] at hlive
  -- all of the stream is handed over
  have hrest : rest s.source s.pieces = [] := length_eq_zero_iff.mp (by omega)
  have hnone := hquiet _ _ hfed hrest
  rw [hcontrol.wants (by rw [hunzip]; rfl)] at hnone
  cases hnone

/-- The plain receiver has nothing left when its stream is handed over. -/
theorem plain_quiet (pieces : List Bytes) :
    Quiet plainReceiver (fun data pieces => data ++ pieces.flatten) [] pieces := by
  intro source' pieces' _ hrest
  rw [(append_eq_nil_iff.mp hrest).1]
  rfl

/-- A block in two pieces and a command for it: the receiver is about to end when it is joined. -/
theorem one_block_joined : ∃ s : NewThreads Bytes,
    Reach config plainReceiver (start [block] [] [half, half] []) s ∧
    s.main = .joining ∧ s.reports.map Prod.fst = [block] ∧
    ¬ (s.main = .joining ∧ s.unzip = .asleep) := by
  obtain ⟨s, hserved, hmain, htodo, hreports⟩ := reach_halves
  have hreach := hserved.tail (.inl (.inl (.join hmain htodo)))
  exact ⟨_, hreach, rfl, hreports,
    join_not_stuck plain_splits rfl (Nat.le_of_eq halves_length) (plain_quiet _) hreach⟩

/-- A byte of new data and no `new` command: the updater joins a receiver that waits for a
writer, and neither can go on. -/
theorem spare_data_stuck : ∃ s : NewThreads Bytes,
    Reach config plainReceiver (start [] [] [[0]] []) s ∧
    s.main = .joining ∧ s.unzip = .asleep ∧
    ∀ t, ¬ Step config plainReceiver s t := by
  refine ⟨⟨.joining, .asleep, none, none, true, [], [0], [], [], [], []⟩, ?_, rfl, rfl, ?_⟩
  · exact (((Relation.ReflTransGen.refl.tail (.inl (.inr (.call rfl rfl)))).tail
      (.inl (.inr (.lock rfl rfl rfl)))).tail (.inl (.inr (.wait rfl rfl)))).tail
      (.inl (.inl (.join rfl rfl)))
  · rintro t (hmain | hunzip)
    · cases hmain <;> simp_all
    · cases hunzip <;> simp_all

end NewThreads

end Pterodon.Updater
