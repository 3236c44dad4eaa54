import Pterodon.Updater.Contents
import Pterodon.Updater.Invariants

/-!
# Stash files and the order of effects

A stash file may be the only copy of blocks that a transfer has overwritten, so it should
not go before the transfer's writes are on the medium: before an `fsync` of the device
that was issued after them. `PerformBlockImageUpdate` calls `fsync` after each command,
and a `free` is a command of its own, so that the order is right there. But a transfer
that makes its own stash, because its source overlaps its target, also frees it, and does
so before the `fsync` that comes after the command.

`Durable` is the order that was meant. `update_durable` says that it holds in every run in
which no transfer makes its own stash, whatever the transfer list and whatever fails.
-/

namespace Pterodon.Updater

open Lib List ApplyPatch

/-- A stash file is unlinked because it is no longer needed. -/
def Event.Releases (e : Event) : Prop :=
  ∃ name, e = .unlink name .freestash ∨ e = .unlink name .free

/-- Not a release. -/
def Keeping (e : Event) : Prop := ¬ e.Releases

/-- A successful `fsync` came after every write to the device. -/
def Synced (h : List Event) : Prop :=
  ∀ t₁ e t₂, h = t₁ ++ e :: t₂ → e.block? ≠ none → Event.fsync ∈ t₂

/-- No stash file is released before the device is synced. -/
def Durable (h : List Event) : Prop :=
  ∀ t₁ e t₂, h = t₁ ++ e :: t₂ → e.Releases → Synced t₁

section History

variable {h : List Event} {e : Event}

theorem split_snoc {x : Event} {t₁ t₂ : List Event} (heq : h ++ [e] = t₁ ++ x :: t₂) :
    (t₁ = h ∧ x = e ∧ t₂ = []) ∨ ∃ t, t₂ = t ++ [e] ∧ h = t₁ ++ x :: t := by
  rcases eq_nil_or_concat t₂ with rfl | ⟨t, y, rfl⟩
  · obtain ⟨rfl, hx⟩ := append_inj' heq rfl
    exact .inl ⟨rfl, (List.cons.inj hx).1.symm, rfl⟩
  · rw [concat_eq_append, ← cons_append, ← append_assoc] at heq
    obtain ⟨rfl, hy⟩ := append_inj' heq rfl
    refine .inr ⟨t, ?_, rfl⟩
    rw [concat_eq_append, (List.cons.inj hy).1]

theorem synced_fsync (h : List Event) : Synced (h ++ [Event.fsync]) := by
  intro t₁ x t₂ heq hx
  rcases split_snoc heq with ⟨_, rfl, _⟩ | ⟨t, rfl, _⟩
  · exact absurd rfl hx
  · exact mem_append_right _ (mem_singleton.mpr rfl)

theorem durable_nil : Durable [] := by
  intro t₁ x t₂ heq _
  exact absurd heq (by simp)

theorem Durable.snoc (hD : Durable h) (he : e.Releases → Synced h) : Durable (h ++ [e]) := by
  intro t₁ x t₂ heq hx
  rcases split_snoc heq with ⟨rfl, rfl, _⟩ | ⟨t, rfl, rfl⟩
  · exact he hx
  · exact hD t₁ x t rfl hx

theorem Durable.extends (hD : Durable h) {h' : List Event} {d d' : Disk}
    (hx : Extends Keeping h d h' d') : Durable h' := by
  obtain ⟨t, ht, rfl, -⟩ := hx
  induction t generalizing h with
  | nil => rwa [append_nil]
  | cons e t ih =>
    rw [← singleton_append, ← append_assoc]
    refine ih (hD.snoc (fun hrel => absurd hrel (ht e mem_cons_self))) ?_
    exact fun e' he' => ht e' (mem_cons_of_mem _ he')

end History

/-! ## Functions that release nothing -/

/-- No stash file is released, and none is marked for it. -/
abbrev Plain {α : Type} (m : Blk α) : Prop := Does Keeping SameFreestash m

section Plain

variable {α : Type} {cfg : Config}

theorem Writes.plain {m : Blk α} (hm : Writes m) : Plain m := by
  refine does_mono hm ?_ (fun _ _ hv => hv)
  rintro e he ⟨name, rfl | rfl⟩
  · exact he rfl
  · exact he rfl

theorem Loading.keeping {e : Event} (he : Loading e) : Keeping e := by
  rintro ⟨name, rfl | rfl⟩
  · exact he
  · exact he

theorem plain : Closed (fun m => Plain m) :=
  closed_does SameFreestash.refl SameFreestash.trans (fun _ => rfl)

theorem plain_emit {e : Event} (he : Keeping e) : Plain (Prog.emit e) :=
  does_emit SameFreestash.refl he

theorem keeping_fsync : Keeping Event.fsync := by
  rintro ⟨_, h | h⟩
  · cases h
  · cases h

theorem Tidying.keeping {e : Event} (he : Tidying e) : Keeping e := by
  rintro ⟨_, rfl | rfl⟩
  · exact he
  · exact he

theorem plain_deleteStash : Plain (deleteStash cfg) :=
  does_mono does_deleteStash (fun _ => Tidying.keeping) (fun _ _ hp => hp.freestash)

theorem plain_createStashFile (id : Text) (blocks : List Block) :
    Plain (createStashFile id blocks) :=
  does_mono (does_createStashFile id blocks) (fun _ => Loading.keeping) (fun _ _ hp => hp.freestash)

theorem plain_stash (rest : List Text) : Plain (performCommandStash cfg rest) :=
  closed_stash plain (fun _ => does_modify fun _ => rfl) (fun _ _ => does_modify fun _ => rfl)
    (fun _ _ => closed_loadStash plain
      (does_bind SameFreestash.trans (does_get SameFreestash.refl))
      (fun _ => plain_emit (Loading.keeping trivial)))
    (fun _ _ => plain_createStashFile _ _)

end Plain

/-! ## Commands -/

/-- The command makes no stash of its own: its source does not overlap its target, or the target
has its contents, or there is a stash file already. -/
def Unstashed (cfg : Config) (line : Text) (d : Disk) : Prop :=
  ∀ t, parseCommand cfg line = some (.transfer t) → t.overlaps cfg = true →
    cfg.sha1 (t.tgt.contents d.device) = t.tgthash ∨ (d.stash t.srchash).isSome = true

section Commands

variable {cfg : Config} {h : List Event} {v : Params} {d : Disk}

/-- `m` keeps the order, and ends in `Q` if it ends with a value. -/
abbrev wpDurable {α : Type} (m : Blk α) (Q : Post α) : List Event → Params → Disk → Prop :=
  wp (fun h _ => Durable h) m Q (fun _ h' _ _ => Durable h')

theorem wp_plain {α : Type} {m : Blk α} (hm : Plain m) (hD : Durable h) :
    wpDurable m (fun _ h' v' _ => Durable h' ∧ v'.freestash = v.freestash) h v d :=
  wp_does hm (fun _ _ hx => hD.extends hx) (fun _ _ _ _ hx hv => ⟨hD.extends hx, hv⟩)
    (fun _ _ _ _ hx _ => hD.extends hx)

/-- A transfer that makes no stash of its own releases nothing. -/
theorem wp_runTransfer_durable (hw : cfg.canwrite = true) {t : Transfer}
    (hC : t.overlaps cfg = true →
      cfg.sha1 (t.tgt.contents d.device) = t.tgthash ∨ (d.stash t.srchash).isSome = true)
    (hD : Durable h) (hv : v.freestash = []) :
    wpDurable (runTransfer cfg t) (fun _ h' v' _ => Durable h' ∧ v'.freestash = []) h v d := by
  have hrelease : ∀ {h : List Event} {v : Params} {d : Disk}, Durable h → v.freestash = [] →
      wpDurable (releaseFreestash cfg) (fun _ h' v' _ => Durable h' ∧ v'.freestash = []) h v d :=
    fun hD hv => wp_bind (wp_get (wp_ite (fun _ => wp_pure ⟨hD, hv⟩) (fun hne => absurd hv hne)))
  have hload : ∀ {h' : List Event} {d' : Disk}, Extends Loading h d h' d' → Durable h' :=
    fun hx => hD.extends (hx.mono (fun _ => Loading.keeping))
  refine wp_bind (wp_loadTransfer hw (fun _ _ hx => hload hx) ?_ ?_ (fun _ _ _ _ hx => hload hx))
  · intro v' hp _
    exact wp_bind (wp_pure (hrelease hD (hp.freestash.trans hv)))
  · intro n h' v' d' hne _ hx _ hfree
    have hv' : v'.freestash = [] := by
      rcases hfree with hfree | ⟨_, hover, hnone⟩
      · exact hfree.trans hv
      · rcases hC hover with hdone | hsome
        · exact absurd hdone hne
        · rw [hnone] at hsome
          cases hsome
    refine wp_bind (wp_bind (wp_get ?_))
    rw [hw]
    refine wp_mono (wp_plain (writes_writeTarget _ _ _).plain (hload hx)) ?_
      (fun _ _ _ _ h => h)
    intro _ h'' v'' d'' hpost
    exact hrelease hpost.1 (hpost.2.trans hv')

theorem wp_free_durable {rest : List Text} (hS : Synced h) (hD : Durable h)
    (hv : v.freestash = []) :
    wpDurable (performCommandFree cfg rest) (fun _ h' v' _ => Durable h' ∧ v'.freestash = [])
      h v d := by
  unfold performCommandFree
  split
  · rename_i id _
    refine wp_bind (wp_modify (wp_bind (wp_get (wp_ite (fun _ => ?_) (fun _ => wp_pure ⟨hD, hv⟩)))))
    refine wp_ite (fun _ => wp_fail hD) (fun _ => wp_bind (wp_sys ?_))
    intro ok v' hp _
    have hv' : v'.freestash = [] := hp.freestash.trans hv
    have hD' : Durable (h ++ [Event.unlink (cfg.entryOf id) .free]) := hD.snoc (fun _ => hS)
    exact wp_bind (wp_disk (wp_ite (fun _ => wp_emit hD' ⟨hD', hv'⟩)
      (fun _ => wp_pure ⟨hD, hv'⟩)))
  · exact wp_fail hD

theorem wp_performCommand_durable (hw : cfg.canwrite = true) {line : Text}
    (hC : Unstashed cfg line d) (hS : Synced h) (hD : Durable h) (hv : v.freestash = []) :
    wpDurable (performCommand cfg line) (fun _ h' v' _ => Durable h' ∧ v'.freestash = [])
      h v d := by
  have hplain : ∀ {m : Blk Unit}, Plain m → wpDurable m
    (fun _ h' v' _ => Durable h' ∧ v'.freestash = []) h v d :=
    fun hm => wp_mono (wp_plain hm hD) (fun _ _ _ _ hpost => ⟨hpost.1, hpost.2.trans hv⟩)
      (fun _ _ _ _ h => h)
  refine performCommand_rule (P := fun m => wpDurable m _ h v d) (fun _ => wp_fail hD) ?_
    (fun _ rest _ _ => hplain (plain_stash rest)) (fun _ => wp_free_durable hS hD hv)
    (fun rest => ⟨?_, ?_, ?_⟩)
  · exact fun t ht => wp_runTransfer_durable hw (hC t ht) hD hv
  · exact hplain (does_ite (writes_erase rest).plain (plain.pure ()))
  · exact hplain (does_ite (writes_new rest).plain (plain.pure ()))
  · exact hplain (does_ite (writes_zero rest).plain (plain.pure ()))

end Commands

/-! ## Runs -/

/-- A command and the `fsync` after it. -/
def syncedCommand (cfg : Config) (line : Text) : Blk Unit := do
  performCommand cfg line
  syncDevice cfg

/-- The command lines that are run, each with the disk before it. -/
def commandSteps (cfg : Config) : List Text → Params → Disk → List (Text × Disk)
  | [], _, _ => []
  | line :: lines, v, d =>
    if line = [] then commandSteps cfg lines v d
    else
      (line, d) ::
        match (syncedCommand cfg line v d).val with
        | .error _ => []
        | .ok () => commandSteps cfg lines (syncedCommand cfg line v d).vol
            (finished (syncedCommand cfg line) v d)

/-- The command lines that a block image update runs, each with the disk before it. -/
def updateSteps (cfg : Config) (transferList : Text) (v : Params) (d : Disk) : List (Text × Disk) :=
  match parseList cfg transferList with
  | none => []
  | some (maxblocks, lines) =>
    match (createStash cfg maxblocks v d).val with
    | .error _ => []
    | .ok created =>
      commandSteps cfg lines { (createStash cfg maxblocks v d).vol with createdstash := created }
        (finished (createStash cfg maxblocks) v d)

section Runs

variable {cfg : Config} {h : List Event} {v : Params} {d : Disk}

theorem performCommands_cons (line : Text) (lines : List Text) :
    performCommands cfg (line :: lines) = if line = [] then performCommands cfg lines
      else syncedCommand cfg line >>= fun _ => performCommands cfg lines := by
  rw [performCommands, syncedCommand, bind_assoc]

theorem wp_syncedCommand_durable (hw : cfg.canwrite = true) {line : Text}
    (hC : Unstashed cfg line d) (hS : Synced h) (hD : Durable h) (hv : v.freestash = []) :
    wpDurable (syncedCommand cfg line) (fun _ h' v' _ => Synced h' ∧ Durable h' ∧ v'.freestash = [])
      h v d := by
  refine wp_bind (wp_mono (wp_performCommand_durable hw hC hS hD hv) ?_ (fun _ _ _ _ h => h))
  rintro _ h₁ v₁ d₁ ⟨hD₁, hv₁⟩
  unfold syncDevice
  rw [if_neg (by rw [hw]; simp)]
  refine wp_bind (wp_call ?_ (fun _ _ _ => hD₁))
  intro v₂ hp
  have hD₂ : Durable (h₁ ++ [Event.fsync]) := hD₁.snoc fun h => absurd h keeping_fsync
  exact wp_emit hD₂ ⟨synced_fsync h₁, hD₂, hp.freestash.trans hv₁⟩

theorem wp_performCommands_durable (hw : cfg.canwrite = true) :
    ∀ (lines : List Text) {h : List Event} {v : Params} {d : Disk},
      (∀ p ∈ commandSteps cfg lines v d, Unstashed cfg p.1 p.2) → Synced h → Durable h →
      v.freestash = [] → wpDurable (performCommands cfg lines) (fun _ h' _ _ => Durable h')
        h v d := by
  intro lines
  induction lines with
  | nil => exact fun _ _ hD _ => wp_pure hD
  | cons line lines ih =>
    intro h v d hC hS hD hv
    rw [performCommands_cons]
    unfold commandSteps at hC
    split
    · rename_i hnil
      rw [if_pos hnil] at hC
      exact ih hC hS hD hv
    · rename_i hne
      rw [if_neg hne] at hC
      have hstep := wp_syncedCommand_durable hw (hC _ mem_cons_self) hS hD hv
      refine wp_bind (wp_mono (wp_run hstep) ?_ (fun _ _ _ _ h => h))
      rintro _ h' v' d' ⟨⟨hS', hD', hv'⟩, hval, rfl, rfl⟩
      refine ih ?_ hS' hD' hv'
      intro p hp
      refine hC p (mem_cons_of_mem _ ?_)
      rw [hval]
      exact hp

theorem plain_finish (rc : Bool) : Plain (finish cfg rc) :=
  closed_finish plain (plain_emit keeping_fsync) plain_deleteStash rc

theorem wp_performTransfers_durable (hw : cfg.canwrite = true) {lines : List Text}
    (hC : ∀ p ∈ commandSteps cfg lines v d, Unstashed cfg p.1 p.2) (hS : Synced h) (hD : Durable h)
    (hv : v.freestash = []) :
    wpDurable (performTransfers cfg lines) (fun _ h' _ _ => Durable h') h v d := by
  have hfinish : ∀ (rc : Bool) {h : List Event} {v : Params} {d : Disk}, Durable h →
      wpDurable (finish cfg rc) (fun _ h' _ _ => Durable h') h v d :=
    fun rc _ _ _ hD => wp_mono (wp_plain (plain_finish rc) hD) (fun _ _ _ _ hp => hp.1)
      (fun _ _ _ _ h => h)
  refine wp_bind (wp_attempt ?_)
  refine wp_mono (wp_performCommands_durable hw lines hC hS hD hv) ?_ ?_
  · intro _ h' v' d' hD'
    rw [hw]
    refine wp_bind (wp_mono (wp_plain plain_deleteStash hD') ?_ (fun _ _ _ _ h => h))
    exact fun _ _ _ _ hp => hfinish true hp.1
  · intro e h' v' d' hD'
    cases e with
    | error => exact hfinish false hD'
    | check | memory => exact wp_fail hD'

end Runs

theorem synced_of_tidying {h : List Event} {d d' : Disk} (hx : Extends Tidying [] d h d') :
    Synced h := by
  obtain ⟨_, ht, rfl, -⟩ := hx
  intro t₁ e t₂ heq hblock
  have he : e ∈ t₁ ++ e :: t₂ := mem_append_right _ mem_cons_self
  rw [← heq] at he
  exact absurd (ht e he).block? hblock

/--
Whatever the transfer list, the disk and the system calls that fail: in a run in which no
transfer makes a stash of its own, a stash file that is released, by a `free` or by a
transfer, is released after an `fsync` that came after all writes to the device so far.
-/
theorem update_durable {cfg : Config} (hw : cfg.canwrite = true) {transferList : Text}
    {newData : List Bytes} {faults : List Bool} {d : Disk}
    (hC : ∀ p ∈ updateSteps cfg transferList (.start newData faults) d, Unstashed cfg p.1 p.2) :
    Durable (performBlockImageUpdate cfg transferList (.start newData faults) d).trace := by
  cases hlist : parseList cfg transferList with
  | none =>
    obtain ⟨b, hb⟩ := performBlockImageUpdate_none hlist
    rw [hb]
    exact durable_nil
  | some ml =>
    obtain ⟨maxblocks, lines⟩ := ml
    rw [performBlockImageUpdate_some hlist]
    unfold updateSteps at hC
    rw [hlist] at hC
    dsimp only at hC
    suffices hwp : wpDurable (runList cfg maxblocks lines) (fun _ h' _ _ => Durable h')
      [] (.start newData faults) d by
      have hends := hwp.2
      unfold Outcome.Ends at hends
      cases hval : (runList cfg maxblocks lines (.start newData faults) d).val with
      | ok b | error e => rw [hval] at hends; exact hends
    refine wp_bind (wp_attempt ?_)
    have hcreate : wpDurable (createStash cfg maxblocks)
      (fun _ h' v' _ => Synced h' ∧ Durable h' ∧ v'.freestash = []) [] (.start newData
        faults) d := by
      have hD : ∀ {h' : List Event} {d' : Disk}, Extends Tidying [] d h' d' → Durable h' :=
        fun hx => durable_nil.extends (hx.mono (fun _ => Tidying.keeping))
      refine wp_does (does_createStash maxblocks) (fun _ _ hx => hD hx) ?_
        (fun _ _ _ _ hx _ => hD hx)
      intro _ h' v' d' hx hp
      exact ⟨synced_of_tidying hx, hD hx, hp.freestash⟩
    refine wp_mono (wp_run hcreate) ?_ ?_
    · rintro created h' v' d' ⟨⟨hS, hD, hv⟩, hval, rfl, rfl⟩
      rw [hval] at hC
      exact wp_bind (wp_modify (wp_performTransfers_durable hw hC hS hD hv))
    · intro e h' v' d' hD
      cases e with
      | error => exact wp_pure hD
      | check | memory => exact wp_fail hD

namespace Sample

/-- A list with the one command `shift`. -/
def shiftList : Text := "4\n2\n0\n2\n".toList ++ shift

def stashPair : Text := "stash habaab 2,1,3".toList

def freePair : Text := "free habaab".toList

/-- The same transfer between a stash of its source and its `free`. -/
def stashedList : Text :=
  "4\n2\n0\n2\n".toList ++ stashPair ++ '\n' :: (shift ++ '\n' :: freePair)

theorem stashed_steps : (updateSteps config stashedList (.start [] []) disk).map
    (fun p => (p.1, (p.2.stash pair).isSome)) =
      [(stashPair, false), (shift, true), (freePair, true)] := by
  decide +kernel

end Sample

open Sample

/-- The stash file is there when its blocks are moved, and is released by the `free` behind. -/
theorem stashed_durable :
    (.writeBlock 1 (BitVec.ofNat _ 2) ∈ (performBlockImageUpdate config stashedList
        (.start [] []) disk).trace ∧
      .unlink pair .free ∈ (performBlockImageUpdate config stashedList
        (.start [] []) disk).trace) ∧
    Durable (performBlockImageUpdate config stashedList (.start [] [])
      disk).trace := by
  refine ⟨by decide +kernel, update_durable rfl fun p hp t ht _ => ?_⟩
  have hmem := mem_map_of_mem (f := fun p : Text × Disk => (p.1, (p.2.stash pair).isSome)) hp
  simp only [stashed_steps, mem_cons, not_mem_nil, or_false, Prod.mk.injEq] at hmem
  rcases hmem with ⟨hline, -⟩ | ⟨hline, hfile⟩ | ⟨hline, -⟩
  · rw [hline] at ht
    cases ht
  · rw [hline] at ht
    obtain rfl : shiftTransfer = t := Command.transfer.inj (Option.some.inj ht)
    exact .inr hfile
  · rw [hline] at ht
    cases ht

/-- The stash of a transfer goes before its writes are durable. The source of `shift` is in
the stash file `habaab`; the file is unlinked when both blocks of the target are written, but
before the first `fsync` of the run. -/
theorem shift_not_durable : (performBlockImageUpdate config shiftList (.start [] []) disk).val
      = .ok true ∧
    (∃ t₁ t₂, (performBlockImageUpdate config shiftList (.start [] [])
        disk).trace = t₁ ++ .unlink pair .freestash :: t₂ ∧
      .writeBlock 0 (BitVec.ofNat _ 1) ∈ t₁ ∧ .writeBlock 1 (BitVec.ofNat _ 2) ∈ t₁ ∧
      Event.fsync ∉ t₁) ∧
    ¬ Durable (performBlockImageUpdate config shiftList (.start [] [])
      disk).trace := by
  have htrace : (performBlockImageUpdate config shiftList (.start [] []) disk).trace
    = [.stashWrite (pair ++ partialSuffix) (.whole []),
        .stashWrite (pair ++ partialSuffix)
          (.whole [BitVec.ofNat _ 1, BitVec.ofNat _ 2]),
        .stashRename (pair ++ partialSuffix) pair,
        .writeBlock 0 (BitVec.ofNat _ 1), .writeBlock 1 (BitVec.ofNat _ 2)]
      ++ .unlink pair .freestash :: [.fsync, .rmdir, .fsync] := by
    decide +kernel
  refine ⟨by decide +kernel, ⟨_, _, htrace, by simp, by simp, by simp⟩, ?_⟩
  intro hD
  have hS := hD _ _ _ htrace ⟨_, .inl rfl⟩
  -- the last write has nothing behind it
  have hlast := hS [_, _, _, _] (.writeBlock 1 (BitVec.ofNat _ 2)) [] rfl (by simp [Event.block?])
  cases hlast

end Pterodon.Updater
