import Pterodon.Updater.Durable
import Pterodon.Updater.Plan

/-!
# Stash files that are complete

A file of the stash is written under a name of its own, which ends in `.partial`, and gets
its real name by a rename when all of it is there. Two places write such files, the `stash`
command and a transfer that overwrites its own source; both have just compared the hash of
the buffer with the name.

So however often the updater was run and wherever it was stopped, a file that it created and
whose name is complete has the contents that its name promises. Files that were there before
may hold anything, which is why `created` looks at the history.
-/

namespace Pterodon.Updater

open Lib ApplyPatch

/-- Whether the file that is now called `name` was put there by the updater, if it was so before
the event as `made` says. -/
def Event.makes (name : Text) (made : Bool) : Event → Bool
  | .stashWrite file _ => if file = name then true else made
  | .stashRename file target =>
    if target = name then true else if file = name then false else made
  | .unlink file _ => if file = name then false else made
  | _ => made

/-- Whether the last of the events that concern the file `name` put it there. -/
def created (name : Text) (h : List Event) : Bool := h.foldl (Event.makes name) false

/-- Files that are complete and were created by the updater are named by the hash of their
contents. -/
def Committed (sha1 : List Block → Text) (h : List Event) (d : Disk) : Prop :=
  ∀ name, Complete name → created name h = true →
    ∃ blocks, d.stash name = some (.whole blocks) ∧ sha1 blocks = name

section Committed

variable {sha1 : List Block → Text} {h : List Event} {d : Disk}

theorem created_snoc (name : Text) (h : List Event) (e : Event) :
    created name (h ++ [e]) = e.makes name (created name h) := by
  unfold created
  rw [List.foldl_append]
  rfl

section Event

variable (hC : Committed sha1 h d)
include hC

theorem Committed.other {e : Event} {name : Text} (hname : Complete name)
    (hmakes : ∀ made, e.makes name made = made)
    (hstash : (Effect.act e d).stash name = d.stash name)
    (hmade : created name (h ++ [e]) = true) :
    ∃ blocks, (Effect.act e d).stash name = some (.whole blocks) ∧ sha1 blocks = name := by
  rw [created_snoc, hmakes] at hmade
  rw [hstash]
  exact hC name hname hmade

theorem Committed.writes {e : Event} (he : e.block? ≠ none) :
    Committed sha1 (h ++ [e]) (Effect.act e d) := by
  intro name hname hmade
  cases e with
  | write | writeBlock | discard => exact hC.other hname (fun _ => rfl) rfl hmade
  | fsync | stashWrite | stashRename | unlink | mkdir | rmdir => exact absurd rfl he

theorem Committed.clears {e : Event} (he : e.Clears) :
    Committed sha1 (h ++ [e]) (Effect.act e d) := by
  intro name hname hmade
  cases e with
  | fsync | mkdir | rmdir => exact hC.other hname (fun _ => rfl) rfl hmade
  | unlink file cause =>
    by_cases heq : file = name
    · -- the file is gone
      rw [created_snoc, Event.makes, if_pos heq] at hmade
      cases hmade
    · exact hC.other hname (fun _ => if_neg heq) (Function.update_of_ne (Ne.symm heq) _ _) hmade
  | write | writeBlock | discard | stashWrite | stashRename => exact he.elim

theorem Committed.unfinished (id : Text) (file : StashFile) :
    Committed sha1 (h ++ [.stashWrite (id ++ partialSuffix) file])
      (Effect.act (Event.stashWrite (id ++ partialSuffix) file) d) := by
  intro name hname hmade
  have hne := hname.ne_partial id
  exact hC.other hname (fun _ => if_neg hne.symm) (Function.update_of_ne hne _ _) hmade

theorem Committed.rename {id : Text} {blocks : List Block}
    (hfile : d.stash (id ++ partialSuffix) = some (.whole blocks)) (hid : sha1 blocks = id) :
    Committed sha1 (h ++ [.stashRename (id ++ partialSuffix) id])
      (Effect.act (Event.stashRename (id ++ partialSuffix) id) d) := by
  intro name hname hmade
  by_cases heq : id = name
  · subst heq
    exact ⟨blocks, (Function.update_self ..).trans hfile, hid⟩
  · have hne := hname.ne_partial id
    refine hC.other hname (fun _ => (if_neg heq).trans (if_neg hne.symm)) ?_ hmade
    exact (Function.update_of_ne (Ne.symm heq) _ _).trans (Function.update_of_ne hne _ _)

end Event

theorem stable_createStashFile (blocks : List Block) :
    Stable (Committed sha1) (createStashFile (sha1 blocks) blocks) := by
  intro h v d hC
  refine wp_bind (wp_disk (wp_bind (wp_require (fun _ => ?_) (fun _ => hC))))
  refine wp_bind (wp_call (fun v₁ _ => ?_) (fun _ _ _ => hC))
  have hC₁ := hC.unfinished (sha1 blocks) (.whole [])
  refine wp_bind (wp_emit hC₁ (wp_bind (wp_call (fun v₂ _ => ?_) (fun _ _ _ => hC₁))))
  have hC₂ := hC₁.unfinished (sha1 blocks) (.whole blocks)
  refine wp_bind (wp_emit hC₂ (wp_bind (wp_call (fun v₃ _ => ?_) (fun _ _ _ => hC₂))))
  -- the file that is renamed is the one just written
  have hC₃ := hC₂.rename (Function.update_self ..) rfl
  exact wp_bind (wp_emit hC₃ (wp_call (fun _ _ => hC₃) (fun _ _ _ => hC₃)))

end Committed

/-- A block image update or verification, where hashes are computed by `sha1`. -/
structure Update (sha1 : List Block → Text) where
  cfg : Config
  hash : cfg.sha1 = sha1
  transferList : Text

def Update.run {sha1 : List Block → Text} (u : Update sha1) : Blk Bool :=
  performBlockImageUpdate u.cfg u.transferList

theorem Update.committed {sha1 : List Block → Text} (u : Update sha1) :
    Stable (Committed sha1) u.run := by
  have hkeeps : Respects u.cfg (Committed sha1) := by
    refine ⟨fun _ e h d he hC => hC.writes he, fun e h d he hC => hC.clears he, ?_⟩
    intro _ blocks
    rw [u.hash]
    exact stable_createStashFile blocks
  exact stable_update hkeeps u.transferList

/--
**Stash files that are complete are right.** After any number of runs over any transfer
lists, with any calls failing and each run stopped after any of its effects, a file that
was created by one of them and has a complete name holds blocks with that hash.
-/
theorem committed_file {sha1 : List Block → Text} {d₀ d : Disk} {h : List Event}
    (hr : History (ι := Update sha1) Update.run d₀ h d) {name : Text} (hname : Complete name)
    (hcreated : created name h = true) :
    ∃ blocks, d.stash name = some (.whole blocks) ∧ sha1 blocks = name := by
  have hinv : Committed sha1 h d :=
    hr.inv (fun name _ hmade => absurd hmade (by simp [created])) Update.committed
  exact hinv name hname hcreated

namespace Sample

/-- The one-command list of `shift`. -/
def shiftUpdate : Update sha1 := ⟨config, rfl, shiftList⟩

/-- `shift` was stopped before its stash was renamed. -/
def shiftStopped : Disk := stoppedAt shiftUpdate.run (.start [] []) disk 2

end Sample

open Sample

/-- The updater is stopped while it writes the stash of `shift`, and again when it has removed what
was left of the file and written all of it. -/
theorem shift_committed :
    shiftStopped.stash ("habaab".toList ++ partialSuffix) ≠ none ∧
    ∃ blocks, (stoppedAt shiftUpdate.run (.start [] []) shiftStopped 4).stash
      "habaab".toList = some (.whole blocks) ∧
      sha1 blocks = "habaab".toList := by
  have hname : Complete "habaab".toList := by
    unfold Complete
    decide
  have hstart : History (ι := Update sha1) Update.run disk [] disk := .start
  have hfirst := hstart.stop shiftUpdate (.start [] []) 2
  have hsecond := hfirst.stop shiftUpdate (.start [] []) 4
  have hfile := committed_file hsecond hname (by decide +kernel)
  refine ⟨by decide +kernel, ?_⟩
  unfold shiftStopped
  exact hfile

end Pterodon.Updater
