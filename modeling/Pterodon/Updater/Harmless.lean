import Pterodon.Updater.Invariants
import Pterodon.Updater.Resume

/-!
# What `block_image_verify` leaves alone

The functions of the commands are the same for an update and for its verification; what a
verification must not do is guarded at many places. It writes no block, for the device is
only written where `canwrite` is looked at.

It may unlink files: those that are not complete, and one with the wrong contents. A `stash`
command that comes upon such a file goes on, and so does the verification. But the file is
found by the path that the id of the stash is, and its contents are compared with the id
itself. So if the id is another path to a file, such as `./` and its name, then a file with
the right contents is taken for a wrong one.
-/

namespace Pterodon.Updater

open Lib ApplyPatch

/-- The ids of the `stash` commands are names of files, and not other paths to them. -/
def PlainIds (cfg : Config) (lines : List Text) : Prop :=
  ∀ line ∈ lines, ∀ name id rest, line.splitOn ' ' = name :: id :: rest →
    commandName name = some .stash → cfg.entryOf id = id

/-- A verification that found its directory on `d` goes on. -/
structure Unharmed (cfg : Config) (d : Disk) (v : Params) (d' : Disk) : Prop where
  freestash : v.freestash = []
  createdstash : v.createdstash = false
  isunresumable : v.isunresumable = false
  kept : ∀ name, Complete name → Has cfg d name → d'.stash name = d.stash name

section Unharmed

variable {cfg : Config} {h : List Event} {v v' : Params} {d d' : Disk}

theorem Unharmed.popped (hu : Unharmed cfg d v d') (hp : Popped v v') : Unharmed cfg d v' d' := by
  obtain ⟨n, rfl⟩ := hp
  exact ⟨hu.freestash, hu.createdstash, hu.isunresumable, hu.kept⟩

theorem Unharmed.buffer (hu : Unharmed cfg d v d') (b : List Block) :
    Unharmed cfg d { v with buffer := b } d' :=
  ⟨hu.freestash, hu.createdstash, hu.isunresumable, hu.kept⟩

theorem Unharmed.stashMap (hu : Unharmed cfg d v d') (m : Text → Option RangeSet) :
    Unharmed cfg d { v with stashMap := m } d' :=
  ⟨hu.freestash, hu.createdstash, hu.isunresumable, hu.kept⟩

theorem Unharmed.unlink (hu : Unharmed cfg d v d') {id : Text} {blocks : List Block}
    (hfile : d'.stash id = some (.whole blocks)) (hne : cfg.sha1 blocks ≠ id) {cause : Cause} :
    Unharmed cfg d v (Effect.act (Event.unlink id cause) d') := by
  refine ⟨hu.freestash, hu.createdstash, hu.isunresumable, ?_⟩
  intro name hname hhas
  have hkept := hu.kept name hname hhas
  rw [← hkept]
  refine Function.update_of_ne ?_ _ _
  rintro rfl
  exact hne (hhas.sha1 (hkept.symm.trans hfile))

/-- `LoadStash`; what happens to the file on failure matters only if the command goes on. -/
theorem wp_loadStash_unharmed (hu : Unharmed cfg d v d') {id : Text} {verify : Bool}
    {buffer : List Block} {Q : Post (List Block × Bool)}
    (hq : ∀ b ok v', Unharmed cfg d v' d' → Q (b, ok) h v' d')
    (hbad : ∀ blocks, d'.stash (cfg.entryOf id) = some (.whole blocks) → cfg.sha1 blocks ≠ id →
      ∀ b h' v' d'', (cfg.entryOf id = id → Unharmed cfg d v' d'') → Q (b, false) h' v' d'') :
    wlp (loadStash cfg id verify buffer) Q h v d' := by
  refine wp_bind (wp_get ?_)
  split
  · refine wp_silent (closed_loadMapped looks _ _ _) ?_ (fun _ _ _ => trivial)
    exact fun r v' hp => hq r.1 r.2 v' (hu.popped hp)
  · refine wp_loadStashFile (fun _ b v' hp _ _ _ => hq b true v' (hu.popped hp))
      (fun b v' hp _ => hq b false v' (hu.popped hp)) ?_ (fun _ _ _ _ _ _ _ => trivial)
    intro blocks hfile hne
    refine ⟨trivial, fun b v' hp => hbad blocks hfile hne b _ v' _ ?_⟩
    intro hplain
    rw [hplain] at hfile ⊢
    exact (hu.popped hp).unlink hfile hne

/-! ## Commands -/

section Commands

variable (hw : cfg.canwrite = false) (hu : Unharmed cfg d v d')

include hw hu

theorem wp_loadSource_unharmed (t : Transfer) :
    wlp (loadSource cfg t.srchash t.tgt (t.count :: t.source)) (fun _ _ => Unharmed cfg d)
      h v d' := by
  refine wp_bind (wp_loadSourceBlocks ?_ (fun _ _ _ => trivial))
  intro n b v₁ _ hp
  have hu₁ : Unharmed cfg d { v₁ with buffer := b } d' := (hu.popped hp).buffer b
  refine wp_bind (wp_get (wp_ite (fun _ => ?_) (fun _ => ?_)))
  · rw [hw, Bool.and_false]
    exact wp_ite nofun (fun _ => wp_pure hu₁)
  · -- without a stash the command fails, and with it the verification
    refine wp_loadCopy (fun _ => wp_loadStash_unharmed hu₁ ?_ ?_) (fun _ _ _ => trivial)
    · intro b ok v' hu'
      cases ok with
      | true => exact hu'.buffer b
      | false => exact fun _ _ => trivial
    · exact fun _ _ _ _ _ _ _ _ _ _ => trivial

theorem wp_runTransfer_unharmed (t : Transfer) :
    wlp (runTransfer cfg t) (fun _ _ => Unharmed cfg d) h v d' := by
  have hload : wlp (loadTransfer cfg t) (fun _ _ => Unharmed cfg d) h v d' := by
    refine wp_bind (wp_silent (closed_readBlocksOrFail looks _ _) ?_ (fun _ _ _ => trivial))
    intro b v' hp
    exact wp_ite (fun _ => wp_pure (hu.popped hp))
      (fun _ => wp_loadSource_unharmed hw (hu.popped hp) t)
  have hrelease : ∀ {h' : List Event} {v' : Params} {d'' : Disk}, Unharmed cfg d v' d'' →
      wlp (releaseFreestash cfg) (fun _ _ => Unharmed cfg d) h' v' d'' :=
    fun hu' => wp_bind (wp_get (wp_ite (fun _ => wp_pure hu')
      (fun hne => absurd hu'.freestash hne)))
  refine wp_bind (wp_mono hload ?_ (fun _ _ _ _ _ => trivial))
  intro loaded h₁ v₁ d₁ hu₁
  cases loaded with
  | already => exact wp_bind (wp_pure (hrelease hu₁))
  | ready n =>
    refine wp_bind (wp_bind (wp_get ?_))
    rw [hw]
    exact wp_pure (hrelease hu₁)

theorem wp_stash_unharmed {rest : List Text}
    (hplain : ∀ id more, rest = id :: more → cfg.entryOf id = id) :
    wlp (performCommandStash cfg rest) (fun _ _ => Unharmed cfg d) h v d' := by
  unfold performCommandStash
  split
  · rename_i id range more
    have hrest : ∀ {h' : List Event} {v' : Params} {d'' : Disk} (loaded : List Block × Bool),
        Unharmed cfg d v' d'' → wlp (setBuffer loaded.1 >>= fun _ =>
            if loaded.2 then pure ()
            else parseRange cfg range >>= fun src => stashBlocks cfg id src loaded.1)
          (fun _ _ => Unharmed cfg d) h' v' d'' := by
      intro h' v' d'' loaded hu'
      refine wp_bind (wp_modify (wp_ite (fun _ => wp_pure (hu'.buffer _)) (fun _ => ?_)))
      refine wp_bind (wp_parseRange (fun src _ => ?_) (fun _ => trivial))
      refine wp_bind (wp_silent (closed_readBlocksOrFail looks _ _) ?_ (fun _ _ _ => trivial))
      intro b v₁ hp
      have hu₁ : Unharmed cfg d v₁ d'' := (hu'.buffer _).popped hp
      refine wp_bind (wp_modify (wp_bind (wp_modify (wp_ite (fun _ => ?_) (fun _ => ?_)))))
      · exact wp_pure ((hu₁.buffer b).stashMap _)
      · rw [hw]
        exact wp_pure ((hu₁.buffer b).stashMap _)
    refine wp_bind (wp_get (wp_bind (wp_loadStash_unharmed hu ?_ ?_)))
    · exact fun b ok v' hu' => hrest (b, ok) hu'
    · exact fun _ _ _ b h' v' d'' hu' => hrest (b, false) (hu' (hplain id _ rfl))
  · exact wp_fail trivial

theorem wp_free_unharmed (rest : List Text) :
    wlp (performCommandFree cfg rest) (fun _ _ => Unharmed cfg d) h v d' := by
  unfold performCommandFree
  split
  · refine wp_ite (fun hc => ?_) (fun _ => wp_pure (hu.stashMap _))
    -- the directory is not one that the verification made
    have hno : (v.createdstash || cfg.canwrite) = true := hc
    rw [hu.createdstash, hw] at hno
    cases hno
  · exact wp_fail trivial

theorem wp_performCommand_unharmed {line : Text}
    (hplain : ∀ name id rest, line.splitOn ' ' = name :: id :: rest →
      commandName name = some .stash → cfg.entryOf id = id) :
    wlp (performCommand cfg line) (fun _ _ => Unharmed cfg d) h v d' := by
  have hskip : ∀ m : Blk Unit,
      wlp (if cfg.canwrite then m else pure ()) (fun _ _ => Unharmed cfg d) h v d' := by
    intro m
    rw [hw]
    exact wp_pure hu
  refine performCommand_rule (P := fun m => wlp m _ h v d') (fun _ => wp_fail trivial)
    (fun t _ => wp_runTransfer_unharmed hw hu t) ?_ (wp_free_unharmed hw hu)
    (fun _ => ⟨hskip _, hskip _, hskip _⟩)
  intro name rest hline hname
  refine wp_stash_unharmed hw hu ?_
  rintro id more rfl
  exact hplain name id more hline hname

end Commands

theorem wp_performCommands_unharmed (hw : cfg.canwrite = false) :
    ∀ {lines : List Text}, PlainIds cfg lines → ∀ {h : List Event} {v : Params} {d' : Disk},
      Unharmed cfg d v d' → wlp (performCommands cfg lines) (fun _ _ => Unharmed cfg d) h v d'
  | [], _, _, _, _, hu => wp_pure hu
  | line :: lines, hplain, _, _, _, hu => by
    have hlines : PlainIds cfg lines := (List.forall_mem_cons.mp hplain).2
    refine wp_ite (fun _ => wp_performCommands_unharmed hw hlines hu) (fun _ => ?_)
    refine wp_bind (wp_mono (wp_performCommand_unharmed hw hu (hplain line List.mem_cons_self)) ?_
      (fun _ _ _ _ _ => trivial))
    intro _ h₁ v₁ d₁ hu₁
    unfold syncDevice
    rw [hw]
    exact wp_bind (wp_pure (wp_performCommands_unharmed hw hlines hu₁))

/-! ## The whole verification -/

/-- `CreateStash` on a directory that is there removes files that are not complete. -/
theorem wp_createStash_unharmed (hdir : d.stashDir = true) {maxblocks : Nat}
    (hu : Unharmed cfg d v d) :
    wlp (createStash cfg maxblocks)
      (fun made _ v' d' => Unharmed cfg d { v' with createdstash := made } d') h v d := by
  refine wp_bind (wp_disk ?_)
  rw [hdir]
  have hdelete : Does (fun e => ∃ name, ¬ Complete name ∧ e = Event.unlink name .partialFile) Popped
      (deleteAll .partialFile
        ((cfg.readdir d.stash).filter (fun name => partialSuffix.isSuffixOf name))) := by
    refine closed_deleteAll closed_popped (fun name hmem => does_emit Popped.refl ⟨name, ?_, rfl⟩)
    unfold Complete
    rw [(List.mem_filter.mp hmem).2]
    simp
  refine wp_bind (wp_does hdelete (fun _ _ _ => trivial) ?_ (fun _ _ _ _ _ _ => trivial))
  intro _ h₁ v₁ d₁ hx hp
  have hkept : ∀ name, Complete name → d₁.stash name = d.stash name := by
    refine Lib.Extends.rel (R := fun d d' : Disk => ∀ name, Complete name → d'.stash name =
      d.stash name)
      (fun _ _ _ => rfl) (fun h₁ h₂ name hn => (h₂ name hn).trans (h₁ name hn)) ?_ hx
    rintro e d' ⟨file, hfile, rfl⟩ name hname
    refine Function.update_of_ne ?_ _ _
    rintro rfl
    exact hfile hname
  refine wp_bind (wp_disk (wp_bind (wp_require (fun _ => wp_pure ?_) (fun _ => trivial))))
  have hu₁ := hu.popped hp
  exact ⟨hu₁.freestash, rfl, hu₁.isunresumable, fun name hname _ => hkept name hname⟩

theorem wp_finish_unharmed (hw : cfg.canwrite = false) (hu : Unharmed cfg d v d') :
    wlp (finish cfg true) (fun _ _ => Unharmed cfg d) h v d' := by
  have hrest : ∀ {h' : List Event} {v' : Params}, Unharmed cfg d v' d' →
      wlp (dropStash cfg true) (fun _ _ => Unharmed cfg d) h' v' d' := by
    intro h' v' hu'
    refine wp_bind (wp_get ?_)
    rw [hu'.isunresumable, hu'.createdstash, hw]
    exact wp_pure hu'
  refine wp_bind (wp_sys ?_)
  intro ok v₁ hp _
  have hu₁ := hu.popped hp
  refine wp_ite (fun _ => wp_bind (wp_emit trivial ?_)) (fun _ => hrest hu₁)
  exact hrest hu₁

theorem wp_runList_unharmed (hw : cfg.canwrite = false) (hdir : d.stashDir = true) {maxblocks : Nat}
    {lines : List Text} (hplain : PlainIds cfg lines) (hu : Unharmed cfg d v d) :
    wlp (runList cfg maxblocks lines) (fun r _ v' d' => r = true → Unharmed cfg d v' d') h v d := by
  refine wp_bind (wp_attempt (wp_mono (wp_createStash_unharmed hdir hu) ?_ ?_))
  · intro made h₁ v₁ d₁ hu₁
    refine wp_bind (wp_modify (wp_bind (wp_attempt
      (wp_mono (wp_performCommands_unharmed hw hplain hu₁) ?_ ?_))))
    · intro _ h₂ v₂ d₂ hu₂
      rw [hw]
      exact wp_mono (wp_finish_unharmed hw hu₂) (fun _ _ _ _ hu' _ => hu') (fun _ _ _ _ h => h)
    · -- a failed verification does not return `t`
      intro e h₂ v₂ d₂ _
      cases e with
      | error =>
        refine wp_mono (wp_finish_value false) ?_ (fun _ _ _ _ h => h)
        exact fun r _ _ _ hr hret => absurd (hr.symm.trans hret) (by simp)
      | check | memory => exact wp_fail trivial
  · intro e h₁ v₁ d₁ _
    cases e with
    | error => exact wp_pure (by simp)
    | check | memory => exact wp_fail trivial

theorem respects_device (hw : cfg.canwrite = false) (device : Nat → Block) :
    Respects cfg (fun _ d => d.device = device) where
  writes hw' := absurd (hw.symm.trans hw') (by simp)
  clears e _ d he hd := by
    refine (device_act ?_ d).trans hd
    cases e with
    | fsync | unlink | mkdir | rmdir => rfl
    | write | writeBlock | discard | stashWrite | stashRename => exact he.elim
  creates hw' := absurd (hw.symm.trans hw') (by simp)

end Unharmed

/--
**A verification does no harm.** Whatever the transfer list, the disk, the calls that fail
and what earlier calls left in the `stash_map`: the device is the same wherever the
verification is stopped. And if it returns `t`, and its `stash` commands name files, then
the files with the right contents are still there, in a directory that was there before.
-/
theorem verify_harmless {cfg : Config} (hw : cfg.canwrite = false) (list : Text)
    (stashMap : Text → Option RangeSet) (newData : List Bytes) (faults : List Bool) (d : Disk) :
    (∀ k, (stoppedAt (performBlockImageUpdate cfg list)
      (.entering stashMap newData faults) d k).device = d.device) ∧
    ((performBlockImageUpdate cfg list (.entering stashMap newData faults) d).val = .ok true →
      d.stashDir = true →
      (∀ maxblocks lines, parseList cfg list = some (maxblocks, lines) → PlainIds cfg lines) →
      ∀ name blocks, Complete name → d.stash name = some (.whole blocks) → cfg.sha1 blocks = name →
        (finished (performBlockImageUpdate cfg list) (.entering stashMap newData faults)
          d).stash name
          = some (.whole blocks)) := by
  constructor
  · intro k
    have hstable := stable_update (respects_device hw d.device) list []
      (.entering stashMap newData faults) d rfl
    exact hstable.1.take k rfl
  · intro hval hdir hplain name blocks hname hfile hsha
    cases hlist : parseList cfg list with
    | none =>
      obtain ⟨b, hb⟩ := performBlockImageUpdate_none hlist
      rw [hb]
      exact hfile
    | some ml =>
      obtain ⟨maxblocks, lines⟩ := ml
      rw [performBlockImageUpdate_some hlist] at hval ⊢
      have hu : Unharmed cfg d (.entering stashMap newData faults) d :=
        ⟨rfl, rfl, rfl, fun _ _ _ => rfl⟩
      have hend := wp_ok (wp_runList_unharmed hw hdir (hplain maxblocks lines hlist) hu (h := []))
        hval rfl
      exact (hend.kept name hname ⟨blocks, hfile, hsha⟩).trans hfile

namespace Sample

/-- Blocks 0 and 1 are in the stash. -/
def stashed : Disk :=
  { disk with stash := Function.update disk.stash front (some (.whole frontData)) }

theorem stashed_front : stashed.stash front = some (.whole frontData) := by
  show Function.update disk.stash front (some (.whole frontData)) front = _
  exact Function.update_self ..

/-- `stash ./hbab 2,0,2`. -/
def stashDotFront : Text := "stash ./hbab 2,0,2".toList

def verifyConfig : Config := { config with canwrite := false }

theorem slide_plain : PlainIds verifyConfig [stashFront, slide, freeFront] := by
  intro line hline name id rest hsplit hname
  rcases List.mem_cons.mp hline with rfl | hline
  · obtain ⟨_, hrest⟩ := List.cons.inj hsplit
    rw [← (List.cons.inj hrest).1]
    rfl
  -- the other two lines are no `stash` commands
  have hother : ∀ l ∈ [slide, freeFront], (l.splitOn ' ').head?.bind commandName ≠ some .stash := by
    decide +kernel
  refine absurd ?_ (hother line hline)
  rw [hsplit]
  exact hname

end Sample

open Sample

theorem slide_harmless : (performBlockImageUpdate verifyConfig slideList
      (.entering (fun _ => none) [] [])
      stashed).val = .ok true ∧
    (finished (performBlockImageUpdate verifyConfig slideList)
      (.entering (fun _ => none) [] [])
      stashed).stash front = some (.whole frontData) := by
  have hval : (performBlockImageUpdate verifyConfig slideList (.entering (fun _ => none) [] [])
      stashed).val = .ok true := by decide +kernel
  have hlist : parseList verifyConfig slideList
      = some (2, [stashFront, slide, freeFront]) := by decide +kernel
  have hname : Complete front := by
    unfold Complete
    decide
  have hplain : ∀ maxblocks lines, parseList verifyConfig slideList
      = some (maxblocks, lines) → PlainIds verifyConfig lines := by
    intro maxblocks lines hlines
    rw [hlist] at hlines
    obtain ⟨_, rfl⟩ := Prod.mk.inj (Option.some.inj hlines)
    exact slide_plain
  have hall := @verify_harmless verifyConfig rfl slideList (fun _ => none) [] []
    stashed
  have hkept := hall.2 hval rfl hplain front frontData hname stashed_front
    (by decide +kernel)
  exact ⟨hval, hkept⟩

/-- **A file with the right contents is lost.** The verification of a list with the one command
`stash ./hbab 2,0,2` returns `t`, and the stash file `hbab` is gone. -/
theorem dot_path_harmful :
    Complete front ∧ stashed.stashDir = true ∧
    stashed.stash front = some (.whole frontData) ∧
    verifyConfig.sha1 frontData = front ∧
    (performBlockImageUpdate verifyConfig (listOf [stashDotFront]) (.start [] [])
      stashed).val = .ok true ∧
    (finished (performBlockImageUpdate verifyConfig (listOf [stashDotFront]))
      (.start [] []) stashed).stash front = none := by
  refine ⟨?_, rfl, stashed_front, by decide +kernel, by decide +kernel, by decide +kernel⟩
  unfold Complete
  decide

end Pterodon.Updater
