import Pterodon.Updater.Walk

/-!
# Loading the source of a transfer

What can be said about the functions that load source blocks without any assumption on
the transfer list, the disk or the system calls. They do not touch the device. They may
write a stash file, or unlink one whose contents are wrong. And if they succeed the buffer
holds data with the hash that was asked for.
-/

namespace Pterodon.Updater

open Lib List ApplyPatch Extends Popped

variable {id : Text} {Q : Post (List Block × Bool)} {buffer : List Block} {t : Transfer}

/-! ## Functions that only look -/

/-- No effect, and no change but for the outcomes taken. -/
abbrev Looks {α : Type} (m : Blk α) : Prop := Does (fun _ => False) Popped m

theorem closed_popped {P : Event → Prop} : Closed (fun m => Does P Popped m) :=
  closed_does refl trans popped_pop

theorem looks : Closed (fun m => Looks m) := closed_popped

theorem looks_loadStashes {cfg : Config} (tokens : List Text) (buffer : List Block) :
    Looks (loadStashes cfg tokens buffer) :=
  closed_loadStashes looks (fun _ _ => closed_loadStash looks (does_bind trans (does_get refl))
    (absurd · Bool.false_ne_true)) (fun _ hid => hid) buffer

/-! ## Functions that touch the stash -/

/-- A stash file written, or one with the wrong contents unlinked. -/
def Loading : Event → Prop
  | .stashWrite .. => True
  | .stashRename .. => True
  | .unlink _ .corrupt => True
  | _ => False

theorem device_act {e : Event} (he : e.block? = none) (d : Disk) :
    (Effect.act e d).device = d.device := by
  cases e with
  | write | writeBlock | discard => exact absurd he (by simp [Event.block?])
  | stashWrite | stashRename | unlink | fsync | mkdir | rmdir => rfl

theorem Extends.device {P : Event → Prop} (hP : ∀ e, P e → e.block? = none) {h h' : List Event}
    {d d' : Disk} (hx : Extends P h d h' d') : d'.device = d.device :=
  Lib.Extends.rel (R := fun d d' : Disk => d'.device = d.device) (fun _ => rfl)
    (fun h₁ h₂ => h₂.trans h₁) (fun e d he => device_act (hP e he) d) hx

section Stash

variable {I : List Event → Disk → Prop} {E : Post Halt}
  {h : List Event} {v : Params} {d : Disk} {cfg : Config}

theorem does_createStashFile (id : Text) (blocks : List Block) :
    Does Loading Popped (createStashFile id blocks) := by
  have hC : Closed (fun m => Does Loading Popped m) := closed_popped
  have hcall := closed_call hC
  refine hC.bind hC.disk (fun d => hC.bind (closed_require hC _) (fun _ => hC.bind hcall ?_))
  refine fun _ => hC.bind (does_emit refl trivial) (fun _ => hC.bind hcall ?_)
  refine fun _ => hC.bind (does_emit refl trivial) (fun _ => hC.bind hcall ?_)
  exact fun _ => hC.bind (does_emit refl trivial) (fun _ => hcall)

theorem wp_writeStash {blocks : List Block} {Q : Post Bool}
    (hi : ∀ h' d', Extends Loading h d h' d' → I h' d')
    (hq : (d.stash id).isSome = true → Q true h v d)
    (hn : ∀ h' v' d', d.stash id = none → Extends Loading h d h' d' → Popped v v' →
      Q false h' v' d')
    (he : ∀ e h' v' d', Extends Loading h d h' d' → Popped v v' → E e h' v' d') :
    wp I (writeStash cfg id blocks) Q E h v d := by
  refine wp_bind (wp_require ?_ (fun _ => he _ _ _ _ (refl _ _ _) (refl v)))
  intro _
  refine wp_bind (wp_disk (wp_ite (fun hs => wp_pure (hq hs)) (fun hs => wp_bind ?_)))
  refine wp_does (does_createStashFile id blocks) hi ?_ he
  intro _ h' v' d' hx hp
  exact wp_pure (hn h' v' d' (Option.not_isSome_iff_eq_none.mp hs) hx hp)

/-- `LoadStash` from a file: it is loaded, or there is none to be loaded, or it has the wrong
contents and is unlinked. -/
theorem wp_loadStashFile {entry : Option RangeSet} {verify : Bool}
    (hgood : ∀ blocks buffer' v', Popped v v' → d.stash (cfg.entryOf id) = some (.whole blocks) →
      (verify = true → cfg.sha1 blocks = id) → blocks <+: buffer' → Q (buffer', true) h v' d)
    (hnone : ∀ buffer' v', Popped v v' →
      (v.faults = [] → ∀ blocks, d.stash (cfg.entryOf id) ≠ some (.whole blocks)) →
      Q (buffer', false) h v' d)
    (hbad : ∀ blocks, d.stash (cfg.entryOf id) = some (.whole blocks) → cfg.sha1 blocks ≠ id →
      I (h ++ [.unlink (cfg.entryOf id) .corrupt])
        (Effect.act (Event.unlink (cfg.entryOf id) .corrupt) d) ∧
      ∀ buffer' v', Popped v v' → Q (buffer', false) (h ++ [.unlink (cfg.entryOf id) .corrupt]) v'
        (Effect.act (Event.unlink (cfg.entryOf id) .corrupt) d))
    (he : ∀ blocks, d.stash (cfg.entryOf id) = some (.whole blocks) → cfg.sha1 blocks ≠ id →
      entry ≠ none → ∀ e v', Popped v v' → E e h v' d) :
    wp I (loadStashFile cfg id entry verify buffer) Q E h v d := by
  refine wp_bind (wp_sys ?_)
  intro ok v₁ hp₁ hok
  refine wp_bind (wp_disk ?_)
  split
  · rename_i hfile
    exact wp_pure (hnone _ v₁ hp₁ (by rw [hfile]; exact nofun))
  · rename_i hfile
    exact wp_pure (hnone _ v₁ hp₁ (by rw [hfile]; exact nofun))
  · rename_i blocks hfile
    refine wp_ite (fun hno => wp_pure (hnone _ v₁ hp₁ ?_)) (fun _ => ?_)
    · intro hf
      rw [hok hf] at hno
      cases hno
    refine wp_ite (fun hne => ?_) (fun heq => ?_)
    · -- the file has the wrong contents
      have hsha : cfg.sha1 blocks ≠ id := of_decide_eq_true (Bool.and_eq_true_iff.mp hne).2
      obtain ⟨hi, hq⟩ := hbad blocks hfile hsha
      have hdelete : ∀ v₂, Popped v v₂ → wp I (deleteFile (cfg.entryOf id) .corrupt >>= fun _ =>
          pure (blocks ++ (allocate blocks.length buffer).drop blocks.length, false)) Q E h
            v₂ d := by
        intro v₂ hp₂
        refine wp_bind (wp_bind (wp_sys ?_))
        intro ok' v₃ hp₃ hok'
        refine wp_bind (wp_disk (wp_ite (fun _ => ?_) (fun hno => ?_)))
        · exact wp_emit hi (wp_pure (hq _ _ (hp₂.trans hp₃)))
        · refine wp_pure (wp_pure (hnone _ v₃ (hp₂.trans hp₃) (fun hf => ?_)))
          rw [hok' (hp₂.faults hf ▸ hf), hfile] at hno
          exact absurd rfl hno
      cases entry with
      | none => exact hdelete v₁ hp₁
      | some src =>
        have he' := he blocks hfile hsha (Option.some_ne_none src)
        refine wp_bind (wp_silent (closed_check looks _) ?_
          (fun e v₂ hp₂ => he' e v₂ (hp₁.trans hp₂)))
        exact fun _ v₂ hp₂ => hdelete v₂ (hp₁.trans hp₂)
    · refine wp_pure (hgood blocks _ v₁ hp₁ hfile ?_ (prefix_append _ _))
      simpa using heq

/-- `LoadStash` with `verify`, in a run that writes. -/
theorem wp_loadStash_verify (hw : cfg.canwrite = true)
    (hi : ∀ h' d', Extends Loading h d h' d' → I h' d')
    (hq : ∀ blocks buffer' v', Popped v v' → d.stash id = some (.whole blocks) →
      cfg.sha1 blocks = id → blocks <+: buffer' → Q (buffer', true) h v' d)
    (hn : ∀ buffer' h' v' d', Extends Loading h d h' d' → Popped v v' → Q (buffer', false) h' v' d')
    (he : ∀ e h' v' d', Extends Loading h d h' d' → Popped v v' → E e h' v' d') :
    wp I (loadStash cfg id true buffer) Q E h v d := by
  have hx : Extends Loading h d (h ++ [Event.unlink (cfg.entryOf id) .corrupt])
      (Effect.act (Event.unlink (cfg.entryOf id) .corrupt) d) := (refl _ _ _).emit trivial
  refine wp_bind (wp_get ?_)
  rw [hw]
  refine wp_loadStashFile ?_ (fun b v' hp _ => hn b h v' d (refl _ _ _) hp) ?_
    (fun _ _ _ _ e v' hp => he e h v' d (refl _ _ _) hp)
  · intro blocks b v' hp hfile hsha hpre
    rw [cfg.entryOf_hash (hsha rfl)] at hfile
    exact hq blocks b v' hp hfile (hsha rfl) hpre
  · exact fun _ _ _ => ⟨hi _ _ hx, fun b v' hp => hn b _ v' _ hx hp⟩

/-! ## Tidying up the stash directory -/

/-- The directory made or removed, or a file unlinked that is not to be used any more. -/
def Tidying : Event → Prop
  | .unlink _ .partialFile => True
  | .unlink _ .stashDir => True
  | .mkdir => True
  | .rmdir => True
  | _ => False

theorem Tidying.block? {e : Event} (he : Tidying e) : e.block? = none := by
  cases e with
  | stashWrite | stashRename | unlink | fsync | mkdir | rmdir => rfl
  | write | writeBlock | discard => exact he.elim

theorem does_deleteStash : Does Tidying Popped (deleteStash cfg) :=
  closed_deleteStash closed_popped (fun _ => does_emit refl trivial)
    (does_emit refl trivial)

theorem does_createStash (maxblocks : Nat) : Does Tidying Popped (createStash cfg maxblocks) :=
  closed_createStash closed_popped (does_emit refl trivial)
    (fun _ => does_emit refl trivial) maxblocks

/-- What is done behind `pbiudone` does not change the result. -/
theorem wp_finish_value (rc : Bool) : wlp (finish cfg rc) (fun r _ _ _ => r = rc) h v d := by
  have hrest : ∀ {h' : List Event} {v' : Params},
      wlp (dropStash cfg rc) (fun r _ _ _ => r = rc) h' v' d := by
    refine wp_bind (wp_get (wp_ite (fun _ => wp_bind ?_) (fun _ => wp_pure rfl)))
    exact wp_does does_deleteStash (fun _ _ _ => trivial) (fun _ _ _ _ _ _ => wp_pure rfl)
      (fun _ _ _ _ _ _ => trivial)
  exact wp_ite (fun _ => wp_bind (wp_emit trivial hrest)) (fun _ => hrest)

/-! ## Loading a source -/

theorem wp_loadSourceRange (hq : ∀ buffer' v', Popped v v' → Q (buffer', t.overlaps cfg) h v' d)
    (he : ∀ e v', Popped v v' → E e h v' d) :
    wp I (loadSourceRange cfg t.tgt t.source buffer) Q E h v d := by
  unfold Transfer.overlaps at hq
  unfold loadSourceRange
  split
  · exact wp_fail (he _ v (refl v))
  rename_i range rest hsource
  rw [hsource] at hq
  dsimp only at hq
  split
  · rename_i hdash
    rw [if_pos hdash] at hq
    refine wp_bind (wp_silent (looks_loadStashes _ _) ?_ he)
    exact fun buffer' v' hp => wp_pure (hq buffer' v' hp)
  rename_i hdash
  rw [if_neg hdash] at hq
  refine wp_bind (wp_parseRange ?_ (fun _ => he _ v (refl v)))
  intro src hsrc
  rw [hsrc] at hq
  refine wp_bind (wp_silent (closed_readBlocksOrFail looks _ _) ?_ he)
  intro buffer₁ v₁ hp₁
  split
  · exact wp_pure (hq buffer₁ v₁ hp₁)
  · have he₁ : ∀ e v', Popped v₁ v' → E e h v' d := fun e v' hp => he e v' (hp₁.trans hp)
    refine wp_bind (wp_parseRange ?_ (fun _ => he _ v₁ hp₁))
    intro locs _
    refine wp_bind (wp_silent (closed_inBounds looks _) ?_ he₁)
    intro buffer₂ v₂ hp₂
    refine wp_bind (wp_silent (looks_loadStashes _ _) ?_ (fun e v' hp => he₁ e v' (hp₂.trans hp)))
    exact fun buffer' v' hp => wp_pure (hq buffer' v' ((hp₁.trans hp₂).trans hp))

theorem wp_loadSourceBlocks {Q : Post (Nat × Bool)}
    (hq : ∀ n buffer' v', parseSize cfg t.count = some n → Popped v v' →
      Q (n, t.overlaps cfg) h { v' with buffer := buffer' } d)
    (he : ∀ e v', Popped v v' → E e h v' d) :
    wp I (loadSourceBlocks cfg t.tgt (t.count :: t.source)) Q E h v d := by
  unfold loadSourceBlocks
  dsimp only
  split
  · exact wp_fail (he _ v (refl v))
  rename_i n hn
  refine wp_ite (fun _ => wp_fail (he _ v (refl v))) (fun _ => wp_bind (wp_get ?_))
  refine wp_bind (wp_loadSourceRange ?_ he)
  intro buffer' v' hp
  exact wp_bind (wp_modify (wp_pure (hq n buffer' v' hn hp)))

/-- The buffer starts with data that has the hash: so many blocks, or the whole of a file. -/
def Holds (cfg : Config) (hash : Text) (n : Nat) (buffer : List Block) : Prop :=
  cfg.sha1 (buffer.take n) = hash ∨ ∃ blocks, cfg.sha1 blocks = hash ∧ blocks <+: buffer

/-- The implicit stash of a transfer was made, or was not. -/
def Freestash (cfg : Config) (t : Transfer) (d : Disk) (old new : Text) : Prop :=
  new = old ∨ (new = t.srchash ∧ t.overlaps cfg = true ∧ d.stash t.srchash = none)

/-- The source blocks do not have the hash: the stash may have a copy. -/
theorem wp_loadCopy {n : Nat} {overlap : Bool} {hash : Text} {tokens : List Text} {Q : Post Loaded}
    (hload : overlap = true → wp I (loadStash cfg hash true buffer) (fun r h' v' d' =>
      if r.2 then Q (.ready n) h' { v' with buffer := r.1 } d' else ∀ e v'', E e h' v'' d') E h v d)
    (hno : overlap = false → ∀ e v', E e h v' d) :
    wp I (do
      let loaded ← if overlap then loadStash cfg hash true buffer else pure (buffer, false)
      setBuffer loaded.1
      if loaded.2 then pure (.ready n)
      else do
        checkSourceBlocks cfg tokens loaded.1
        Prog.modify (fun v => { v with isunresumable := true })
        Prog.fail .error) Q E h v d := by
  have hfail : ∀ {h' : List Event} {v' : Params} {d' : Disk} (b : List Block),
      (∀ e v'', E e h' v'' d') → wp I (checkSourceBlocks cfg tokens b >>= fun _ =>
        Prog.modify (fun v => { v with isunresumable := true }) >>= fun _ =>
        (Prog.fail .error : Blk Loaded)) Q E h' v' d' := by
    intro h' v' d' b he
    refine wp_bind (wp_silent (closed_checkSourceBlocks looks _ _) ?_ (fun e v'' _ => he e v''))
    exact fun _ v'' _ => wp_bind (wp_modify (wp_fail (he _ _)))
  refine wp_ite (fun hover => wp_bind (wp_mono (hload hover) ?_ (fun _ _ _ _ he => he)))
    (fun hover => ?_)
  · rintro ⟨b, ok⟩ h' v' d' hr
    refine wp_bind (wp_modify ?_)
    cases ok with
    | true => exact wp_pure hr
    | false => exact hfail b hr
  · exact wp_bind (wp_pure (wp_bind (wp_modify (hfail _ (hno (Bool.not_eq_true _ ▸ hover))))))

theorem wp_loadSource (hw : cfg.canwrite = true) {Q : Post Loaded}
    (hi : ∀ h' d', Extends Loading h d h' d' → I h' d')
    (hq : ∀ n h' v' d', parseSize cfg t.count = some n → Extends Loading h d h' d' →
      Holds cfg t.srchash n v'.buffer → Freestash cfg t d v.freestash v'.freestash →
      Q (.ready n) h' v' d') (he : ∀ e h' v' d', Extends Loading h d h' d' → E e h' v' d') :
    wp I (loadSource cfg t.srchash t.tgt (t.count :: t.source)) Q E h v d := by
  refine wp_bind (wp_loadSourceBlocks ?_ (fun e v' _ => he e h v' d (refl _ _ _)))
  intro n buffer v₁ hn hp₁
  refine wp_bind (wp_get (wp_ite (fun hhash => ?_) (fun _ => ?_)))
  · -- the source blocks have the hash
    have hfree : v₁.freestash = v.freestash := hp₁.freestash
    refine wp_ite (fun hover => ?_)
      (fun _ => wp_pure (hq n h _ d hn (refl _ _ _) (.inl hhash) (.inl hfree)))
    refine wp_bind (wp_writeStash hi ?_ ?_ (fun e h' v' d' hx _ => he e h' v' d' hx))
    · exact fun _ => wp_pure (hq n h _ d hn (refl _ _ _) (.inl hhash) (.inl hfree))
    · intro h' v' d' hnone hx hp
      refine wp_bind (wp_modify (wp_pure (hq n h' _ d' hn hx (.inl ?_) (.inr ⟨rfl, ?_, hnone⟩))))
      · rw [hp.buffer]
        exact hhash
      · exact (Bool.and_eq_true_iff.mp hover).1
  · -- they do not: the stash may have a copy
    refine wp_loadCopy (fun _ => ?_) (fun _ e v' => he e h v' d (refl _ _ _))
    refine wp_loadStash_verify hw hi ?_ ?_ (fun e h' v' d' hx _ => he e h' v' d' hx)
    · intro blocks buffer' v' hp _ hsha hpre
      refine hq n h _ d hn (refl _ _ _) (.inr ⟨blocks, hsha, hpre⟩) (.inl ?_)
      exact hp.freestash.trans hp₁.freestash
    · exact fun _ h' _ d' hx _ e v'' => he e h' v'' d' hx

/-- Loading a transfer: the target has its contents, or data with the hash of the source was
loaded and the target is as it was. -/
theorem wp_loadTransfer (hw : cfg.canwrite = true) {Q : Post Loaded}
    (hi : ∀ h' d', Extends Loading h d h' d' → I h' d')
    (ha : ∀ v', Popped v v' → cfg.sha1 (t.tgt.contents d.device) = t.tgthash → Q .already h v' d)
    (hq : ∀ n h' v' d', cfg.sha1 (t.tgt.contents d.device) ≠ t.tgthash →
      parseSize cfg t.count = some n → Extends Loading h d h' d' → Holds cfg t.srchash n v'.buffer →
      Freestash cfg t d v.freestash v'.freestash → Q (.ready n) h' v' d')
    (he : ∀ e h' v' d', Extends Loading h d h' d' → E e h' v' d') :
    wp I (loadTransfer cfg t) Q E h v d := by
  refine wp_bind (wp_readBlocksOrFail ?_ (fun v' _ _ => he _ h v' d (refl _ _ _))
    (fun v' _ _ => he _ h v' d (refl _ _ _)))
  intro v₁ hp₁ _ _
  have htake : (t.tgt.contents d.device ++
      (List.replicate t.tgt.blocks Block.zero).drop t.tgt.blocks).take t.tgt.blocks
      = t.tgt.contents d.device := take_left' (contents_length _ _)
  rw [htake]
  refine wp_ite (fun hhash => wp_pure (ha v₁ hp₁ hhash)) (fun hne => ?_)
  refine wp_loadSource hw hi ?_ he
  intro n h' v' d' hn hx hholds hfree
  rw [hp₁.freestash] at hfree
  exact hq n h' v' d' hne hn hx hholds hfree

/-! ## Releasing the implicit stash -/

theorem wp_releaseFreestash {Q : Post Unit}
    (hi : ∀ h' d', Extends (· = Event.unlink (cfg.entryOf v.freestash) .freestash) h d h'
      d' → I h' d')
    (hnone : v.freestash = [] → Q () h v d)
    (hq : ∀ h' v' d', v.freestash ≠ [] →
      Extends (· = Event.unlink (cfg.entryOf v.freestash) .freestash) h d h' d' → Popped v v' →
      (v.faults = [] → d'.stash (cfg.entryOf v.freestash) = none) →
      Q () h' { v' with freestash := [] } d') :
    wp I (releaseFreestash cfg) Q E h v d := by
  refine wp_bind (wp_get (wp_ite (fun hnil => wp_pure (hnone hnil)) (fun hne => wp_bind ?_)))
  unfold freeStash
  rw [if_neg hne]
  refine wp_bind (wp_sys ?_)
  intro ok v₁ hp hok
  refine wp_bind (wp_disk (wp_ite (fun _ => ?_) (fun hno => ?_)))
  · have hx : Extends (· = Event.unlink (cfg.entryOf v.freestash) .freestash) h d
        (h ++ [Event.unlink (cfg.entryOf v.freestash) .freestash])
        (Effect.act (Event.unlink (cfg.entryOf v.freestash) .freestash) d) := (refl _ _ _).emit rfl
    refine wp_emit (hi _ _ hx) (wp_modify (hq _ v₁ _ hne hx hp (fun _ => ?_)))
    exact Function.update_self ..
  · refine wp_pure (wp_modify (hq h v₁ d hne (refl _ _ _) hp (fun hf => ?_)))
    rw [hok hf] at hno
    exact Option.not_isSome_iff_eq_none.mp hno

end Stash

end Pterodon.Updater
