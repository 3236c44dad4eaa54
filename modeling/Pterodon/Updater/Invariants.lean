import Pterodon.Updater.Loading
import Pterodon.Updater.PatchSink

/-!
# What every run keeps

The effects that an update can have, whatever the transfer list says, whatever is on the
disk and whichever calls fail. There are three kinds of them. Blocks of the device are
written in a run that writes, and in no other. Files are unlinked, and the directory is made
or removed, in any run. And a file of the stash is created in a run that writes, always from
blocks whose hash was compared with its name.

An assertion that survives the three is one that the update `Respects`, and `stable_update`
says that it holds throughout. So an invariant of all runs needs no look at the commands.
-/

namespace Pterodon.Updater

open Lib ApplyPatch

def SameFreestash (v v' : Params) : Prop := v'.freestash = v.freestash

theorem SameFreestash.refl (v : Params) : SameFreestash v v := rfl

theorem SameFreestash.trans {u v w : Params} (h : SameFreestash u v) (h' : SameFreestash v w) :
    SameFreestash u w := Eq.trans h' h

/-! ## Functions that write to the device -/

/-- All that is done is done to blocks of the device. -/
abbrev Writes {α : Type} (m : Blk α) : Prop := Does (fun e : Event => e.block? ≠ none)
    SameFreestash m

section Writes

variable {α : Type} {cfg : Config}

theorem writes : Closed (fun m => Writes m) :=
  closed_does SameFreestash.refl SameFreestash.trans (fun _ => rfl)

theorem writes_emit {e : Event} {b : Nat} (he : e.block? = some b) : Writes (Prog.emit e) :=
  does_emit SameFreestash.refl (by rw [he]; simp)

theorem writes_discardAll : ∀ bs : List Nat, Writes (discardAll cfg bs)
  | [] => writes.pure ()
  | _ :: bs => writes.bind (writes_emit rfl) (fun _ => writes_discardAll bs)

theorem writes_discardBlocks (p : Nat × Nat) : Writes (discardBlocks cfg p) :=
  does_ite (writes.pure ()) (writes.bind (closed_call writes) (fun _ => writes_discardAll _))

theorem writes_writeRun : ∀ (xs : List Block) (b : Nat), Writes (writeRun cfg b xs)
  | [], _ => writes.pure ()
  | _ :: xs, b => by
    refine writes.bind (closed_call writes) (fun _ => writes.bind (closed_require writes _)
      (fun _ => ?_))
    exact writes.bind (writes_emit rfl) (fun _ => writes_writeRun xs (b + 1))

theorem writes_writeRanges : ∀ (ps : Pairs) (buffer : List Block),
    Writes (writeRanges cfg ps buffer)
  | [], _ => writes.pure ()
  | p :: ps, _ => by
    refine does_ite (writes.fail _) (writes.bind (writes_discardBlocks p) (fun _ => ?_))
    exact writes.bind (writes_writeRun _ _) (fun _ => writes_writeRanges ps _)

theorem writes_zeroRanges : ∀ ps : Pairs, Writes (zeroRanges cfg ps)
  | [] => writes.pure ()
  | p :: ps => by
    refine writes.bind (writes_discardBlocks p) (fun _ => ?_)
    exact writes.bind (writes_writeRun _ _) (fun _ => writes_zeroRanges ps)

theorem writes_eraseRanges : ∀ ps : Pairs, Writes (eraseRanges cfg ps)
  | [] => writes.pure ()
  | _ :: ps => by
    refine writes.bind (closed_call writes) (fun _ => ?_)
    exact writes.bind (writes_discardAll _) (fun _ => writes_eraseRanges ps)

theorem writes_withSink {tgt : RangeSet} {f : SinkState → SinkState × α}
    (hf : Keeps (fun s => Touches (fun _ => True) s.trace) f) : Writes (withSink tgt f) := by
  intro v d
  refine ⟨?_, rfl⟩
  intro e he
  have hnew : Touches (fun _ => True) (SinkState.mk (.new tgt) [] v.faults).trace :=
    fun _ h => absurd h List.not_mem_nil
  obtain ⟨b, hb, _⟩ := hf _ hnew e he
  rw [hb]
  simp

theorem keeps_rangeSink (x : Bytes) :
    Keeps (fun s => Touches (fun _ => True) s.trace) (fun s => rangeSink cfg s x) :=
  fun _ hs => rangeSink_touches (fun _ _ => trivial) hs

theorem keeps_receiveNewData : ∀ newData : List Bytes,
    Keeps (fun s => Touches (fun _ => True) s.trace) (receiveNewData cfg newData)
  | [] => keeps_here none
  | data :: pieces => by
    intro s hs
    have hr := @keeps_rangeSink cfg (data.take (min data.length s.writer.availableSpace)) s hs
    unfold receiveNewData
    dsimp only at hr ⊢
    split
    · exact hr
    split
    · exact hr
    · exact keeps_receiveNewData pieces _ hr

theorem keeps_applyPatch (imgdiff : Bool) (data : List Block) (offset len : Nat) :
    Keeps (fun s => Touches (fun _ => True) s.trace)
      (applyPatch cfg imgdiff (rangeSink cfg) data offset len) := by
  unfold applyPatch
  split
  · exact keeps_image keeps_rangeSink none
  · exact keeps_bsdiff keeps_rangeSink 0

theorem writes_writeTarget (t : Transfer) (n : Nat) (buffer : List Block) :
    Writes (writeTarget cfg t n buffer) := by
  unfold writeTarget
  split
  · exact writes_writeRanges _ _
  · refine writes.bind (writes_withSink (keeps_applyPatch _ _ _ _)) (fun status => ?_)
    cases status with
    | success => exact writes.pure ()
    | failure | abort => exact writes.fail _

theorem writes_setBuffer (buffer : List Block) : Writes (setBuffer buffer) :=
  does_modify (fun _ => rfl)

theorem writes_zero (rest : List Text) : Writes (performCommandZero cfg rest) := by
  unfold performCommandZero
  split
  · refine writes.bind (closed_parseRange writes _) (fun tgt => ?_)
    refine writes.bind (does_get SameFreestash.refl) (fun v => ?_)
    exact writes.bind (writes_setBuffer _) (fun _ => does_ite (writes_zeroRanges _)
      (writes.pure ()))
  · exact writes.fail _

theorem writes_new (rest : List Text) : Writes (performCommandNew cfg rest) := by
  unfold performCommandNew
  split
  · refine writes.bind (closed_parseRange writes _) (fun tgt => does_ite (writes.pure ()) ?_)
    refine writes.bind (does_get SameFreestash.refl) (fun v => ?_)
    refine writes.bind (writes_withSink (keeps_receiveNewData _)) (fun rest => ?_)
    cases rest with
    | none => exact writes.fail _
    | some rest => exact does_modify (fun _ => rfl)
  · exact writes.fail _

theorem writes_erase (rest : List Text) : Writes (performCommandErase cfg rest) := by
  refine writes.bind (closed_call writes) (fun _ => writes.bind (closed_require writes _)
    (fun _ => ?_))
  split
  · refine writes.bind (closed_parseRange writes _) (fun tgt => ?_)
    exact does_ite (writes_eraseRanges _) (writes.pure ())
  · exact writes.fail _

end Writes

/-! ## All that an update does -/

/-- Nothing is written and no file created. -/
def Event.Clears : Event → Prop
  | .fsync => True
  | .unlink .. => True
  | .mkdir => True
  | .rmdir => True
  | _ => False

/-- A class that has all that an update with `cfg` can do, with a list that names `ids`. -/
structure Updates (cfg : Config) (ids : List Text) (C : ∀ {α : Type}, Blk α → Prop) : Prop
    extends Closed @C where
  /-- A change of the state that has nothing to do with the map. -/
  set : ∀ {g : Params → Params},
    (∀ v map, g { v with stashMap := map } = { g v with stashMap := map }) →
    (∀ v, v.faults = [] → (g v).faults = []) → C (Prog.modify g)
  record : ∀ id entry, C (recordStash id entry)
  load : ∀ id ∈ ids, ∀ verify buffer, C (loadStash cfg id verify buffer)
  attempt : ∀ {α : Type} {m : Blk α}, C m → C (Prog.attempt m)
  clears : ∀ {e : Event}, e.Clears → C (Prog.emit e)
  writes : cfg.canwrite = true → ∀ {m : Blk Unit}, Writes m → C m
  /-- A file is created under the hash of its contents. -/
  creates : cfg.canwrite = true → ∀ blocks, C (createStashFile (cfg.sha1 blocks) blocks)

section Updates

variable {cfg : Config} {ids : List Text} {C : ∀ {α : Type}, Blk α → Prop}
  (hU : Updates cfg ids @C)

include hU

theorem updates_setBuffer (buffer : List Block) : C (setBuffer buffer) :=
  hU.set (fun _ _ => rfl) (fun _ => id)

theorem updates_writeStash (hw : cfg.canwrite = true) {id : Text} {blocks : List Block}
    (hid : cfg.sha1 blocks = id) : C (writeStash cfg id blocks) := by
  subst hid
  refine hU.bind (closed_require hU.toClosed _) (fun _ => hU.bind hU.disk (fun d => ?_))
  refine ite_of (fun _ => hU.pure _) (fun _ => ?_)
  exact hU.bind (hU.creates hw blocks) (fun _ => hU.pure _)

theorem updates_loadSource {t : Transfer} (hids : t.srchash :: refIds t.source ⊆ ids) :
    C (loadSource cfg t.srchash t.tgt (t.count :: t.source)) := by
  obtain ⟨hsrc, hrefs⟩ := List.cons_subset.mp hids
  refine hU.bind (closed_loadSourceBlocks hU.toClosed (fun id hid => hU.load id hid false)
    (updates_setBuffer hU) _ _ hrefs) (fun r => ?_)
  refine hU.get (fun _ => rfl) (fun v => ?_)
  refine ite_of (fun hsha => ite_of (fun hover => ?_) (fun _ => hU.pure _)) (fun _ => ?_)
  · -- the hash of the source was compared with its name just now
    have hw : cfg.canwrite = true := (Bool.and_eq_true_iff.mp hover).2
    refine hU.bind (updates_writeStash hU hw hsha) (fun _ => ite_of (fun _ => hU.pure _)
      (fun _ => ?_))
    exact hU.bind (hU.set (fun _ _ => rfl) fun _ => id) (fun _ => hU.pure _)
  · have hrest : ∀ loaded : List Block × Bool, C (setBuffer loaded.1 >>= fun _ =>
        if loaded.2 then (pure (.ready r.1) : Blk Loaded) else do
          checkSourceBlocks cfg (t.count :: t.source).tail loaded.1
          Prog.modify (fun v => { v with isunresumable := true })
          Prog.fail .error) := by
      intro loaded
      refine hU.bind (updates_setBuffer hU _) (fun _ => ite_of (fun _ => hU.pure _) (fun _ => ?_))
      refine hU.bind (closed_checkSourceBlocks hU.toClosed _ _) (fun _ => ?_)
      exact hU.bind (hU.set (fun _ _ => rfl) fun _ => id) (fun _ => hU.fail _)
    exact ite_of (fun _ => hU.bind (hU.load _ hsrc _ _) hrest) (fun _ => hU.bind (hU.pure _) hrest)

theorem updates_freeStash (id : Text) (cause : Cause) : C (freeStash cfg id cause) :=
  ite_of (fun _ => hU.fail _) (fun _ => closed_deleteFile hU.toClosed (hU.clears trivial))

theorem updates_runTransfer {t : Transfer} (hids : t.srchash :: refIds t.source ⊆ ids) :
    C (runTransfer cfg t) := by
  refine hU.bind ?_ (fun loaded => hU.bind ?_ (fun _ => ?_))
  · refine hU.bind (closed_readBlocksOrFail hU.toClosed _ _) (fun _ => ?_)
    exact ite_of (fun _ => hU.pure _) (fun _ => updates_loadSource hU hids)
  · cases loaded with
    | already => exact hU.pure ()
    | ready n =>
      refine hU.get (fun _ => rfl) (fun v => ?_)
      exact ite_of (fun hw => hU.writes hw (writes_writeTarget _ _ _)) (fun _ => hU.pure ())
  · refine hU.get (fun _ => rfl) (fun v => ite_of (fun _ => hU.pure ()) (fun _ => ?_))
    exact hU.bind (updates_freeStash hU _ _) (fun _ => hU.set (fun _ _ => rfl) fun _ => id)

theorem updates_free (rest : List Text) : C (performCommandFree cfg rest) := by
  unfold performCommandFree
  split
  · refine hU.bind (hU.record _ _) (fun _ => hU.get (fun _ => rfl) (fun v => ?_))
    exact ite_of (fun _ => updates_freeStash hU _ _) (fun _ => hU.pure ())
  · exact hU.fail _

theorem updates_performCommand {line : Text} (hids : lineIds line ⊆ ids) :
    C (performCommand cfg line) := by
  have hwriting : ∀ {m : Blk Unit}, Writes m → C (if cfg.canwrite then m else pure ()) :=
    fun hm => ite_of (fun hw => hU.writes hw hm) (fun _ => hU.pure ())
  refine performCommand_rule hU.fail
    (fun t ht => updates_runTransfer hU fun _ hid => hids (transfer_ids ht hid)) ?_
    (updates_free hU) (fun rest => ⟨hwriting (writes_erase rest), hwriting (writes_new rest),
      hwriting (writes_zero rest)⟩)
  intro name rest hline hname
  unfold lineIds at hids
  rw [hline] at hids
  dsimp only at hids
  rw [hname] at hids
  exact closed_stash hU.toClosed (updates_setBuffer hU) hU.record
    (fun id hid => hU.load id (hids hid) true) hU.creates

theorem updates_performCommands {lines : List Text} (hids : ∀ line ∈ lines, lineIds line ⊆ ids) :
    C (performCommands cfg lines) := by
  induction lines with
  | nil => exact hU.pure ()
  | cons line lines ih =>
    obtain ⟨hline, hlines⟩ := List.forall_mem_cons.mp hids
    refine ite_of (fun _ => ih hlines) (fun _ => hU.bind (updates_performCommand hU hline) ?_)
    refine fun _ => hU.bind (ite_of (fun _ => hU.pure ()) (fun _ => ?_)) (fun _ => ih hlines)
    exact hU.bind (closed_call hU.toClosed) (fun _ => hU.clears trivial)

theorem updates_performTransfers {lines : List Text} (hids : ∀ line ∈ lines, lineIds line ⊆ ids) :
    C (performTransfers cfg lines) := by
  have hdelete : C (deleteStash cfg) :=
    closed_deleteStash hU.toClosed (fun _ => hU.clears trivial) (hU.clears trivial)
  have hfinish := closed_finish hU.toClosed (hU.clears trivial) hdelete
  refine hU.bind (hU.attempt (updates_performCommands hU hids)) (fun result => ?_)
  cases result with
  | ok _ =>
    exact ite_of (fun _ => hU.bind hdelete (fun _ => hfinish true)) (fun _ => hfinish true)
  | error e =>
    cases e with
    | error => exact hfinish false
    | check | memory => exact hU.fail _

theorem updates_update {list : Text} (hids : listIds list ⊆ ids) :
    C (performBlockImageUpdate cfg list) := by
  cases hlist : parseList cfg list with
  | none =>
    obtain ⟨b, hb⟩ := performBlockImageUpdate_none hlist
    rw [hb]
    exact hU.pure b
  | some ml =>
    obtain ⟨maxblocks, lines⟩ := ml
    have hlines : ∀ line ∈ lines, lineIds line ⊆ ids := fun line hline id hid =>
      hids (List.mem_flatMap.mpr ⟨line, parseList_lines hlist hline, hid⟩)
    have hcreate : C (createStash cfg maxblocks) :=
      closed_createStash hU.toClosed (hU.clears trivial) (fun _ => hU.clears trivial) maxblocks
    rw [performBlockImageUpdate_some hlist]
    refine hU.bind (hU.attempt hcreate) (fun created => ?_)
    cases created with
    | ok created =>
      exact hU.bind (hU.set (fun _ _ => rfl) fun _ => id)
        (fun _ => updates_performTransfers hU hlines)
    | error e =>
      cases e with
      | error => exact hU.pure false
      | check | memory => exact hU.fail _

end Updates

/-! ## Assertions that all effects keep -/

/-- `I` survives all that an update with `cfg` can do. -/
structure Respects (cfg : Config) (I : List Event → Disk → Prop) : Prop where
  writes : cfg.canwrite = true → ∀ e h d, e.block? ≠ none → I h d → I (h ++ [e]) (Effect.act e d)
  clears : ∀ e h d, e.Clears → I h d → I (h ++ [e]) (Effect.act e d)
  /-- A file is created under the hash of its contents. -/
  creates : cfg.canwrite = true → ∀ blocks, Stable I (createStashFile (cfg.sha1 blocks) blocks)

/-- An assertion that all effects of an update keep is kept by the update. -/
theorem stable_update {cfg : Config} {I : List Event → Disk → Prop} (hI : Respects cfg I)
    (list : Text) : Stable I (performBlockImageUpdate cfg list) := by
  have hU : Updates cfg (listIds list) (fun m => Stable I m) :=
    { closed_stable with
      set := fun _ _ => stable_modify _
      record := fun _ _ => stable_modify _
      load := fun _ _ _ => closed_loadStash closed_stable (stable_bind stable_get)
        (fun _ => stable_emit (fun h d => hI.clears _ h d trivial))
      attempt := stable_attempt
      clears := fun he => stable_emit (fun h d => hI.clears _ h d he)
      writes := fun hw _ hm => stable_does hm (hI.writes hw)
      creates := hI.creates }
  exact updates_update hU (fun _ hid => hid)

end Pterodon.Updater
