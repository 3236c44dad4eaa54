import Pterodon.Updater.Command
import Pterodon.Updater.Frame

/-!
# Classes of programs

Much of what is said about an update holds because all of its parts have it: they only look, or
they keep an assertion, or they do not see a part of their state. Each of these is a class of
programs that is closed under the constructs of the language, and here the functions of an update
are gone through once for all such classes. What a function does beyond the constructs, such as to
unlink a file, has to be in the class too.

A class may tell apart what a program looks at. The only part of the state for which this matters
is the `stash_map`: the functions look into it under ids that the transfer list names.
-/

namespace Pterodon.Updater

open Lib List

/-! ## The ids that a list names -/

/-- The ids among `<[stash_id:stash_range] ...>`. -/
def refIds (tokens : List Text) : List Text :=
  tokens.filterMap (fun token =>
    match token.splitOn ':' with
    | [id, _] => some id
    | _ => none)

theorem refIds_tail {token : Text} {tokens ids : List Text} (h : refIds (token :: tokens) ⊆ ids) :
    refIds tokens ⊆ ids := by
  intro id hid
  refine h ?_
  unfold refIds at hid ⊢
  rw [filterMap_cons]
  split
  · exact hid
  · exact mem_cons_of_mem _ hid

/-- The ids under which a command looks for a stash or records one. -/
def namedIds (name : CommandName) (rest : List Text) : List Text :=
  match name with
  | .stash => rest.take 1
  | .move => rest.take 1 ++ refIds rest
  | .bsdiff => (rest.drop 2).take 1 ++ refIds rest
  | .imgdiff => (rest.drop 2).take 1 ++ refIds rest
  | _ => []

def lineIds (line : Text) : List Text :=
  match line.splitOn ' ' with
  | [] => []
  | name :: rest =>
    match commandName name with
    | none => []
    | some name => namedIds name rest

def listIds (list : Text) : List Text := (list.splitOn '\n').flatMap lineIds

section Ids

variable {cfg : Config} {ids : List Text} {id line : Text} {t : Transfer}

theorem parseTarget_ids {method : Method} {srchash tgthash : Text} {rest : List Text}
    (h : parseTarget cfg method srchash tgthash rest = some t) :
    t.srchash = srchash ∧ refIds t.source ⊆ refIds rest := by
  unfold parseTarget at h
  split at h
  · obtain ⟨tgt, -, rfl⟩ := Option.map_eq_some_iff.mp h
    exact ⟨rfl, refIds_tail (refIds_tail fun _ hid => hid)⟩
  · cases h

theorem parseDiff_ids {imgdiff : Bool} {rest : List Text}
    (h : parseDiff cfg imgdiff rest = some t) :
    t.srchash :: refIds t.source ⊆ (rest.drop 2).take 1 ++ refIds rest := by
  unfold parseDiff at h
  split at h
  · split at h
    · obtain ⟨hhash, hrefs⟩ := parseTarget_ids h
      refine cons_subset.mpr ⟨by rw [hhash]; exact mem_cons_self, fun id hid => ?_⟩
      refine mem_append_right _ ((?_ : refIds _ ⊆ refIds _) (hrefs hid))
      exact refIds_tail (refIds_tail (refIds_tail (refIds_tail fun _ hid => hid)))
    · cases h
  · cases h

theorem transfer_ids (h : parseCommand cfg line = some (.transfer t)) :
    t.srchash :: refIds t.source ⊆ lineIds line := by
  obtain ⟨name, rest, hline, cn, hname⟩ := parseCommand_some h
  rw [(performCommand_named hline hname).2] at h
  unfold lineIds
  rw [hline]
  dsimp only
  rw [hname]
  cases cn with
  | bsdiff | imgdiff =>
    obtain ⟨t', ht, hcmd⟩ := Option.map_eq_some_iff.mp h
    cases hcmd
    exact parseDiff_ids ht
  | move =>
    obtain ⟨t', ht, hcmd⟩ := Option.map_eq_some_iff.mp h
    cases hcmd
    unfold parseMove at ht
    split at ht
    · obtain ⟨hhash, hrefs⟩ := parseTarget_ids ht
      refine cons_subset.mpr ⟨by rw [hhash]; exact mem_cons_self, fun id hid => ?_⟩
      exact mem_append_right _ (refIds_tail (fun _ hid => hid) (hrefs hid))
    · cases ht
  | stash =>
    unfold parseNamed at h
    dsimp only at h
    split at h
    · obtain ⟨_, -, hcmd⟩ := Option.map_eq_some_iff.mp h
      cases hcmd
    · cases h
  | free =>
    obtain ⟨_, -, hcmd⟩ := Option.map_eq_some_iff.mp h
    cases hcmd
  | zero | new | erase =>
    obtain ⟨_, _, _, _, _, hcmd⟩ := parseRanged_some h
    cases hcmd

theorem parseList_lines {list : Text} {maxblocks : Nat} {lines : List Text}
    (h : parseList cfg list = some (maxblocks, lines)) : lines ⊆ list.splitOn '\n' := by
  unfold parseList at h
  split at h
  · rename_i hsplit
    split at h
    · split at h
      · cases h
      · obtain ⟨_, rfl⟩ := Prod.mk.inj (Option.some.inj h)
        rw [hsplit]
        intro line hline
        simp only [mem_cons, hline, or_true]
    · cases h
  · cases h

end Ids

/-! ## Classes -/

/-- The state without the `stash_map`. -/
def noMap (v : Params) : Params := { v with stashMap := fun _ => none }

/-- A class of programs that is closed under the constructs of the language. A program that looks at
its state must not depend on the `stash_map`. -/
structure Closed (C : ∀ {α : Type}, Blk α → Prop) : Prop where
  pure : ∀ {α : Type} (a : α), C (pure a)
  fail : ∀ {α : Type} (e : Halt), C (Prog.fail e : Blk α)
  disk : C (Prog.disk : Blk Disk)
  sys : C sys
  get : ∀ {α : Type} {f : Params → Blk α}, (∀ v, f (noMap v) = f v) → (∀ v, C (f v)) →
    C (Prog.get >>= f)
  bind : ∀ {α β : Type} {m : Blk α} {f : α → Blk β}, C m → (∀ a, C (f a)) → C (m >>= f)

theorem ite_of {α : Type} {P : α → Prop} {c : Prop} [Decidable c] {x y : α} (hx : c → P x)
    (hy : ¬ c → P y) : P (if c then x else y) := by
  split
  · exact hx ‹_›
  · exact hy ‹_›

theorem closed_does {P : Event → Prop} {R : Params → Params → Prop}
    (hrefl : ∀ v, R v v) (htrans : ∀ {u v w}, R u v → R v w → R u w)
    (hsys : ∀ v, R v { v with faults := (pop v.faults).2 }) :
    Closed (fun m => Does P R m) where
  pure := does_pure hrefl
  fail := does_fail hrefl
  disk := does_disk hrefl
  sys v _ := ⟨fun _ he => absurd he not_mem_nil, hsys v⟩
  get _ hf := does_bind htrans (does_get hrefl) hf
  bind := does_bind htrans

theorem closed_stable {I : List Event → Disk → Prop} : Closed (fun m => Stable I m) where
  pure := stable_pure
  fail := stable_fail
  disk := stable_disk
  sys _ _ _ hi := wp_sys (fun _ _ _ _ => hi)
  get _ hf := stable_bind stable_get hf
  bind := stable_bind

section Closed

variable {cfg : Config} {C : ∀ {α : Type}, Blk α → Prop} (hC : Closed @C)

include hC

theorem closed_require (ok : Bool) : C (require ok) :=
  ite_of (fun _ => hC.pure ()) (fun _ => hC.fail _)

theorem closed_check (ok : Bool) : C (check ok) :=
  ite_of (fun _ => hC.pure ()) (fun _ => hC.fail _)

theorem closed_call : C call := hC.bind hC.sys (closed_require hC)

theorem closed_parseRange (text : Text) : C (parseRange cfg text) := by
  unfold parseRange
  split
  · exact hC.fail _
  · exact hC.pure _

theorem closed_readBlocks (src : RangeSet) (buffer : List Block) :
    C (readBlocks cfg src buffer) := by
  refine hC.bind hC.sys (fun _ => ite_of (fun _ => hC.pure _) (fun _ => ?_))
  exact ite_of (fun _ => hC.fail _) (fun _ => hC.bind hC.disk (fun _ => hC.pure _))

theorem closed_readBlocksOrFail (src : RangeSet) (buffer : List Block) :
    C (readBlocksOrFail cfg src buffer) := by
  refine hC.bind (closed_readBlocks hC src buffer) (fun r => ?_)
  cases r with
  | none => exact hC.fail _
  | some buffer => exact hC.pure _

theorem closed_inBounds (buffer : Option (List Block)) : C (inBounds buffer) := by
  cases buffer with
  | none => exact hC.fail _
  | some buffer => exact hC.pure _

theorem closed_checkSourceBlocks (rest : List Text) (buffer : List Block) :
    C (checkSourceBlocks cfg rest buffer) := by
  unfold checkSourceBlocks
  split
  · exact hC.pure _
  refine ite_of (fun _ => hC.pure _) (fun _ => hC.bind (closed_parseRange hC _) (fun src => ?_))
  split
  · exact closed_check hC _
  · refine hC.bind (closed_parseRange hC _) (fun _ => hC.bind (closed_check hC _) (fun _ => ?_))
    exact closed_check hC _

/-! ### The stash -/

theorem closed_deleteFile {name : Text} {cause : Cause}
    (hunlink : C (Prog.emit (.unlink name cause))) :
    C (deleteFile name cause) :=
  hC.bind hC.sys (fun _ => hC.bind hC.disk (fun _ => ite_of (fun _ => hunlink)
    (fun _ => hC.pure _)))

theorem closed_deleteAll {cause : Cause} {names : List Text}
    (hunlink : ∀ name ∈ names, C (Prog.emit (.unlink name cause))) : C (deleteAll cause names) := by
  induction names with
  | nil => exact hC.pure _
  | cons name names ih =>
    obtain ⟨hname, hnames⟩ := forall_mem_cons.mp hunlink
    exact hC.bind (closed_deleteFile hC hname) (fun _ => ih hnames)

theorem closed_deleteStash (hunlink : ∀ name, C (Prog.emit (.unlink name .stashDir)))
    (hrmdir : C (Prog.emit .rmdir)) : C (deleteStash cfg) := by
  refine hC.bind hC.disk (fun _ => hC.bind (closed_deleteAll hC fun name _ => hunlink name) ?_)
  refine fun _ => hC.bind hC.sys (fun _ => hC.bind hC.disk (fun _ => ?_))
  exact ite_of (fun _ => hrmdir) (fun _ => hC.pure _)

theorem closed_createStash (hmkdir : C (Prog.emit .mkdir))
    (hunlink : ∀ name, C (Prog.emit (.unlink name .partialFile))) (maxblocks : Nat) :
    C (createStash cfg maxblocks) := by
  have hcheck : ∀ ok made : Bool, C (do require ok; pure made) :=
    fun ok _ => hC.bind (closed_require hC ok) (fun _ => hC.pure _)
  refine hC.bind hC.disk (fun _ => ite_of (fun _ => ?_) (fun _ => ?_))
  · exact hC.bind (closed_call hC) (fun _ => hC.bind hmkdir (fun _ => hcheck _ _))
  · refine hC.bind (closed_deleteAll hC fun name _ => hunlink name) (fun _ => ?_)
    exact hC.bind hC.disk (fun _ => hcheck _ _)

theorem closed_loadMapped (id : Text) (src : RangeSet) (buffer : List Block) :
    C (loadMapped cfg id src buffer) := by
  refine hC.bind (closed_readBlocks hC src _) (fun r => ?_)
  cases r with
  | none => exact hC.pure _
  | some buffer =>
    exact ite_of (fun _ => hC.pure _) (fun _ => hC.bind (closed_check hC _) (fun _ => hC.pure _))

theorem closed_loadStashFile {id : Text} {verify : Bool}
    (hunlink : verify = true → C (Prog.emit (.unlink (cfg.entryOf id) .corrupt)))
    (entry : Option RangeSet) (buffer : List Block) :
    C (loadStashFile cfg id entry verify buffer) := by
  refine hC.bind hC.sys (fun _ => hC.bind hC.disk (fun _ => ?_))
  split
  · exact hC.pure _
  · exact hC.pure _
  refine ite_of (fun _ => hC.pure _) (fun _ => ite_of (fun hbad => ?_) (fun _ => hC.pure _))
  have hdelete : ∀ r : List Block × Bool, C (do deleteFile (cfg.entryOf id) .corrupt; pure r) :=
    fun r => hC.bind (closed_deleteFile hC (hunlink (Bool.and_eq_true_iff.mp hbad).1))
      (fun _ => hC.pure r)
  split
  · exact hdelete _
  · exact hC.bind (closed_check hC _) (fun _ => hdelete _)

theorem closed_loadStash
    (hget : ∀ {α : Type} {f : Params → Blk α}, (∀ v, C (f v)) → C (Prog.get >>= f)) {id : Text}
    {verify : Bool} (hunlink : verify = true → C (Prog.emit (.unlink (cfg.entryOf id) .corrupt)))
    (buffer : List Block) : C (loadStash cfg id verify buffer) := by
  refine hget (fun v => ?_)
  split
  · exact closed_loadMapped hC _ _ _
  · exact closed_loadStashFile hC hunlink _ _

/-! ### Commands that write no block -/

theorem closed_stash {rest : List Text} (hbuffer : ∀ buffer, C (setBuffer buffer))
    (hrecord : ∀ id entry, C (recordStash id entry))
    (hload : ∀ id ∈ rest.take 1, ∀ buffer, C (loadStash cfg id true buffer))
    (hcreate : cfg.canwrite = true → ∀ blocks, C (createStashFile (cfg.sha1 blocks) blocks)) :
    C (performCommandStash cfg rest) := by
  unfold performCommandStash
  split
  · rename_i id range more
    refine hC.get (fun _ => rfl) (fun v => ?_)
    refine hC.bind (hload id mem_cons_self _) (fun loaded => ?_)
    refine hC.bind (hbuffer _) (fun _ => ite_of (fun _ => hC.pure _) (fun _ => ?_))
    refine hC.bind (closed_parseRange hC _) (fun src => ?_)
    refine hC.bind (closed_readBlocksOrFail hC _ _) (fun buffer => hC.bind (hbuffer _)
      (fun _ => ?_))
    refine hC.bind (hrecord _ _) (fun _ => ?_)
    refine ite_of (fun _ => hC.pure _) (fun hsha => ite_of (fun _ => hC.pure _) (fun hw => ?_))
    rw [← not_not.mp hsha]
    exact hcreate (by simpa using hw) _
  · exact hC.fail _

theorem closed_finish (hfsync : C (Prog.emit .fsync)) (hdelete : C (deleteStash cfg)) (rc : Bool) :
    C (finish cfg rc) := by
  have hrest : C (dropStash cfg rc) := by
    refine hC.get (fun _ => rfl) (fun v => ite_of (fun _ => ?_) (fun _ => hC.pure _))
    exact hC.bind hdelete (fun _ => hC.pure _)
  refine hC.bind hC.sys (fun _ => ite_of (fun _ => ?_) (fun _ => hrest))
  exact hC.bind hfsync (fun _ => hrest)

/-! ### Sources -/

variable {named : List Text} (hload : ∀ id ∈ named, ∀ buffer, C (loadStash cfg id false buffer))

include hload

theorem closed_loadStashes {tokens : List Text} (hids : refIds tokens ⊆ named)
    (buffer : List Block) :
    C (loadStashes cfg tokens buffer) := by
  induction tokens generalizing buffer with
  | nil => exact hC.pure _
  | cons token tokens ih =>
    have hrest := ih (refIds_tail hids)
    unfold loadStashes
    split
    · rename_i id range htoken
      have hid : id ∈ named := by
        refine hids ?_
        unfold refIds
        rw [filterMap_cons, htoken]
        exact mem_cons_self
      refine hC.bind (hload id hid _) (fun stash => ite_of (fun _ => hrest _) ?_)
      refine fun _ => hC.bind (closed_parseRange hC _) (fun _ => ?_)
      exact hC.bind (closed_inBounds hC _) hrest
    · exact hC.fail _

theorem closed_loadSourceRange (tgt : RangeSet) {rest : List Text} (hids : refIds rest ⊆ named)
    (buffer : List Block) : C (loadSourceRange cfg tgt rest buffer) := by
  unfold loadSourceRange
  split
  · exact hC.fail _
  rename_i range rest
  have htail : refIds rest ⊆ named := refIds_tail hids
  refine ite_of (fun _ => hC.bind (closed_loadStashes hC hload htail _) (fun _ => hC.pure _))
    (fun _ => ?_)
  refine hC.bind (closed_parseRange hC _) (fun _ => hC.bind (closed_readBlocksOrFail hC _ _) ?_)
  intro buffer
  split
  · exact hC.pure _
  · refine hC.bind (closed_parseRange hC _) (fun _ => hC.bind (closed_inBounds hC _) (fun _ => ?_))
    exact hC.bind (closed_loadStashes hC hload (refIds_tail htail) _) (fun _ => hC.pure _)

theorem closed_loadSourceBlocks (hset : ∀ buffer, C (setBuffer buffer)) (tgt : RangeSet)
    (count : Text) {rest : List Text} (hids : refIds rest ⊆ named) :
    C (loadSourceBlocks cfg tgt (count :: rest)) := by
  unfold loadSourceBlocks
  dsimp only
  split
  · exact hC.fail _
  · refine ite_of (fun _ => hC.fail _) (fun _ => hC.get (fun _ => rfl) (fun v => ?_))
    refine hC.bind (closed_loadSourceRange hC hload tgt hids _) (fun r => ?_)
    exact hC.bind (hset _) (fun _ => hC.pure _)

end Closed

end Pterodon.Updater
