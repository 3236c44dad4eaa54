import Pterodon.Updater.BlockImg

/-!
# Commands

A line of a transfer list, taken apart. The source parses a line as it goes, and leaves
parts of it alone if it does not come that far; `Command` is what the line says, and
`performCommand_transfer` and its siblings say that the functions for the lines do what
`runCommand` does with the commands.

The three commands that transfer source blocks to a target differ only in how they write
it, so there is one program for them.
-/

namespace Pterodon.Updater

open Lib ApplyPatch
open Prog (fail)

variable (cfg : Config) {srchash tgthash : Text} {imgdiff : Bool}

/-- How a transfer makes the target out of the source. -/
inductive Method where
  | move
  | diff (imgdiff : Bool) (offset len : Nat)
  deriving DecidableEq

/-- A `move`, `bsdiff` or `imgdiff`. The tokens from the block count on are parsed only if the
target does not have its contents yet. -/
structure Transfer where
  method : Method
  srchash : Text
  tgthash : Text
  tgt : RangeSet
  count : Text
  source : List Text
  deriving DecidableEq

inductive Command where
  | transfer (t : Transfer)
  | stash (id : Text) (src : RangeSet)
  | free (id : Text)
  | zero (tgt : RangeSet)
  | new (tgt : RangeSet)
  | erase (tgt : RangeSet)
  deriving DecidableEq

/-! ## Parsing -/

/-- The tokens of a transfer behind the hashes. -/
def parseTarget (method : Method) (srchash tgthash : Text) : List Text → Option Transfer
  | target :: count :: range :: more =>
    (RangeSet.parse cfg.parseUint target).map
      (fun tgt => ⟨method, srchash, tgthash, tgt, count, range :: more⟩)
  | _ => none

def parseMove : List Text → Option Transfer
  | hash :: rest => parseTarget cfg .move hash hash rest
  | [] => none

def parseDiff (imgdiff : Bool) : List Text → Option Transfer
  | offset :: len :: srchash :: tgthash :: rest =>
    match parseSize cfg offset, parseSize cfg len with
    | some offset, some len => parseTarget cfg (.diff imgdiff offset len) srchash tgthash rest
    | _, _ => none
  | _ => none

/-- A command whose first token is a range set. -/
def parseRanged (command : RangeSet → Command) : List Text → Option Command
  | range :: _ => (RangeSet.parse cfg.parseUint range).map command
  | [] => none

def parseNamed (name : CommandName) (rest : List Text) : Option Command :=
  match name with
  | .bsdiff => (parseDiff cfg false rest).map .transfer
  | .imgdiff => (parseDiff cfg true rest).map .transfer
  | .move => (parseMove cfg rest).map .transfer
  | .stash =>
    match rest with
    | id :: range :: _ => (RangeSet.parse cfg.parseUint range).map (.stash id)
    | _ => none
  | .free => rest.head?.map .free
  | .zero => parseRanged cfg .zero rest
  | .new => parseRanged cfg .new rest
  | .erase => parseRanged cfg .erase rest

def parseCommand (line : Text) : Option Command :=
  match line.splitOn ' ' with
  | [] => none
  | name :: rest => (commandName name).bind (fun name => parseNamed cfg name rest)

/-- Whether the source range of a transfer shares a block with its target. -/
def Transfer.overlaps (t : Transfer) : Bool :=
  match t.source with
  | [] => false
  | range :: _ =>
    if range = ['-'] then false
    else
      match RangeSet.parse cfg.parseUint range with
      | none => false
      | some src => src.overlaps t.tgt

/-! ## Running -/

def writeTarget (t : Transfer) (srcBlocks : Nat) (buffer : List Block) : Blk Unit :=
  match t.method with
  | .move => writeBlocks cfg t.tgt buffer
  | .diff imgdiff offset len => do
    match ← withSink t.tgt (applyPatch cfg imgdiff (rangeSink cfg) (buffer.take srcBlocks)
        offset len) with
    | .failure => fail .error
    | .abort => fail .check
    | .success => pure ()

def writeLoaded (t : Transfer) (loaded : Loaded) : Blk Unit :=
  match loaded with
  | .already => pure ()
  | .ready srcBlocks => do
    let v ← Prog.get
    if cfg.canwrite then writeTarget cfg t srcBlocks v.buffer else pure ()

/-- Load the source of a transfer unless its target has the contents already. -/
def loadTransfer (t : Transfer) : Blk Loaded := do
  let tgtbuffer ← readBlocksOrFail cfg t.tgt (List.replicate t.tgt.blocks Block.zero)
  if cfg.sha1 (tgtbuffer.take t.tgt.blocks) = t.tgthash then pure .already
  else loadSource cfg t.srchash t.tgt (t.count :: t.source)

def runTransfer (t : Transfer) : Blk Unit := do
  let loaded ← loadTransfer cfg t
  writeLoaded cfg t loaded
  releaseFreestash cfg

def runStash (id : Text) (src : RangeSet) : Blk Unit := do
  let v ← Prog.get
  let loaded ← loadStash cfg id true v.buffer
  setBuffer loaded.1
  if loaded.2 then pure () else stashBlocks cfg id src loaded.1

def runZero (tgt : RangeSet) : Blk Unit := do
  let v ← Prog.get
  setBuffer (Block.zero :: (allocate 1 v.buffer).drop 1)
  zeroRanges cfg tgt.ranges

def runNew (tgt : RangeSet) : Blk Unit := do
  let v ← Prog.get
  match ← withSink tgt (receiveNewData cfg v.newData) with
  | none => fail .error
  | some newData => Prog.modify (fun v => { v with newData := newData })

def runErase (tgt : RangeSet) : Blk Unit := do
  call
  require cfg.isBlk
  eraseRanges cfg tgt.ranges

/-- What a command does; `block_image_verify` skips three of them. -/
def runCommand : Command → Blk Unit
  | .transfer t => runTransfer cfg t
  | .stash id src => runStash cfg id src
  | .free id => performCommandFree cfg [id]
  | .zero tgt => if cfg.canwrite then runZero cfg tgt else pure ()
  | .new tgt => if cfg.canwrite then runNew cfg tgt else pure ()
  | .erase tgt => if cfg.canwrite then runErase cfg tgt else pure ()

/-! ## Transfer lists -/

/-- The stash size and the command lines of a transfer list, if it is one of version 3 or 4 with
something to do. -/
def parseList (transferList : Text) : Option (Nat × List Text) :=
  match transferList.splitOn '\n' with
  | version :: total :: _ :: maxblocks :: lines =>
    match cfg.parseUint 4 version, parseSize cfg total, parseSize cfg maxblocks with
    | some version, some total, some maxblocks =>
      if version < 3 ∨ total = 0 then none else some (maxblocks, lines)
    | _, _, _ => none
  | _ => none

theorem performBlockImageUpdate_some {cfg : Config} {transferList : Text} {maxblocks : Nat}
    {lines : List Text} (h : parseList cfg transferList = some (maxblocks, lines)) :
    performBlockImageUpdate cfg transferList = runList cfg maxblocks lines := by
  unfold parseList at h
  split at h
  · rename_i version total _ maxblocks' lines' hsplit
    split at h
    · rename_i version' total' maxblocks'' hversion htotal hmax
      split at h
      · cases h
      · rename_i hcond
        obtain ⟨h3, h0⟩ := not_or.mp hcond
        cases h
        unfold performBlockImageUpdate
        rw [hsplit]
        dsimp only
        rw [hversion, htotal]
        dsimp only
        rw [if_neg h3, if_neg h0, hmax]
    · cases h
  · cases h

theorem performBlockImageUpdate_none {cfg : Config} {transferList : Text}
    (h : parseList cfg transferList = none) :
    ∃ b, performBlockImageUpdate cfg transferList = pure b := by
  unfold parseList at h
  unfold performBlockImageUpdate
  split
  · rename_i version total lines hsplit
    rw [hsplit] at h
    split
    · rename_i version' total' hversion htotal
      split
      · exact ⟨false, rfl⟩
      split
      · exact ⟨true, rfl⟩
      rename_i h3 h0
      split
      · rename_i maxblocks lines'
        dsimp only at h
        rw [hversion, htotal] at h
        cases hmax : parseSize cfg maxblocks with
        | none => exact ⟨false, rfl⟩
        | some m =>
          rw [hmax] at h
          dsimp only at h
          rw [if_neg (not_or.mpr ⟨h3, h0⟩)] at h
          cases h
      · exact ⟨false, rfl⟩
    · exact ⟨false, rfl⟩
  · exact ⟨false, rfl⟩

/-! ## The functions for the lines -/

section Lines

variable {cfg : Config} {rest : List Text} {method : Method} {t : Transfer} {c : Command}

theorem bind_ite {α β : Type} {c : Prop} [Decidable c] (m m' : Blk α) (f : α → Blk β) :
    (if c then m else m') >>= f = if c then m >>= f else m' >>= f := by
  split <;> rfl

theorem parseRange_some {text : Text} {r : RangeSet}
    (h : RangeSet.parse cfg.parseUint text = some r) : parseRange cfg text = pure r := by
  unfold parseRange
  rw [h]

theorem loadTarget_eq (h : parseTarget cfg method srchash tgthash rest = some t) :
    loadTarget cfg srchash tgthash rest = (do
      let loaded ← loadTransfer cfg t
      pure (loaded, t.tgt)) := by
  unfold parseTarget at h
  split at h
  · obtain ⟨tgt, htgt, rfl⟩ := Option.map_eq_some_iff.mp h
    unfold loadTarget loadTransfer
    dsimp only
    rw [parseRange_some htgt]
    simp only [pure_bind, bind_assoc, bind_ite]
  · cases h

theorem parseTarget_method (h : parseTarget cfg method srchash tgthash rest = some t) :
    t.method = method := by
  unfold parseTarget at h
  split at h
  · obtain ⟨tgt, _, rfl⟩ := Option.map_eq_some_iff.mp h
    rfl
  · cases h

theorem parseMove_hash (h : parseMove cfg rest = some t) : t.srchash = t.tgthash := by
  unfold parseMove parseTarget at h
  split at h
  · split at h
    · obtain ⟨tgt, _, rfl⟩ := Option.map_eq_some_iff.mp h
      rfl
    · cases h
  · cases h

theorem performCommandMove_eq (h : parseMove cfg rest = some t) :
    performCommandMove cfg rest = runTransfer cfg t := by
  unfold parseMove at h
  split at h
  · unfold performCommandMove runTransfer loadSrcTgtVersion3
    dsimp only
    rw [loadTarget_eq h, bind_assoc]
    congr 1
    funext loaded
    unfold writeLoaded writeTarget
    rw [parseTarget_method h]
    cases loaded with
    | already => rfl
    | ready srcBlocks => simp only [bind_assoc, bind_ite, pure_bind]
  · cases h

theorem parseDiff_method (h : parseDiff cfg imgdiff rest = some t) :
    ∃ offset len, t.method = .diff imgdiff offset len := by
  unfold parseDiff at h
  split at h
  · split at h
    · exact ⟨_, _, parseTarget_method h⟩
    · cases h
  · cases h

theorem performCommandDiff_eq (h : parseDiff cfg imgdiff rest = some t) :
    performCommandDiff cfg imgdiff rest = runTransfer cfg t := by
  unfold parseDiff at h
  split at h
  · split at h
    · rename_i offset len hoffset hlen
      unfold performCommandDiff runTransfer loadSrcTgtVersion3
      dsimp only
      rw [hoffset, hlen]
      dsimp only
      rw [loadTarget_eq h, bind_assoc]
      congr 1
      funext loaded
      rw [pure_bind]
      unfold writeLoaded writeTarget
      rw [parseTarget_method h]
      cases loaded with
      | already => rfl
      | ready srcBlocks =>
        simp only [bind_assoc, bind_ite]
        congr 1
        funext v
        congr 2
        funext status
        cases status <;> rfl
    · cases h
  · cases h

theorem parseRanged_some {command : RangeSet → Command} (h : parseRanged cfg command rest = some c)
    :
    ∃ range more tgt, rest = range :: more ∧
      RangeSet.parse cfg.parseUint range = some tgt ∧ c = command tgt := by
  cases rest with
  | nil => exact absurd h (by simp [parseRanged])
  | cons range more =>
    obtain ⟨tgt, htgt, rfl⟩ := Option.map_eq_some_iff.mp h
    exact ⟨range, more, tgt, rfl, htgt, rfl⟩

theorem performCommandStash_eq {id range : Text} {more : List Text} {src : RangeSet}
    (h : RangeSet.parse cfg.parseUint range = some src) :
    performCommandStash cfg (id :: range :: more) = runStash cfg id src := by
  unfold performCommandStash runStash
  dsimp only
  rw [parseRange_some h]
  simp only [pure_bind]

theorem performCommand_named {line name : Text} {cn : CommandName}
    (hline : line.splitOn ' ' = name :: rest) (hname : commandName name = some cn) :
    performCommand cfg line = performNamed cfg cn rest ∧
      parseCommand cfg line = parseNamed cfg cn rest := by
  unfold performCommand parseCommand
  rw [hline]
  dsimp only
  rw [hname]
  exact ⟨rfl, rfl⟩

theorem parseCommand_some {line : Text} (h : parseCommand cfg line = some c) :
    ∃ name rest, line.splitOn ' ' = name :: rest ∧ ∃ cn, commandName name = some cn := by
  unfold parseCommand at h
  cases hline : line.splitOn ' ' with
  | nil => rw [hline] at h; cases h
  | cons name rest =>
    rw [hline] at h
    obtain ⟨cn, hname, _⟩ := Option.bind_eq_some_iff.mp h
    exact ⟨name, rest, rfl, cn, hname⟩

/-- The functions for the lines do what their commands say. -/
theorem performCommand_eq {line : Text} (h : parseCommand cfg line = some c) :
    performCommand cfg line = runCommand cfg c := by
  obtain ⟨name, rest, hline, cn, hname⟩ := parseCommand_some h
  obtain ⟨hrun, hparse⟩ := @performCommand_named cfg rest line name cn hline hname
  rw [hrun]
  have hcn : parseNamed cfg cn rest = some c := hparse.symm.trans h
  cases cn with
  | bsdiff | imgdiff =>
    obtain ⟨t, ht, rfl⟩ := Option.map_eq_some_iff.mp hcn
    exact performCommandDiff_eq ht
  | move =>
    obtain ⟨t, ht, rfl⟩ := Option.map_eq_some_iff.mp hcn
    exact performCommandMove_eq ht
  | stash =>
    unfold parseNamed at hcn
    dsimp only at hcn
    split at hcn
    · rename_i id range more
      obtain ⟨src, hsrc, rfl⟩ := Option.map_eq_some_iff.mp hcn
      exact @performCommandStash_eq cfg id range more src hsrc
    · cases hcn
  | free =>
    obtain ⟨id, hid, rfl⟩ := Option.map_eq_some_iff.mp hcn
    obtain ⟨more, rfl⟩ := List.head?_eq_some_iff.mp hid
    rfl
  | zero =>
    obtain ⟨range, more, tgt, rfl, htgt, rfl⟩ := parseRanged_some hcn
    unfold performNamed runCommand performCommandZero runZero
    dsimp only
    rw [parseRange_some htgt]
    cases cfg.canwrite <;> rfl
  | new =>
    obtain ⟨range, more, tgt, rfl, htgt, rfl⟩ := parseRanged_some hcn
    unfold performNamed runCommand performCommandNew runNew
    dsimp only
    rw [parseRange_some htgt]
    cases cfg.canwrite <;> rfl
  | erase =>
    obtain ⟨range, more, tgt, rfl, htgt, rfl⟩ := parseRanged_some hcn
    unfold performNamed runCommand performCommandErase runErase
    dsimp only
    rw [parseRange_some htgt]
    cases cfg.canwrite <;> rfl

theorem loadTarget_none (h : parseTarget cfg method srchash tgthash rest = none) :
    ∃ e, loadTarget cfg srchash tgthash rest = fail e := by
  unfold loadTarget
  split
  · unfold parseRange
    rw [Option.map_eq_none_iff.mp h]
    exact ⟨.check, rfl⟩
  · exact ⟨.error, rfl⟩

theorem performCommandMove_none (h : parseMove cfg rest = none) :
    ∃ e, performCommandMove cfg rest = fail e := by
  unfold performCommandMove loadSrcTgtVersion3
  cases rest with
  | nil => exact ⟨.error, rfl⟩
  | cons hash rest =>
    obtain ⟨e, he⟩ := loadTarget_none h
    dsimp only
    rw [he]
    exact ⟨e, rfl⟩

theorem performCommandDiff_none (h : parseDiff cfg imgdiff rest = none) :
    ∃ e, performCommandDiff cfg imgdiff rest = fail e := by
  unfold performCommandDiff
  split
  · rename_i first second rest
    split
    · rename_i offset len hoffset hlen
      unfold parseDiff at h
      match rest with
      | [] | [_] => exact ⟨.error, rfl⟩
      | srchash :: tgthash :: rest =>
        dsimp only at h
        rw [hoffset, hlen] at h
        obtain ⟨e, he⟩ := loadTarget_none h
        unfold loadSrcTgtVersion3
        dsimp only
        rw [he]
        exact ⟨e, rfl⟩
    · exact ⟨.error, rfl⟩
  · exact ⟨.error, rfl⟩

theorem transfer_or_fail {cn : CommandName} (hcn : cn = .move ∨ cn = .bsdiff ∨ cn = .imgdiff) :
    (∃ t, parseNamed cfg cn rest = some (.transfer t) ∧
      performNamed cfg cn rest = runTransfer cfg t ∧
      (t.method = .move → t.srchash = t.tgthash)) ∨
    ∃ e, performNamed cfg cn rest = fail e := by
  have hdiff : ∀ imgdiff, (∃ t, parseDiff cfg imgdiff rest = some t ∧
      performCommandDiff cfg imgdiff rest = runTransfer cfg t ∧
      (t.method = .move → t.srchash = t.tgthash)) ∨
      ∃ e, performCommandDiff cfg imgdiff rest = fail e := by
    intro imgdiff
    cases ht : parseDiff cfg imgdiff rest with
    | none => exact .inr (performCommandDiff_none ht)
    | some t =>
      refine .inl ⟨t, rfl, performCommandDiff_eq ht, ?_⟩
      intro hm
      obtain ⟨_, _, hmethod⟩ := parseDiff_method ht
      rw [hmethod] at hm
      cases hm
  rcases hcn with rfl | rfl | rfl
  · cases ht : parseMove cfg rest with
    | none => exact .inr (performCommandMove_none ht)
    | some t =>
      exact .inl ⟨t, congrArg (Option.map Command.transfer) ht, performCommandMove_eq ht,
        fun _ => parseMove_hash ht⟩
  · rcases hdiff false with ⟨t, ht, h⟩ | h
    · exact .inl ⟨t, congrArg (Option.map Command.transfer) ht, h⟩
    · exact .inr h
  · rcases hdiff true with ⟨t, ht, h⟩ | h
    · exact .inl ⟨t, congrArg (Option.map Command.transfer) ht, h⟩
    · exact .inr h

/-- What holds of every command, and of a failure, holds of the function of a line. -/
theorem performCommand_rule {P : Blk Unit → Prop} {line : Text} (hfail : ∀ e, P (fail e))
    (htransfer : ∀ t, parseCommand cfg line = some (.transfer t) → P (runTransfer cfg t))
    (hstash : ∀ name rest, line.splitOn ' ' = name :: rest → commandName name = some .stash →
      P (performCommandStash cfg rest))
    (hfree : ∀ rest, P (performCommandFree cfg rest))
    (hwrite : ∀ rest, P (if cfg.canwrite then performCommandErase cfg rest else pure ()) ∧
      P (if cfg.canwrite then performCommandNew cfg rest else pure ()) ∧
      P (if cfg.canwrite then performCommandZero cfg rest else pure ())) :
    P (performCommand cfg line) := by
  cases hline : line.splitOn ' ' with
  | nil =>
    unfold performCommand
    rw [hline]
    exact hfail _
  | cons name rest =>
    cases hname : commandName name with
    | none =>
      unfold performCommand
      rw [hline]
      dsimp only
      rw [hname]
      exact hfail _
    | some cn =>
      obtain ⟨hrun, hparse⟩ := @performCommand_named cfg rest line name cn hline hname
      have hload : cn = .move ∨ cn = .bsdiff ∨ cn = .imgdiff → P (performNamed cfg cn rest) := by
        intro hcn
        rcases transfer_or_fail hcn with ⟨t, ht, heq, _⟩ | ⟨e, he⟩
        · rw [heq]
          exact htransfer t (hparse.trans ht)
        · rw [he]
          exact hfail e
      rw [hrun]
      cases cn with
      | move => exact hload (.inl rfl)
      | bsdiff => exact hload (.inr (.inl rfl))
      | imgdiff => exact hload (.inr (.inr rfl))
      | stash => exact hstash name rest hline hname
      | free => exact hfree rest
      | erase => exact (hwrite rest).1
      | new => exact (hwrite rest).2.1
      | zero => exact (hwrite rest).2.2

end Lines

end Pterodon.Updater
