import Pterodon.Updater.Resume
import Pterodon.Updater.Scatter

/-!
# One transfer that is interrupted

A single `move`, `bsdiff` or `imgdiff` is run, stopped anywhere, and run again, any number of times.
Nothing is assumed of the commands around it; the stashes that it names are in place, and what they
hold need not be what their names say, as long as the source as a whole has its hash.

In the states where it can be stopped, `Underway` from the first disk, there are three ways to go
on. The target may be done. The source may be as it was, since nothing was written yet or the target
does not overlap it. Or the source is in the stash under its hash, from before the first write on.

`WriteStash` leaves a file alone that has the name already, whatever it holds. So there must be no
such file with other contents. And the target must be able to hold what its hash says, which it is
not if it lists a block twice: then the command is never done, and with its stash freed it cannot be
repeated.
-/

namespace Pterodon.Updater

open Lib List ApplyPatch

/-! ## Sizes decide whether a source can be assembled -/

section Lengths

theorem memmove_lengths {dest dest' source source' out : List Block} {first start blocks : Nat}
    (hdest : dest'.length = dest.length) (hsource : source'.length = source.length)
    (h : memmove dest source first start blocks = some out) :
    ∃ out', memmove dest' source' first start blocks = some out' ∧ out'.length = out.length := by
  have hin : first + blocks ≤ dest.length ∧ start + blocks ≤ source.length := by
    by_contra hout
    rw [memmove, if_neg hout] at h
    cases h
  obtain ⟨moved, hmoved, hlen, _⟩ := memmove_ok hin.1 hin.2
  obtain ⟨moved', hmoved', hlen', _⟩ := @memmove_ok dest' source' first start blocks
    (by omega) (by omega)
  obtain rfl := Option.some.inj (hmoved.symm.trans h)
  exact ⟨moved', hmoved', by omega⟩

theorem moveRangeFrom_lengths {source : List Block} :
    ∀ {ps : Pairs} {start : Nat} {dest dest' out : List Block},
      dest'.length = dest.length → moveRangeFrom source ps start dest = some out →
      ∃ out', moveRangeFrom source ps start dest' = some out' ∧ out'.length = out.length
  | [], _, dest, dest', out, hlen, h => by
    cases h
    exact ⟨dest', rfl, hlen⟩
  | p :: ps, start, dest, dest', out, hlen, h => by
    obtain ⟨moved, hmoved, hrest⟩ := Option.bind_eq_some_iff.mp h
    obtain ⟨moved', hmoved', hlen'⟩ := memmove_lengths hlen (rfl : source.length = _) hmoved
    obtain ⟨out', hout', hlen''⟩ := moveRangeFrom_lengths hlen' hrest
    exact ⟨out', Option.bind_eq_some_iff.mpr ⟨moved', hmoved', hout'⟩, hlen''⟩

theorem moveRangeWithin_lengths : ∀ {ps : Pairs} {start : Nat} {buffer buffer' out : List Block},
      buffer'.length = buffer.length → moveRangeWithin ps start buffer = some out →
      ∃ out', moveRangeWithin ps start buffer' = some out' ∧ out'.length = out.length
  | [], _, buffer, buffer', out, hlen, h => by
    cases h
    exact ⟨buffer', rfl, hlen⟩
  | p :: ps, start, buffer, buffer', out, hlen, h => by
    obtain ⟨moved, hmoved, hrest⟩ := Option.bind_eq_some_iff.mp h
    obtain ⟨moved', hmoved', hlen'⟩ := memmove_lengths hlen hlen hmoved
    obtain ⟨out', hout', hlen''⟩ := moveRangeWithin_lengths hlen' hrest
    exact ⟨out', Option.bind_eq_some_iff.mpr ⟨moved', hmoved', hout'⟩, hlen''⟩

theorem placeRefs_lengths {lookup : Text → Option (List Block)} :
    ∀ {refs : List (Text × RangeSet)} {buffer buffer' out : List Block},
      buffer'.length = buffer.length → placeRefs lookup refs buffer = some out →
      ∃ out', placeRefs lookup refs buffer' = some out' ∧ out'.length = out.length
  | [], buffer, buffer', out, hlen, h => by
    cases h
    exact ⟨buffer', rfl, hlen⟩
  | (id, locs) :: refs, buffer, buffer', out, hlen, h => by
    unfold placeRefs at h ⊢
    cases hdata : lookup id with
    | none =>
      rw [hdata] at h
      exact placeRefs_lengths hlen h
    | some data =>
      rw [hdata] at h
      obtain ⟨moved, hmoved, hrest⟩ := Option.bind_eq_some_iff.mp h
      obtain ⟨moved', hmoved', hlen'⟩ := moveRangeFrom_lengths hlen hmoved
      obtain ⟨out', hout', hlen''⟩ := placeRefs_lengths hlen' hrest
      exact ⟨out', Option.bind_eq_some_iff.mpr ⟨moved', hmoved', hout'⟩, hlen''⟩

theorem readFront_lengths {device device' : Nat → Block} {src : RangeSet} {buffer out : List Block}
    (h : readFront device src buffer = some out) :
    ∃ out', readFront device' src buffer = some out' ∧ out'.length = out.length := by
  unfold readFront at h ⊢
  split at h
  · cases h
  · rename_i hfits
    cases h
    refine ⟨_, if_neg hfits, ?_⟩
    rw [length_append, length_append, contents_length, contents_length]

theorem assemble_lengths {lookup : Text → Option (List Block)} {device device' : Nat → Block}
    {s : Source} {buffer out : List Block} (h : assemble lookup device s buffer = some out) :
    ∃ out', assemble lookup device' s buffer = some out' ∧ out'.length = out.length := by
  cases s with
  | stashes refs => exact ⟨out, h, rfl⟩
  | range src => exact readFront_lengths h
  | mixed src locs refs =>
    obtain ⟨read, hread, hrest⟩ := Option.bind_eq_some_iff.mp h
    obtain ⟨moved, hmoved, hplaced⟩ := Option.bind_eq_some_iff.mp hrest
    obtain ⟨read', hread', hlen⟩ := @readFront_lengths device device' src buffer read hread
    obtain ⟨moved', hmoved', hlen'⟩ := moveRangeWithin_lengths hlen hmoved
    obtain ⟨out', hout', hlen''⟩ := placeRefs_lengths hlen' hplaced
    exact ⟨out', Option.bind_eq_some_iff.mpr ⟨read', hread',
      Option.bind_eq_some_iff.mpr ⟨moved', hmoved', hout'⟩⟩, hlen''⟩

end Lengths

/-! ## Running a transfer again -/

/-- What `CreateStash` does with files that were not completed. -/
def clearPartial (cfg : Config) : Blk Unit := do
  let d ← Prog.disk
  deleteAll .partialFile
    ((cfg.readdir d.stash).filter (fun name => partialSuffix.isSuffixOf name))

/-- A command in a new process, with or without a restart before it. -/
def rerun (cfg : Config) (line : Text) (restarted : Bool) : Blk Unit :=
  match restarted with
  | true => do
    clearPartial cfg
    performCommand cfg line
  | false => performCommand cfg line

/-- A transfer that can be performed on `d`: its source is `data` and has its hash, it makes `out`
of it, and what it needs is in place. -/
structure Performable (cfg : Config) (t : Transfer) (s : Source) (data out : List Block)
    (d : Disk) :
    Prop where
  count : parseSize cfg t.count = some data.length
  size : data.length * BLOCKSIZE < 2 ^ 64
  source : parseSource cfg t.source = some s
  found : ∃ rest, assemble (stashLookup cfg (.start [] []) d) d.device s (allocate data.length [])
    = some (data ++ rest)
  srchash : cfg.sha1 data = t.srchash
  produces : Produces cfg t data out
  sources : ∀ b ∈ t.sources cfg, b < cfg.deviceBlocks
  targets : ∀ b ∈ t.tgt.blockList, b < cfg.deviceBlocks
  stashDir : d.stashDir = true
  /-- The stashes that the line names are there, and not as files still being written. -/
  stashes : ∀ p ∈ s.refs, Complete (cfg.entryOf p.1) ∧
    ∃ blocks, d.stash (cfg.entryOf p.1) = some (.whole blocks)

section Recovery

variable {cfg : Config} {t : Transfer} {s : Source} {data out : List Block} {d d' d'' : Disk}
  {h : List Event}

theorem Underway.refl (cfg : Config) (t : Transfer) (data : List Block) (d : Disk) :
    Underway cfg t data d d :=
  ⟨Changes.refl _ _ _, .inl rfl, .inl rfl⟩

theorem Underway.trans (h₁ : Underway cfg t data d d') (h₂ : Underway cfg t data d' d'') :
    Underway cfg t data d d'' := by
  refine ⟨h₁.changes.trans h₂.changes, ?_, ?_⟩
  · rcases h₂.file with heq | ⟨hnone, hsome⟩
    · rw [heq]
      exact h₁.file
    · rcases h₁.file with heq | ⟨_, hsome'⟩
      · exact .inr ⟨heq.symm.trans hnone, hsome⟩
      · rw [hnone] at hsome'
        cases hsome'
  · rcases h₂.safe with hdev | hsafe | hdone
    · -- nothing was written since, and the stash is still there
      rcases h₁.safe with hdev' | hsafe' | hdone'
      · exact .inl (hdev.trans hdev')
      · refine .inr (.inl fun hover => ?_)
        rcases h₂.file with heq | ⟨_, hsome⟩
        · rw [heq]
          exact hsafe' hover
        · rw [hsome]
          rfl
      · exact .inr (.inr (hdone'.congr fun b _ => congrFun hdev b))
    · exact .inr (.inl hsafe)
    · exact .inr (.inr hdone)

theorem underway_of_tidied (hcomplete : Complete t.srchash) (htidied : Tidied d d')
    (hdir : d'.stashDir = d.stashDir) : Underway cfg t data d d' :=
  ⟨⟨fun b _ => congrFun htidied.device b, hdir, fun name hname _ => htidied.complete name hname⟩,
    .inl (htidied.complete _ hcomplete), .inl htidied.device⟩

theorem Performable.lookup (hw : cfg.canwrite = true) (hx : Performable cfg t s data out d)
    (hu : Underway cfg t data d d') (v : Params) :
    ∀ p ∈ s.refs, stashLookup cfg v d' p.1 = stashLookup cfg v d p.1 := by
  intro p hp
  obtain ⟨hcomplete, blocks, hblocks⟩ := hx.stashes p hp
  have hfile : d'.stash (cfg.entryOf p.1) = d.stash (cfg.entryOf p.1) := by
    by_cases heq : cfg.entryOf p.1 = t.srchash
    · rw [heq] at hblocks ⊢
      rcases hu.file with hsame | ⟨hnone, _⟩
      · exact hsame
      · rw [hnone] at hblocks
        cases hblocks
    · exact hu.changes.stash _ hcomplete heq
  unfold stashLookup
  rw [hw, if_pos rfl, hfile]

theorem Performable.loads (hS : Smooth cfg) (hx : Performable cfg t s data out d)
    (himplicit : t.overlaps cfg = true → d.stash t.srchash = none ∨ Has cfg d t.srchash)
    (hu : Underway cfg t data d d') (hnot : ¬ Done cfg d' t) :
    ∃ found rest, found.length = data.length ∧
      assemble (stashLookup cfg (.start [] []) d') d'.device s (allocate data.length [])
        = some (found ++ rest) ∧
      (cfg.sha1 found = t.srchash ∨ (t.overlaps cfg = true ∧ Has cfg d' t.srchash)) := by
  obtain ⟨rest, hrest⟩ := hx.found
  have hlookup := hx.lookup hS.writes hu (.start [] [])
  -- with the source blocks as they were the source is what it was
  have hsame : (∀ b ∈ t.sources cfg, d'.device b = d.device b) →
      assemble (stashLookup cfg (.start [] []) d') d'.device s (allocate data.length [])
        = some (data ++ rest) := by
    intro hdev
    rw [← hrest]
    refine assemble_congr hlookup ?_ _
    intro src hsrc b hb
    refine hdev b ?_
    rw [sources_eq hx.source hsrc]
    exact hb
  cases hover : t.overlaps cfg with
  | false =>
    refine ⟨data, rest, rfl, hsame fun b hb => hu.changes.device b ?_, .inl hx.srchash⟩
    exact sources_disjoint hx.source hover b hb
  | true =>
    rcases hu.safe with hdev | hsafe | hdone
    · exact ⟨data, rest, rfl, hsame fun b _ => congrFun hdev b, .inl hx.srchash⟩
    · obtain ⟨out', hout', hlen⟩ := @assemble_lengths _ d.device d'.device s _ _ hrest
      refine ⟨out'.take data.length, out'.drop data.length, ?_, ?_, .inr ⟨rfl, ?_⟩⟩
      · rw [length_append] at hlen
        rw [length_take]
        omega
      · rw [take_append_drop, ← hout']
        exact assemble_congr hlookup (fun _ _ _ _ => rfl) _
      · rcases hu.file with heq | ⟨_, hsome⟩
        · rcases himplicit hover with hnone | ⟨blocks, hfile, hsha⟩
          · have := hsafe hover
            rw [heq, hnone] at this
            cases this
          · exact ⟨blocks, heq.trans hfile, hsha⟩
        · exact ⟨data, hsome, hx.srchash⟩
    · exact absurd hdone hnot

theorem wp_rerun (hS : Smooth cfg) {line : Text} (hline : parseCommand cfg line =
    some (.transfer t))
    (hx : Performable cfg t s data out d) (hnodup : t.tgt.blockList.Nodup)
    (himplicit : t.overlaps cfg = true → d.stash t.srchash = none ∨ Has cfg d t.srchash)
    (hu : Underway cfg t data d d') (restarted : Bool) :
    wp (fun _ d'' => Underway cfg t data d d'') (rerun cfg line restarted)
      (fun _ _ _ d'' => t.tgt.contents d''.device = out) (fun _ _ _ _ => False)
        h (.start [] []) d' := by
  have hidle : Idle (.start [] []) := ⟨rfl, rfl⟩
  -- the command itself, from any state in which it can be stopped
  have hcommand : ∀ {h : List Event} {d' : Disk}, Underway cfg t data d d' →
      wp (fun _ d'' => Underway cfg t data d d'') (performCommand cfg line)
        (fun _ _ _ d'' => t.tgt.contents d''.device = out) (fun _ _ _ _ => False)
          h (.start [] []) d' := by
    intro h d' hu
    rw [performCommand_eq hline]
    by_cases hdone : Done cfg d' t
    · refine wp_runTransfer_done hidle hx.targets hdone ?_
      exact hS.digest.injective (hdone.trans hx.produces.tgthash.symm)
    · obtain ⟨found, rest, hlen, hasm, hsrc⟩ := hx.loads hS himplicit hu hdone
      refine wp_bind (wp_loadTransfer_ok rfl hx.targets (fun hd => absurd hd hdone) fun _ => ?_)
      refine wp_loadSource_found hS hidle (hu.changes.stashDir.trans hx.stashDir) hx.sources ?_ ?_
        hx.count hx.size hx.source hx.srchash hlen hasm hsrc
      · exact fun h' d'' hc hnone hfile => hu.trans (underway_of_stashing hc hnone hfile)
      · intro h₁ rest' f d₁ hst
        refine wp_writeLoaded_ok hS hidle hx.produces hx.srchash hnodup hx.targets hst ?_ ?_
        · exact fun h' d'' hu' => hu.trans hu'
        · exact fun h' b d'' _ hout => hout
  cases restarted with
  | false => exact hcommand hu
  | true =>
    have hcomplete : Complete t.srchash := hx.srchash ▸ hS.digest.complete data
    refine wp_bind (wp_bind (wp_disk (wp_deletePartial_ok rfl ?_ ?_)))
    · exact fun h' d'' ht hdir => hu.trans (underway_of_tidied hcomplete ht hdir)
    · exact fun h' d'' ht hdir => hcommand (hu.trans (underway_of_tidied hcomplete ht hdir))

theorem Performable.retry (hx : Performable cfg t s data out d) (retry : Bool) :
    Performable { cfg with isRetry := retry } t s data out d where
  count := hx.count
  size := hx.size
  source := hx.source
  found := hx.found
  srchash := hx.srchash
  produces := ⟨hx.produces.tgthash, hx.produces.length, hx.produces.move, hx.produces.patch⟩
  sources := hx.sources
  targets := hx.targets
  stashDir := hx.stashDir
  stashes := hx.stashes

theorem Underway.retry (hu : Underway cfg t data d d') (retry : Bool) :
    Underway { cfg with isRetry := retry } t data d d' :=
  ⟨hu.changes, hu.file, hu.safe⟩

/-- However often a transfer is stopped, in whichever mode and with or without a restart, running it
again succeeds and leaves in its target what it leaves there if it is never stopped. -/
theorem rerun_recovers (hS : Smooth cfg) {line : Text}
    (hline : parseCommand cfg line = some (.transfer t)) (hx : Performable cfg t s data out d)
    (hnodup : t.tgt.blockList.Nodup)
    (himplicit : t.overlaps cfg = true → d.stash t.srchash = none ∨ Has cfg d t.srchash)
    (hreach : Reach (fun i : Bool × Bool => rerun { cfg with isRetry := i.1 } line i.2)
      (.start [] [])
      (fun _ _ => True) d d') (retry restarted : Bool) :
    (rerun { cfg with isRetry := retry } line restarted (.start [] []) d').val = .ok () ∧
      t.tgt.contents (finished (rerun { cfg with isRetry := retry } line restarted) (.start [] [])
        d').device
        = t.tgt.contents (finished (performCommand cfg line) (.start [] []) d).device := by
  have hrun := fun (retry restarted : Bool) (d' : Disk) (hu : Underway cfg t data d d') =>
    @wp_rerun _ t s data out d d' [] (hS.retry retry) line hline (hx.retry retry) hnodup himplicit
      (hu.retry retry) restarted
  have hu : Underway cfg t data d d' := by
    refine hreach.inv (Underway.refl cfg t data d) ?_
    intro i d k hu _
    exact ((hrun i.1 i.2 d hu).1.take k (hu.retry i.1)).retry cfg.isRetry
  obtain ⟨_, hval, hout⟩ := wp_total (hrun retry restarted d' hu)
  -- the run that is not stopped is one of these
  obtain ⟨_, _, hout'⟩ := wp_total (hrun cfg.isRetry false d (Underway.refl cfg t data d))
  exact ⟨hval, hout.trans hout'.symm⟩

end Recovery

/-! ## Blocks moved up over themselves -/

namespace Sample

/-- `move hbab 2,1,3 2 2,0,2`: blocks 0 and 1 to blocks 1 and 2. -/
def moveUp : Text := "move hbab 2,1,3 2 2,0,2".toList

/-- What `moveUp` says. -/
def upTransfer : Transfer :=
  ⟨.move, front, front, slideTransfer.tgt, ['2'], ["2,0,2".toList]⟩

theorem moveUp_performable :
    Performable config upTransfer (.range frontBlocks) frontData frontData disk where
  count := by decide +kernel
  size := by decide
  source := by decide +kernel
  found := ⟨[], by decide +kernel⟩
  srchash := by decide +kernel
  produces := ⟨by decide +kernel, rfl, fun _ => rfl, fun _ _ _ h => absurd h (by simp [upTransfer])⟩
  sources := by decide +kernel
  targets := by decide +kernel
  stashDir := by decide +kernel
  stashes := nofun

/-- Stopped after its first block is written, and once more after the next run's first. -/
def stoppedTwice : Disk :=
  stoppedAt (rerun config moveUp true) (.start [] [])
    (stoppedAt (rerun config moveUp false) (.start [] []) disk 4) 1

theorem moveUp_recovers :
    (rerun config moveUp true (.start [] []) stoppedTwice).val = .ok () ∧
      upTransfer.tgt.contents (finished (rerun config moveUp true) (.start [] [])
        stoppedTwice).device
        = upTransfer.tgt.contents (finished (performCommand config moveUp) (.start [] [])
          disk).device :=
  rerun_recovers smooth (show parseCommand config moveUp =
    some (.transfer upTransfer) by decide +kernel)
    moveUp_performable (by decide) (fun _ => .inl (by decide +kernel))
    ((Reach.start.stop (false, false) 4 trivial).stop (false, true) 1 trivial) false true

/-- `move hbab 4,0,1,0,1 2 2,0,2`: blocks 0 and 1 to block 0, twice. -/
def moveTwice : Text := "move hbab 4,0,1,0,1 2 2,0,2".toList

/-- A file with the name of blocks 0 and 1 that holds something else. -/
def staleDisk : Disk :=
  { disk with stash := Function.update disk.stash front (some (.whole [BitVec.ofNat _ 7])) }

/-- Both moves succeed if they are not stopped. With the stale file the first fails once a block is
written; the second fails once it is through. -/
theorem rerun_fails :
    (performCommand config moveUp (.start [] []) staleDisk).val = .ok () ∧
      (rerun config moveUp true (.start [] [])
        (stoppedAt (performCommand config moveUp) (.start [] []) staleDisk 1)).val = .error .error ∧
      (performCommand config moveTwice (.start [] []) disk).val = .ok () ∧
      (rerun config moveTwice true (.start [] [])
        (finished (performCommand config moveTwice) (.start [] []) disk)).val = .error .error := by
  decide +kernel

end Sample

end Pterodon.Updater
