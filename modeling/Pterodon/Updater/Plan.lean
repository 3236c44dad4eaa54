import Pterodon.Updater.Assemble
import Pterodon.Updater.Contents

/-!
# What a transfer list is meant to do

The creator of a transfer list has a device in mind, and guarantees a number of things
about the list that the updater relies on but never checks: that no block is read after it
was written, that no two commands write the same block, that stashes are there when they
are needed, and that all hashes are those of a run on that device that is not interrupted.
`Guarantees` collects them.

What is still to be done of the list on some disk, not necessarily the one that was meant,
is described by `Done` and `Loadable`: a transfer is done if its target has the hash, and
it can be done if its source can be loaded, now or by the time it is its turn.
-/

namespace Pterodon.Updater

open Lib ApplyPatch

variable (cfg : Config)

/-! ## Hashes and names -/

/-- The name is not that of a file still being written. -/
def Complete (name : Text) : Prop := partialSuffix.isSuffixOf name = false

theorem Complete.ne_partial {name : Text} (h : Complete name) (id : Text) :
    name ≠ id ++ partialSuffix := by
  rintro rfl
  exact absurd h (by simp [Complete])

/-- SHA-1 as an ideal hash; hashes are good names for files. -/
structure Digest (cfg : Config) : Prop where
  injective : Function.Injective cfg.sha1
  nonempty : ∀ data, cfg.sha1 data ≠ []
  complete : ∀ data, Complete (cfg.sha1 data)

/-! ## Commands -/

namespace Command

def targets : Command → List Nat
  | .transfer t => t.tgt.blockList
  | .zero tgt => tgt.blockList
  | .new tgt => tgt.blockList
  | .erase tgt => tgt.blockList
  | .stash .. => []
  | .free .. => []

def newBytes : Command → Nat
  | .new tgt => tgt.blocks * BLOCKSIZE
  | _ => 0

end Command

def Transfer.uses (t : Transfer) : List Text :=
  match parseSource cfg t.source with
  | none => []
  | some s => s.refs.map Prod.fst

def Transfer.sources (t : Transfer) : List Nat :=
  match (parseSource cfg t.source).bind Source.src? with
  | none => []
  | some src => src.blockList

def Command.sources : Command → List Nat
  | .transfer t => t.sources cfg
  | .stash _ src => src.blockList
  | _ => []

/-- The stashes a transfer depends on: those it uses, and its own if it overwrites its source. -/
def Transfer.needs (t : Transfer) : List Text :=
  t.uses cfg ++ if t.overlaps cfg then [t.srchash] else []

/-- Every stash that the source uses is found, with the contents that its name promises. -/
def Faithful (lookup : Text → Option (List Block)) (s : Source) : Prop :=
  ∀ p ∈ s.refs, ∃ data, lookup p.1 = some data ∧ cfg.sha1 data = p.1

/-- On `device` the source of the transfer is `data` and its target is to be `out`. -/
structure Means (cfg : Config) (device : Nat → Block) (t : Transfer) (s : Source)
    (data out : List Block) : Prop where
  count : parseSize cfg t.count = some data.length
  size : data.length * BLOCKSIZE < 2 ^ 64
  source : parseSource cfg t.source = some s
  /-- The source range and the stashes fill the declared number of blocks, whatever they hold, so
  that nothing is left of what was in the buffer before. -/
  filled : ∀ lookup, Faithful cfg lookup s → ∀ device', ∃ found : List Block,
    found.length = data.length ∧ ∀ buffer : List Block, data.length ≤ buffer.length →
      ∃ rest, assemble lookup device' s buffer = some (found ++ rest)
  /-- On the device that is meant they are the data. -/
  found : ∀ lookup, Faithful cfg lookup s → ∀ buffer : List Block, data.length ≤ buffer.length →
    ∃ rest, assemble lookup device s buffer = some (data ++ rest)
  srchash : cfg.sha1 data = t.srchash
  tgthash : cfg.sha1 out = t.tgthash
  length : out.length = t.tgt.blocks
  move : t.method = .move → out = data
  patch : ∀ imgdiff offset len, t.method = .diff imgdiff offset len →
    applyPatch cfg imgdiff memorySink data offset len [] = (toBytes out, .success)

/-- No command from `i` on and before `j` frees the stash. -/
def Kept (cmds : List Command) (id : Text) (i j : Nat) : Prop :=
  ∀ l, i ≤ l → l < j → cmds[l]? ≠ some (.free id)

/-- What the creator of a transfer list guarantees, for a device and the new data. -/
structure Guarantees (cfg : Config) (device : Nat → Block) (newData : List Bytes)
    (cmds : List Command) : Prop where
  nodup : ∀ c ∈ cmds, c.targets.Nodup
  /-- No block is written by two commands. -/
  disjoint : ∀ {i j : Nat} {c c' : Command}, i ≠ j → cmds[i]? = some c → cmds[j]? = some c' →
    ∀ b ∈ c.targets, b ∉ c'.targets
  /-- No block is read after an earlier command wrote it. -/
  unread : ∀ {i j : Nat} {c c' : Command}, i < j → cmds[i]? = some c → cmds[j]? = some c' →
    ∀ b ∈ c.targets, b ∉ c'.sources cfg
  fits : ∀ c ∈ cmds, ∀ b, b ∈ c.targets ∨ b ∈ c.sources cfg → b < cfg.deviceBlocks
  /-- A stash is there when it is used ... -/
  stashed : ∀ {k : Nat} {t : Transfer} {id : Text}, cmds[k]? = some (.transfer t) →
    id ∈ t.uses cfg →
    ∃ s r, s < k ∧ cmds[s]? = some (.stash id r) ∧ Kept cmds id (s + 1) k
  /-- ... and when it is freed. -/
  freed : ∀ {k : Nat} {id : Text}, cmds[k]? = some (.free id) →
    ∃ s r, s < k ∧ cmds[s]? = some (.stash id r)
  /-- Stashes are named by the hash of their blocks. -/
  named : ∀ {k : Nat} {id : Text} {r : RangeSet}, cmds[k]? = some (.stash id r) →
    cfg.sha1 (r.contents device) = id
  means : ∀ {k : Nat} {t : Transfer}, cmds[k]? = some (.transfer t) →
    ∃ s data out, Means cfg device t s data out
  erases : ∀ tgt, .erase tgt ∈ cmds → cfg.isBlk = true
  /-- With less new data a command fails, and with more of it the join at the end of the update
  does not return. -/
  news : (cmds.map Command.newBytes).sum = newData.flatten.length

/-! ## What is still to be done -/

/-- The stash holds what its name promises. -/
def Has (d : Disk) (id : Text) : Prop :=
  ∃ data, d.stash id = some (.whole data) ∧ cfg.sha1 data = id

theorem Has.sha1 {cfg : Config} {d : Disk} {id : Text} {blocks : List Block} (h : Has cfg d id)
    (hfile : d.stash id = some (.whole blocks)) : cfg.sha1 blocks = id := by
  obtain ⟨data, hdata, hsha⟩ := h
  rw [hfile] at hdata
  rw [StashFile.whole.inj (Option.some.inj hdata)]
  exact hsha

def Done (d : Disk) (t : Transfer) : Prop :=
  cfg.sha1 (t.tgt.contents d.device) = t.tgthash

/-- With the commands from `q` on still to come, the stash will be there for command `k`: it is
there and will not be freed, or it will be made of blocks that have the right contents. -/
def Avail (cmds : List Command) (d : Disk) (q k : Nat) (id : Text) : Prop :=
  (Has cfg d id ∧ Kept cmds id q k) ∨
    ∃ s r, q ≤ s ∧ s < k ∧ cmds[s]? = some (.stash id r) ∧ Kept cmds id (s + 1) k ∧
      cfg.sha1 (r.contents d.device) = id

/-- The blocks of the source that are on the device have the right contents. -/
def SourceOk (d : Disk) (t : Transfer) : Prop :=
  ∀ s n, parseSource cfg t.source = some s → parseSize cfg t.count = some n →
    ∀ lookup, Faithful cfg lookup s → ∀ buffer : List Block, n ≤ buffer.length →
      ∃ found rest, found.length = n ∧ cfg.sha1 found = t.srchash ∧
        assemble lookup d.device s buffer = some (found ++ rest)

/-- The source of the transfer can be loaded when it is its turn. -/
structure Loadable (cfg : Config) (cmds : List Command) (d : Disk) (q k : Nat) (t : Transfer) :
    Prop where
  stashes : ∀ id ∈ t.uses cfg, Avail cfg cmds d q k id
  source : SourceOk cfg d t ∨ (t.overlaps cfg = true ∧ Avail cfg cmds d q k t.srchash)

section Lemmas

variable {cfg : Config} {cmds : List Command} {d d' : Disk} {t : Transfer} {q k : Nat} {id : Text}

theorem Kept.mono {i i' j : Nat} (h : Kept cmds id i j) (hi : i ≤ i') : Kept cmds id i' j :=
  fun l hl hj => h l (Nat.le_trans hi hl) hj

variable {s : Source}

theorem sources_eq {src : RangeSet} (hs : parseSource cfg t.source = some s)
    (hsrc : s.src? = some src) : t.sources cfg = src.blockList := by
  unfold Transfer.sources
  rw [hs, Option.bind_some, hsrc]

theorem uses_eq (hs : parseSource cfg t.source = some s) : t.uses cfg = s.refs.map Prod.fst := by
  unfold Transfer.uses
  rw [hs]

theorem sources_disjoint (hs : parseSource cfg t.source = some s) (hov : t.overlaps cfg = false) :
    ∀ b ∈ t.sources cfg, b ∉ t.tgt.blockList := by
  intro b hb hb'
  cases hsrc : s.src? with
  | none =>
    unfold Transfer.sources at hb
    rw [hs, Option.bind_some, hsrc] at hb
    cases hb
  | some src =>
    rw [sources_eq hs hsrc] at hb
    have hover : t.overlaps cfg = src.overlaps t.tgt := by
      unfold parseSource at hs
      unfold Transfer.overlaps
      cases hsource : t.source with
      | nil => rw [hsource] at hs; cases hs
      | cons range rest =>
        rw [hsource] at hs
        dsimp only at hs ⊢
        by_cases hdash : range = ['-']
        · rw [if_pos hdash] at hs
          obtain ⟨refs, _, rfl⟩ := Option.map_eq_some_iff.mp hs
          exact absurd hsrc (by simp [Source.src?])
        rw [if_neg hdash] at hs ⊢
        cases hparse : RangeSet.parse cfg.parseUint range with
        | none => rw [hparse] at hs; cases hs
        | some src' =>
          rw [hparse] at hs
          have hsame : s.src? = some src' := by
            dsimp only at hs
            split at hs
            · rw [← Option.some.inj hs]; rfl
            · split at hs
              · rw [← Option.some.inj hs]; rfl
              · cases hs
          rw [hsame] at hsrc
          rw [Option.some.inj hsrc]
    rw [hover] at hov
    have := RangeSet.overlaps_iff.mpr ⟨b, hb, hb'⟩
    rw [hov] at this
    cases this

theorem SourceOk.congr (h : SourceOk cfg d t)
    (hdev : ∀ b ∈ t.sources cfg, d'.device b = d.device b) : SourceOk cfg d' t := by
  intro s n hs hn lookup hl buffer hlen
  obtain ⟨found, rest, hfound, hsha, hasm⟩ := h s n hs hn lookup hl buffer hlen
  refine ⟨found, rest, hfound, hsha, ?_⟩
  rw [← hasm]
  refine assemble_congr (fun _ _ => rfl) ?_ buffer
  intro src hsrc b hb
  refine hdev b ?_
  rw [sources_eq hs hsrc]
  exact hb

theorem Done.congr (h : Done cfg d t) (hdev : ∀ b ∈ t.tgt.blockList, d'.device b = d.device b) :
    Done cfg d' t := by
  unfold Done RangeSet.contents at h ⊢
  rw [List.map_congr_left hdev]
  exact h

theorem Avail.has (h : Avail cfg cmds d k k id) : Has cfg d id := by
  rcases h with ⟨h, _⟩ | ⟨s, _, hs, hk, _⟩
  · exact h
  · omega

theorem Means.sourceOk {device : Nat → Block} {data out : List Block}
    (h : Means cfg device t s data out) (hdev : ∀ b ∈ t.sources cfg, d.device b = device b) :
    SourceOk cfg d t := by
  have hmeant : SourceOk cfg { d with device := device } t := by
    intro s' n hs hn lookup hl buffer hlen
    obtain rfl := Option.some.inj (hs.symm.trans h.source)
    obtain rfl := Option.some.inj (hn.symm.trans h.count)
    obtain ⟨rest, hrest⟩ := h.found lookup hl buffer hlen
    exact ⟨data, rest, rfl, h.srchash, hrest⟩
  exact hmeant.congr hdev

end Lemmas

end Pterodon.Updater
