import Pterodon.Updater.Loading

/-!
# What is loaded if nothing fails

The source of a transfer is put together in the buffer from blocks of the device and from
stashes. `assemble` computes the result from the contents of the device, what the stashes
hold, and what was in the buffer before; a stash that is not there is passed over. If no
system call fails then this is what `LoadSourceBlocks` does, in a run that writes as well
as in one that does not, and it does nothing else.
-/

namespace Pterodon.Updater

open Lib List ApplyPatch

/-! ## Sources -/

/-- Where the source blocks of a transfer come from; the second component of a stash says where
in the buffer its blocks go. -/
inductive Source where
  | stashes (refs : List (Text × RangeSet))
  | range (src : RangeSet)
  | mixed (src locs : RangeSet) (refs : List (Text × RangeSet))
  deriving DecidableEq

def parseRefs (parseUint : Nat → Text → Option Nat) : List Text → Option (List (Text × RangeSet))
  | [] => some []
  | token :: rest =>
    match token.splitOn ':' with
    | [id, range] =>
      match RangeSet.parse parseUint range, parseRefs parseUint rest with
      | some locs, some refs => some ((id, locs) :: refs)
      | _, _ => none
    | _ => none

def parseSource (cfg : Config) : List Text → Option Source
  | [] => none
  | range :: rest =>
    if range = ['-'] then (parseRefs cfg.parseUint rest).map .stashes
    else
      match RangeSet.parse cfg.parseUint range with
      | none => none
      | some src =>
        match rest with
        | [] => some (.range src)
        | locs :: rest =>
          match RangeSet.parse cfg.parseUint locs, parseRefs cfg.parseUint rest with
          | some locs, some refs => some (.mixed src locs refs)
          | _, _ => none

namespace Source

/-- The stashes that are used. -/
def refs : Source → List (Text × RangeSet)
  | stashes refs => refs
  | range _ => []
  | mixed _ _ refs => refs

def src? : Source → Option RangeSet
  | stashes _ => none
  | range src => some src
  | mixed src _ _ => some src

end Source

/-! ## Assembling -/

/-- Put stashes in their places. -/
def placeRefs (lookup : Text → Option (List Block)) : List (Text × RangeSet) → List Block →
    Option (List Block)
  | [], buffer => some buffer
  | (id, locs) :: refs, buffer =>
    match lookup id with
    | none => placeRefs lookup refs buffer
    | some data =>
      (moveRangeFrom data locs.ranges.reverse locs.blocks buffer).bind (placeRefs lookup refs)

/-- Read blocks of the device to the front of the buffer. -/
def readFront (device : Nat → Block) (src : RangeSet) (buffer : List Block) : Option (List Block) :=
  if buffer.length < src.blocks then none
  else some (src.contents device ++ buffer.drop src.blocks)

/-- The buffer with the source; `none` if an access was out of bounds. -/
def assemble (lookup : Text → Option (List Block)) (device : Nat → Block) : Source → List Block →
    Option (List Block)
  | .stashes refs, buffer => placeRefs lookup refs buffer
  | .range src, buffer => readFront device src buffer
  | .mixed src locs refs, buffer =>
    (readFront device src buffer).bind (fun buffer =>
      (moveRangeWithin locs.ranges.reverse locs.blocks buffer).bind (placeRefs lookup refs))

/-- What `LoadStash` finds: in a run that does not write first the `stash_map`, then the files. -/
def stashLookup (cfg : Config) (v : Params) (d : Disk) (id : Text) : Option (List Block) :=
  match if cfg.canwrite then none else v.stashMap id with
  | some src =>
    if onDevice cfg src = true ∧ cfg.sha1 (src.contents d.device) = id then
      some (src.contents d.device)
    else none
  | none =>
    match d.stash (cfg.entryOf id) with
    | some (.whole blocks) => some blocks
    | _ => none

theorem placeRefs_congr {lookup lookup' : Text → Option (List Block)} :
    ∀ {refs : List (Text × RangeSet)} {buffer : List Block},
      (∀ p ∈ refs, lookup' p.1 = lookup p.1) → placeRefs lookup' refs buffer =
        placeRefs lookup refs buffer
  | [], _, _ => rfl
  | (id, locs) :: refs, buffer, h => by
    have hrest : ∀ buffer, placeRefs lookup' refs buffer = placeRefs lookup refs buffer :=
      fun buffer => placeRefs_congr (forall_mem_cons.mp h).2
    unfold placeRefs
    rw [h (id, locs) mem_cons_self]
    cases lookup id with
    | none => exact hrest buffer
    | some data =>
      rw [show placeRefs lookup' refs = placeRefs lookup refs from funext hrest]

/-- Only the stashes that are used and the blocks that are read matter. -/
theorem assemble_congr {lookup lookup' : Text → Option (List Block)} {device device' : Nat → Block}
    {s : Source} (hl : ∀ p ∈ s.refs, lookup' p.1 = lookup p.1)
    (hd : ∀ src, s.src? = some src → ∀ b ∈ src.blockList, device' b = device b)
    (buffer : List Block) : assemble lookup' device' s buffer =
      assemble lookup device s buffer := by
  have hread : ∀ src, s.src? = some src → readFront device' src = readFront device src := by
    intro src hsrc
    unfold readFront RangeSet.contents
    rw [map_congr_left (hd src hsrc)]
  cases s with
  | stashes refs => exact placeRefs_congr hl
  | range src =>
    dsimp only [assemble]
    rw [hread src rfl]
  | mixed src locs refs =>
    have hrefs : placeRefs lookup' refs = placeRefs lookup refs :=
      funext (fun _ => placeRefs_congr hl)
    dsimp only [assemble]
    rw [hread src rfl, hrefs]

/-! ## Loading without failures -/

section Run

variable {cfg : Config} {v : Params} {d : Disk}

/-- What an access that may be out of bounds comes to. -/
def boundsValue {α : Type} (f : List Block → α) : Option (List Block) → Except Halt α
  | none => .error .memory
  | some buffer => .ok (f buffer)

theorem inBounds_run (buffer : Option (List Block)) :
    inBounds buffer v d = ⟨[], v, boundsValue id buffer⟩ := by
  cases buffer <;> rfl

theorem bind_bounds {α : Type} {m : Blk (List Block)} {f : List Block → Blk α}
    {o : Option (List Block)} {k : List Block → Option (List Block)} {g : List Block → α}
    (hm : m v d = ⟨[], v, boundsValue id o⟩)
    (hf : ∀ b, f b v d = ⟨[], v, boundsValue g (k b)⟩) :
    (m >>= f) v d = ⟨[], v, boundsValue g (o.bind k)⟩ := by
  cases o with
  | none => exact bind_failed hm
  | some b => exact (bind_looked hm).trans (hf b)

theorem pair_bounds {m : Blk (List Block)} {flag : Bool} {o : Option (List Block)}
    (hm : m v d = ⟨[], v, boundsValue id o⟩) :
    (m >>= fun b => pure (b, flag)) v d = ⟨[], v, boundsValue (fun b => (b, flag)) o⟩ := by
  have h := @bind_bounds v d _ m (fun b => pure (b, flag)) o some (fun b => (b, flag)) hm
    (fun _ => rfl)
  rwa [Option.bind_fun_some] at h

theorem le_length_allocate (n : Nat) (buffer : List Block) : n ≤ (allocate n buffer).length := by
  rw [allocate, length_append, length_replicate]
  omega

variable (hf : v.faults = [])
include hf

theorem sys_run : sys v d = ⟨[], v, .ok true⟩ := by
  have hv : { v with faults := [] } = v := by rw [← hf]
  unfold sys
  rw [hf]
  exact congrArg (fun w => (⟨[], w, .ok true⟩ : Outcome Event Params Halt Bool)) hv

theorem readBlocks_run (src : RangeSet) (buffer : List Block)
    (hlen : src.blocks ≤ buffer.length) : readBlocks cfg src buffer v d
      = ⟨[], v, .ok (if onDevice cfg src = true then
          some (src.contents d.device ++ buffer.drop src.blocks) else none)⟩ := by
  unfold readBlocks
  rw [bind_looked (sys_run hf)]
  cases hon : onDevice cfg src with
  | false => rfl
  | true =>
    rw [if_neg (Nat.not_lt.mpr hlen)]
    rfl

theorem readBlocksOrFail_run {src : RangeSet} (hon : onDevice cfg src = true)
    (buffer : List Block) : readBlocksOrFail cfg src buffer v d
      = ⟨[], v, boundsValue id (readFront d.device src buffer)⟩ := by
  unfold readBlocksOrFail readBlocks readFront
  rw [bind_assoc, bind_looked (sys_run hf), hon]
  show ((if buffer.length < src.blocks then _ else _ : Blk _) >>= _) v d = _
  split
  · exact bind_failed rfl
  · rfl

theorem loadStash_run (id : Text) : ∃ b, loadStash cfg id false [] v d
      = ⟨[], v, .ok (match stashLookup cfg v d id with
          | some data => (data, true)
          | none => (b, false))⟩ := by
  unfold loadStash stashLookup
  rw [bind_looked (m := Prog.get) rfl]
  cases if cfg.canwrite = true then none else v.stashMap id with
  | some src =>
    dsimp only
    have hlen : (allocate src.blocks []).length = src.blocks := by simp [allocate]
    have hbuf : src.contents d.device ++ (allocate src.blocks []).drop src.blocks
        = src.contents d.device := by
      rw [drop_of_length_le (Nat.le_of_eq hlen), append_nil]
    have hcheck : decide (src.blocks = (src.contents d.device).length) = true :=
      decide_eq_true (contents_length src d.device).symm
    have htake : (src.contents d.device).take src.blocks = src.contents d.device :=
      take_of_length_le (Nat.le_of_eq (contents_length src d.device))
    unfold loadMapped
    rw [bind_looked (readBlocks_run hf src _ (Nat.le_of_eq hlen.symm)), hbuf]
    cases hon : onDevice cfg src with
    | false => exact ⟨_, rfl⟩
    | true =>
      show ∃ b, (if cfg.sha1 ((src.contents d.device).take src.blocks) = id then
        pure (src.contents d.device, true) else _ : Blk _) v d = _
      rw [htake]
      by_cases hsha : cfg.sha1 (src.contents d.device) = id
      · rw [if_pos hsha, if_pos ⟨rfl, hsha⟩]
        exact ⟨[], rfl⟩
      · rw [if_neg hsha, if_neg (fun h => hsha h.2)]
        unfold checkStashedBlocks check
        rw [hcheck]
        exact ⟨_, rfl⟩
  | none =>
    dsimp only
    unfold loadStashFile
    rw [bind_looked (sys_run hf), bind_looked (m := Prog.disk) rfl]
    cases d.stash (cfg.entryOf id) with
    | none => exact ⟨_, rfl⟩
    | some file =>
      cases file with
      | ragged => exact ⟨_, rfl⟩
      | whole blocks =>
        have hdrop : (allocate blocks.length []).drop blocks.length = [] :=
          drop_of_length_le (by simp [allocate])
        refine ⟨[], ?_⟩
        show (pure (blocks ++ (allocate blocks.length []).drop blocks.length, true) :
          Blk _) v d = _
        rw [hdrop, append_nil]
        rfl

theorem loadStashes_run : ∀ {tokens : List Text}
    {refs : List (Text × RangeSet)} (buffer : List Block), parseRefs cfg.parseUint tokens =
      some refs →
    loadStashes cfg tokens buffer v d
      = ⟨[], v, boundsValue id (placeRefs (stashLookup cfg v d) refs buffer)⟩ := by
  intro tokens
  induction tokens with
  | nil =>
    intro refs buffer hp
    rw [← Option.some.inj hp]
    rfl
  | cons token rest ih =>
    intro refs buffer hp
    unfold parseRefs at hp
    unfold loadStashes
    split at hp
    · rename_i id range hsplit
      split at hp
      · rename_i locs refs' hlocs hrefs
        rw [← Option.some.inj hp, hsplit]
        dsimp only
        obtain ⟨b, hb⟩ := @loadStash_run cfg v d hf id
        rw [bind_looked hb]
        unfold placeRefs
        cases stashLookup cfg v d id with
        | none => exact ih buffer hrefs
        | some data =>
          rw [parseRange_some hlocs, pure_bind]
          dsimp only
          cases hmove : moveRangeFrom data locs.ranges.reverse locs.blocks buffer with
          | none => exact bind_failed rfl
          | some buffer' =>
            exact ih buffer' hrefs
      · cases hp
    · cases hp

theorem loadSourceRange_run {t : Transfer} {s : Source} (buffer : List Block)
    (hp : parseSource cfg t.source = some s)
    (hon : ∀ src, s.src? = some src → onDevice cfg src = true) :
    loadSourceRange cfg t.tgt t.source buffer v d
      = ⟨[], v, boundsValue (fun b => (b, t.overlaps cfg))
          (assemble (stashLookup cfg v d) d.device s buffer)⟩ := by
  unfold parseSource at hp
  unfold loadSourceRange Transfer.overlaps
  cases hsource : t.source with
  | nil => rw [hsource] at hp; cases hp
  | cons range rest =>
    rw [hsource] at hp
    dsimp only at hp ⊢
    by_cases hdash : range = ['-']
    · rw [if_pos hdash] at hp
      obtain ⟨refs, hrefs, rfl⟩ := Option.map_eq_some_iff.mp hp
      rw [if_pos hdash, if_pos hdash]
      exact pair_bounds (loadStashes_run hf buffer hrefs)
    · rw [if_neg hdash] at hp
      rw [if_neg hdash, if_neg hdash]
      cases hsrc : RangeSet.parse cfg.parseUint range with
      | none => rw [hsrc] at hp; cases hp
      | some src =>
        rw [hsrc] at hp
        rw [parseRange_some hsrc, pure_bind]
        cases rest with
        | nil =>
          rw [← Option.some.inj hp] at hon ⊢
          exact pair_bounds (readBlocksOrFail_run hf (hon src rfl) buffer)
        | cons locs rest =>
          dsimp only at hp
          split at hp
          · rename_i locs' refs hlocs hrefs
            rw [← Option.some.inj hp] at hon ⊢
            refine bind_bounds (readBlocksOrFail_run hf (hon src rfl) buffer) (fun b => ?_)
            dsimp only
            rw [parseRange_some hlocs]
            refine bind_bounds (inBounds_run _) (fun b' => ?_)
            exact pair_bounds (loadStashes_run hf b' hrefs)
          · cases hp

theorem loadSourceBlocks_run {t : Transfer} {s : Source} {n : Nat}
    {b : List Block} (hn : parseSize cfg t.count = some n) (hsize : n * BLOCKSIZE < 2 ^ 64)
    (hp : parseSource cfg t.source = some s)
    (hon : ∀ src, s.src? = some src → onDevice cfg src = true)
    (hb : assemble (stashLookup cfg v d) d.device s (allocate n v.buffer) = some b) :
    loadSourceBlocks cfg t.tgt (t.count :: t.source) v d
      = ⟨[], { v with buffer := b }, .ok (n, t.overlaps cfg)⟩ := by
  unfold loadSourceBlocks
  dsimp only
  rw [hn]
  dsimp only
  rw [if_neg (Nat.not_le.mpr hsize), bind_looked (m := Prog.get) rfl,
    bind_looked (by rw [loadSourceRange_run hf _ hp hon, hb]; rfl)]
  rfl

end Run

end Pterodon.Updater
