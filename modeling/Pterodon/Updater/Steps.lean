import Pterodon.Updater.Plan

/-!
# The commands when nothing fails

What each command of a guaranteed transfer list does to the disk in a run that writes, if
no system call fails. Each rule has two parts: what holds wherever the command may be
stopped, and what holds when it is through.

A transfer whose source can be loaded goes through these states: first it may make a stash
of its own, then it writes its target, then it frees its stash. As soon as it writes over
its own source the stash is there, and as long as its target is not complete the stash
stays.
-/

namespace Pterodon.Updater

open Lib List ApplyPatch Function Effect

variable {id : Text} {Q : Post Unit} {t : Transfer} {s : Source}
    {data out rest : List Block} {device : Nat → Block} {tgt : RangeSet}

/-- A run that writes, on a cache with enough room. -/
structure Smooth (cfg : Config) : Prop where
  writes : cfg.canwrite = true
  room : ∀ bytes, cfg.cacheSizeCheck bytes = true
  digest : Digest cfg

/-- No call fails, and no implicit stash is around. -/
structure Idle (v : Params) : Prop where
  faults : v.faults = []
  freestash : v.freestash = []

theorem Idle.freed {v : Params} (hv : Idle v) (b : List Block) :
    ({ v with buffer := b, freestash := [] } : Params) = { v with buffer := b } := by
  rw [← hv.freestash]

/-- `d'` is `d` except for the blocks with `B`, the files with `S`, and files not completed. -/
structure Changes (B : Nat → Prop) (S : Text → Prop) (d d' : Disk) : Prop where
  device : ∀ b, ¬ B b → d'.device b = d.device b
  stashDir : d'.stashDir = d.stashDir
  stash : ∀ name, Complete name → ¬ S name → d'.stash name = d.stash name

section Changes

variable {B : Nat → Prop} {S : Text → Prop} {d d' d'' : Disk}

theorem Changes.refl (B : Nat → Prop) (S : Text → Prop) (d : Disk) : Changes B S d d :=
  ⟨fun _ _ => rfl, rfl, fun _ _ _ => rfl⟩

theorem Changes.trans (h : Changes B S d d') (h' : Changes B S d' d'') : Changes B S d d'' :=
  ⟨fun b hb => (h'.device b hb).trans (h.device b hb), h'.stashDir.trans h.stashDir,
    fun name hc hs => (h'.stash name hc hs).trans (h.stash name hc hs)⟩

theorem Changes.mono {B' : Nat → Prop} {S' : Text → Prop} (h : Changes B S d d')
    (hB : ∀ b, B b → B' b) (hS : ∀ name, S name → S' name) : Changes B' S' d d' :=
  ⟨fun b hb => h.device b (fun hb' => hb (hB b hb')), h.stashDir,
    fun name hc hs => h.stash name hc (fun hs' => hs (hS name hs'))⟩

theorem Frame.changes (h : Frame B d d') : Changes B S d d' :=
  ⟨h.device, h.stashDir, fun _ _ _ => by rw [h.stash]⟩

theorem Changes.restored {id : Text} (h : Changes B (· = id) d d')
    (hid : d'.stash id = d.stash id) : Changes B (fun _ => False) d d' := by
  refine ⟨h.device, h.stashDir, fun name hc _ => ?_⟩
  by_cases heq : name = id
  · rw [heq, hid]
  · exact h.stash name hc heq

theorem changes_unlink (cause : Cause) : Changes B (· = id) d (act (Event.unlink id cause) d) :=
  ⟨fun _ _ => rfl, rfl, fun _ _ hne => update_of_ne hne _ _⟩

theorem Changes.device_eq (h : Changes (fun _ => False) S d d') : d'.device = d.device :=
  funext (fun b => h.device b (fun hb => hb))

end Changes

theorem changes_unfinished {d d' : Disk} {S : Text → Prop} (hdev : d'.device = d.device)
    (hdir : d'.stashDir = d.stashDir)
    (hstash : ∀ name, name ≠ id ++ partialSuffix → d'.stash name = d.stash name) :
    Changes (fun _ => False) S d d' := by
  exact ⟨fun _ _ => by rw [hdev], hdir, fun name hc _ => hstash name (hc.ne_partial id)⟩

section Rules

variable {I : List Event → Disk → Prop} {E : Post Halt}
  {h : List Event} {v : Params} {d : Disk} {cfg : Config}

/-- `WriteStash` writes to a file of another name and renames it. -/
theorem wp_createStashFile {blocks : List Block} (hf : v.faults = []) (hdir : d.stashDir = true)
    (hid : Complete id)
    (hi : ∀ h' d', Changes (fun _ => False) (· = id) d d' →
      (d'.stash id = d.stash id ∨ d'.stash id = some (.whole blocks)) → I h' d')
    (hq : ∀ h' d', Changes (fun _ => False) (· = id) d d' → d'.stash id = some (.whole blocks) →
      Q () h' v d') : wp I (createStashFile id blocks) Q E h v d := by
  have hne := hid.ne_partial id
  refine wp_bind (wp_disk (wp_bind (wp_require ?_ (fun hno => absurd (hdir.symm.trans hno)
    (by simp)))))
  intro _
  -- the file is opened
  refine wp_bind (wp_call_ok hf ?_)
  have h₁ : Changes (fun _ => False) (· = id) d
      (act (Event.stashWrite (id ++ partialSuffix) (.whole [])) d) :=
    changes_unfinished rfl rfl (fun name hn => update_of_ne hn _ _)
  refine wp_bind (wp_emit (hi _ _ h₁ (.inl (update_of_ne hne _ _))) ?_)
  generalize hd₁ : act (Event.stashWrite (id ++ partialSuffix) (.whole [])) d = d₁ at h₁ ⊢
  have hfile₁ : d₁.stash id = d.stash id := by
    rw [← hd₁]
    exact update_of_ne hne _ _
  -- it is written
  refine wp_bind (wp_call_ok hf ?_)
  have h₂ : Changes (fun _ => False) (· = id) d
      (act (Event.stashWrite (id ++ partialSuffix) (.whole blocks)) d₁) :=
    h₁.trans (changes_unfinished rfl rfl (fun name hn => update_of_ne hn _ _))
  have hfile₂ : (act (Event.stashWrite (id ++ partialSuffix) (.whole blocks)) d₁).stash id
      = d.stash id := by
    rw [← hfile₁]
    exact update_of_ne hne _ _
  refine wp_bind (wp_emit (hi _ _ h₂ (.inl hfile₂)) (wp_bind (wp_call_ok hf ?_)))
  -- it gets its name
  generalize hd₂ : act (Event.stashWrite (id ++ partialSuffix) (.whole blocks)) d₁ = d₂
    at h₂ ⊢
  have hblocks : d₂.stash (id ++ partialSuffix) = some (.whole blocks) := by
    rw [← hd₂]
    exact update_self ..
  have hfile₃ : (act (Event.stashRename (id ++ partialSuffix) id) d₂).stash id
      = some (.whole blocks) := by
    rw [← hblocks]
    exact update_self ..
  have h₃ : Changes (fun _ => False) (· = id) d
      (act (Event.stashRename (id ++ partialSuffix) id) d₂) := by
    refine h₂.trans ⟨fun _ _ => rfl, rfl, ?_⟩
    intro name hc hname
    exact (update_of_ne hname _ _).trans (update_of_ne (hc.ne_partial id) _ _)
  exact wp_bind (wp_emit (hi _ _ h₃ (.inr hfile₃)) (wp_call_ok hf (hq _ _ h₃ hfile₃)))

/-! ## Transfers -/

/-- From the source `data` the transfer makes `out`, which is what its target is to hold. -/
structure Produces (cfg : Config) (t : Transfer) (data out : List Block) : Prop where
  tgthash : cfg.sha1 out = t.tgthash
  length : out.length = t.tgt.blocks
  move : t.method = .move → out = data
  patch : ∀ imgdiff offset len, t.method = .diff imgdiff offset len →
    applyPatch cfg imgdiff memorySink data offset len [] = (toBytes out, .success)

theorem Means.produces (h : Means cfg device t s data out) : Produces cfg t data out :=
  ⟨h.tgthash, h.length, h.move, h.patch⟩

/-- The source was loaded; `f` is the stash to be freed in the end. -/
structure Stashed (cfg : Config) (t : Transfer) (data : List Block) (f : Text) (d d' : Disk) :
    Prop where
  changes : Changes (fun _ => False) (· = t.srchash) d d'
  file : (f = [] ∧ d'.stash t.srchash = d.stash t.srchash) ∨
    (f = t.srchash ∧ d.stash t.srchash = none ∧ d'.stash t.srchash = some (.whole data))
  kept : t.overlaps cfg = true → (d'.stash t.srchash).isSome = true

theorem wp_writeStash_ok (hS : Smooth cfg) (hf : v.faults = []) (hdir : d.stashDir = true)
    (hid : Complete id) {blocks : List Block} {Q : Post Bool}
    (hi : ∀ h' d', Changes (fun _ => False) (· = id) d d' → d.stash id = none →
      (d'.stash id = none ∨ d'.stash id = some (.whole blocks)) → I h' d')
    (hq : (d.stash id).isSome = true → Q true h v d)
    (hn : ∀ h' d', Changes (fun _ => False) (· = id) d d' → d.stash id = none →
      d'.stash id = some (.whole blocks) → Q false h' v d') :
    wp I (writeStash cfg id blocks) Q E h v d := by
  refine wp_bind (wp_require ?_ (fun hno => absurd ((hS.room _).symm.trans hno) (by simp)))
  intro _
  refine wp_bind (wp_disk (wp_ite (fun hs => wp_pure (hq hs)) (fun hs => ?_)))
  have hnone := Option.not_isSome_iff_eq_none.mp hs
  refine wp_bind (wp_createStashFile hf hdir hid ?_ ?_)
  · intro h' d' hc hfile
    refine hi h' d' hc hnone ?_
    rw [hnone] at hfile
    exact hfile
  · exact fun h' d' hc hfile => wp_pure (hn h' d' hc hnone hfile)

/-- `LoadStash` with `verify`. The last hypothesis keeps away the `CHECK` of the function that
reports wrong contents. -/
theorem wp_loadStash_ok (hw : cfg.canwrite = true) (hf : v.faults = [])
    (hplain : cfg.entryOf id = id) {buffer : List Block}
    {Q : Post (List Block × Bool)}
    (hhas : ∀ blocks rest, d.stash id = some (.whole blocks) → cfg.sha1 blocks = id →
      Q (blocks ++ rest, true) h v d)
    (hbad : ∀ blocks, d.stash id = some (.whole blocks) → cfg.sha1 blocks ≠ id →
      I (h ++ [Event.unlink id .corrupt]) (act (Event.unlink id .corrupt) d) ∧
      ∀ b, Q (b, false) (h ++ [Event.unlink id .corrupt]) v (act (Event.unlink id .corrupt) d))
    (hnone : (∀ blocks, d.stash id ≠ some (.whole blocks)) → ∀ b, Q (b, false) h v d)
    (hmap : ∀ blocks, d.stash id = some (.whole blocks) → cfg.sha1 blocks ≠ id →
      v.stashMap id = none) : wp I (loadStash cfg id true buffer) Q E h v d := by
  refine wp_bind (wp_get ?_)
  rw [hw]
  refine wp_loadStashFile ?_ ?_ ?_ ?_
  · rintro blocks _ v' hp hfile hsha ⟨rest, rfl⟩
    rw [hplain] at hfile
    rw [hp.faults hf]
    exact hhas blocks rest hfile (hsha rfl)
  · intro b v' hp hno
    rw [hplain] at hno
    rw [hp.faults hf]
    exact hnone (hno hf) b
  · intro blocks hfile hsha
    rw [hplain] at hfile ⊢
    obtain ⟨hi, hq⟩ := hbad blocks hfile hsha
    refine ⟨hi, fun b v' hp => ?_⟩
    rw [hp.faults hf]
    exact hq b
  · intro blocks hfile hsha hsome
    rw [hplain] at hfile
    exact absurd (hmap blocks hfile hsha) hsome

theorem onDevice_source (hs : parseSource cfg t.source = some s)
    (hon : ∀ b ∈ t.sources cfg, b < cfg.deviceBlocks) :
    ∀ src, s.src? = some src → onDevice cfg src = true := by
  intro src hsrc
  rw [onDevice_iff]
  intro p hp
  have hlt := src.ordered p hp
  have := hon (p.2 - 1) (by
    rw [sources_eq hs hsrc]
    exact RangeSet.mem_blockList.mpr ⟨p, hp, by omega, by omega⟩)
  omega

section LoadSource

variable {Q : Post Loaded} (hS : Smooth cfg) (hv : Idle v) (hdir : d.stashDir = true)
  (hon : ∀ b ∈ t.sources cfg, b < cfg.deviceBlocks)
  (hi : ∀ h' d', Changes (fun _ => False) (· = t.srchash) d d' → d.stash t.srchash = none →
    (d'.stash t.srchash = none ∨ d'.stash t.srchash = some (.whole data)) → I h' d')
  (hq : ∀ h' rest f d', Stashed cfg t data f d d' →
    Q (.ready data.length) h' { v with buffer := data ++ rest, freestash := f } d')
include hS hv hdir hon hi hq

/-- The source was put together in the buffer, and has the hash unless it was overwritten and is in
the stash. -/
theorem wp_loadSource_found {found : List Block} (hcount : parseSize cfg t.count = some data.length)
    (hsize : data.length * BLOCKSIZE < 2 ^ 64) (hs : parseSource cfg t.source = some s)
    (hsrchash : cfg.sha1 data = t.srchash) (hflen : found.length = data.length)
    (hasm : assemble (stashLookup cfg v d) d.device s (allocate data.length v.buffer)
      = some (found ++ rest))
    (hsrc : cfg.sha1 found = t.srchash ∨ (t.overlaps cfg = true ∧ Has cfg d t.srchash)) :
    wp I (loadSource cfg t.srchash t.tgt (t.count :: t.source)) Q E h v d := by
  have hinj := hS.digest.injective
  have htake : (found ++ rest).take data.length = found := take_left' hflen
  refine wp_bind (wp_known
    (loadSourceBlocks_run hv.faults hcount hsize hs (onDevice_source hs hon) hasm) ?_)
  have hf₁ : ({ v with buffer := found ++ rest } : Params).faults = [] := hv.faults
  refine wp_bind (wp_get ?_)
  rw [htake]
  by_cases hsha : cfg.sha1 found = t.srchash
  · -- the source blocks have the hash
    rw [if_pos hsha]
    have hdata : found = data := hinj (hsha.trans hsrchash.symm)
    subst hdata
    have hcomplete : Complete t.srchash := hsrchash ▸ hS.digest.complete found
    rw [hS.writes, Bool.and_true]
    refine wp_ite (fun hover => ?_) (fun hover => ?_)
    · refine wp_bind (wp_writeStash_ok hS hf₁ hdir hcomplete hi ?_ ?_)
      · intro hsome
        refine wp_pure ?_
        rw [← hv.freed]
        exact hq h rest [] d ⟨Changes.refl _ _ _, .inl ⟨rfl, rfl⟩, fun _ => hsome⟩
      · intro h' d' hc hnone hfile
        refine wp_bind (wp_modify (wp_pure ?_))
        refine hq h' rest t.srchash d' ⟨hc, .inr ⟨rfl, hnone, hfile⟩, ?_⟩
        intro _
        rw [hfile]
        rfl
    · refine wp_pure ?_
      rw [← hv.freed]
      exact hq h rest [] d ⟨Changes.refl _ _ _, .inl ⟨rfl, rfl⟩, fun h => absurd h hover⟩
  · -- they were overwritten: the stash has them
    rw [if_neg hsha]
    obtain ⟨hover, blocks, hfile, hsha'⟩ := hsrc.resolve_left hsha
    have hblocks : blocks = data := hinj (hsha'.trans hsrchash.symm)
    subst hblocks
    have hhas : Has cfg d t.srchash := ⟨blocks, hfile, hsha'⟩
    refine wp_loadCopy (fun _ => ?_) (fun hno => absurd (hover.symm.trans hno) nofun)
    refine wp_loadStash_ok hS.writes hf₁ (cfg.entryOf_hash hsha') ?_ ?_ ?_ ?_
    · intro blocks' rest' _ hsha'
      obtain rfl := hinj (hsha'.trans hsrchash.symm)
      show Q _ _ { v with buffer := blocks' ++ rest' } _
      rw [← hv.freed]
      refine hq h rest' [] d ⟨Changes.refl _ _ _, .inl ⟨rfl, rfl⟩, ?_⟩
      intro _
      rw [hfile]
      rfl
    · exact fun _ hw hne => absurd (hhas.sha1 hw) hne
    · exact fun hno => absurd hfile (hno blocks)
    · exact fun _ hw hne => absurd (hhas.sha1 hw) hne

theorem wp_loadSource_ok (hm : Means cfg device t s data out)
    (huses : ∀ id ∈ t.uses cfg, Has cfg d id)
    (hsrc : SourceOk cfg d t ∨ (t.overlaps cfg = true ∧ Has cfg d t.srchash)) :
    wp I (loadSource cfg t.srchash t.tgt (t.count :: t.source)) Q E h v d := by
  have hfaith : Faithful cfg (stashLookup cfg v d) s := by
    intro p hp
    have hid : p.1 ∈ t.uses cfg := by
      rw [uses_eq hm.source]
      exact mem_map_of_mem hp
    obtain ⟨blocks, hfile, hsha⟩ := huses p.1 hid
    refine ⟨blocks, ?_, hsha⟩
    unfold stashLookup
    rw [hS.writes, if_pos rfl, cfg.entryOf_hash hsha, hfile]
  have hlen := le_length_allocate data.length v.buffer
  obtain ⟨found, hflen, hfound⟩ := hm.filled _ hfaith d.device
  obtain ⟨rest, hasm⟩ := hfound _ hlen
  refine wp_loadSource_found hS hv hdir hon hi hq hm.count hm.size hm.source hm.srchash
    hflen hasm ?_
  refine hsrc.imp_left fun hok => ?_
  obtain ⟨found', rest', hlen', hsha', hasm'⟩ :=
    hok s data.length hm.source hm.count _ hfaith _ hlen
  have heq : found ++ rest = found' ++ rest' := Option.some.inj (hasm.symm.trans hasm')
  rw [(append_inj heq (hflen.trans hlen'.symm)).1]
  exact hsha'

end LoadSource

theorem rangesFit_of_blocks (hon : ∀ b ∈ tgt.blockList, b < cfg.deviceBlocks) :
    rangesFit cfg tgt.ranges := by
  intro p hp
  have hlt := tgt.ordered p hp
  have := hon (p.2 - 1) (RangeSet.mem_blockList.mpr ⟨p, hp, by omega, by omega⟩)
  omega

theorem applyPatch_taken {imgdiff : Bool} {offset len : Nat} (hlen : out.length = tgt.blocks)
    (hon : ∀ b ∈ tgt.blockList, b < cfg.deviceBlocks)
    (h : applyPatch cfg imgdiff memorySink data offset len [] = (toBytes out, .success)) :
    ∃ s, applyPatch cfg imgdiff (rangeSink cfg) data offset len ⟨.new tgt, [], []⟩ = (s, .success) ∧
      Written cfg tgt [] s (toBytes out) := by
  have hall : (toBytes out).length ≤ tgt.addresses.length :=
    Nat.le_of_eq (by rw [toBytes_length, addresses_length, hlen])
  obtain ⟨_, hrange⟩ := follows_applyPatch (sinkSim_memory_range (address_lt hon)) _ _ h hall
  exact hrange _ (written_new cfg tgt 0 [])

theorem wp_writeTarget_ok (hf : v.faults = []) (hm : Produces cfg t data out)
    (hnd : t.tgt.blockList.Nodup) (hon : ∀ b ∈ t.tgt.blockList, b < cfg.deviceBlocks)
    (hi : ∀ h' d', Frame (· ∈ t.tgt.blockList) d d' → I h' d')
    (hq : ∀ h' d', Frame (· ∈ t.tgt.blockList) d d' → t.tgt.contents d'.device = out →
      Q () h' v d') :
    wp I (writeTarget cfg t data.length (data ++ rest)) Q E h v d := by
  unfold writeTarget
  split
  · rename_i hmove
    have hdata : data.length = t.tgt.blockList.length := by
      rw [← hm.move hmove, hm.length, RangeSet.blockList_length]
    refine wp_writeRanges t.tgt.ranges (data ++ rest) t.tgt.ordered hi ?_ ?_
    · intro h' v' d' hp hframe hcontents
      rw [hp.faults hf]
      refine hq h' d' hframe ?_
      rw [hm.move hmove]
      refine (hcontents hnd).trans (take_left' hdata)
    · intro e h' v' d' hbad _ _
      refine absurd ⟨hf, rangesFit_of_blocks hon, ?_⟩ hbad
      show t.tgt.blockList.length ≤ _
      rw [length_append]
      omega
  · rename_i imgdiff offset len hdiff
    have htake : (data ++ rest).take data.length = data := take_left
    obtain ⟨w, hrun, hw⟩ := applyPatch_taken hm.length hon (hm.patch imgdiff offset len hdiff)
    have hv : ({ v with faults := w.faults } : Params) = v := by rw [hw.confined.smooth, ← hf]
    rw [htake]
    refine wp_bind (wp_withSink (a := .success) ?_ (hw.confined.touches.along hi) ?_)
    · rw [hf]
      exact hrun
    · rw [hv]
      exact wp_pure (hq _ _ hw.confined.touches.frame (hw.contents hm.length hnd d))

theorem wp_releaseFreestash_none (hnil : v.freestash = []) (hq : Q () h v d) :
    wp I (releaseFreestash cfg) Q E h v d :=
  wp_bind (wp_get (wp_ite (fun _ => wp_pure hq) (fun hne => absurd hnil hne)))

theorem wp_releaseFreestash_some (hf : v.faults = []) (hne : v.freestash ≠ [])
    (hplain : cfg.entryOf v.freestash = v.freestash) (hsome : (d.stash v.freestash).isSome = true)
    (hi : I (h ++ [Event.unlink v.freestash .freestash])
      (act (Event.unlink v.freestash .freestash) d))
    (hq : Q () (h ++ [Event.unlink v.freestash .freestash]) { v with freestash := [] }
      (act (Event.unlink v.freestash .freestash) d)) : wp I (releaseFreestash cfg) Q E h v d := by
  refine wp_bind (wp_get (wp_ite (fun hnil => absurd hnil hne) (fun _ => wp_bind ?_)))
  unfold freeStash
  rw [if_neg hne, hplain]
  refine wp_bind (wp_known (sys_run hf) (wp_bind (wp_disk ?_)))
  rw [hsome]
  exact wp_emit hi (wp_modify hq)

theorem wp_loadTransfer_ok (hf : v.faults = []) (htgt : ∀ b ∈ t.tgt.blockList, b < cfg.deviceBlocks)
    {Q : Post Loaded} (hdone : Done cfg d t → Q .already h v d)
    (hload : ¬ Done cfg d t → wp I (loadSource cfg t.srchash t.tgt (t.count :: t.source)) Q
      E h v d) :
    wp I (loadTransfer cfg t) Q E h v d := by
  refine wp_bind (wp_readBlocksOrFail ?_ ?_ ?_)
  · intro v' hp _ _
    have htake : (t.tgt.contents d.device ++
        (List.replicate t.tgt.blocks Block.zero).drop t.tgt.blocks).take t.tgt.blocks
        = t.tgt.contents d.device := take_left' (contents_length _ _)
    rw [hp.faults hf, htake]
    exact wp_ite (fun h => wp_pure (hdone h)) hload
  · intro v' _ hbad
    exact absurd ⟨hf, onDevice_iff.mpr (rangesFit_of_blocks htgt)⟩ hbad
  · intro v' _ hlt
    rw [length_replicate] at hlt
    omega

theorem wp_runTransfer_done (hv : Idle v) (htgt : ∀ b ∈ t.tgt.blockList, b < cfg.deviceBlocks)
    (hdone : Done cfg d t) (hq : Q () h v d) : wp I (runTransfer cfg t) Q E h v d := by
  refine wp_bind (wp_loadTransfer_ok hv.faults htgt (fun _ => ?_) (fun hnot => absurd hdone hnot))
  exact wp_bind (wp_pure (wp_releaseFreestash_none hv.freestash hq))

/-- A transfer is under way from `d`. -/
structure Underway (cfg : Config) (t : Transfer) (data : List Block) (d d' : Disk) : Prop where
  changes : Changes (· ∈ t.tgt.blockList) (· = t.srchash) d d'
  file : d'.stash t.srchash = d.stash t.srchash ∨
    (d.stash t.srchash = none ∧ d'.stash t.srchash = some (.whole data))
  /-- Nothing was written yet, or the source is safe, or it is not needed any more. -/
  safe : d'.device = d.device ∨ (t.overlaps cfg = true → (d'.stash t.srchash).isSome = true) ∨
    Done cfg d' t

theorem underway_of_stashing {d' : Disk} (hc : Changes (fun _ => False) (· = t.srchash) d d')
    (hnone : d.stash t.srchash = none)
    (hfile : d'.stash t.srchash = none ∨ d'.stash t.srchash = some (.whole data)) :
    Underway cfg t data d d' := by
  refine ⟨hc.mono (fun _ hb => hb.elim) (fun _ hn => hn), ?_, .inl hc.device_eq⟩
  rcases hfile with hfile | hfile
  · exact .inl (hfile.trans hnone.symm)
  · exact .inr ⟨hnone, hfile⟩

theorem wp_writeLoaded_ok (hS : Smooth cfg) (hv : Idle v) (hm : Produces cfg t data out)
    (hsrchash : cfg.sha1 data = t.srchash) (hnd : t.tgt.blockList.Nodup)
    (htgt : ∀ b ∈ t.tgt.blockList, b < cfg.deviceBlocks) {f : Text} {d₁ : Disk}
    (hst : Stashed cfg t data f d d₁) (hi : ∀ h' d', Underway cfg t data d d' → I h' d')
    (hq : ∀ h' b d', Changes (· ∈ t.tgt.blockList) (fun _ => False) d d' →
      t.tgt.contents d'.device = out → Q () h' { v with buffer := b } d') :
    wp I (do
      writeLoaded cfg t (.ready data.length)
      releaseFreestash cfg) Q E h { v with buffer := data ++ rest, freestash := f } d₁ := by
  have hne : t.srchash ≠ [] := hsrchash ▸ hS.digest.nonempty data
  have hc₁ : Changes (· ∈ t.tgt.blockList) (· = t.srchash) d d₁ :=
    hst.changes.mono (fun _ hb => hb.elim) (fun _ hn => hn)
  -- the target is written
  refine wp_bind (wp_bind (wp_get ?_))
  rw [hS.writes]
  have hf₁ : ({ v with buffer := data ++ rest, freestash := f } : Params).faults = [] := hv.faults
  refine wp_writeTarget_ok hf₁ hm hnd htgt ?_ ?_
  · intro h' d' hframe
    refine hi h' d' ⟨hc₁.trans hframe.changes, ?_, .inr (.inl ?_)⟩
    · rw [hframe.stash]
      exact hst.file.imp And.right And.right
    · rw [hframe.stash]
      exact hst.kept
  intro h₂ d₂ hframe hout
  have hdone : ∀ {d' : Disk}, d'.device = d₂.device → Done cfg d' t := by
    intro d' hdev
    unfold Done
    rw [hdev, hout, hm.tgthash]
  have hc₂ : Changes (· ∈ t.tgt.blockList) (· = t.srchash) d d₂ := hc₁.trans hframe.changes
  -- the stash is freed
  rcases hst.file with ⟨rfl, hfile⟩ | ⟨rfl, hnone, hfile⟩
  · refine wp_releaseFreestash_none rfl ?_
    rw [hv.freed]
    exact hq h₂ _ d₂ (hc₂.restored (by rw [hframe.stash, hfile])) hout
  · have hfile₂ : d₂.stash t.srchash = some (.whole data) := by rw [hframe.stash, hfile]
    have hgone : (act (Event.unlink t.srchash .freestash) d₂).stash t.srchash
        = d.stash t.srchash := by
      rw [hnone]
      exact update_self ..
    have hc₃ := (hc₂.trans (changes_unlink .freestash)).restored hgone
    refine wp_releaseFreestash_some hf₁ hne (cfg.entryOf_hash hsrchash) (by rw [hfile₂]; rfl) ?_ ?_
    · exact hi _ _ ⟨hc₃.mono (fun _ hb => hb) (fun _ hn => hn.elim), .inl hgone,
        .inr (.inr (hdone rfl))⟩
    · rw [hv.freed (data ++ rest)]
      exact hq _ _ _ hc₃ hout

theorem wp_runTransfer_ok (hS : Smooth cfg) (hv : Idle v) (hdir : d.stashDir = true)
    (hm : Means cfg device t s data out) (hnd : t.tgt.blockList.Nodup)
    (htgt : ∀ b ∈ t.tgt.blockList, b < cfg.deviceBlocks)
    (hon : ∀ b ∈ t.sources cfg, b < cfg.deviceBlocks) (hnot : ¬ Done cfg d t)
    (huses : ∀ id ∈ t.uses cfg, Has cfg d id)
    (hsrc : SourceOk cfg d t ∨ (t.overlaps cfg = true ∧ Has cfg d t.srchash))
    (hi : ∀ h' d', Underway cfg t data d d' → I h' d')
    (hq : ∀ h' b d', Changes (· ∈ t.tgt.blockList) (fun _ => False) d d' →
      t.tgt.contents d'.device = out → Q () h' { v with buffer := b } d') :
    wp I (runTransfer cfg t) Q E h v d := by
  refine wp_bind (wp_loadTransfer_ok hv.faults htgt (fun hdone => absurd hdone hnot) (fun _ => ?_))
  refine wp_loadSource_ok hS hv hdir hon ?_ ?_ hm huses hsrc
  · exact fun h' d' hc hnone hfile => hi h' d' (underway_of_stashing hc hnone hfile)
  · exact fun h₁ rest f d₁ hst =>
      wp_writeLoaded_ok hS hv hm.produces hm.srchash hnd htgt hst hi hq

/-! ## Stashes -/

/-- A `stash` command is under way from `d`. -/
structure Stashing (cfg : Config) (id : Text) (d d' : Disk) : Prop where
  changes : Changes (fun _ => False) (· = id) d d'
  file : d'.stash id = d.stash id ∨ (¬ Has cfg d id ∧ (d'.stash id = none ∨ Has cfg d' id))

/-- A `stash` command is through. -/
structure StashedTo (cfg : Config) (id : Text) (src : RangeSet) (d d' : Disk) : Prop where
  changes : Changes (fun _ => False) (· = id) d d'
  has : Has cfg d id ∨ cfg.sha1 (src.contents d.device) = id → Has cfg d' id
  /-- No file with other contents is left. -/
  sound : ∀ blocks, d'.stash id = some (.whole blocks) → cfg.sha1 blocks = id
  file : d'.stash id = d.stash id ∨ d'.stash id = none ∨ Has cfg d' id

theorem wp_stashBlocks_ok (hS : Smooth cfg) (hf : v.faults = []) (hdir : d.stashDir = true)
    {src : RangeSet} (hid : Complete id) (hon : ∀ b ∈ src.blockList, b < cfg.deviceBlocks)
    (d₁ : Disk) (hc : Changes (fun _ => False) (· = id) d d₁) (hnot : ¬ Has cfg d id)
    (hno : ∀ blocks, d₁.stash id ≠ some (.whole blocks))
    (hfile : d₁.stash id = d.stash id ∨ d₁.stash id = none)
    (hi : ∀ h' d', Stashing cfg id d d' → I h' d')
    (hq : ∀ h' b d', StashedTo cfg id src d d' →
      Q () h' { v with buffer := b, stashMap := update v.stashMap id (some src) } d')
    (buffer : List Block) : wp I (stashBlocks cfg id src buffer) Q E h v d₁ := by
  have hlen := Nat.not_lt.mpr (le_length_allocate src.blocks buffer)
  have hread : readBlocksOrFail cfg src (allocate src.blocks buffer) v d₁
      = ⟨[], v, .ok (src.contents d₁.device ++ (allocate src.blocks buffer).drop src.blocks)⟩ := by
    have hrun := @readBlocksOrFail_run cfg v d₁ hf src
      (onDevice_iff.mpr (rangesFit_of_blocks hon)) (allocate src.blocks buffer)
    unfold readFront at hrun
    rw [if_neg hlen] at hrun
    exact hrun
  refine wp_bind (wp_known hread (wp_bind (wp_modify (wp_bind (wp_modify ?_)))))
  have htake : (src.contents d₁.device ++ (allocate src.blocks buffer).drop src.blocks).take
      src.blocks = src.contents d.device := by
    rw [take_left' (contents_length _ _), hc.device_eq]
  rw [htake]
  refine wp_ite (fun hne => wp_pure (hq _ _ _ ⟨hc, ?_, ?_, ?_⟩)) (fun heq => ?_)
  · rintro (hhas | hsha)
    · exact absurd hhas hnot
    · exact absurd hsha hne
  · exact fun blocks hw => absurd hw (hno blocks)
  · exact hfile.imp_right .inl
  have hsha : cfg.sha1 (src.contents d.device) = id := not_not.mp heq
  rw [hS.writes]
  refine wp_createStashFile hf (hc.stashDir.trans hdir) hid ?_ ?_
  · intro h' d' hc' hfile'
    refine hi h' d' ⟨hc.trans hc', ?_⟩
    rcases hfile' with hfile' | hfile'
    · rcases hfile with hfile | hfile
      · exact .inl (hfile'.trans hfile)
      · exact .inr ⟨hnot, .inl (hfile'.trans hfile)⟩
    · exact .inr ⟨hnot, .inr ⟨_, hfile', hsha⟩⟩
  · intro h' d' hc' hfile'
    have hhas : Has cfg d' id := ⟨_, hfile', hsha⟩
    exact hq h' _ d' ⟨hc.trans hc', fun _ => hhas, fun _ => hhas.sha1, .inr (.inr hhas)⟩

theorem wp_runStash_ok (hS : Smooth cfg) (hf : v.faults = []) (hdir : d.stashDir = true)
    (hplain : cfg.entryOf id = id) {src : RangeSet} (hid : Complete id)
    (hon : ∀ b ∈ src.blockList, b < cfg.deviceBlocks)
    (hmap : ∀ blocks, d.stash id = some (.whole blocks) → cfg.sha1 blocks ≠ id →
      v.stashMap id = none) (hi : ∀ h' d', Stashing cfg id d d' → I h' d')
    (hq : ∀ h' b m d', (m = v.stashMap ∨ m = update v.stashMap id (some src)) →
      StashedTo cfg id src d d' → Q () h' { v with buffer := b, stashMap := m } d') :
    wp I (runStash cfg id src) Q E h v d := by
  have hsource := fun {h₁ : List Event} {d₁ : Disk} {b : List Block} hc hnot hno hfile =>
    wp_stashBlocks_ok (E := E) (h := h₁) (v := { v with buffer := b }) hS hf hdir
      hid hon d₁ hc hnot hno hfile hi (fun h' b' d' => hq h' b' _ d' (.inr rfl)) b
  refine wp_bind (wp_get (wp_bind (wp_loadStash_ok hS.writes hf hplain ?_ ?_ ?_ hmap)))
  · -- the file is there
    intro blocks rest hfile hsha
    have hhas : Has cfg d id := ⟨blocks, hfile, hsha⟩
    refine wp_bind (wp_modify (wp_pure ?_))
    exact hq h _ v.stashMap d (.inl rfl)
      ⟨Changes.refl _ _ _, fun _ => hhas, fun _ => hhas.sha1, .inl rfl⟩
  · -- it has the wrong contents
    intro blocks hw hsha
    have hnot : ¬ Has cfg d id := fun hhas => hsha (hhas.sha1 hw)
    have hgone : (act (Event.unlink id .corrupt) d).stash id = none := update_self ..
    refine ⟨hi _ _ ⟨changes_unlink .corrupt, .inr ⟨hnot, .inl hgone⟩⟩, ?_⟩
    intro b
    refine wp_bind (wp_modify (hsource (changes_unlink .corrupt) hnot ?_ (.inr hgone)))
    intro blocks' hw'
    rw [hgone] at hw'
    cases hw'
  · -- there is none
    intro hwhole b
    have hnot : ¬ Has cfg d id := fun ⟨blocks, hfile, _⟩ => hwhole blocks hfile
    exact wp_bind (wp_modify (hsource (Changes.refl _ _ _) hnot hwhole (.inl rfl)))

theorem wp_free_ok (hw : cfg.canwrite = true) (hf : v.faults = []) (hid : id ≠ [])
    (hplain : cfg.entryOf id = id)
    (hi : ∀ h' d', Changes (fun _ => False) (· = id) d d' → d'.stash id = none → I h' d')
    (hq : ∀ h' d', Changes (fun _ => False) (· = id) d d' → d'.stash id = none →
      Q () h' { v with stashMap := update v.stashMap id none } d') :
    wp I (performCommandFree cfg [id]) Q E h v d := by
  refine wp_bind (wp_modify (wp_bind (wp_get ?_)))
  have hcond : (v.createdstash || cfg.canwrite) = true := by rw [hw, Bool.or_true]
  rw [if_pos hcond]
  unfold freeStash
  rw [if_neg hid, hplain]
  have hf₁ : ({ v with stashMap := update v.stashMap id none } : Params).faults = [] := hf
  refine wp_bind (wp_known (sys_run hf₁) (wp_bind (wp_disk (wp_ite (fun _ => ?_) (fun hno => ?_)))))
  · have hgone : (act (Event.unlink id .free) d).stash id = none := update_self ..
    exact wp_emit (hi _ _ (changes_unlink .free) hgone) (hq _ _ (changes_unlink .free) hgone)
  · refine wp_pure (hq h d (Changes.refl _ _ _) ?_)
    exact Option.not_isSome_iff_eq_none.mp hno

/-! ## Commands that write what they are told -/

theorem wp_runZero_ok (hf : v.faults = []) (hnd : tgt.blockList.Nodup)
    (hon : ∀ b ∈ tgt.blockList, b < cfg.deviceBlocks)
    (hi : ∀ h' d', Frame (· ∈ tgt.blockList) d d' → I h' d')
    (hq : ∀ h' b d', Frame (· ∈ tgt.blockList) d d' →
      tgt.contents d'.device = List.replicate tgt.blocks Block.zero →
      Q () h' { v with buffer := b } d') :
    wp I (runZero cfg tgt) Q E h v d := by
  refine wp_bind (wp_get (wp_bind (wp_modify ?_)))
  have hlen : (spread tgt.ranges).length = tgt.blocks := RangeSet.blockList_length tgt
  rw [zeroRanges_eq cfg tgt.ranges tgt.blocks (Nat.le_of_eq hlen)]
  refine wp_writeRanges tgt.ranges _ tgt.ordered hi ?_ ?_
  · intro h' v' d' hp hframe hcontents
    rw [hp.faults hf]
    refine hq h' _ d' hframe ((hcontents hnd).trans ?_)
    rw [hlen, take_replicate, Nat.min_self]
  · intro e h' v' d' hbad _ _
    refine absurd ⟨hf, rangesFit_of_blocks hon, ?_⟩ hbad
    exact Nat.le_of_eq (by rw [hlen, length_replicate])

theorem wp_runErase_ok (hf : v.faults = []) (hblk : cfg.isBlk = true)
    (hi : ∀ h' d', Frame (· ∈ tgt.blockList) d d' → I h' d')
    (hq : ∀ h' d', Frame (· ∈ tgt.blockList) d d' →
      tgt.contents d'.device = tgt.blockList.map cfg.discarded → Q () h' v d') :
    wp I (runErase cfg tgt) Q E h v d := by
  refine wp_bind (wp_call_ok hf (wp_bind (wp_require (fun _ => ?_) (fun hno => ?_))))
  · refine wp_eraseRanges tgt.ranges hi ?_ (fun _ _ _ hne _ _ => absurd hf hne)
    intro h' v' d' hp hframe hdis
    rw [hp.faults hf]
    exact hq h' d' hframe (map_congr_left hdis)
  · exact absurd (hblk.symm.trans hno) (by simp)

theorem wp_runNew_ok (hf : v.faults = []) (hnd : tgt.blockList.Nodup)
    (hon : ∀ b ∈ tgt.blockList, b < cfg.deviceBlocks)
    (henough : tgt.blocks * BLOCKSIZE ≤ v.newData.flatten.length)
    (hi : ∀ h' d', Frame (· ∈ tgt.blockList) d d' → I h' d')
    (hq : ∀ h' rest d', Frame (· ∈ tgt.blockList) d d' →
      toBytes (tgt.contents d'.device) = v.newData.flatten.take (tgt.blocks * BLOCKSIZE) →
      rest.flatten = v.newData.flatten.drop (tgt.blocks * BLOCKSIZE) →
      Q () h' { v with newData := rest } d') : wp I (runNew cfg tgt) Q E h v d := by
  have hpos : ([] : Bytes).length < tgt.addresses.length := by
    rw [addresses_length]
    exact Nat.mul_pos tgt.blocks_pos (by decide)
  obtain ⟨s, rest, hrun, hw, hrest⟩ := receiveNewData_ok (address_lt hon) v.newData
    (written_new cfg tgt 0 []) hpos (by
      rw [addresses_length, length_nil, Nat.zero_add]
      exact henough)
  rw [nil_append, length_nil, Nat.sub_zero, addresses_length] at hw
  rw [addresses_length] at hrest
  have hv : ({ v with faults := s.faults } : Params) = v := by rw [hw.confined.smooth, ← hf]
  refine wp_bind (wp_get (wp_bind (wp_withSink (a := some rest) ?_
    (hw.confined.touches.along hi) ?_)))
  · rw [hf]
    exact hrun
  rw [hv]
  refine wp_modify (hq _ rest _ hw.confined.touches.frame ?_ hrest)
  have hbytes := hw.bytes (addresses_nodup hnd) d
  rw [length_take, Nat.min_eq_left henough, ← addresses_length, take_length,
    bytesAt_addresses, addresses_length] at hbytes
  exact hbytes

end Rules

end Pterodon.Updater
