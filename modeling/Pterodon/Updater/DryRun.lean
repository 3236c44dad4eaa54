import Pterodon.Updater.Resume

/-!
# What `block_image_verify` proves

`block_image_verify` runs the same commands without writing. It keeps no stash files:
where the update would write one it only notes the source blocks in the `stash_map`, and
where the update would free one it forgets the note. So a note stands for a file that the
update will have, and `Dry` says which: there is a note for every stash that was made of
the right blocks and not freed since.

A file that is there from the start is another matter. It gets no note, and `free` leaves
it alone, so the dry run goes on using it when the update has lost it. `Obtainable`
excludes this. It also asks that the stashes named by a transfer are to be had at all,
since the dry run passes over a missing one and may find its data in the buffer by chance.
-/

namespace Pterodon.Updater

open Lib List ApplyPatch Function

variable {t : Transfer} {b : List Block} {src : RangeSet}

/-- For every transfer that is not done, the stashes it names can be had when it is its turn, and
so can the implicit stash of an interrupted transfer, if there is one. -/
def Obtainable (cfg : Config) (cmds : List Command) (d : Disk) : Prop :=
  ∀ k t, cmds[k]? = some (.transfer t) → ¬ Done cfg d t →
    (∀ id ∈ t.uses cfg, Avail cfg cmds d 0 k id) ∧
    (t.overlaps cfg = true → Has cfg d t.srchash → Avail cfg cmds d 0 k t.srchash)

/-- What a dry run can do to the disk: files with the wrong contents may be gone. -/
structure Worn (cfg : Config) (d d' : Disk) : Prop where
  device : d'.device = d.device
  stash : ∀ name, d'.stash name = d.stash name ∨ (d'.stash name = none ∧ ¬ Has cfg d name)

/-- A dry run that started on `d`, before command `q`. -/
structure Dry (cfg : Config) (cmds : List Command) (d : Disk) (q : Nat) (v : Params) (d' : Disk) :
    Prop where
  worn : Worn cfg d d'
  idle : Idle v
  resumable : v.isunresumable = false
  created : v.createdstash = true → ∀ name, d'.stash name = none
  /-- A stash with a file is not noted. -/
  unnoted : ∀ id, Has cfg d id → v.stashMap id = none
  /-- A note was made by a `stash` that was not freed since. -/
  noted : ∀ id r, v.stashMap id = some r →
    ∃ s, s < q ∧ cmds[s]? = some (.stash id r) ∧ Kept cmds id (s + 1) q
  /-- There is a note for every stash that the update will have made. -/
  notes : ∀ id s r, s < q → cmds[s]? = some (.stash id r) → Kept cmds id (s + 1) q →
    cfg.sha1 (r.contents d.device) = id → ¬ Has cfg d id →
    ∃ r', v.stashMap id = some r' ∧ cfg.sha1 (r'.contents d.device) = id
  loadable : ∀ k t, k < q → cmds[k]? = some (.transfer t) →
    Done cfg d t ∨ Loadable cfg cmds d 0 k t

section Worn

variable {cfg : Config} {cmds : List Command} {d d' d'' : Disk} {id : Text}

theorem Worn.refl (cfg : Config) (d : Disk) : Worn cfg d d := ⟨rfl, fun _ => .inl rfl⟩

theorem Worn.has (h : Worn cfg d d') : Has cfg d' id ↔ Has cfg d id := by
  constructor
  · intro hhas
    rcases h.stash id with hfile | ⟨hnone, _⟩
    · exact hhas.congr hfile.symm
    · obtain ⟨data, hdata, _⟩ := hhas
      rw [hnone] at hdata
      cases hdata
  · intro hhas
    rcases h.stash id with hfile | ⟨_, hnot⟩
    · exact hhas.congr hfile
    · exact absurd hhas hnot

theorem Worn.trans (h : Worn cfg d d') (h' : Worn cfg d' d'') : Worn cfg d d'' := by
  refine ⟨h'.device.trans h.device, ?_⟩
  intro name
  rcases h'.stash name with hsame | ⟨hnone, hnot⟩
  · rw [hsame]
    exact h.stash name
  · exact .inr ⟨hnone, fun hhas => hnot (h.has.mpr hhas)⟩

theorem Worn.empty (h : Worn cfg d d') (hd : ∀ name, d.stash name = none) :
    ∀ name, d'.stash name = none := by
  intro name
  rcases h.stash name with hsame | ⟨hnone, _⟩
  · rw [hsame]
    exact hd name
  · exact hnone

theorem Tidied.worn (hD : Digest cfg) (h : Tidied d d') : Worn cfg d d' := by
  refine ⟨h.device, ?_⟩
  intro name
  rcases h.stash name with hsame | hnone
  · exact .inl hsame
  · by_cases hhas : Has cfg d name
    · exact .inl (h.complete name (hhas.complete hD))
    · exact .inr ⟨hnone, hhas⟩

theorem worn_unlink {cause : Cause} (hnot : ¬ Has cfg d id) :
    Worn cfg d (Effect.act (Event.unlink id cause) d) := by
  refine ⟨rfl, ?_⟩
  intro name
  by_cases heq : name = id
  · subst heq
    exact .inr ⟨update_self .., hnot⟩
  · exact .inl (update_of_ne heq _ _)

end Worn

section Rules

variable {h : List Event} {v : Params} {d d' : Disk} {cfg : Config} {device : Nat → Block}
  {newData : List Bytes} {cmds : List Command} {q : Nat} {id : Text}

/-! ## Notes -/

theorem Kept.succ {i : Nat} (h : Kept cmds id i q) (hq : cmds[q]? ≠ some (.free id)) :
    Kept cmds id i (q + 1) := by
  intro l hi hl
  rcases Nat.lt_or_eq_of_le (Nat.le_of_lt_succ hl) with hlt | rfl
  · exact h l hi hlt
  · exact hq

theorem Kept.pred {i : Nat} (h : Kept cmds id i (q + 1)) : Kept cmds id i q :=
  fun l hi hl => h l hi (Nat.lt_succ_of_lt hl)

/-- What a command has to do to the notes: keep those it does not free, and note what it stashes. -/
theorem Dry.next (hd : Dry cfg cmds d q v d') {c : Command} (hc : cmds[q]? = some c)
    {m : Text → Option RangeSet} (hun : ∀ id, Has cfg d id → m id = none)
    (hold : ∀ id r, m id = some r → c = .stash id r ∨ (v.stashMap id = some r ∧ c ≠ .free id))
    (hkeep : ∀ id r, v.stashMap id = some r → cfg.sha1 (r.contents d.device) = id →
      c ≠ .free id → m id = some r)
    (hstash : ∀ id r, c = .stash id r → cfg.sha1 (r.contents d.device) = id → ¬ Has cfg d id →
      ∃ r', m id = some r' ∧ cfg.sha1 (r'.contents d.device) = id)
    (hload : ∀ t, c = .transfer t → Done cfg d t ∨ Loadable cfg cmds d 0 q t) {d'' : Disk}
    (hw : Worn cfg d' d'') :
    Dry cfg cmds d (q + 1) { v with buffer := b, stashMap := m } d'' where
  worn := hd.worn.trans hw
  idle := ⟨hd.idle.faults, hd.idle.freestash⟩
  resumable := hd.resumable
  created hcreated := hw.empty (hd.created hcreated)
  unnoted := hun
  noted := by
    intro id r hmap
    rcases hold id r hmap with hnew | ⟨hmap', hfree⟩
    · rw [hnew] at hc
      exact ⟨q, Nat.lt_succ_self q, hc, fun l hl hl' => absurd hl (Nat.not_le.mpr hl')⟩
    · obtain ⟨s, hlt, hs, hkept⟩ := hd.noted id r hmap'
      refine ⟨s, Nat.lt_succ_of_lt hlt, hs, hkept.succ ?_⟩
      rw [hc]
      exact fun heq => hfree (Option.some.inj heq)
  notes := by
    intro id s r hlt hs hkept hsha hnot
    rcases Nat.lt_or_eq_of_le (Nat.le_of_lt_succ hlt) with hlt | rfl
    · obtain ⟨r', hmap, hsha'⟩ := hd.notes id s r hlt hs hkept.pred hsha hnot
      refine ⟨r', hkeep id r' hmap hsha' ?_, hsha'⟩
      exact fun heq => hkept q hlt (Nat.lt_succ_self q) (hc.trans (congrArg some heq))
    · exact hstash id r (Option.some.inj (hc.symm.trans hs)) hsha hnot
  loadable := by
    intro k t hk ht
    rcases Nat.lt_or_eq_of_le (Nat.le_of_lt_succ hk) with hlt | rfl
    · exact hd.loadable k t hlt ht
    · exact hload t (Option.some.inj (hc.symm.trans ht))

theorem Dry.skip (hd : Dry cfg cmds d q v d') {c : Command} (hc : cmds[q]? = some c)
    (hstash : ∀ id r, c ≠ .stash id r) (hfree : ∀ id, c ≠ .free id)
    (hload : ∀ t, c = .transfer t → Done cfg d t ∨ Loadable cfg cmds d 0 q t) {b : List Block}
    {d'' : Disk} (hw : Worn cfg d' d'') : Dry cfg cmds d (q + 1) { v with buffer := b } d'' :=
  hd.next hc hd.unnoted (fun id _ hmap => .inr ⟨hmap, hfree id⟩) (fun _ _ hmap _ _ => hmap)
    (fun id r heq => absurd heq (hstash id r)) hload hw

theorem Dry.stashed (hd : Dry cfg cmds d q v d') (hc : cmds[q]? = some (.stash id src))
    (hhas : Has cfg d id ∨ ∃ r, v.stashMap id = some r ∧ cfg.sha1 (r.contents d.device) = id) :
    Dry cfg cmds d (q + 1) { v with buffer := b } d' := by
  refine hd.next hc hd.unnoted (fun _ _ hmap => .inr ⟨hmap, by simp⟩) (fun _ _ hmap _ _ => hmap) ?_
    (by simp) (Worn.refl cfg d')
  intro id' r heq _ hnot
  rw [← (Command.stash.inj heq).1] at hnot ⊢
  exact hhas.resolve_left hnot

theorem Dry.note (hd : Dry cfg cmds d q v d') (hc : cmds[q]? = some (.stash id src))
    (hnot : ¬ Has cfg d id)
    (hbad : ∀ r, v.stashMap id = some r → cfg.sha1 (r.contents d.device) ≠ id) {d'' : Disk}
    (hw : Worn cfg d' d'') : Dry cfg cmds d (q + 1)
      { v with buffer := b, stashMap := update v.stashMap id (some src) } d'' := by
  have hself : update v.stashMap id (some src) id = some src := update_self ..
  refine hd.next hc ?_ ?_ ?_ ?_ (by simp) hw
  · intro id' hhas
    have hne : id' ≠ id := fun heq => hnot (heq ▸ hhas)
    exact (update_of_ne hne _ _).trans (hd.unnoted id' hhas)
  · intro id' r hmap
    by_cases heq : id' = id
    · subst heq
      rw [Option.some.inj (hself.symm.trans hmap)]
      exact .inl rfl
    · exact .inr ⟨(update_of_ne heq _ _).symm.trans hmap, by simp⟩
  · intro id' r hmap hsha _
    have hne : id' ≠ id := fun heq => hbad r (heq ▸ hmap) (heq ▸ hsha)
    exact (update_of_ne hne _ _).trans hmap
  · intro id' r heq hsha _
    obtain ⟨rfl, rfl⟩ := Command.stash.inj heq
    exact ⟨src, hself, hsha⟩

/-! ## Loading -/

theorem Means.sourceOk_of_run (hD : Digest cfg) {s : Source} {data out : List Block}
    (hm : Means cfg device t s data out) {lookup : Text → Option (List Block)}
    (hl : Faithful cfg lookup s) {buffer found rest : List Block}
    (hlen : data.length ≤ buffer.length) (hfound : found.length = data.length)
    (hsha : cfg.sha1 found = t.srchash)
    (hasm : assemble lookup d.device s buffer = some (found ++ rest)) : SourceOk cfg d t := by
  intro s' n hs hn lookup' hl' buffer' hlen'
  obtain rfl := Option.some.inj (hs.symm.trans hm.source)
  obtain rfl := Option.some.inj (hn.symm.trans hm.count)
  -- the stashes are the same, since their names say what they hold
  have hsame : ∀ p ∈ s'.refs, lookup' p.1 = lookup p.1 := by
    intro p hp
    obtain ⟨x, hx, hxs⟩ := hl p hp
    obtain ⟨y, hy, hys⟩ := hl' p hp
    rw [hx, hy, hD.injective (hys.trans hxs.symm)]
  obtain ⟨found', hlen₁, hall⟩ := hm.filled lookup hl d.device
  obtain ⟨rest₁, h₁⟩ := hall buffer hlen
  obtain ⟨rest₂, h₂⟩ := hall buffer' hlen'
  have heq : found ++ rest = found' ++ rest₁ := Option.some.inj (hasm.symm.trans h₁)
  rw [(append_inj heq (hfound.trans hlen₁.symm)).1] at hsha
  refine ⟨found', rest₂, hlen₁, hsha, ?_⟩
  rw [← h₂]
  exact assemble_congr hsame (fun _ _ _ _ => rfl) buffer'

section Loading

variable (hw : cfg.canwrite = false) (hG : Guarantees cfg device newData cmds)
  (hd : Dry cfg cmds d q v d')
include hG hd

theorem Dry.onDevice {r : RangeSet} (hr : v.stashMap id = some r) : onDevice cfg r = true := by
  obtain ⟨s, _, hs, _⟩ := hd.noted id r hr
  refine onDevice_iff.mpr (rangesFit_of_blocks ?_)
  exact fun b hb => hG.fits _ (mem_of_getElem? hs) b (.inr hb)

include hw

/-- `LoadStash` with `verify` in a dry run: a file or a note with the right contents, or neither. -/
theorem wp_loadStash_dry (hplain : cfg.entryOf id = id) {buffer : List Block}
    {Q : Post (List Block × Bool)}
    (hyes : Has cfg d id ∨ (∃ r, v.stashMap id = some r ∧ cfg.sha1 (r.contents d.device) = id) →
      ∀ b, Q (b, true) h v d')
    (hno : ¬ Has cfg d id → (∀ r, v.stashMap id = some r → cfg.sha1 (r.contents d.device) ≠ id) →
      ∀ b h' d'', Worn cfg d' d'' → Q (b, false) h' v d'') :
    wlp (loadStash cfg id true buffer) Q h v d' := by
  have hf := hd.idle.faults
  refine wp_bind (wp_get ?_)
  rw [hw]
  cases hmap : v.stashMap id with
  | some r =>
    have hlen := le_length_allocate r.blocks buffer
    have htake : (r.contents d'.device ++ (allocate r.blocks buffer).drop r.blocks).take r.blocks
        = r.contents d.device := by
      rw [take_left' (contents_length _ _), hd.worn.device]
    have hnot : ¬ Has cfg d id := by
      intro hhas
      rw [hd.unnoted id hhas] at hmap
      cases hmap
    refine wp_bind (wp_known (readBlocks_run hf r _ hlen) ?_)
    rw [if_pos (hd.onDevice hG hmap)]
    show wp _ (if cfg.sha1 ((r.contents d'.device ++
      (allocate r.blocks buffer).drop r.blocks).take r.blocks) = id then _ else _) _ _ _ _ _
    rw [htake]
    refine wp_ite (fun hsha => wp_pure (hyes (.inr ⟨r, hmap, hsha⟩) _)) (fun hsha => ?_)
    refine wp_bind (wp_ite (fun _ => wp_pure (wp_pure (hno hnot ?_ _ h d' (Worn.refl cfg d'))))
      (fun _ => wp_fail trivial))
    intro r' hr'
    rw [← Option.some.inj (hmap.symm.trans hr')]
    exact hsha
  | none =>
    have hnone : ∀ r, v.stashMap id = some r → cfg.sha1 (r.contents d.device) ≠ id := by
      intro r hr
      rw [hmap] at hr
      cases hr
    refine wp_loadStashFile ?_ ?_ ?_ (fun _ _ _ hsome => absurd rfl hsome)
    · intro blocks b v' hp hfile hsha _
      rw [hplain] at hfile
      rw [hp.faults hf]
      exact hyes (.inl (hd.worn.has.mp ⟨blocks, hfile, hsha rfl⟩)) b
    · intro b v' hp hmiss
      rw [hplain] at hmiss
      rw [hp.faults hf]
      refine hno (fun hhas => ?_) hnone b h d' (Worn.refl cfg d')
      obtain ⟨blocks, hblocks, _⟩ := hd.worn.has.mpr hhas
      exact hmiss hf blocks hblocks
    · -- it has the wrong contents
      intro blocks hfile hsha
      rw [hplain] at hfile ⊢
      have hnot : ¬ Has cfg d' id := fun hhas => hsha (hhas.sha1 hfile)
      refine ⟨trivial, fun b v' hp => ?_⟩
      rw [hp.faults hf]
      exact hno (fun hhas => hnot (hd.worn.has.mpr hhas)) hnone b _ _ (worn_unlink hnot)

theorem Dry.faithful {s : Source} (hs : parseSource cfg t.source = some s)
    (huses : ∀ id ∈ t.uses cfg, Avail cfg cmds d 0 q id) :
    Faithful cfg (stashLookup cfg v d') s := by
  intro p hp
  have hid : p.1 ∈ t.uses cfg := by
    rw [uses_eq hs]
    exact mem_map_of_mem hp
  unfold stashLookup
  rw [hw, if_neg (by simp)]
  by_cases hhas : Has cfg d p.1
  · rw [hd.unnoted _ hhas]
    obtain ⟨blocks, hfile, hsha⟩ := hd.worn.has.mpr hhas
    exact ⟨blocks, by rw [cfg.entryOf_hash hsha, hfile], hsha⟩
  · rcases huses p.1 hid with ⟨hhas', _⟩ | ⟨s', r, _, hlt, hstash, hkept, hsha⟩
    · exact absurd hhas' hhas
    · obtain ⟨r', hmap, hsha'⟩ := hd.notes p.1 s' r hlt hstash hkept hsha hhas
      refine ⟨r'.contents d.device, ?_, hsha'⟩
      rw [hmap]
      dsimp only
      rw [hd.worn.device, if_pos ⟨hd.onDevice hG hmap, hsha'⟩]

theorem wp_loadSource_dry (hD : Digest cfg) (hc : cmds[q]? = some (.transfer t))
    (huses : ∀ id ∈ t.uses cfg, Avail cfg cmds d 0 q id)
    (hown : t.overlaps cfg = true → Has cfg d t.srchash → Avail cfg cmds d 0 q t.srchash)
    {Q : Post Loaded}
    (hq : ∀ n h' b d'', Loadable cfg cmds d 0 q t → Worn cfg d' d'' →
      Q (.ready n) h' { v with buffer := b } d'') :
    wlp (loadSource cfg t.srchash t.tgt (t.count :: t.source)) Q h v d' := by
  obtain ⟨s, data, out, hm⟩ := hG.means hc
  have hfaith := hd.faithful hw hG hm.source huses
  have hlen := le_length_allocate data.length v.buffer
  have hsrcOn := onDevice_source hm.source
    fun b hb => hG.fits _ (mem_of_getElem? hc) b (.inr hb)
  obtain ⟨found, hflen, hfound⟩ := hm.filled _ hfaith d'.device
  obtain ⟨rest, hasm⟩ := hfound _ hlen
  refine wp_bind (wp_known (loadSourceBlocks_run hd.idle.faults hm.count hm.size hm.source hsrcOn
    hasm) ?_)
  refine wp_bind (wp_get ?_)
  have htake : (found ++ rest).take data.length = found := take_left' hflen
  rw [htake]
  refine wp_ite (fun hsha => ?_) (fun _ => ?_)
  · rw [hw, Bool.and_false]
    refine wp_ite nofun (fun _ => wp_pure ?_)
    refine hq _ h _ d' ⟨huses, .inl ?_⟩ (Worn.refl cfg d')
    rw [hd.worn.device] at hasm
    exact hm.sourceOk_of_run hD hfaith hlen hflen hsha hasm
  · -- the source blocks are not there: the stash may be
    have hd₁ : Dry cfg cmds d q { v with buffer := found ++ rest } d' :=
      ⟨hd.worn, ⟨hd.idle.faults, hd.idle.freestash⟩, hd.resumable, hd.created, hd.unnoted, hd.noted,
        hd.notes, hd.loadable⟩
    refine wp_loadCopy (fun hover => ?_) (fun _ _ _ => trivial)
    refine wp_loadStash_dry hw hG hd₁ (cfg.entryOf_hash hm.srchash)
      ?_ (fun _ _ _ _ _ _ _ _ => trivial)
    intro hstash b
    refine hq _ h b d' ⟨huses, .inr ⟨hover, ?_⟩⟩ (Worn.refl cfg d')
    rcases hstash with hhas | ⟨r, hmap, hsha⟩
    · exact hown hover hhas
    · obtain ⟨s', hlt, hstash, hkept⟩ := hd.noted _ r hmap
      exact .inr ⟨s', r, Nat.zero_le s', hlt, hstash, hkept, hsha⟩

/-! ## Commands -/

theorem wp_transfer_dry (hD : Digest cfg) (hO : Obtainable cfg cmds d)
    (hc : cmds[q]? = some (.transfer t)) :
    wlp (runTransfer cfg t) (fun _ _ => Dry cfg cmds d (q + 1)) h v d' := by
  have htgt : ∀ b ∈ t.tgt.blockList, b < cfg.deviceBlocks :=
    fun b hb => hG.fits _ (mem_of_getElem? hc) b (.inl hb)
  have hnext := fun hload {b : List Block} {d'' : Disk} (hworn : Worn cfg d' d'') =>
    hd.skip hc (by simp) (by simp) (b := b) hload hworn
  refine wp_bind (wp_loadTransfer_ok hd.idle.faults htgt ?_ ?_)
  · intro hdone
    refine wp_bind (wp_pure (wp_releaseFreestash_none hd.idle.freestash ?_))
    refine hnext ?_ (Worn.refl cfg d')
    intro t' ht'
    rw [← Command.transfer.inj ht']
    exact .inl (hdone.congr (fun b _ => by rw [hd.worn.device]))
  · intro hnot
    have hnot' : ¬ Done cfg d t := fun hdone => hnot (hdone.congr
      (fun b _ => by rw [hd.worn.device]))
    obtain ⟨huses, hown⟩ := hO q t hc hnot'
    refine wp_loadSource_dry hw hG hd hD hc huses hown ?_
    intro n h' b d'' hload hworn
    refine wp_bind (wp_bind (wp_get ?_))
    rw [hw]
    refine wp_pure (wp_releaseFreestash_none hd.idle.freestash (hnext ?_ hworn))
    intro t' ht'
    rw [← Command.transfer.inj ht']
    exact .inr hload

theorem wp_stash_dry (hc : cmds[q]? = some (.stash id src)) :
    wlp (runStash cfg id src) (fun _ _ => Dry cfg cmds d (q + 1)) h v d' := by
  have hplain := cfg.entryOf_hash (hG.named hc)
  refine wp_bind (wp_get (wp_bind (wp_loadStash_dry hw hG hd hplain ?_ ?_)))
  · exact fun hhas b => wp_bind (wp_modify (wp_pure (hd.stashed hc hhas)))
  · intro hnot hbad b h' d'' hworn
    refine wp_bind (wp_modify (wp_bind (wp_silent (closed_readBlocksOrFail looks _ _) ?_
      (fun _ _ _ => trivial))))
    intro b' v' hp
    have hf : ({ v with buffer := b } : Params).faults = [] := hd.idle.faults
    rw [hp.faults hf]
    refine wp_bind (wp_modify (wp_bind (wp_modify ?_)))
    have hnext := fun {b : List Block} => hd.note hc hnot hbad (b := b) hworn
    refine wp_ite (fun _ => wp_pure hnext) (fun _ => ?_)
    rw [hw]
    exact wp_ite (fun _ => wp_pure hnext) (fun hno => absurd rfl hno)

omit hG in
theorem wp_free_dry (hc : cmds[q]? = some (.free id)) :
    wlp (performCommandFree cfg [id]) (fun _ _ => Dry cfg cmds d (q + 1)) h v d' := by
  have hnext : Dry cfg cmds d (q + 1) { v with stashMap := update v.stashMap id none } d' := by
    have hself : update v.stashMap id none id = none := update_self ..
    refine hd.next hc ?_ ?_ ?_ (by simp) (by simp) (Worn.refl cfg d')
    · intro id' hhas
      by_cases heq : id' = id
      · exact heq ▸ hself
      · exact (update_of_ne heq _ _).trans (hd.unnoted id' hhas)
    · intro id' r hmap
      have hne : id' ≠ id := by
        rintro rfl
        exact absurd (hself.symm.trans hmap) (by simp)
      refine .inr ⟨(update_of_ne hne _ _).symm.trans hmap, ?_⟩
      exact fun hfree => hne (Command.free.inj hfree).symm
    · intro id' r hmap _ hfree
      have hne : id' ≠ id := fun heq => hfree (congrArg Command.free heq.symm)
      exact (update_of_ne hne _ _).trans hmap
  refine wp_bind (wp_modify (wp_bind (wp_get ?_)))
  rw [hw, Bool.or_false]
  refine wp_ite (fun hcreated => ?_) (fun _ => wp_pure hnext)
  -- the directory was made by this run, and is empty
  refine wp_ite (fun _ => wp_fail trivial) (fun _ => ?_)
  refine wp_bind (wp_known (sys_run hnext.idle.faults) (wp_bind (wp_disk ?_)))
  rw [hd.created hcreated]
  exact wp_pure hnext

end Loading

/-! ## The whole dry run -/

theorem wp_performCommands_dry (hw : cfg.canwrite = false) (hD : Digest cfg)
    (hG : Guarantees cfg device newData cmds) (hO : Obtainable cfg cmds d) (lines : List Text)
    (hlines : parseLines cfg lines = some cmds) (hd : Dry cfg cmds d 0 v d') :
    wlp (performCommands cfg lines) (fun _ _ => Dry cfg cmds d cmds.length) h v d' := by
  refine wp_performCommands ?_ lines (Nat.zero_le _) hlines hd
  intro q c h v d' hget hd
  have hskipped : (∀ id r, c ≠ .stash id r) → (∀ id, c ≠ .free id) → (∀ t, c ≠ .transfer t) →
      wlp (pure () : Blk Unit) (fun _ _ => Dry cfg cmds d (q + 1)) h v d' :=
    fun h₁ h₂ h₃ => wp_pure (hd.skip hget h₁ h₂ (fun t heq => absurd heq (h₃ t)) (Worn.refl cfg d'))
  have hcommand : wlp (runCommand cfg c) (fun _ _ => Dry cfg cmds d (q + 1)) h v d' := by
    cases c with
    | transfer t => exact wp_transfer_dry hw hG hd hD hO hget
    | stash id src => exact wp_stash_dry hw hG hd hget
    | free id => exact wp_free_dry hw hd hget
    | zero tgt | new tgt | erase tgt =>
      unfold runCommand
      rw [hw]
      exact hskipped (by simp) (by simp) (by simp)
  unfold syncDevice
  rw [hw]
  exact wp_bind (wp_mono hcommand (fun _ _ _ _ hd' => wp_pure hd') (fun _ _ _ _ _ => trivial))

/-- A dry run that succeeds has seen that every transfer can be done, and has left all files with
the right contents. -/
theorem wp_runList_dry (hw : cfg.canwrite = false) (hroom : ∀ bytes,
    cfg.cacheSizeCheck bytes = true)
    (hD : Digest cfg) (hG : Guarantees cfg device newData cmds) (hO : Obtainable cfg cmds d)
    (hdir : d.stashDir = false → ∀ name, d.stash name = none) {maxblocks : Nat} {lines : List Text}
    (hlines : parseLines cfg lines = some cmds) :
    wlp (runList cfg maxblocks lines)
      (fun r _ _ d' => r = true → Feasible cfg cmds d 0 ∧ Worn cfg d d')
        h (.start newData []) d := by
  refine wp_bind (wp_attempt (wp_createStash_ok hroom rfl (fun _ _ _ => trivial) ?_))
  intro created h₁ d₁ ht _ hcreated
  have hd : Dry cfg cmds d 0 { Params.start newData [] with createdstash := created } d₁ := by
    refine ⟨ht.worn hD, ⟨rfl, rfl⟩, rfl, ?_, fun _ _ => rfl, ?_, ?_, ?_⟩
    · exact fun hc => (ht.worn hD).empty (hdir (hcreated hc))
    · exact fun id r hmap => absurd hmap (by simp [Params.start])
    · exact fun _ s _ hs => absurd hs (Nat.not_lt_zero s)
    · exact fun k _ hk => absurd hk (Nat.not_lt_zero k)
  refine wp_bind (wp_modify (wp_bind (wp_attempt ?_)))
  refine wp_mono (wp_performCommands_dry hw hD hG hO lines hlines hd) ?_ ?_
  · intro _ h₂ v₂ d₂ hd₂
    have hfeas : Feasible cfg cmds d 0 :=
      fun k t _ ht => hd₂.loadable k t (List.getElem?_eq_some_iff.mp ht).1 ht
    rw [hw]
    refine wp_bind (wp_known (sys_run hd₂.idle.faults) ?_)
    refine wp_ite (fun _ => wp_bind (wp_emit trivial ?_)) (fun hno => absurd rfl hno)
    refine wp_bind (wp_get ?_)
    rw [hd₂.resumable, hw]
    refine wp_ite (fun hc => ?_) (fun _ => wp_pure (fun _ => ⟨hfeas, hd₂.worn⟩))
    -- the directory that was made is removed again
    have hempty := hd₂.created (by simpa using hc)
    refine wp_bind (wp_deleteStash_ok hd₂.idle.faults (fun _ _ _ => trivial) ?_)
    intro h₃ d₃ hs
    refine wp_pure (fun _ => ⟨hfeas, hd₂.worn.trans ⟨hs.device, ?_⟩⟩)
    intro name
    rcases hs.stash name with hsame | hnone
    · exact .inl hsame
    · exact .inl (hnone.trans (hempty name).symm)
  · intro e h₂ v₂ d₂ _
    cases e with
    | error =>
      refine wp_mono (wp_finish_value false) ?_ (fun _ _ _ _ h => h)
      exact fun r _ _ _ hr hret => absurd (hr.symm.trans hret) (by simp)
    | check | memory => exact wp_fail trivial

end Rules

section Verify

variable {cfg : Config} {device : Nat → Block} {newData : List Bytes} {cmds : List Command}

theorem update_of_feasible (hS : Smooth cfg) (hG : Guarantees cfg device newData cmds) {list : Text}
    {maxblocks : Nat} {lines : List Text} (hlist : parseList cfg list = some (maxblocks, lines))
    (hlines : parseLines cfg lines = some cmds) {d : Disk} (h : Feasible cfg cmds d 0) :
    (performBlockImageUpdate cfg list (.start newData []) d).val = .ok true ∧
      (performBlockImageUpdate cfg list (.start newData []) d).vol.isunresumable = false := by
  have hmaintains : Maintains cfg cmds newData (fun _ _ => True) (fun _ => True) :=
    ⟨fun _ _ _ _ _ => trivial, fun _ _ _ => trivial, fun _ _ => trivial,
      fun _ _ _ => ⟨trivial, trivial⟩, fun _ _ _ => trivial⟩
  rw [performBlockImageUpdate_some hlist]
  have hwp : wp (fun _ _ => True) (runList cfg maxblocks lines)
      (fun r _ v _ => r = true ∧ v.isunresumable = false) (fun _ _ _ _ => False) []
      (.start newData []) d :=
    wp_runList_ok hS hG hmaintains hlines h trivial (fun _ _ _ _ hr _ _ => ⟨rfl, hr.resumable⟩)
  obtain ⟨r, hval, rfl, hres⟩ := wp_total hwp
  exact ⟨hval, hres⟩

end Verify

/--
**The dry run is sound.** If `block_image_verify` returns `t`, and no stash that is needed
gets lost by a `free`, then the update that follows does not find unexpected contents. It
starts on the same disk or on the one the dry run leaves behind.
-/
theorem verify_sound {cfg : Config} (hS : Smooth cfg) {list : Text} {maxblocks : Nat}
    {lines : List Text} {cmds : List Command} {newData : List Bytes} {device : Nat → Block}
    (hlist : parseList cfg list = some (maxblocks, lines))
    (hlines : parseLines cfg lines = some cmds)
    (hG : Guarantees cfg device newData cmds) {d d' : Disk}
    (hdir : d.stashDir = false → ∀ name, d.stash name = none) (hO : Obtainable cfg cmds d)
    (hverify : (performBlockImageUpdate { cfg with canwrite := false } list
      (.start newData []) d).val = .ok true)
    (hd' : d' = d ∨ d' = finished (performBlockImageUpdate { cfg with canwrite := false } list)
      (.start newData []) d) :
    (performBlockImageUpdate cfg list (.start newData []) d').vol.isunresumable = false ∧
      (performBlockImageUpdate cfg list (.start newData []) d').val = .ok true := by
  have hlist' : parseList { cfg with canwrite := false } list = some (maxblocks, lines) := hlist
  have hlines' := (parseLines_kind cfg.isRetry false lines).trans hlines
  have hD : Digest { cfg with canwrite := false } :=
    ⟨hS.digest.injective, hS.digest.nonempty, hS.digest.complete⟩
  rw [performBlockImageUpdate_some hlist'] at hverify hd'
  have hroom : ∀ bytes, ({ cfg with canwrite := false } : Config).cacheSizeCheck bytes = true :=
    hS.room
  have hO' : Obtainable { cfg with canwrite := false } cmds d := hO
  obtain ⟨hfeas, hworn⟩ := wp_ok (wp_runList_dry rfl hroom hD (hG.kind cfg.isRetry false) hO'
    hdir hlines'
    (h := [])) hverify rfl
  have hfeas' : Feasible cfg cmds d 0 := by
    intro k t hk ht
    rcases hfeas k t hk ht with hdone | hload
    · exact .inl hdone
    · exact .inr ⟨hload.stashes, hload.source⟩
  have hstart : Feasible cfg cmds d' 0 := by
    rcases hd' with rfl | rfl
    · exact hfeas'
    · exact hfeas'.congr hworn.device (fun _ hhas => hworn.has.mpr hhas)
  obtain ⟨hval, hres⟩ := update_of_feasible hS hG hlist hlines hstart
  exact ⟨hres, hval⟩

namespace Sample

theorem slide_obtainable {d : Disk} (h : Has config d front) :
    Obtainable config slideCommands d := by
  intro k t ht _
  obtain ⟨rfl, rfl⟩ := slide_transfer ht
  refine ⟨?_, fun hover => absurd hover (by decide +kernel)⟩
  intro id hid
  obtain rfl := mem_singleton.mp hid
  refine .inl ⟨h, ?_⟩
  intro l _ hl
  obtain rfl : l = 0 := by omega
  simp [slideCommands]

/-- `slide` was stopped after its first block. -/
def slideStopped : Disk :=
  stoppedAt (performBlockImageUpdate config slideList) (.start [] []) disk 5

/-- `slide` was stopped after its first block, and the stash was made twice. -/
def restashStopped : Disk :=
  stoppedAt (performBlockImageUpdate config restashList) (.start [] []) disk 11

end Sample

open Sample

theorem slide_verified : Obtainable config slideCommands slideStopped ∧
    (performBlockImageUpdate config slideList (.start [] [])
      slideStopped).vol.isunresumable = false := by
  have hdir : slideStopped.stashDir = true := by decide +kernel
  have hhas : Has config slideStopped front :=
    ⟨frontData, by decide +kernel, by decide +kernel⟩
  refine ⟨slide_obtainable hhas, (verify_sound smooth slide_list
    slide_lines slide_guarantees ?_ (slide_obtainable hhas) ?_ (.inl rfl)).1⟩
  · exact fun hno => absurd (hdir.symm.trans hno) (by simp)
  · decide +kernel

/-- **The dry run does not free.** On the disk that an interrupted update leaves behind
`block_image_verify` finds the stash and returns `t`; the update that follows frees it, cannot
make it again, and finds unexpected contents. -/
theorem restash_unsound :
    Guarantees config disk.device [] restashCommands ∧
    parseLines config [stashFront, freeFront, stashFront, slide] = some restashCommands ∧
    (performBlockImageUpdate { config with canwrite := false } restashList
      (.start [] []) restashStopped).val = .ok true ∧
    (performBlockImageUpdate config restashList
      (.start [] []) restashStopped).vol.isunresumable = true ∧
    (performBlockImageUpdate config restashList
      (.start [] []) restashStopped).val = .ok false := by
  refine ⟨restash_guarantees, by decide +kernel, by decide +kernel, ?_, ?_⟩
  · decide +kernel
  · decide +kernel

end Pterodon.Updater
