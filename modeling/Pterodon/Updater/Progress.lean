import Pterodon.Updater.Steps

/-!
# How an update gets on

From a disk on which every transfer still to come is done or can be done, a run that
writes gets through the whole list, if no system call fails. `Running` is the invariant of
the loop over the commands; `Preserves` says what a command leaves alone while it is under
way and `Performs` what is added once it is through, and everything about the commands to
come is derived from these two.

`Feasible` is the heart of it. A command can spoil a later transfer in two ways, by
writing over its source and by freeing its stash. The first is excluded by the creator of
the list; the second only if the stash is made again in between, and this is what `Avail`
keeps track of.
-/

namespace Pterodon.Updater

open Lib List ApplyPatch

variable (cfg : Config) {src : RangeSet} {Q : Post Unit}

/-- The bytes of new data that the commands before `k` take. -/
def newBefore (cmds : List Command) (k : Nat) : Nat := ((cmds.take k).map Command.newBytes).sum

/-- The target of a command is as it is meant to be in the end. -/
def Settled (stream : Bytes) (before : Nat) (device : Nat → Block) : Command → Prop
  | .transfer t => cfg.sha1 (t.tgt.contents device) = t.tgthash
  | .zero tgt => tgt.contents device = List.replicate tgt.blocks Block.zero
  | .new tgt => toBytes (tgt.contents device) = (stream.drop before).take (tgt.blocks * BLOCKSIZE)
  | .erase tgt => tgt.contents device = tgt.blockList.map cfg.discarded
  | .stash .. => True
  | .free .. => True

/-- Every transfer from `q` on is done or can be done. -/
def Feasible (cmds : List Command) (d : Disk) (q : Nat) : Prop :=
  ∀ k t, q ≤ k → cmds[k]? = some (.transfer t) → Done cfg d t ∨ Loadable cfg cmds d q k t

/-- Every file of the stash holds what its name promises. -/
def Sound (d : Disk) : Prop :=
  ∀ name, Complete name → (d.stash name).isSome = true → Has cfg d name

/-- What holds from the start of a command on. -/
structure Preserves (cfg : Config) (c : Command) (d d' : Disk) : Prop where
  device : ∀ b, b ∉ c.targets → d'.device b = d.device b
  has : ∀ id, c ≠ .free id → Has cfg d id → Has cfg d' id
  files : ∀ name, Complete name →
    d'.stash name = d.stash name ∨ d'.stash name = none ∨ Has cfg d' name
  /-- A transfer that is done already is left alone. -/
  kept : ∀ t, c = .transfer t → Done cfg d t → Done cfg d' t

/-- What holds when the command is through. -/
structure Performs (cfg : Config) (c : Command) (d d' : Disk) : Prop extends
    Preserves cfg c d d' where
  made : ∀ id r, c = .stash id r → cfg.sha1 (r.contents d.device) = id → Has cfg d' id

/-- The state before command `q`. -/
structure Running (cfg : Config) (cmds : List Command) (newData : List Bytes) (q : Nat)
    (v : Params) (d : Disk) : Prop where
  idle : Idle v
  resumable : v.isunresumable = false
  stream : v.newData.flatten = newData.flatten.drop (newBefore cmds q)
  stashDir : d.stashDir = true
  /-- A stash made by this run has the right contents. -/
  mapped : ∀ id blocks, Complete id → v.stashMap id ≠ none → d.stash id = some (.whole blocks) →
    cfg.sha1 blocks = id
  settled : ∀ k c, k < q → cmds[k]? = some c →
    Settled cfg newData.flatten (newBefore cmds k) d.device c
  feasible : Feasible cfg cmds d q

/-! ## The commands to come -/

section Later

variable {cfg : Config} {device : Nat → Block} {newData : List Bytes} {cmds : List Command}
  {c : Command} {d d' : Disk} {q k : Nat} {id : Text} {t : Transfer}

theorem Has.congr (h : Has cfg d id) (hfile : d'.stash id = d.stash id) : Has cfg d' id := by
  obtain ⟨data, hdata, hsha⟩ := h
  exact ⟨data, hfile.trans hdata, hsha⟩

theorem Has.complete (hD : Digest cfg) (h : Has cfg d id) : Complete id := by
  obtain ⟨data, _, hsha⟩ := h
  rw [← hsha]
  exact hD.complete data

theorem Sound.preserved (h : Sound cfg d) (hp : Preserves cfg c d d') : Sound cfg d' := by
  intro name hname hsome
  rcases hp.files name hname with hfile | hfile | hhas
  · rw [hfile] at hsome
    exact (h name hname hsome).congr hfile
  · rw [hfile] at hsome
    cases hsome
  · exact hhas

variable (hG : Guarantees cfg device newData cmds) (hc : cmds[q]? = some c)

include hG hc

theorem Preserves.contents (hp : Preserves cfg c d d') {s : Nat} {r : RangeSet} (hqs : q ≤ s)
    (hs : cmds[s]? = some (.stash id r)) : r.contents d'.device = r.contents d.device := by
  refine map_congr_left ?_
  intro b hb
  refine hp.device b ?_
  rcases Nat.lt_or_eq_of_le hqs with hlt | rfl
  · exact fun hmem => hG.unread hlt hc hs b hmem hb
  · -- the command itself is the stash, and writes nothing
    rw [hs] at hc
    rw [← Option.some.inj hc]
    exact not_mem_nil

theorem Preserves.avail (hp : Preserves cfg c d d') (hk : q < k) (h : Avail cfg cmds d q k id) :
    Avail cfg cmds d' q k id := by
  rcases h with ⟨hhas, hkept⟩ | ⟨s, r, hqs, hsk, hs, hkept, hsha⟩
  · refine .inl ⟨hp.has id ?_ hhas, hkept⟩
    intro hfree
    exact hkept q (Nat.le_refl q) hk (hfree ▸ hc)
  · refine .inr ⟨s, r, hqs, hsk, hs, hkept, ?_⟩
    rw [hp.contents hG hc hqs hs]
    exact hsha

theorem Performs.avail (hp : Performs cfg c d d') (hk : q < k) (h : Avail cfg cmds d q k id) :
    Avail cfg cmds d' (q + 1) k id := by
  rcases hp.toPreserves.avail hG hc hk h with ⟨hhas, hkept⟩ | ⟨s, r, hqs, hsk, hs, hkept, hsha⟩
  · exact .inl ⟨hhas, hkept.mono (Nat.le_succ q)⟩
  rcases Nat.lt_or_eq_of_le hqs with hlt | rfl
  · exact .inr ⟨s, r, hlt, hsk, hs, hkept, hsha⟩
  · -- the stash was made by this very command
    refine .inl ⟨hp.made id r (Option.some.inj (hc.symm.trans hs)) ?_, hkept⟩
    rw [← hp.contents hG hc hqs hs]
    exact hsha

theorem Preserves.settled (hp : Preserves cfg c d d') {c' : Command} (hc' : cmds[k]? = some c')
    (hne : q ≠ k) {stream : Bytes} {n : Nat} (h : Settled cfg stream n d.device c') :
    Settled cfg stream n d'.device c' := by
  have heq : ∀ tgt : RangeSet, tgt.blockList = c'.targets →
      tgt.contents d'.device = tgt.contents d.device := by
    intro tgt htgt
    refine map_congr_left ?_
    intro b hb
    rw [htgt] at hb
    exact hp.device b (fun hmem => hG.disjoint hne hc hc' b hmem hb)
  cases c' with
  | transfer t => exact (congrArg cfg.sha1 (heq t.tgt rfl)).trans h
  | zero tgt => exact (heq tgt rfl).trans h
  | new tgt => exact (congrArg toBytes (heq tgt rfl)).trans h
  | erase tgt => exact (heq tgt rfl).trans h
  | stash | free => trivial

theorem Preserves.done (hp : Preserves cfg c d d') (ht : cmds[k]? = some (.transfer t))
    (h : Done cfg d t) : Done cfg d' t := by
  by_cases hne : q = k
  · subst hne
    exact hp.kept t (Option.some.inj (hc.symm.trans ht)) h
  · have hset : Settled cfg [] 0 d.device (.transfer t) := h
    exact hp.settled hG hc ht hne hset

theorem Preserves.loadable (hp : Preserves cfg c d d') (ht : cmds[k]? = some (.transfer t))
    (hk : q < k) {q' : Nat}
    (havail : ∀ id, Avail cfg cmds d q k id → Avail cfg cmds d' q' k id)
    (h : Loadable cfg cmds d q k t) : Loadable cfg cmds d' q' k t := by
  refine ⟨fun id hid => havail id (h.stashes id hid), ?_⟩
  rcases h.source with hsrc | ⟨hover, hsrc⟩
  · refine .inl (hsrc.congr ?_)
    intro b hb
    exact hp.device b (fun hmem => hG.unread hk hc ht b hmem hb)
  · exact .inr ⟨hover, havail _ hsrc⟩

theorem Feasible.preserved (h : Feasible cfg cmds d q) (hp : Preserves cfg c d d')
    (hself : ∀ t, c = .transfer t → Done cfg d' t ∨ Loadable cfg cmds d' q q t) :
    Feasible cfg cmds d' q := by
  intro k t hk ht
  rcases Nat.lt_or_eq_of_le hk with hlt | rfl
  · rcases h k t hk ht with hdone | hload
    · exact .inl (hp.done hG hc ht hdone)
    · exact .inr (hp.loadable hG hc ht hlt (fun _ ha => hp.avail hG hc hlt ha) hload)
  · exact hself t (Option.some.inj (hc.symm.trans ht))

theorem Feasible.performed (h : Feasible cfg cmds d q) (hp : Performs cfg c d d') :
    Feasible cfg cmds d' (q + 1) := by
  intro k t hk ht
  have hlt : q < k := hk
  rcases h k t (Nat.le_of_lt hlt) ht with hdone | hload
  · exact .inl (hp.done hG hc ht hdone)
  · exact .inr (hp.loadable hG hc ht hlt (fun _ ha => hp.avail hG hc hlt ha) hload)

end Later

/-! ## One command -/

section Commands

variable {cfg : Config} {c : Command} {d d' : Disk}

theorem Frame.performs (h : Frame (· ∈ c.targets) d d') (hc : ∀ id r, c ≠ .stash id r)
    (hkept : ∀ t, c = .transfer t → Done cfg d t → Done cfg d' t) : Performs cfg c d d' where
  device b hb := h.device b hb
  has id _ hhas := hhas.congr (by rw [h.stash])
  files name _ := .inl (by rw [h.stash])
  kept := hkept
  made id r heq := absurd heq (hc id r)

/-- One file of the stash may change, and may be lost to `free` only. -/
theorem Changes.preserves {id : Text} (hD : Digest cfg)
    (h : Changes (· ∈ c.targets) (· = id) d d') (hhas : c ≠ .free id → Has cfg d id → Has cfg d' id)
    (hfile : d'.stash id = d.stash id ∨ d'.stash id = none ∨ Has cfg d' id)
    (hkept : ∀ t, c = .transfer t → Done cfg d t → Done cfg d' t) : Preserves cfg c d d' where
  device := h.device
  has id' hne hhas' := by
    by_cases heq : id' = id
    · subst heq
      exact hhas hne hhas'
    · exact hhas'.congr (h.stash id' (hhas'.complete hD) heq)
  files name hname := by
    by_cases heq : name = id
    · subst heq
      exact hfile
    · exact .inl (h.stash name hname heq)
  kept := hkept

theorem Underway.preserves {t : Transfer} {data : List Block} (hD : Digest cfg)
    (hdata : cfg.sha1 data = t.srchash) (hnot : ¬ Done cfg d t) (h : Underway cfg t data d d') :
    Preserves cfg (.transfer t) d d' := by
  refine h.changes.preserves hD (fun _ hhas => ?_) ?_
    (fun t' heq hdone => absurd (Command.transfer.inj heq ▸ hdone) hnot)
  · rcases h.file with hfile | ⟨hnone, _⟩
    · exact hhas.congr hfile
    · obtain ⟨blocks, hfile, _⟩ := hhas
      rw [hnone] at hfile
      cases hfile
  · exact h.file.imp_right (fun hfile => .inr ⟨data, hfile.2, hdata⟩)

theorem Underway.again {cmds : List Command} {q : Nat} {t : Transfer} {s : Source}
    {data : List Block} (hs : parseSource cfg t.source = some s)
    (hsound : Sound cfg d') (hp : Preserves cfg (.transfer t) d d') (hcomplete : Complete t.srchash)
    (h : Underway cfg t data d d') (hload : Loadable cfg cmds d q q t) :
    Done cfg d' t ∨ Loadable cfg cmds d' q q t := by
  have havail : ∀ id, Avail cfg cmds d q q id → Avail cfg cmds d' q q id := by
    intro id ha
    exact .inl ⟨hp.has id (by simp) ha.has, fun l hl hl' => absurd hl (Nat.not_le.mpr hl')⟩
  by_cases hdone : Done cfg d' t
  · exact .inl hdone
  refine .inr ⟨fun id hid => havail id (hload.stashes id hid), ?_⟩
  rcases hload.source with hsrc | ⟨hover, hsrc⟩
  · -- the source was on the device
    rcases h.safe with hdev | hkept | hdone'
    · exact .inl (hsrc.congr (fun b _ => by rw [hdev]))
    · by_cases hover : t.overlaps cfg = true
      · refine .inr ⟨hover, .inl ⟨hsound _ hcomplete (hkept hover), ?_⟩⟩
        exact fun l hl hl' => absurd hl (Nat.not_le.mpr hl')
      · refine .inl (hsrc.congr ?_)
        intro b hb
        exact h.changes.device b (sources_disjoint hs (by simpa using hover) b hb)
    · exact absurd hdone' hdone
  · exact .inr ⟨hover, havail _ hsrc⟩

theorem Stashing.preserves {id : Text} (hD : Digest cfg) (h : Stashing cfg id d d') :
    Preserves cfg (.stash id src) d d' := by
  refine (h.changes.mono (fun _ hb => hb.elim) (fun _ hn => hn)).preserves hD (fun _ hhas => ?_)
    (h.file.imp_right And.right) (by simp)
  rcases h.file with hfile | ⟨hnot, _⟩
  · exact hhas.congr hfile
  · exact absurd hhas hnot

theorem StashedTo.performs {id : Text} (hD : Digest cfg) (h : StashedTo cfg id src d d') :
    Performs cfg (.stash id src) d d' := by
  refine ⟨(h.changes.mono (fun _ hb => hb.elim) (fun _ hn => hn)).preserves hD
    (fun _ hhas => h.has (.inl hhas)) h.file (by simp), ?_⟩
  intro id' r heq hsha
  obtain ⟨rfl, rfl⟩ := Command.stash.inj heq
  exact h.has (.inr hsha)

theorem freed_performs {id : Text} (hD : Digest cfg) (h : Changes (fun _ => False) (· = id) d d')
    (hnone : d'.stash id = none) : Performs cfg (.free id) d d' :=
  ⟨(h.mono (fun _ hb => hb.elim) (fun _ hn => hn)).preserves hD (fun hne => absurd rfl hne)
    (.inr (.inl hnone)) (by simp), by simp⟩

end Commands

section Running

variable {I : List Event → Disk → Prop} {E : Post Halt}
  {h : List Event} {v v' : Params} {d d' : Disk} {cfg : Config} {device : Nat → Block}
  {newData : List Bytes} {cmds : List Command} {c : Command} {q : Nat}

theorem newBefore_succ (hc : cmds[q]? = some c) :
    newBefore cmds (q + 1) = newBefore cmds q + c.newBytes := by
  unfold newBefore
  rw [take_add_one, hc]
  simp

variable (hr : Running cfg cmds newData q v d) (hG : Guarantees cfg device newData cmds)
  (hS : Smooth cfg)
include hr

theorem Running.mapped_congr (hstash : ∀ name, Complete name → d'.stash name = d.stash name)
    (hmap : v'.stashMap = v.stashMap) :
    ∀ id blocks, Complete id → v'.stashMap id ≠ none → d'.stash id = some (.whole blocks) →
      cfg.sha1 blocks = id := by
  intro id blocks hid hne hfile
  rw [hmap] at hne
  rw [hstash id hid] at hfile
  exact hr.mapped id blocks hid hne hfile

include hG

theorem Running.enough (hc : cmds[q]? = some c) : c.newBytes ≤ v.newData.flatten.length := by
  have hsum : newBefore cmds (q + 1) ≤ (cmds.map Command.newBytes).sum := by
    unfold newBefore
    nth_rewrite 2 [← take_append_drop (q + 1) cmds]
    rw [map_append, sum_append]
    omega
  have hle := Nat.le_trans hsum (Nat.le_of_eq hG.news)
  rw [newBefore_succ hc] at hle
  rw [hr.stream, length_drop]
  omega

theorem Running.next (hc : cmds[q]? = some c) (hp : Performs cfg c d d')
    (hidle : Idle v') (hres : v'.isunresumable = false) (hdir : d'.stashDir = d.stashDir)
    (hstream : v'.newData.flatten = v.newData.flatten.drop c.newBytes)
    (hmapped : ∀ id blocks, Complete id → v'.stashMap id ≠ none → d'.stash id =
      some (.whole blocks) →
      cfg.sha1 blocks = id)
    (hself : Settled cfg newData.flatten (newBefore cmds q) d'.device c) :
    Running cfg cmds newData (q + 1) v' d' where
  idle := hidle
  resumable := hres
  stream := by rw [hstream, hr.stream, drop_drop, newBefore_succ hc]
  stashDir := hdir.trans hr.stashDir
  mapped := hmapped
  settled := by
    intro k c' hk hc'
    rcases Nat.lt_or_eq_of_le (Nat.le_of_lt_succ hk) with hlt | rfl
    · exact hp.settled hG hc hc' (Nat.ne_of_gt hlt) (hr.settled k c' hlt hc')
    · rw [← Option.some.inj (hc.symm.trans hc')]
      exact hself
  feasible := hr.feasible.performed hG hc hp

include hS

theorem wp_transfer_ok {t : Transfer} (hc : cmds[q]? = some (.transfer t))
    (hi : ∀ h' d', Preserves cfg (.transfer t) d d' →
      (Sound cfg d → Done cfg d' t ∨ Loadable cfg cmds d' q q t) → I h' d')
    (hq : ∀ h' v' d', Performs cfg (.transfer t) d d' → Running cfg cmds newData (q + 1) v' d' →
      Q () h' v' d') : wp I (runTransfer cfg t) Q E h v d := by
  obtain ⟨s, data, out, hm⟩ := hG.means hc
  have hmem := mem_of_getElem? hc
  have htgt : ∀ b ∈ t.tgt.blockList, b < cfg.deviceBlocks := fun b hb => hG.fits _ hmem b (.inl hb)
  have hon : ∀ b ∈ t.sources cfg, b < cfg.deviceBlocks := fun b hb => hG.fits _ hmem b (.inr hb)
  have hcomplete : Complete t.srchash := hm.srchash ▸ hS.digest.complete data
  by_cases hdone : Done cfg d t
  · refine wp_runTransfer_done hr.idle htgt hdone ?_
    have hp : Performs cfg (.transfer t) d d :=
      Frame.performs (Frame.refl _ d) (by simp) (fun _ _ hd => hd)
    exact hq h v d hp (hr.next hG hc hp hr.idle hr.resumable rfl drop_zero.symm hr.mapped hdone)
  have hload := (hr.feasible q t (Nat.le_refl q) hc).resolve_left hdone
  refine wp_runTransfer_ok hS hr.idle hr.stashDir hm (hG.nodup _ hmem) htgt hon hdone
    (fun id hid => (hload.stashes id hid).has)
    (hload.source.imp_right (fun hsrc => ⟨hsrc.1, hsrc.2.has⟩)) ?_ ?_
  · intro h' d' hu
    have hp := hu.preserves hS.digest hm.srchash hdone
    refine hi h' d' hp ?_
    exact fun hsound => hu.again hm.source (hsound.preserved hp) hp hcomplete hload
  · intro h' b d' hch hout
    have hp : Performs cfg (.transfer t) d d' :=
      ⟨⟨hch.device, fun id _ hhas => hhas.congr (hch.stash id (hhas.complete hS.digest)
        (fun hf => hf)),
        fun name hname => .inl (hch.stash name hname (fun hf => hf)),
        fun t' heq hd => absurd (Command.transfer.inj heq ▸ hd) hdone⟩,
        fun _ _ heq => absurd heq (by simp)⟩
    refine hq h' _ d' hp (hr.next hG hc hp ⟨hr.idle.faults, hr.idle.freestash⟩ hr.resumable
      hch.stashDir drop_zero.symm ?_ ?_)
    · exact hr.mapped_congr (fun name hname => hch.stash name hname (fun hf => hf)) rfl
    · exact (congrArg cfg.sha1 hout).trans hm.tgthash

theorem wp_stash_ok {id : Text} (hc : cmds[q]? = some (.stash id src))
    (hi : ∀ h' d', Preserves cfg (.stash id src) d d' → I h' d')
    (hq : ∀ h' v' d', Performs cfg (.stash id src) d d' → Running cfg cmds newData (q + 1) v' d' →
      Q () h' v' d') : wp I (runStash cfg id src) Q E h v d := by
  have hmem := mem_of_getElem? hc
  have hcomplete : Complete id := hG.named hc ▸ hS.digest.complete _
  refine wp_runStash_ok hS hr.idle.faults hr.stashDir (cfg.entryOf_hash (hG.named hc)) hcomplete
    (fun b hb => hG.fits _ hmem b (.inr hb)) ?_ ?_ ?_
  · intro blocks hfile hne
    by_contra hmap
    exact hne (hr.mapped id blocks hcomplete hmap hfile)
  · exact fun h' d' hst => hi h' d' (hst.preserves hS.digest)
  · intro h' b m d' hm hst
    have hp : Performs cfg (.stash id src) d d' := hst.performs hS.digest
    refine hq h' _ d' hp (hr.next hG hc hp ⟨hr.idle.faults, hr.idle.freestash⟩ hr.resumable
      hst.changes.stashDir drop_zero.symm ?_ trivial)
    intro id' blocks hid hne hfile
    by_cases heq : id' = id
    · subst heq
      exact hst.sound blocks hfile
    · have hmap : m id' = v.stashMap id' := by
        rcases hm with rfl | rfl
        · rfl
        · exact Function.update_of_ne heq _ _
      rw [hst.changes.stash id' hid heq] at hfile
      exact hr.mapped id' blocks hid (hmap ▸ hne) hfile

theorem wp_freed_ok {id : Text} (hc : cmds[q]? = some (.free id))
    (hi : ∀ h' d', Preserves cfg (.free id) d d' → I h' d')
    (hq : ∀ h' v' d', Performs cfg (.free id) d d' → Running cfg cmds newData (q + 1) v' d' →
      Q () h' v' d') : wp I (performCommandFree cfg [id]) Q E h v d := by
  obtain ⟨s, r, _, hs⟩ := hG.freed hc
  have hne : id ≠ [] := hG.named hs ▸ hS.digest.nonempty _
  refine wp_free_ok hS.writes hr.idle.faults hne (cfg.entryOf_hash (hG.named hs)) ?_ ?_
  · exact fun h' d' hch hnone => hi h' d' (freed_performs hS.digest hch hnone).toPreserves
  · intro h' d' hch hnone
    have hp := freed_performs hS.digest hch hnone
    refine hq h' _ d' hp (hr.next hG hc hp ⟨hr.idle.faults, hr.idle.freestash⟩ hr.resumable
      hch.stashDir drop_zero.symm ?_ trivial)
    intro id' blocks hid hmap hfile
    by_cases heq : id' = id
    · subst heq
      exact absurd (Function.update_self ..) hmap
    · rw [hch.stash id' hid heq] at hfile
      have hsame : Function.update v.stashMap id none id' = v.stashMap id' :=
        Function.update_of_ne heq _ _
      exact hr.mapped id' blocks hid (hsame ▸ hmap) hfile

theorem wp_runCommand_ok (hc : cmds[q]? = some c)
    (hi : ∀ h' d', Preserves cfg c d d' → (Sound cfg d → Feasible cfg cmds d' q) → I h' d')
    (hq : ∀ h' v' d', Performs cfg c d d' → Running cfg cmds newData (q + 1) v' d' →
      Q () h' v' d') :
    wp I (runCommand cfg c) Q E h v d := by
  have hmem := mem_of_getElem? hc
  have hother : (∀ t, c ≠ .transfer t) → ∀ h' d', Preserves cfg c d d' → I h' d' := by
    intro hnot h' d' hp
    refine hi h' d' hp (fun _ => hr.feasible.preserved hG hc hp ?_)
    exact fun t heq => absurd heq (hnot t)
  -- the commands that only write a target
  have hframe : (∀ t, c ≠ .transfer t) → (∀ id r, c ≠ .stash id r) →
      ∀ h' d', Frame (· ∈ c.targets) d d' → I h' d' :=
    fun hnot hnot' h' d' hf => hother hnot h' d'
      (Frame.performs hf hnot' (fun t heq => absurd heq (hnot t))).toPreserves
  have hdone : (∀ t, c ≠ .transfer t) → (∀ id r, c ≠ .stash id r) →
      ∀ h' v' d', Frame (· ∈ c.targets) d d' → Idle v' →
      v'.isunresumable = v.isunresumable → v'.stashMap = v.stashMap →
      v'.newData.flatten = v.newData.flatten.drop c.newBytes →
      Settled cfg newData.flatten (newBefore cmds q) d'.device c → Q () h' v' d' := by
    intro hnot hnot' h' v' d' hf hidle hres hmap hstream hset
    have hp : Performs cfg c d d' :=
      Frame.performs hf hnot' (fun t heq => absurd heq (hnot t))
    refine hq h' v' d' hp (hr.next hG hc hp hidle (hres.trans hr.resumable) hf.stashDir
      hstream ?_ hset)
    exact hr.mapped_congr (fun name _ => by rw [hf.stash]) hmap
  have hidle : ∀ {v' : Params}, v'.faults = v.faults → v'.freestash = v.freestash → Idle v' :=
    fun hf hfree => ⟨hf.trans hr.idle.faults, hfree.trans hr.idle.freestash⟩
  cases c with
  | transfer t =>
    refine wp_transfer_ok hr hG hS hc ?_ hq
    intro h' d' hp hself
    refine hi h' d' hp (fun hsound => hr.feasible.preserved hG hc hp ?_)
    intro t' heq
    rw [← Command.transfer.inj heq]
    exact hself hsound
  | stash id src => exact wp_stash_ok hr hG hS hc (hother (by simp)) hq
  | free id => exact wp_freed_ok hr hG hS hc (hother (by simp)) hq
  | zero tgt =>
    show wp I (if cfg.canwrite then runZero cfg tgt else pure ()) Q E h v d
    rw [if_pos hS.writes]
    refine wp_runZero_ok hr.idle.faults (hG.nodup _ hmem) (fun b hb => hG.fits _ hmem b (.inl hb))
      (hframe (by simp) (by simp)) ?_
    intro h' b d' hf hzero
    exact hdone (by simp) (by simp) h' _ d' hf (hidle rfl rfl) rfl rfl drop_zero.symm hzero
  | new tgt =>
    show wp I (if cfg.canwrite then runNew cfg tgt else pure ()) Q E h v d
    rw [if_pos hS.writes]
    refine wp_runNew_ok hr.idle.faults (hG.nodup _ hmem) (fun b hb => hG.fits _ hmem b (.inl hb))
      (hr.enough hG hc) (hframe (by simp) (by simp)) ?_
    intro h' rest d' hf hnew hrest
    refine hdone (by simp) (by simp) h' _ d' hf (hidle rfl rfl) rfl rfl hrest ?_
    rw [hr.stream] at hnew
    exact hnew
  | erase tgt =>
    show wp I (if cfg.canwrite then runErase cfg tgt else pure ()) Q E h v d
    rw [if_pos hS.writes]
    refine wp_runErase_ok hr.idle.faults (hG.erases tgt hmem) (hframe (by simp) (by simp)) ?_
    intro h' d' hf herase
    exact hdone (by simp) (by simp) h' _ d' hf hr.idle rfl rfl drop_zero.symm herase

end Running

/-! ## The whole list -/

/-- The commands of some lines; empty lines are passed over. -/
def parseLines : List Text → Option (List Command)
  | [] => some []
  | line :: lines =>
    if line = [] then parseLines lines
    else
      match parseCommand cfg line, parseLines lines with
      | some c, some cs => some (c :: cs)
      | _, _ => none

/-- Files may be gone from the stash. -/
structure Swept (d d' : Disk) : Prop where
  device : d'.device = d.device
  stash : ∀ name, d'.stash name = d.stash name ∨ d'.stash name = none

/-- Files may be gone from the stash, but only those not completed. -/
structure Tidied (d d' : Disk) : Prop extends Swept d d' where
  complete : ∀ name, Complete name → d'.stash name = d.stash name

section Lists

variable {I : List Event → Disk → Prop} {E : Post Halt}
  {cfg : Config} {device : Nat → Block} {newData : List Bytes} {cmds : List Command}

theorem Feasible.congr {d d' : Disk} {q : Nat} (h : Feasible cfg cmds d q)
    (hdev : d'.device = d.device) (hhas : ∀ id, Has cfg d id → Has cfg d' id) :
    Feasible cfg cmds d' q := by
  have havail : ∀ {k : Nat} {id : Text}, Avail cfg cmds d q k id → Avail cfg cmds d' q k id := by
    intro k id ha
    rcases ha with ⟨hfile, hkept⟩ | ⟨s, r, hs, hk, hstash, hkept, hsha⟩
    · exact .inl ⟨hhas id hfile, hkept⟩
    · exact .inr ⟨s, r, hs, hk, hstash, hkept, by rw [hdev]; exact hsha⟩
  intro k t hk hc
  rcases h k t hk hc with hdone | hload
  · exact .inl (hdone.congr (fun b _ => by rw [hdev]))
  · refine .inr ⟨fun id hid => havail (hload.stashes id hid), ?_⟩
    rcases hload.source with hsrc | ⟨hover, hsrc⟩
    · exact .inl (hsrc.congr (fun b _ => by rw [hdev]))
    · exact .inr ⟨hover, havail hsrc⟩

theorem Feasible.tidied {d d' : Disk} {q : Nat} (hD : Digest cfg) (h : Feasible cfg cmds d q)
    (ht : Tidied d d') : Feasible cfg cmds d' q :=
  h.congr ht.device (fun id hhas => hhas.congr (ht.complete id (hhas.complete hD)))

theorem Swept.refl (d : Disk) : Swept d d := ⟨rfl, fun _ => .inl rfl⟩

theorem Swept.trans {d d' d'' : Disk} (h : Swept d d') (h' : Swept d' d'') : Swept d d'' := by
  refine ⟨h'.device.trans h.device, ?_⟩
  intro name
  rcases h'.stash name with hsame | hnone
  · rw [hsame]
    exact h.stash name
  · exact .inr hnone

theorem Tidied.refl (d : Disk) : Tidied d d := ⟨Swept.refl d, fun _ _ => rfl⟩

theorem Tidied.trans {d d' d'' : Disk} (h : Tidied d d') (h' : Tidied d' d'') : Tidied d d'' :=
  ⟨h.toSwept.trans h'.toSwept,
    fun name hname => (h'.complete name hname).trans (h.complete name hname)⟩

theorem swept_unlink (name : Text) (cause : Cause) (d : Disk) :
    Swept d (Effect.act (Event.unlink name cause) d) := by
  refine ⟨rfl, ?_⟩
  intro name'
  by_cases heq : name' = name
  · subst heq
    exact .inr (Function.update_self ..)
  · exact .inl (Function.update_of_ne heq _ _)

theorem wp_deleteAll {P : Event → Prop} {cause : Cause} : ∀ (names : List Text) {h : List Event}
    {v : Params} {d : Disk} {Q : Post Unit},
    (∀ name ∈ names, P (.unlink name cause)) → v.faults = [] →
    (∀ h' d', Extends P h d h' d' → I h' d') → (∀ h' d', Extends P h d h' d' → Q () h' v d') →
    wp I (deleteAll cause names) Q E h v d
  | [], _, _, _, _, _, _, _, hq => wp_pure (hq _ _ (Extends.refl _ _ _))
  | name :: names, h, v, d, Q, hP, hf, hi, hq => by
    have hrest := fun n hn => hP n (mem_cons_of_mem name hn)
    refine wp_bind (wp_bind (wp_known (sys_run hf) (wp_bind (wp_disk ?_))))
    refine wp_ite (fun _ => ?_) (fun _ => wp_pure (wp_deleteAll names hrest hf hi hq))
    have hx : Extends P h d (h ++ [Event.unlink name cause])
        (Effect.act (Event.unlink name cause) d) :=
      (Extends.refl _ _ _).emit (hP name mem_cons_self)
    refine wp_emit (hi _ _ hx) (wp_deleteAll names hrest hf ?_ ?_)
    · exact fun h' d' hx' => hi h' d' (hx.trans hx')
    · exact fun h' d' hx' => hq h' d' (hx.trans hx')

theorem wp_deletePartial_ok {stash : Text → Option StashFile} {h : List Event} {v : Params}
    {d : Disk} (hf : v.faults = []) (hi : ∀ h' d', Tidied d d' → d'.stashDir = d.stashDir → I h' d')
    (hq : ∀ h' d', Tidied d d' → d'.stashDir = d.stashDir → Q () h' v d') :
    wp I (deleteAll .partialFile
      ((cfg.readdir stash).filter (fun name => partialSuffix.isSuffixOf name))) Q E h v d := by
  have hkeeps : ∀ {h' : List Event} {d' : Disk},
      Extends (fun e => ∃ name, ¬ Complete name ∧ e = Event.unlink name .partialFile) h d h' d' →
      Tidied d d' ∧ d'.stashDir = d.stashDir := by
    intro h' d' hx
    refine hx.rel (R := fun d d' : Disk => Tidied d d' ∧ d'.stashDir = d.stashDir)
      (fun d => ⟨Tidied.refl d, rfl⟩) (fun h₁ h₂ => ⟨h₁.1.trans h₂.1, h₂.2.trans h₁.2⟩) ?_
    rintro _ d ⟨name, hname, rfl⟩
    refine ⟨⟨swept_unlink name .partialFile d, ?_⟩, rfl⟩
    intro name' hname'
    refine Function.update_of_ne ?_ _ _
    rintro rfl
    exact hname hname'
  refine wp_deleteAll _ ?_ hf (fun h' d' hx => hi h' d' (hkeeps hx).1 (hkeeps hx).2)
    (fun h' d' hx => hq h' d' (hkeeps hx).1 (hkeeps hx).2)
  intro name hname
  refine ⟨name, ?_, rfl⟩
  have := (mem_filter.mp hname).2
  unfold Complete
  rw [this]
  simp

/-- `CreateStash` succeeds and removes files that were not completed only. -/
theorem wp_createStash_ok (hroom : ∀ bytes, cfg.cacheSizeCheck bytes = true) {maxblocks : Nat}
    {h : List Event} {v : Params} {d : Disk} {Q : Post Bool}
    (hf : v.faults = []) (hi : ∀ h' d', Tidied d d' → I h' d')
    (hq : ∀ created h' d', Tidied d d' → d'.stashDir = true →
      (created = true → d.stashDir = false) →
      Q created h' v d') : wp I (createStash cfg maxblocks) Q E h v d := by
  refine wp_bind (wp_disk (wp_ite (fun hno => ?_) (fun hdir => ?_)))
  · have hmk : Tidied d (Effect.act Event.mkdir d) := ⟨⟨rfl, fun _ => .inl rfl⟩, fun _ _ => rfl⟩
    refine wp_bind (wp_call_ok hf (wp_bind (wp_emit (hi _ _ hmk) (wp_bind (wp_require ?_ ?_)))))
    · exact fun _ => wp_pure (hq _ _ _ hmk rfl (fun _ => by simpa using hno))
    · exact fun hno => absurd ((hroom _).symm.trans hno) (by simp)
  · have hdir : d.stashDir = true := by simpa using hdir
    refine wp_bind (wp_deletePartial_ok hf (fun h' d' htidied _ => hi h' d' htidied) ?_)
    intro h' d' htidied hkept
    refine wp_bind (wp_disk (wp_bind (wp_require ?_ ?_)))
    · exact fun _ => wp_pure (hq _ _ _ htidied (hkept.trans hdir) (by simp))
    · intro hno
      rw [hroom, Bool.or_true] at hno
      cases hno

theorem wp_deleteStash_ok {h : List Event} {v : Params} {d : Disk} (hf : v.faults = [])
    (hi : ∀ h' d', Swept d d' → I h' d') (hq : ∀ h' d', Swept d d' → Q () h' v d') :
    wp I (deleteStash cfg) Q E h v d := by
  have hswept : ∀ {h' : List Event} {d' : Disk},
      Extends (fun e => ∃ name, e = Event.unlink name .stashDir) h d h' d' → Swept d d' := by
    intro h' d' hx
    refine hx.rel Swept.refl Swept.trans ?_
    rintro _ d ⟨name, rfl⟩
    exact swept_unlink name .stashDir d
  refine wp_bind (wp_disk (wp_bind (wp_deleteAll _ ?_ hf
    (fun h' d' hx => hi h' d' (hswept hx)) ?_)))
  · exact fun name _ => ⟨name, rfl⟩
  · intro h' d' hx
    refine wp_bind (wp_known (sys_run hf) (wp_bind (wp_disk (wp_ite (fun _ => ?_) (fun _ => ?_)))))
    · have hrm : Swept d' (Effect.act Event.rmdir d') := ⟨rfl, fun _ => .inl rfl⟩
      exact wp_emit (hi _ _ ((hswept hx).trans hrm)) (hq _ _ ((hswept hx).trans hrm))
    · exact wp_pure (hq _ _ (hswept hx))

theorem parseLines_cons {line : Text} {lines : List Text} {q : Nat} (hne : line ≠ [])
    (h : parseLines cfg (line :: lines) = some (cmds.drop q)) :
    ∃ c, parseCommand cfg line = some c ∧ q < cmds.length ∧ cmds[q]? = some c ∧
      parseLines cfg lines = some (cmds.drop (q + 1)) := by
  unfold parseLines at h
  rw [if_neg hne] at h
  cases hc : parseCommand cfg line with
  | none => rw [hc] at h; cases h
  | some c =>
    cases hrest : parseLines cfg lines with
    | none => rw [hc, hrest] at h; cases h
    | some rest =>
      rw [hc, hrest] at h
      have hdrop : c :: rest = cmds.drop q := Option.some.inj h
      have hget : cmds[q]? = some c := by
        rw [← head?_drop, ← hdrop]
        rfl
      refine ⟨c, rfl, (List.getElem?_eq_some_iff.mp hget).1, hget, ?_⟩
      rw [← tail_drop, ← hdrop]
      rfl

/-- The rule of the loop over the commands: what holds before command `q` holds before the next one
when the device was synced. -/
theorem wp_performCommands {J : Nat → Params → Disk → Prop}
    (hstep : ∀ {q : Nat} {c : Command} {h : List Event} {v : Params} {d : Disk}, cmds[q]? = some c →
      J q v d → wp I (runCommand cfg c >>= fun _ => syncDevice cfg) (fun _ _ => J (q + 1)) E h v d)
    (lines : List Text) {q : Nat} {h : List Event} {v : Params} {d : Disk} (hq : q ≤ cmds.length)
    (hlines : parseLines cfg lines = some (cmds.drop q)) (hinv : J q v d) :
    wp I (performCommands cfg lines) (fun _ _ => J cmds.length) E h v d := by
  induction lines generalizing q h v d with
  | nil =>
    have hlen : cmds.length ≤ q := drop_eq_nil_iff.mp (Option.some.inj hlines).symm
    obtain rfl := Nat.le_antisymm hlen hq
    exact wp_pure hinv
  | cons line lines ih =>
    refine wp_ite (fun hnil => ?_) (fun hne => ?_)
    · unfold parseLines at hlines
      rw [if_pos hnil] at hlines
      exact ih hq hlines hinv
    obtain ⟨c, hc, hlt, hget, hrest⟩ := parseLines_cons hne hlines
    rw [performCommand_eq hc, ← bind_assoc]
    refine wp_bind (wp_mono (hstep hget hinv) ?_ (fun _ _ _ _ he => he))
    exact fun _ _ _ _ hinv' => ih hlt hrest hinv'

/-- `P` is an assertion on the disk between two commands that every command of the list keeps;
while a command is under way there is `I` instead. -/
structure Maintains (cfg : Config) (cmds : List Command) (newData : List Bytes)
    (P : Nat → Disk → Prop) (I : Disk → Prop) : Prop where
  mid : ∀ {q : Nat} {c : Command} {v : Params} {d d' : Disk}, cmds[q]? = some c →
    Running cfg cmds newData q v d → P q d → Preserves cfg c d d' →
    (Sound cfg d → Feasible cfg cmds d' q) → I d'
  step : ∀ {q : Nat} {c : Command} {d d' : Disk}, cmds[q]? = some c → P q d → Performs cfg c d d' →
    P (q + 1) d'
  here : ∀ {q : Nat} {v : Params} {d : Disk}, Running cfg cmds newData q v d → P q d → I d
  tidy : ∀ {d d' : Disk}, P 0 d → Tidied d d' → Feasible cfg cmds d' 0 → P 0 d' ∧ I d'
  sweep : ∀ {v : Params} {d d' : Disk}, Running cfg cmds newData cmds.length v d →
    P cmds.length d → Swept d d' → I d'

section Run

variable {P : Nat → Disk → Prop} {J : Disk → Prop}

variable (hS : Smooth cfg) (hG : Guarantees cfg device newData cmds)
  (hP : Maintains cfg cmds newData P J)

include hS hG hP

theorem wp_performCommands_ok (lines : List Text) {h : List Event} {v : Params} {d : Disk}
    (hlines : parseLines cfg lines = some cmds) (hr : Running cfg cmds newData 0 v d) (hp : P 0 d) :
    wp (fun _ d => J d) (performCommands cfg lines)
      (fun _ _ v' d' => Running cfg cmds newData cmds.length v' d' ∧ P cmds.length d') E h v d := by
  refine wp_performCommands (J := fun q v d => Running cfg cmds newData q v d ∧ P q d) ?_ lines
    (Nat.zero_le _) hlines ⟨hr, hp⟩
  rintro q c h v d hget ⟨hr, hp⟩
  refine wp_bind (wp_runCommand_ok hr hG hS hget ?_ ?_)
  · exact fun _ d' hpre hfeas => hP.mid hget hr hp hpre hfeas
  · intro h₁ v₁ d₁ hperf hr₁
    have hp₁ := hP.step hget hp hperf
    unfold syncDevice
    rw [hS.writes]
    exact wp_bind (wp_call_ok hr₁.idle.faults (wp_emit (hP.here hr₁ hp₁) ⟨hr₁, hp₁⟩))

theorem wp_runList_ok {maxblocks : Nat} {lines : List Text} {h : List Event} {d : Disk}
    (hlines : parseLines cfg lines = some cmds) (hfeas : Feasible cfg cmds d 0)
    (hp : P 0 d) {Q : Post Bool}
    (hq : ∀ h' v' d₁ d', Running cfg cmds newData cmds.length v' d₁ → P cmds.length d₁ →
      d'.device = d₁.device → Q true h' v' d') :
    wp (fun _ d => J d) (runList cfg maxblocks lines) Q E h (.start newData []) d := by
  refine wp_bind (wp_attempt (wp_createStash_ok hS.room rfl ?_ ?_))
  · exact fun _ d' ht => (hP.tidy hp ht (hfeas.tidied hS.digest ht)).2
  intro created h₁ d₁ ht hdir _
  have hr : Running cfg cmds newData 0 { Params.start newData [] with createdstash := created }
    d₁ := by
    refine ⟨⟨rfl, rfl⟩, rfl, rfl, hdir, ?_, ?_, ?_⟩
    · exact fun id blocks _ hne => absurd rfl hne
    · exact fun k c hk => absurd hk (Nat.not_lt_zero k)
    · exact hfeas.tidied hS.digest ht
  refine wp_bind (wp_modify (wp_bind (wp_attempt ?_)))
  refine wp_mono (wp_performCommands_ok hS hG hP lines hlines hr
    (hP.tidy hp ht (hfeas.tidied hS.digest ht)).1) ?_ (fun _ _ _ _ he => he)
  rintro _ h₂ v₂ d₂ ⟨hr₂, hp₂⟩
  -- the stash directory is removed, and the device is synced a last time
  rw [if_pos hS.writes]
  refine wp_bind (wp_deleteStash_ok hr₂.idle.faults (fun _ d' hs => hP.sweep hr₂ hp₂ hs) ?_)
  intro h₃ d₃ hs
  refine wp_bind (wp_known (sys_run hr₂.idle.faults) ?_)
  refine wp_ite (fun _ => wp_bind (wp_emit (hP.sweep hr₂ hp₂ hs) ?_)) (fun hno => absurd rfl hno)
  refine wp_bind (wp_get ?_)
  rw [hr₂.resumable, hS.writes]
  exact wp_pure (hq _ v₂ d₂ d₃ hr₂ hp₂ hs.device)

end Run

end Lists

end Pterodon.Updater
