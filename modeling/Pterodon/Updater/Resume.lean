import Pterodon.Updater.Progress

/-!
# Updates that are interrupted

An update that was stopped is started again from the first command, on whatever the
stopped run left behind. It gets through if every transfer is done or can be done, so this
is the invariant, `Recoverable`, of all the states in which an update can be stopped.

A rerun goes through the commands before the point of interruption again, and among them
may be a `free` that unlinks a stash which is needed further on. Then the stash has to be
made anew, from blocks which by that time may be written over. `Restashable` excludes
this: a stash is never freed before it is used, or what it is made of is still there.

Between runs the blocks that the list does not write are those of the first device. For a
transfer that is not done this is true of all blocks that no command up to the transfer
writes, since no run came further; `Outside` says so.
-/

namespace Pterodon.Updater

open Lib List ApplyPatch

/-- Whatever stash a transfer needs, no command before it frees the stash, or after the last `free`
it is made of blocks that no command up to the transfer writes. -/
def Restashable (cfg : Config) (cmds : List Command) : Prop :=
  ∀ k t id, cmds[k]? = some (.transfer t) → id ∈ t.needs cfg →
    Kept cmds id 0 k ∨ ∃ s r, s < k ∧ cmds[s]? = some (.stash id r) ∧ Kept cmds id (s + 1) k ∧
      ∀ j c, s < j → j ≤ k → cmds[j]? = some c → ∀ b ∈ r.blockList, b ∉ c.targets

/-- The blocks that no command up to `k` writes are those of `device`. -/
def Outside (device : Nat → Block) (cmds : List Command) (k : Nat) (d : Disk) : Prop :=
  ∀ b, (∀ j c, j ≤ k → cmds[j]? = some c → b ∉ c.targets) → d.device b = device b

/-- What is known of the disk before command `q`, apart from what the commands from `q` on
can do with it. -/
structure Intact (cfg : Config) (device : Nat → Block) (cmds : List Command) (q : Nat) (d : Disk) :
    Prop where
  sound : Sound cfg d
  outside : ∀ k t, q ≤ k → cmds[k]? = some (.transfer t) → ¬ Done cfg d t →
    Outside device cmds k d
  rest : ∀ b, (∀ c ∈ cmds, b ∉ c.targets) → d.device b = device b

/-- An update can be started. -/
structure Recoverable (cfg : Config) (device : Nat → Block) (cmds : List Command) (d : Disk) :
    Prop where
  feasible : Feasible cfg cmds d 0
  intact : Intact cfg device cmds 0 d

/-- The device an update ends with. -/
structure Image (cfg : Config) (device : Nat → Block) (newData : List Bytes)
    (cmds : List Command) (device' : Nat → Block) : Prop where
  settled : ∀ k c, cmds[k]? = some c → Settled cfg newData.flatten (newBefore cmds k) device' c
  rest : ∀ b, (∀ c ∈ cmds, b ∉ c.targets) → device' b = device b

section Recovery

variable {cfg : Config} {device : Nat → Block} {newData : List Bytes} {cmds : List Command}
  {c : Command} {d d' : Disk} {q k : Nat} {id : Text} {t : Transfer} {v : Params}

theorem Image.unique (hD : Digest cfg) {dev dev' : Nat → Block}
    (h : Image cfg device newData cmds dev) (h' : Image cfg device newData cmds dev') :
    dev = dev' := by
  have heq : ∀ {tgt : RangeSet}, tgt.contents dev = tgt.contents dev' →
      ∀ b ∈ tgt.blockList, dev b = dev' b :=
    fun hc b hb => map_inj_left.mp hc b hb
  funext b
  by_cases hb : ∀ c ∈ cmds, b ∉ c.targets
  · rw [h.rest b hb, h'.rest b hb]
  push Not at hb
  obtain ⟨c, hmem, hb⟩ := hb
  obtain ⟨k, hk⟩ := getElem?_of_mem hmem
  have hs := h.settled k c hk
  have hs' := h'.settled k c hk
  cases c with
  | transfer t => exact heq (hD.injective (hs.trans hs'.symm)) b hb
  | zero tgt => exact heq (hs.trans hs'.symm) b hb
  | new tgt => exact heq (toBytes_injective (hs.trans hs'.symm)) b hb
  | erase tgt => exact heq (hs.trans hs'.symm) b hb
  | stash | free => cases hb

theorem Intact.mono (h : Intact cfg device cmds q d) {q' : Nat} (hq : q ≤ q') :
    Intact cfg device cmds q' d :=
  ⟨h.sound, fun k t hk => h.outside k t (Nat.le_trans hq hk), h.rest⟩

theorem Intact.swept (h : Intact cfg device cmds q d) (hdev : d'.device = d.device)
    (hstash : ∀ name, Complete name → d'.stash name = d.stash name ∨ d'.stash name = none) :
    Intact cfg device cmds q d' where
  sound := by
    intro name hname hsome
    rcases hstash name hname with hfile | hfile
    · rw [hfile] at hsome
      exact (h.sound name hname hsome).congr hfile
    · rw [hfile] at hsome
      cases hsome
  outside := by
    intro k t hk ht hnot b hb
    rw [hdev]
    exact h.outside k t hk ht (fun hd => hnot (hd.congr (fun b _ => by rw [hdev]))) b hb
  rest := by
    intro b hb
    rw [hdev]
    exact h.rest b hb

theorem recoverable_start (hG : Guarantees cfg d.device newData cmds) (hsound : Sound cfg d) :
    Recoverable cfg d.device cmds d := by
  refine ⟨?_, hsound, fun _ _ _ _ _ _ _ => rfl, fun _ _ => rfl⟩
  intro k t _ ht
  obtain ⟨s, data, out, hm⟩ := hG.means ht
  refine .inr ⟨?_, .inl (hm.sourceOk (fun _ _ => rfl))⟩
  intro id hid
  obtain ⟨s, r, hsk, hs, hkept⟩ := hG.stashed ht hid
  exact .inr ⟨s, r, Nat.zero_le s, hsk, hs, hkept, hG.named hs⟩

variable (hG : Guarantees cfg device newData cmds) (hR : Restashable cfg cmds)
include hG

theorem Intact.preserved (h : Intact cfg device cmds q d)
    (hc : cmds[q]? = some c) (hp : Preserves cfg c d d') : Intact cfg device cmds q d' where
  sound := h.sound.preserved hp
  outside := by
    intro k t hqk ht hnot b hb
    have hnot' : ¬ Done cfg d t := fun hd => hnot (hp.done hG hc ht hd)
    rw [hp.device b (hb q c hqk hc)]
    exact h.outside k t hqk ht hnot' b hb
  rest := by
    intro b hb
    rw [hp.device b (hb c (mem_of_getElem? hc))]
    exact h.rest b hb

include hR

theorem Avail.restart (ht : cmds[k]? = some (.transfer t)) (hid : id ∈ t.needs cfg)
    (hout : Outside device cmds k d) (h : Avail cfg cmds d q k id) : Avail cfg cmds d 0 k id := by
  rcases h with ⟨hhas, _⟩ | ⟨s, r, _, hsk, hs, hkept, hsha⟩
  · rcases hR k t id ht hid with hkept | ⟨s, r, hsk, hs, hkept, hfree⟩
    · exact .inl ⟨hhas, hkept⟩
    · -- the blocks of the stash are as they were
      refine .inr ⟨s, r, Nat.zero_le s, hsk, hs, hkept, ?_⟩
      rw [← hG.named hs]
      refine congrArg cfg.sha1 (map_congr_left ?_)
      intro b hb
      refine hout b ?_
      intro j c hj hc hmem
      rcases Nat.lt_trichotomy j s with hlt | rfl | hgt
      · exact hG.unread hlt hc hs b hmem hb
      · rw [hs] at hc
        rw [← Option.some.inj hc] at hmem
        cases hmem
      · exact hfree j c hgt hj hc b hb hmem
  · exact .inr ⟨s, r, Nat.zero_le s, hsk, hs, hkept, hsha⟩

theorem Feasible.restart (hdone : ∀ k t, k < q → cmds[k]? = some (.transfer t) → Done cfg d t)
    (hout : ∀ k t, q ≤ k → cmds[k]? = some (.transfer t) → ¬ Done cfg d t → Outside device cmds k d)
    (h : Feasible cfg cmds d q) : Feasible cfg cmds d 0 := by
  intro k t _ ht
  by_cases hd : Done cfg d t
  · exact .inl hd
  have hqk : q ≤ k := Nat.le_of_not_lt (fun hlt => hd (hdone k t hlt ht))
  have hload := (h k t hqk ht).resolve_left hd
  have havail : ∀ id ∈ t.needs cfg, Avail cfg cmds d q k id → Avail cfg cmds d 0 k id :=
    fun id hid ha => ha.restart hG hR ht hid (hout k t hqk ht hd)
  refine .inr ⟨fun id hid => havail id ?_ (hload.stashes id hid), ?_⟩
  · exact mem_append_left _ hid
  · rcases hload.source with hsrc | ⟨hover, hsrc⟩
    · exact .inl hsrc
    · refine .inr ⟨hover, havail _ ?_ hsrc⟩
      unfold Transfer.needs
      rw [if_pos hover]
      exact mem_append_right _ mem_cons_self

/-- Wherever a run is stopped, the next can be started. -/
theorem Intact.recoverable (h : Intact cfg device cmds q d)
    (hdone : ∀ k t, k < q → cmds[k]? = some (.transfer t) → Done cfg d t)
    (hf : Feasible cfg cmds d q) : Recoverable cfg device cmds d := by
  refine ⟨hf.restart hG hR hdone h.outside, h.sound, ?_, h.rest⟩
  intro k t _ ht hnot
  have hqk : q ≤ k := Nat.le_of_not_lt (fun hlt => hnot (hdone k t hlt ht))
  exact h.outside k t hqk ht hnot

theorem maintains_intact :
    Maintains cfg cmds newData (Intact cfg device cmds) (Recoverable cfg device cmds) where
  mid := by
    intro q c v d d' hc hr h hp hf
    refine (h.preserved hG hc hp).recoverable hG hR ?_ (hf h.sound)
    exact fun k t hk ht => hp.done hG hc ht (hr.settled k _ hk ht)
  step hc h hp := (h.preserved hG hc hp.toPreserves).mono (Nat.le_succ _)
  here hr h := h.recoverable hG hR (fun k t hk ht => hr.settled k _ hk ht) hr.feasible
  tidy := by
    intro d d' h ht hf
    have h' := h.swept ht.device (fun name _ => ht.stash name)
    exact ⟨h', hf, h'⟩
  sweep := by
    intro v d d' hr h hs
    -- everything is done, so there is no need for any stash
    have hdone : ∀ k t, k < cmds.length → cmds[k]? = some (.transfer t) → Done cfg d' t := by
      intro k t hk ht
      have hd : Done cfg d t := hr.settled k _ hk ht
      exact hd.congr (fun b _ => by rw [hs.device])
    refine (h.swept hs.device (fun name _ => hs.stash name)).recoverable hG hR hdone ?_
    intro k t hk ht
    exact absurd (List.getElem?_eq_some_iff.mp ht).1 (Nat.not_lt.mpr hk)

/-- One run, from any state in which an update can be started. -/
theorem wp_update_ok (hS : Smooth cfg) {list : Text} {maxblocks : Nat} {lines : List Text}
    (hlist : parseList cfg list = some (maxblocks, lines))
    (hlines : parseLines cfg lines = some cmds)
    (h : Recoverable cfg device cmds d) :
    wp (fun _ d => Recoverable cfg device cmds d) (performBlockImageUpdate cfg list)
      (fun r _ v' d' => r = true ∧ v'.isunresumable = false ∧
        Image cfg device newData cmds d'.device)
      (fun _ _ _ _ => False) [] (.start newData []) d := by
  rw [performBlockImageUpdate_some hlist]
  refine wp_runList_ok hS hG (maintains_intact hG hR) hlines h.feasible h.intact ?_
  intro h' v' d₁ d' hr hi hdev
  refine ⟨rfl, hr.resumable, ?_, ?_⟩
  · intro k c hc
    rw [hdev]
    exact hr.settled k c (List.getElem?_eq_some_iff.mp hc).1 hc
  · intro b hb
    rw [hdev]
    exact hi.rest b hb

end Recovery

/-! ## Runs of either kind -/

section Retry

variable {cfg : Config} {device : Nat → Block} {newData : List Bytes} {cmds : List Command}

/-- Nothing that is asked of a list depends on whether the run writes, or is a retry. -/
theorem Guarantees.kind (h : Guarantees cfg device newData cmds) (retry canwrite : Bool) :
    Guarantees { cfg with isRetry := retry, canwrite := canwrite } device newData cmds where
  nodup := h.nodup
  disjoint := h.disjoint
  unread := h.unread
  fits := h.fits
  stashed := h.stashed
  freed := h.freed
  named := h.named
  means := by
    intro k t ht
    obtain ⟨s, data, out, hm⟩ := h.means ht
    exact ⟨s, data, out, hm.count, hm.size, hm.source, hm.filled, hm.found, hm.srchash, hm.tgthash,
      hm.length, hm.move, hm.patch⟩
  erases := h.erases
  news := h.news

theorem Smooth.retry (h : Smooth cfg) (retry : Bool) : Smooth { cfg with isRetry := retry } :=
  ⟨h.writes, h.room, h.digest.injective, h.digest.nonempty, h.digest.complete⟩

theorem Recoverable.retry {d : Disk} (h : Recoverable cfg device cmds d) (retry : Bool) :
    Recoverable { cfg with isRetry := retry } device cmds d := by
  refine ⟨?_, h.intact.sound, h.intact.outside, h.intact.rest⟩
  intro k t hk ht
  rcases h.feasible k t hk ht with hdone | hload
  · exact .inl hdone
  · exact .inr ⟨hload.stashes, hload.source⟩

theorem Image.retry {device' : Nat → Block} {retry : Bool}
    (h : Image { cfg with isRetry := retry } device newData cmds device') :
    Image cfg device newData cmds device' := by
  refine ⟨?_, h.rest⟩
  intro k c hc
  have hs := h.settled k c hc
  cases c with
  | transfer | zero | new | erase | stash | free => exact hs

theorem parseLines_kind (retry canwrite : Bool) : ∀ lines : List Text,
    parseLines { cfg with isRetry := retry, canwrite := canwrite } lines = parseLines cfg lines
  | [] => rfl
  | line :: lines => by
    unfold parseLines
    rw [parseLines_kind retry canwrite lines]
    rfl

end Retry

/--
**An interrupted update can be resumed.** Take a list whose stashes can be made again, and
stop its update any number of times, wherever. A further run succeeds, does not find
unexpected contents, and leaves the device as a single run would.
-/
theorem update_resumes {cfg : Config} (hS : Smooth cfg) {list : Text} {maxblocks : Nat}
    {lines : List Text} {cmds : List Command} {newData : List Bytes} {d₀ d : Disk}
    (hlist : parseList cfg list = some (maxblocks, lines))
    (hlines : parseLines cfg lines = some cmds)
    (hG : Guarantees cfg d₀.device newData cmds) (hsound : Sound cfg d₀)
    (hR : Restashable cfg cmds)
    (hreach : Reach (fun retry => performBlockImageUpdate { cfg with isRetry := retry } list)
      (.start newData []) (fun _ _ => True) d₀ d) (retry : Bool) :
    (performBlockImageUpdate { cfg with isRetry := retry } list (.start newData []) d).val
        = .ok true ∧
      (performBlockImageUpdate { cfg with isRetry := retry } list
        (.start newData []) d).vol.isunresumable = false ∧
      (finished (performBlockImageUpdate { cfg with isRetry := retry } list)
          (.start newData []) d).device
        = (finished (performBlockImageUpdate cfg list) (.start newData []) d₀).device := by
  have hrun : ∀ (retry : Bool) (d : Disk), Recoverable cfg d₀.device cmds d →
      wp (fun _ d => Recoverable { cfg with isRetry := retry } d₀.device cmds d)
        (performBlockImageUpdate { cfg with isRetry := retry } list)
        (fun r _ v' d' => r = true ∧ v'.isunresumable = false ∧
          Image { cfg with isRetry := retry } d₀.device newData cmds d'.device)
        (fun _ _ _ _ => False) [] (.start newData []) d := by
    intro retry d h
    have hlines' := (parseLines_kind retry cfg.canwrite lines).trans hlines
    exact wp_update_ok (hG.kind retry cfg.canwrite) hR (hS.retry retry) hlist hlines'
      (h.retry retry)
  have hstart := recoverable_start hG hsound
  have hd : Recoverable cfg d₀.device cmds d := by
    refine hreach.inv hstart ?_
    intro retry d k h _
    exact ((hrun retry d h).1.take k (h.retry retry)).retry cfg.isRetry
  -- both runs end with the one image there is
  obtain ⟨r, hval, rfl, hres, himage⟩ := wp_total (hrun retry d hd)
  obtain ⟨_, _, _, _, himage₀⟩ := wp_total (hrun cfg.isRetry d₀ hstart)
  exact ⟨hval, hres, himage.retry.unique hS.digest himage₀⟩

/-! ## Blocks moved up by way of the stash -/

namespace Sample

def front : Text := "hbab".toList

/-- `stash hbab 2,0,2`. -/
def stashFront : Text := "stash hbab 2,0,2".toList

/-- `free hbab`. -/
def freeFront : Text := "free hbab".toList

/-- `move hbab 2,1,3 2 - hbab:2,0,2`: blocks 0 and 1, from the stash, to blocks 1 and 2. -/
def slide : Text := "move hbab 2,1,3 2 - hbab:2,0,2".toList

/-- What `slide` says. -/
def slideTransfer : Transfer :=
  ⟨.move, front, front, ⟨[(1, 3)], by decide, by decide⟩, ['2'],
    [['-'], front ++ ":2,0,2".toList]⟩

def frontData : List Block := [BitVec.ofNat _ 0, BitVec.ofNat _ 1]

def listOf (lines : List Text) : Text := "4\n2\n0\n2".toList ++ lines.flatMap ('\n' :: ·)

theorem digest : Digest config where
  injective := sha1_injective
  nonempty _ := by simp [config, sha1]
  complete data := by
    have hchars : ∀ x ∈ sha1 data, x = 'h' ∨ x = 'a' ∨ x = 'b' := by
      intro x hx
      unfold sha1 unary at hx
      simp only [mem_cons, mem_flatMap, mem_append, mem_replicate, not_mem_nil, or_false] at hx
      rcases hx with hx | ⟨_, _, ⟨_, hx⟩ | hx⟩
      · exact .inl hx
      · exact .inr (.inl hx)
      · exact .inr (.inr hx)
    unfold Complete
    cases hsuffix : partialSuffix.isSuffixOf (config.sha1 data) with
    | false => rfl
    | true =>
      have hmem : 'l' ∈ sha1 data :=
        (isSuffixOf_iff_suffix.mp hsuffix).subset (by decide)
      exact absurd (hchars 'l' hmem) (by decide)

theorem smooth : Smooth config := ⟨rfl, fun _ => rfl, digest⟩

theorem slide_means : Means config disk.device slideTransfer (.stashes [(front, frontBlocks)])
    frontData frontData := by
  have hplace : ∀ lookup, Faithful config lookup (.stashes [(front, frontBlocks)]) →
      ∀ device, ∀ buffer : List Block, frontData.length ≤ buffer.length →
        assemble lookup device (.stashes [(front, frontBlocks)]) buffer
          = some (frontData ++ buffer.drop 2) := by
    intro lookup hl device buffer hlen
    obtain ⟨data, hdata, hsha⟩ := hl (front, frontBlocks) mem_cons_self
    have hfront : data = frontData := sha1_injective (hsha.trans (by decide +kernel))
    subst hfront
    have hmove : moveRangeFrom frontData frontBlocks.ranges.reverse frontBlocks.blocks buffer
        = some (frontData ++ buffer.drop 2) := by
      show (memmove buffer frontData 0 0 2).bind some = _
      unfold memmove
      rw [if_pos ⟨hlen, by decide⟩]
      rfl
    dsimp only [assemble, placeRefs]
    rw [hdata]
    dsimp only
    rw [hmove]
    rfl
  refine ⟨by decide +kernel, by decide, by decide +kernel, ?_, ?_, by decide +kernel,
    by decide +kernel, rfl, fun _ => rfl, fun _ _ _ h => absurd h (by simp [slideTransfer])⟩
  · exact fun lookup hl device => ⟨frontData, rfl, fun buffer hlen =>
      ⟨_, hplace lookup hl device buffer hlen⟩⟩
  · exact fun lookup hl buffer hlen => ⟨_, hplace lookup hl _ buffer hlen⟩

/-- A list of these commands only, that stashes the blocks before it frees or moves them, and moves
them once. -/
theorem guarantees {cmds : List Command}
    (hmem : ∀ c ∈ cmds, c = .stash front frontBlocks ∨ c = .free front ∨ c =
      .transfer slideTransfer)
    (hlast : ∀ j < cmds.length, ∀ i < j, cmds[i]? = some (.transfer slideTransfer) →
      cmds[j]? ≠ some (.stash front frontBlocks) ∧ cmds[j]? ≠ some (.transfer slideTransfer))
    (hfree : ∀ k < cmds.length, cmds[k]? = some (.free front) →
      ∃ s < k, cmds[s]? = some (.stash front frontBlocks))
    (hslide : ∀ k < cmds.length, cmds[k]? = some (.transfer slideTransfer) →
      ∃ s < k, cmds[s]? = some (.stash front frontBlocks) ∧
        ∀ l, s + 1 ≤ l → l < k → cmds[l]? ≠ some (.free front)) :
    Guarantees config disk.device [] cmds := by
  have hbound : ∀ {k : Nat} {c : Command}, cmds[k]? = some c → k < cmds.length :=
    fun h => (List.getElem?_eq_some_iff.mp h).1
  have hget : ∀ {k : Nat} {c : Command}, cmds[k]? = some c →
      c = .stash front frontBlocks ∨ c = .free front ∨ c = .transfer slideTransfer :=
    fun h => hmem _ (mem_of_getElem? h)
  have htransfer : ∀ {t : Transfer}, (Command.transfer t = .stash front frontBlocks ∨
      Command.transfer t = .free front ∨ Command.transfer t = .transfer slideTransfer) →
      t = slideTransfer := by
    rintro t (h | h | h)
    · cases h
    · cases h
    · exact Command.transfer.inj h
  have hwrites : ∀ {c : Command} {b : Nat}, (c = .stash front frontBlocks ∨ c = .free front ∨
      c = .transfer slideTransfer) → b ∈ c.targets → c = .transfer slideTransfer := by
    rintro c b (rfl | rfl | rfl) hb
    · cases hb
    · cases hb
    · rfl
  constructor
  · intro c hc
    rcases hmem c hc with rfl | rfl | rfl
    · exact nodup_nil
    · exact nodup_nil
    · decide
  · intro i j c c' hne hi hj b hb hb'
    obtain rfl := hwrites (hget hi) hb
    obtain rfl := hwrites (hget hj) hb'
    rcases Nat.lt_or_gt_of_ne hne with hlt | hgt
    · exact (hlast j (hbound hj) i hlt hi).2 hj
    · exact (hlast i (hbound hi) j hgt hj).2 hi
  · intro i j c c' hlt hi hj b hb hb'
    obtain rfl := hwrites (hget hi) hb
    have hafter := hlast j (hbound hj) i hlt hi
    rcases hget hj with rfl | rfl | rfl
    · exact hafter.1 hj
    · cases hb'
    · exact hafter.2 hj
  · intro c hc b hb
    have hall : ∀ c ∈ [Command.stash front frontBlocks, .free front, .transfer slideTransfer],
        ∀ b ∈ c.targets ++ c.sources config, b < config.deviceBlocks := by decide +kernel
    exact hall c (by simpa using hmem c hc) b (mem_append.mpr hb)
  · intro k t id ht hid
    obtain rfl := htransfer (hget ht)
    have huses : slideTransfer.uses config = [front] := by decide +kernel
    rw [huses] at hid
    obtain rfl := mem_singleton.mp hid
    obtain ⟨s, hs, hstash, hkept⟩ := hslide k (hbound ht) ht
    exact ⟨s, frontBlocks, hs, hstash, hkept⟩
  · intro k id hk
    rcases hget hk with h | h | h
    · cases h
    · obtain rfl := Command.free.inj h
      obtain ⟨s, hs, hstash⟩ := hfree k (hbound hk) hk
      exact ⟨s, frontBlocks, hs, hstash⟩
    · cases h
  · intro k id r hk
    rcases hget hk with h | h | h
    · obtain ⟨rfl, rfl⟩ := Command.stash.inj h
      decide +kernel
    · cases h
    · cases h
  · intro k t ht
    obtain rfl := htransfer (hget ht)
    exact ⟨_, _, _, slide_means⟩
  · intro tgt htgt
    rcases hmem _ htgt with h | h | h <;> cases h
  · have hzero : ∀ c ∈ cmds, c.newBytes = 0 := by
      intro c hc
      rcases hmem c hc with rfl | rfl | rfl <;> rfl
    rw [map_congr_left hzero]
    simp

def slideCommands : List Command :=
  [.stash front frontBlocks, .transfer slideTransfer, .free front]

/-- The stash is made, freed, and made again. -/
def restashCommands : List Command :=
  [.stash front frontBlocks, .free front, .stash front frontBlocks, .transfer slideTransfer]

def slideList : Text := listOf [stashFront, slide, freeFront]

def restashList : Text := listOf [stashFront, freeFront, stashFront, slide]

theorem slide_guarantees : Guarantees config disk.device [] slideCommands :=
  guarantees (by decide) (by decide) (by decide) (by decide)

theorem restash_guarantees : Guarantees config disk.device [] restashCommands :=
  guarantees (by decide) (by decide) (by decide) (by decide)

theorem slide_list : parseList config slideList = some (2, [stashFront, slide, freeFront]) := by
  decide +kernel

theorem slide_lines : parseLines config [stashFront, slide, freeFront] = some slideCommands := by
  decide +kernel

theorem slide_transfer {k : Nat} {t : Transfer} (h : slideCommands[k]? = some (.transfer t)) :
    k = 1 ∧ t = slideTransfer := by
  rcases k with _ | _ | _ | k
  · cases h
  · exact ⟨rfl, (Command.transfer.inj (Option.some.inj h)).symm⟩
  · cases h
  · cases h

theorem slide_restashable : Restashable config slideCommands := by
  intro k t id ht hid
  refine .inl ?_
  intro l _ hl hfree
  obtain ⟨rfl, rfl⟩ := slide_transfer ht
  obtain rfl : l = 0 := by omega
  exact absurd hfree (by simp [slideCommands])

theorem disk_sound : Sound config disk := fun _ _ h => absurd h (by simp [disk])

end Sample

open Sample

theorem slide_resumes :
    Restashable config slideCommands ∧
    (performBlockImageUpdate { config with isRetry := true } slideList (.start [] [])
      (stoppedAt (performBlockImageUpdate config slideList) (.start [] [])
        disk 5)).val = .ok true := by
  exact ⟨slide_restashable, (update_resumes smooth slide_list slide_lines
    slide_guarantees disk_sound slide_restashable
    (.stop false 5 .start trivial) true).1⟩

/-- **A stash that is freed and made again.** A single run succeeds. But let a run be stopped when
`slide` has written its first block, which is a block of the stash. The second run finds the
stash, frees it and cannot make it again. -/
theorem restash_unresumable :
    Smooth config ∧ Sound config disk ∧
    parseList config restashList = some (2, [stashFront, freeFront, stashFront, slide]) ∧
    parseLines config [stashFront, freeFront, stashFront, slide] = some restashCommands ∧
    Guarantees config disk.device [] restashCommands ∧
    (performBlockImageUpdate config restashList (.start [] []) disk).val = .ok true ∧
    ∃ d, Reach (fun retry => performBlockImageUpdate { config with isRetry := retry }
        restashList) (.start [] []) (fun _ _ => True) disk d ∧
      (performBlockImageUpdate config restashList (.start [] []) d).val = .ok false ∧
      (performBlockImageUpdate config restashList
        (.start [] []) d).vol.isunresumable = true := by
  refine ⟨smooth, disk_sound, by decide +kernel, by decide +kernel,
    restash_guarantees, by decide +kernel, _, .stop false 11 .start trivial, ?_, ?_⟩
  · decide +kernel
  · decide +kernel

end Pterodon.Updater
