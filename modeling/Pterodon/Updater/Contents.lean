import Pterodon.Updater.Loading
import Pterodon.Updater.PatchSink

/-!
# What a successful transfer leaves in its target

A transfer that writes does not look at what it has written. So what its target holds in
the end is a matter of what the command says: a `move` writes the first source blocks,
however many the source has; a patch writes its output, however long that is, and if it is
too short the rest of the target stays as it was. `Exact` says when this is the data that
the target hash is about, and `transfer_contents` that then it is.
-/

namespace Pterodon.Updater

open Lib List ApplyPatch

section Patch

variable {σ τ : Type} {cfg : Config} {imgdiff : Bool} {data : List Block} {offset len : Nat}

theorem follows_applyPatch {sink : Sink σ} {sink' : Sink τ} {R : σ → τ → Prop} {G : σ → Prop}
    (hsim : SinkSim sink sink' R G) :
    Follows R G .success (applyPatch cfg imgdiff sink data offset len)
      (applyPatch cfg imgdiff sink' data offset len) := by
  unfold applyPatch
  split
  · exact follows_image hsim none
  · exact follows_bsdiff hsim 0

/-- A patch that succeeds on the device succeeds in a buffer, and its output is at the first
addresses of the target. -/
theorem applyPatch_written {tgt : RangeSet} {faults : List Bool} {s : SinkState}
    (h : applyPatch cfg imgdiff (rangeSink cfg) data offset len ⟨.new tgt, [], faults⟩
      = (s, .success)) :
    ∃ out, applyPatch cfg imgdiff memorySink data offset len [] = (out, .success) ∧
      Written cfg tgt faults s out := by
  obtain ⟨_, hmem⟩ := follows_applyPatch sinkSim_range_memory _ _ h trivial
  exact hmem [] (written_new cfg tgt 0 faults)

theorem Written.contents {tgt : RangeSet} {faults : List Bool} {s : SinkState} {out : List Block}
    (h : Written cfg tgt faults s (toBytes out))
    (hlen : out.length = tgt.blocks) (hnd : tgt.blockList.Nodup) (d : Disk) :
    tgt.contents (acts s.trace d).device = out := by
  have hbytes := h.bytes (addresses_nodup hnd) d
  have hall : (toBytes out).length = tgt.addresses.length := by
    rw [toBytes_length, addresses_length, hlen]
  rw [hall, take_length, bytesAt_addresses] at hbytes
  exact toBytes_injective hbytes

end Patch

/-- The command says what its target hash is about. -/
structure Exact (cfg : Config) (t : Transfer) : Prop where
  nodup : t.tgt.blockList.Nodup
  /-- The source hash is of data of the declared size. -/
  sized : ∀ n, parseSize cfg t.count = some n → ∀ data, cfg.sha1 data = t.srchash → data.length = n
  /-- The source of a `move` is as large as its target. -/
  move : t.method = .move → parseSize cfg t.count = some t.tgt.blocks
  /-- A patch makes data with the target hash out of data with the source hash, and as much as
  the target has room for. -/
  patch : ∀ imgdiff offset len, t.method = .diff imgdiff offset len → ∀ data,
    cfg.sha1 data = t.srchash → ∃ out, out.length = t.tgt.blocks ∧ cfg.sha1 out = t.tgthash ∧
      applyPatch cfg imgdiff memorySink data offset len [] = (toBytes out, .success)

section Transfer

variable {cfg : Config} {t : Transfer} {h : List Event} {v : Params} {d : Disk} {n : Nat}

theorem Exact.loaded (hx : Exact cfg t) (hn : parseSize cfg t.count = some n) {buffer : List Block}
    (hb : Holds cfg t.srchash n buffer) :
    cfg.sha1 (buffer.take n) = t.srchash ∧ n ≤ buffer.length := by
  rcases hb with hb | ⟨blocks, hsha, hpre⟩
  · have := hx.sized n hn _ hb
    rw [length_take] at this
    exact ⟨hb, by omega⟩
  · have hlen := hx.sized n hn blocks hsha
    rw [← hlen, ← prefix_iff_eq_take.mp hpre]
    exact ⟨hsha, hpre.length_le⟩

theorem wp_writeTarget_contents (hx : Exact cfg t)
    (hsame : t.method = .move → t.srchash = t.tgthash) (hn : parseSize cfg t.count = some n)
    {buffer : List Block} (hb : Holds cfg t.srchash n buffer) :
    wlp (writeTarget cfg t n buffer)
      (fun _ _ _ d' => cfg.sha1 (t.tgt.contents d'.device) = t.tgthash) h v d := by
  obtain ⟨hsha, hlen⟩ := hx.loaded hn hb
  unfold writeTarget
  split
  · rename_i hmove
    have hblocks : n = t.tgt.blocks := Option.some.inj (hn.symm.trans (hx.move hmove))
    refine wp_writeRanges t.tgt.ranges buffer t.tgt.ordered (fun _ _ _ => trivial) ?_
      (fun _ _ _ _ _ _ _ => trivial)
    intro h' v' d' _ _ hcontents
    have hc : t.tgt.contents d'.device = buffer.take t.tgt.blockList.length :=
      hcontents hx.nodup
    rw [hc, RangeSet.blockList_length, ← hblocks, hsha, hsame hmove]
  · rename_i imgdiff offset len hdiff
    generalize hrun : applyPatch cfg imgdiff (rangeSink cfg) (buffer.take n) offset len
      ⟨.new t.tgt, [], v.faults⟩ = r
    obtain ⟨s, status⟩ := r
    have hany : ∀ {Q : Post PatchStatus},
        Q status (h ++ s.trace) { v with faults := s.faults } (acts s.trace d) →
        wlp (withSink t.tgt (applyPatch cfg imgdiff (rangeSink cfg)
          (buffer.take n) offset len)) Q h v d :=
      wp_withSink hrun (Extends.along (fun _ _ => trivial) (fun _ _ _ => trivial))
    refine wp_bind (hany ?_)
    cases status with
    | failure | abort => exact wp_fail trivial
    | success =>
      obtain ⟨out, hout, hw⟩ := applyPatch_written hrun
      obtain ⟨blocks, hlen', hsha', hmem⟩ := hx.patch imgdiff offset len hdiff _ hsha
      have heq : out = toBytes blocks := congrArg Prod.fst (hout.symm.trans hmem)
      subst heq
      refine wp_pure ?_
      rw [hw.contents hlen' hx.nodup d, hsha']

theorem wp_runTransfer_contents (hw : cfg.canwrite = true) (hx : Exact cfg t)
    (hsame : t.method = .move → t.srchash = t.tgthash) :
    wlp (runTransfer cfg t) (fun _ _ _ d' => cfg.sha1 (t.tgt.contents d'.device) = t.tgthash)
      h v d := by
  have hrelease : ∀ {h : List Event} {v : Params} {d : Disk},
      cfg.sha1 (t.tgt.contents d.device) = t.tgthash → wlp (releaseFreestash cfg)
        (fun _ _ _ d' => cfg.sha1 (t.tgt.contents d'.device) = t.tgthash) h v d := by
    intro h v d hd
    refine wp_releaseFreestash (fun _ _ _ => trivial) (fun _ => hd) ?_
    intro h' v' d' _ hx' _ _
    rw [Extends.device (fun _ he => by rw [he]; rfl) hx']
    exact hd
  refine wp_bind (wp_loadTransfer hw (fun _ _ _ => trivial) ?_ ?_ (fun _ _ _ _ _ => trivial))
  · exact fun v' _ hhash => wp_bind (wp_pure (hrelease hhash))
  · intro n h' v' d' _ hn _ hholds _
    refine wp_bind (wp_bind (wp_get ?_))
    rw [hw]
    exact wp_mono (wp_writeTarget_contents hx hsame hn hholds) (fun _ _ _ _ hd => hrelease hd)
      (fun _ _ _ _ _ => trivial)

end Transfer

/--
A `move`, `bsdiff` or `imgdiff` that returns 0 says what its target is, and if it says what
the target hash is about then that is what the target holds.
-/
theorem transfer_contents {cfg : Config} (hw : cfg.canwrite = true) {line name : Text}
    {rest : List Text} {cn : CommandName} (hline : line.splitOn ' ' = name :: rest)
    (hname : commandName name = some cn) (hcn : cn = .move ∨ cn = .bsdiff ∨ cn = .imgdiff)
    {v : Params} {d : Disk} (hok : (performCommand cfg line v d).val = .ok ()) :
    ∃ t, parseCommand cfg line = some (.transfer t) ∧ (Exact cfg t →
      cfg.sha1 (t.tgt.contents (finished (performCommand cfg line) v d).device) = t.tgthash) := by
  obtain ⟨hrun, hparse⟩ := performCommand_named hline hname
  rw [hrun] at hok ⊢
  rw [hparse]
  rcases transfer_or_fail hcn with ⟨t, ht, heq, hsame⟩ | ⟨e, he⟩
  · refine ⟨t, ht, ?_⟩
    intro hx
    rw [heq] at hok ⊢
    exact wp_ok (wp_runTransfer_contents hw hx hsame (h := [])) hok
  · rw [he] at hok
    exact absurd hok (by simp [Prog.fail])

/-! ## A small device -/

namespace Sample

/-- Blocks in unary, each with an end mark. -/
def unary (blocks : List Block) : Text :=
  blocks.flatMap (fun b => List.replicate b.toNat 'a' ++ ['b'])

/-- The blocks themselves, as a text. -/
def sha1 (blocks : List Block) : Text := 'h' :: unary blocks

def names : List Text :=
  ["hbab".toList, "habaab".toList].flatMap (fun id => [id, id ++ partialSuffix])

/-- The file that a path leads to: `./` at its front makes no difference. -/
def entryOf : Text → Text
  | '.' :: '/' :: path => entryOf path
  | path => path

/-- A device of eight blocks; a patch is its own output. -/
def config : Config where
  sha1 := sha1
  parseUint max text := (decimal text).filter (fun n => n ≤ max)
  lib := ⟨fun _ patch => ([patch], true), fun _ => none, fun _ => false, fun _ _ _ _ => none⟩
  patchData := []
  canwrite := true
  isRetry := false
  cacheSizeCheck _ := true
  isBlk := true
  deviceBlocks := 8
  discarded _ := Block.zero
  readdir stash := names.filter (fun name => (stash name).isSome)
  entryOf := entryOf
  entryOf_sha1 _ := rfl

/-- Block `n` holds the number `n`, and there is no stash. -/
def disk : Disk where
  device n := BitVec.ofNat _ n
  stashDir := true
  stash _ := none

theorem unary_mark : ∀ {m n : Nat} {s t : Text},
    List.replicate m 'a' ++ 'b' :: s = List.replicate n 'a' ++ 'b' :: t → m = n ∧ s = t
  | 0, 0, s, t, h => ⟨rfl, by simpa using h⟩
  | 0, n + 1, s, t, h => absurd h (by simp [replicate_succ])
  | m + 1, 0, s, t, h => absurd h (by simp [replicate_succ])
  | m + 1, n + 1, s, t, h => by
    obtain ⟨hmn, hst⟩ := unary_mark (List.cons.inj h).2
    exact ⟨congrArg Nat.succ hmn, hst⟩

theorem unary_cons (b : Block) (bs : List Block) :
    unary (b :: bs) = List.replicate b.toNat 'a' ++ 'b' :: unary bs := by
  unfold unary
  rw [flatMap_cons, append_assoc]
  rfl

theorem unary_injective : Function.Injective unary := by
  have hne : ∀ (b : Block) (bs : List Block), unary (b :: bs) ≠ [] := by
    intro b bs h
    rw [unary_cons] at h
    exact absurd h (by simp)
  intro bs
  induction bs with
  | nil =>
    intro cs h
    cases cs with
    | nil => rfl
    | cons c cs => exact absurd h.symm (hne c cs)
  | cons b bs ih =>
    intro cs h
    cases cs with
    | nil => exact absurd h (hne b bs)
    | cons c cs =>
      rw [unary_cons, unary_cons] at h
      obtain ⟨hbc, hrest⟩ := unary_mark h
      rw [BitVec.eq_of_toNat_eq hbc, ih hrest]

theorem sha1_injective : Function.Injective sha1 :=
  fun _ _ h => unary_injective (List.cons.inj h).2

/-- Block 1 to block 0. -/
def copy : Text := "move hab 2,0,1 1 2,1,2".toList

/-- Blocks 1 and 2 to blocks 0 and 1. -/
def shift : Text := "move habaab 2,0,2 2 2,1,3".toList

/-- Two blocks to one. -/
def short : Text := "move habaab 2,0,1 2 2,1,3".toList

def firstBlock : RangeSet := ⟨[(0, 1)], by decide, by decide⟩

def frontBlocks : RangeSet := ⟨[(0, 2)], by decide, by decide⟩

/-- The digest of blocks 1 and 2. -/
def pair : Text := "habaab".toList

/-- What `shift` says. -/
def shiftTransfer : Transfer :=
  ⟨.move, pair, pair, frontBlocks, ['2'], ["2,1,3".toList]⟩

theorem shift_exact : Exact config shiftTransfer where
  nodup := by decide
  sized n hn data hdata := by
    have h2 : n = 2 := Option.some.inj (hn.symm.trans (by decide +kernel))
    have htwo : sha1 data = sha1 [BitVec.ofNat _ 1, BitVec.ofNat _ 2] :=
      hdata.trans (by decide +kernel)
    rw [h2, sha1_injective htwo]
    rfl
  move _ := by decide +kernel
  patch _ _ _ h := absurd h (by simp [shiftTransfer])

end Sample

open Sample

/-- Two blocks are moved over one of them, by way of a stash. -/
theorem shift_contents :
    Exact config shiftTransfer ∧
      ∃ t, parseCommand config shift = some (.transfer t) ∧ (Exact config t →
        config.sha1 (t.tgt.contents (finished (performCommand config shift)
          (.start [] []) disk).device) = t.tgthash) :=
  ⟨shift_exact, transfer_contents rfl (show shift.splitOn ' ' = "move".toList ::
    [pair, "2,0,2".toList, ['2'], "2,1,3".toList] by decide +kernel)
    (show commandName "move".toList = some .move by decide) (.inl rfl) (by decide +kernel)⟩

/-- A `move` of two blocks to one. It returns 0 and the target hash is not the hash of what
it left there. -/
theorem short_contents : config.canwrite = true ∧
    (performCommand config short (.start [] []) disk).val = .ok () ∧
    ∃ t, parseCommand config short = some (.transfer t) ∧
      config.sha1 (t.tgt.contents (finished (performCommand config short)
        (.start [] []) disk).device) ≠ t.tgthash := by
  refine ⟨rfl, by decide +kernel, ⟨.move, pair, pair, firstBlock, ['2'],
    ["2,1,3".toList]⟩, by decide +kernel, ?_⟩
  decide +kernel

end Pterodon.Updater
