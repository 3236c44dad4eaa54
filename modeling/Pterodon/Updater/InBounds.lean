import Pterodon.Updater.Accesses
import Pterodon.Updater.Contents
import Pterodon.Updater.Scatter

/-!
# Commands that stay in their buffers

Each function of `Accesses.lean` gets one statement about the bytes that it accesses. Most say what
the sizes have to be for every run to stay in the buffer, and that some run goes as far as that: the
loops come to the end of their last range when all calls succeed. `lineAccesses_inBounds_iff` puts
them together.

Where a command does not fit together it goes on outside its buffer, and is not reported as failed.
-/

namespace Pterodon.Updater

open Lib Lib.Logged List

namespace Buffers

/-! ## Loops over ranges -/

theorem succeeds_inBounds : LogsOnly Access.InBounds succeeds :=
  .bind .ask fun _ => .pure _

theorem possible_succeeds : ∀ b, Possible succeeds b
  | true => (Possible.ask 1).bind (.pure true)
  | false => (Possible.ask 0).bind (.pure false)

theorem discardAndSeek_inBounds : LogsOnly Access.InBounds discardAndSeek :=
  succeeds_inBounds.bind fun _ => .ite (fun _ => succeeds_inBounds) fun _ => .pure _

theorem possible_discardAndSeek : Possible discardAndSeek true :=
  (possible_succeeds true).bind (possible_succeeds true)

section Transfers

variable {region : Region} {size p n : Nat}

theorem transferAll_inBounds (h : p + n ≤ size) :
    LogsOnly Access.InBounds (transferAll region size p n) := by
  refine LogsOnly.ask.bind fun done => ?_
  exact (LogsOnly.log (Access.inBounds_of_le (show p + min done n ≤ size by omega))).bind
    fun _ => .pure _

theorem possible_transferAll : Possible (transferAll region size p n) true := by
  refine (Possible.ask n).bind ((Possible.log _).bind ?_)
  rw [decide_eq_true (Nat.le_refl n)]
  exact .pure true

theorem le_of_transferAll (hn : 0 < n)
    (h : LogsOnly Access.InBounds (transferAll region size p n)) : p + n ≤ size := by
  have hlog := (h.right (Possible.ask n)).left
  have hin : (⟨region, size, p, min n n⟩ : Access).InBounds := hlog [] _ (logs_log.mpr rfl)
  rw [Nat.min_self] at hin
  rcases Access.inBounds_iff.mp hin with h0 | hle
  · exact absurd h0 (Nat.ne_of_gt hn)
  · exact hle

variable {ready : Track Bool}

theorem transferRanges_inBounds (hready : LogsOnly Access.InBounds ready) :
    ∀ {ranges : Pairs} {p : Nat}, p + Lib.size ranges * BLOCKSIZE ≤ size →
      LogsOnly Access.InBounds (transferRanges ready region size p ranges)
  | [], _, _ => .pure _
  | range :: ranges, p, h => by
    rw [size_cons, Nat.add_mul] at h
    refine hready.bind fun _ => .ite (fun _ => ?_) fun _ => .pure _
    refine (transferAll_inBounds (by omega)).bind fun _ => .ite (fun _ => ?_) fun _ => .pure _
    exact transferRanges_inBounds hready (by omega)

theorem possible_transferRanges (hready : Possible ready true) : ∀ {ranges : Pairs} {p : Nat},
      Possible (transferRanges ready region size p ranges) true
  | [], _ => .pure true
  | _ :: _, _ =>
    hready.bind (possible_transferAll.bind (possible_transferRanges hready))

theorem le_of_transferRanges (hready : Possible ready true) :
    ∀ {ranges : Pairs} {p : Nat}, ranges ≠ [] → (∀ r ∈ ranges, r.1 < r.2) →
      LogsOnly Access.InBounds (transferRanges ready region size p ranges) →
      p + Lib.size ranges * BLOCKSIZE ≤ size
  | range :: ranges, p, _, hordered, h => by
    have hrange := hordered range mem_cons_self
    have hfirst := h.right hready
    have hpos : 0 < (range.2 - range.1) * BLOCKSIZE :=
      Nat.mul_pos (by omega) (by decide)
    rw [size_cons, Nat.add_mul]
    rcases ranges with _ | ⟨next, more⟩
    · have := le_of_transferAll hpos hfirst.left
      rw [size_nil]
      omega
    · have := le_of_transferRanges hready (cons_ne_nil next more)
        (forall_mem_cons.mp hordered).2 (hfirst.right possible_transferAll)
      omega

end Transfers

section Blocks

variable {region : Region} {size : Nat} {src : RangeSet}

theorem readBlocks_inBounds_iff :
    LogsOnly Access.InBounds (readBlocks region size src) ↔ src.blocks * BLOCKSIZE ≤ size := by
  constructor
  · intro h
    have := le_of_transferRanges (possible_succeeds true) src.nonempty src.ordered h
    rwa [Nat.zero_add] at this
  · intro h
    refine transferRanges_inBounds succeeds_inBounds ?_
    rw [Nat.zero_add]
    exact h

theorem possible_readBlocks : ∀ b, Possible (readBlocks region size src) b
  | true => possible_transferRanges (possible_succeeds true)
  | false => by
    -- the seek for the first range fails
    unfold readBlocks
    rcases hranges : src.ranges with _ | ⟨range, ranges⟩
    · exact absurd hranges src.nonempty
    · exact (possible_succeeds false).bind (.pure false)

theorem writeBlocks_inBounds_iff :
    LogsOnly Access.InBounds (writeBlocks region size src) ↔ src.blocks * BLOCKSIZE ≤ size := by
  constructor
  · intro h
    have := le_of_transferRanges possible_discardAndSeek src.nonempty src.ordered h
    rwa [Nat.zero_add] at this
  · intro h
    refine transferRanges_inBounds discardAndSeek_inBounds ?_
    rw [Nat.zero_add]
    exact h

theorem verifyBlocks_inBounds {blocks : Nat} (h : bytesOf blocks ≤ size) :
    LogsOnly Access.InBounds (verifyBlocks region size blocks) :=
  (LogsOnly.log (Access.inBounds_of_le (by rw [Nat.zero_add]; exact h))).bind
    fun _ => succeeds_inBounds

theorem possible_verifyBlocks {blocks : Nat} (b : Bool) :
    Possible (verifyBlocks region size blocks) b :=
  (Possible.log _).bind (possible_succeeds b)

end Blocks

/-- Moves of ranges from the last one on. The blocks still to be moved end where the next range
ends, so the first move tells whether all of them are in the source. -/
theorem moveRange_inBounds_iff {dest source : Region} {destSize sourceSize : Nat} :
    ∀ {ps : Pairs} {start : Nat}, (∀ p ∈ ps, p.1 < p.2) → Lib.size ps ≤ start →
      ((∀ a ∈ moveRange dest destSize source sourceSize ps start, a.InBounds) ↔
        (∀ p ∈ ps, p.2 * BLOCKSIZE ≤ destSize) ∧ (ps ≠ [] → start * BLOCKSIZE ≤ sourceSize))
  | [], _, _, _ => by simp [moveRange]
  | p :: ps, start, hordered, hstart => by
    have hp := hordered p mem_cons_self
    rw [size_cons] at hstart
    have hpos : 0 < (p.2 - p.1) * BLOCKSIZE := Nat.mul_pos (by omega) (by decide)
    have hfrom : (start - (p.2 - p.1)) * BLOCKSIZE + (p.2 - p.1) * BLOCKSIZE =
        start * BLOCKSIZE := by
      rw [← Nat.add_mul]
      congr 1
      omega
    have hto : p.1 * BLOCKSIZE + (p.2 - p.1) * BLOCKSIZE = p.2 * BLOCKSIZE := by
      rw [← Nat.add_mul]
      congr 1
      omega
    have ih := @moveRange_inBounds_iff dest source destSize sourceSize ps (start - (p.2 - p.1))
      (forall_mem_cons.mp hordered).2 (by omega)
    unfold moveRange
    rw [forall_mem_cons, forall_mem_cons, forall_mem_cons, ih,
      Access.inBounds_iff, Access.inBounds_iff]
    dsimp only
    rw [hfrom, hto]
    constructor
    · rintro ⟨hsource, hdest, hrest, _⟩
      exact ⟨⟨by omega, hrest⟩, fun _ => by omega⟩
    · rintro ⟨⟨hdest, hrest⟩, hsource⟩
      have hall := hsource (cons_ne_nil p ps)
      exact ⟨.inr hall, .inr hdest, hrest, fun _ =>
        Nat.le_trans (Nat.mul_le_mul_right _ (Nat.sub_le _ _)) hall⟩

theorem moveRange_placed_iff {dest source : Region} {destSize sourceSize : Nat} {locs : RangeSet} :
    (∀ a ∈ moveRange dest destSize source sourceSize locs.ranges.reverse locs.blocks, a.InBounds) ↔
      Placed locs destSize sourceSize := by
  have hsize : Lib.size locs.ranges.reverse ≤ locs.blocks := Nat.le_of_eq (size_reverse _)
  rw [moveRange_inBounds_iff (fun p hp => locs.ordered p (mem_reverse.mp hp)) hsize]
  constructor
  · rintro ⟨hplaces, hpacked⟩
    exact ⟨fun p hp => hplaces p (mem_reverse.mpr hp),
      hpacked (fun h => locs.nonempty (reverse_eq_nil_iff.mp h))⟩
  · rintro ⟨hplaces, hpacked⟩
    exact ⟨fun p hp => hplaces p (mem_reverse.mp hp), fun _ => hpacked⟩

/-! ## Stashes -/

section Stashes

variable {sizes : Sizes} {region : Region} {id : Text} {src : RangeSet} {buffer n : Nat}

theorem printHashForCorruptedStashedBlocks_inBounds (h : src.blocks * BLOCKSIZE < 2 ^ 64) :
    LogsOnly Access.InBounds (printHashForCorruptedStashedBlocks region buffer src) := by
  refine .ite (fun hsize => .logAll fun a ha => ?_) fun _ => .fail
  obtain ⟨i, hi, rfl⟩ := mem_map.mp ha
  have hi : i < src.blocks := mem_range.mp hi
  rw [bytesOf_of_lt h] at hsize
  refine Access.inBounds_of_le ?_
  calc i * BLOCKSIZE + BLOCKSIZE = (i + 1) * BLOCKSIZE := by rw [Nat.succ_mul]
    _ ≤ src.blocks * BLOCKSIZE := Nat.mul_le_mul_right _ hi
    _ = buffer := hsize

theorem printHashForMissingStashedBlocks_inBounds :
    LogsOnly Access.InBounds (printHashForMissingStashedBlocks sizes id) := by
  unfold printHashForMissingStashedBlocks
  rcases hsrc : sizes.stashMap id with _ | src
  · exact .pure _
  · have h := sizes.recorded id src hsrc
    have hread : src.blocks * BLOCKSIZE ≤ bytesOf src.blocks := Nat.le_of_eq (bytesOf_of_lt h).symm
    exact (readBlocks_inBounds_iff.mpr hread).bind fun _ =>
      .ite (fun _ => printHashForCorruptedStashedBlocks_inBounds h) fun _ => .pure _

/-- The hashes are not printed if the blocks cannot be read. -/
theorem possible_printHashForMissingStashedBlocks :
    Possible (printHashForMissingStashedBlocks sizes id) () := by
  unfold printHashForMissingStashedBlocks
  rcases sizes.stashMap id with _ | src
  · exact .pure ()
  · exact (possible_readBlocks false).bind (.pure ())

/-- What `LoadStash` returns of a stash of `n` bytes: a buffer that is not smaller, with the stash
in it if it says so. -/
def Grown (buffer : Nat) (n : Option Nat) (r : Nat × Bool) : Prop :=
  buffer ≤ r.1 ∧ (r.2 = true → ∃ m, n = some m ∧ m ≤ r.1)

theorem Grown.failed {n : Option Nat} {m : Nat} (h : buffer ≤ m) : Grown buffer n (m, false) :=
  ⟨h, nofun⟩

theorem Grown.loaded {m : Nat} (h : buffer ≤ m) (hn : n ≤ m) : Grown buffer (some n) (m, true) :=
  ⟨h, fun _ => ⟨n, rfl, hn⟩⟩

theorem loadMapped_grown (h : src.blocks * BLOCKSIZE < 2 ^ 64) :
    Ensures Access.InBounds (Grown buffer (some (src.blocks * BLOCKSIZE)))
      (loadMapped region src buffer) := by
  have hgrow : buffer ≤ allocate (bytesOf src.blocks) buffer := Nat.le_max_left _ _
  have hsize : bytesOf src.blocks ≤ allocate (bytesOf src.blocks) buffer := Nat.le_max_right _ _
  have hread : src.blocks * BLOCKSIZE ≤ allocate (bytesOf src.blocks) buffer := by
    rwa [bytesOf_of_lt h] at hsize ⊢
  refine (readBlocks_inBounds_iff.mpr hread).andThen fun _ => ?_
  refine .ite (fun _ => ?_) fun _ => .pure (.failed hgrow)
  refine (verifyBlocks_inBounds hsize).andThen fun _ => ?_
  refine .ite (fun _ => .pure (.loaded hgrow hread)) fun _ => ?_
  exact (printHashForCorruptedStashedBlocks_inBounds h).andThen fun _ => .pure (.failed hgrow)

theorem printHashIfRecorded_inBounds :
    LogsOnly Access.InBounds (printHashIfRecorded sizes id region buffer) := by
  unfold printHashIfRecorded
  rcases hsrc : sizes.stashMap id with _ | src
  · exact .pure _
  · exact printHashForCorruptedStashedBlocks_inBounds (sizes.recorded id src hsrc)

variable {verify : Bool}

theorem loadFile_grown :
    Ensures Access.InBounds (Grown buffer (some n)) (loadFile sizes id verify region buffer n) := by
  have hgrow : buffer ≤ allocate n buffer := Nat.le_max_left _ _
  have hroom : n ≤ allocate n buffer := Nat.le_max_right _ _
  have hread : 0 + n ≤ allocate n buffer := by rwa [Nat.zero_add]
  have hverify : bytesOf (n / BLOCKSIZE) ≤ allocate n buffer :=
    calc bytesOf (n / BLOCKSIZE) ≤ n / BLOCKSIZE * BLOCKSIZE := Nat.mod_le _ _
      _ ≤ n := Nat.div_mul_le_self n BLOCKSIZE
      _ ≤ allocate n buffer := hroom
  refine succeeds_inBounds.andThen fun _ => .ite (fun _ => ?_) fun _ =>
    .pure (.failed (Nat.le_refl _))
  refine (transferAll_inBounds hread).andThen fun _ => .ite (fun _ => ?_) fun _ =>
    .pure (.failed hgrow)
  refine .ite (fun _ => ?_) fun _ => .pure (.loaded hgrow hroom)
  refine (verifyBlocks_inBounds hverify).andThen fun _ => ?_
  refine .ite (fun _ => .pure (.loaded hgrow hroom)) fun _ => ?_
  exact printHashIfRecorded_inBounds.andThen fun _ => .pure (.failed hgrow)

theorem recorded_of_mapped (h : (if sizes.canwrite then none else sizes.stashMap id) = some src) :
    src.blocks * BLOCKSIZE < 2 ^ 64 := by
  split at h
  · cases h
  · exact sizes.recorded id src h

theorem stashBytes_of_file (hmap : (if sizes.canwrite then none else sizes.stashMap id) = none)
    (hfile : sizes.file id = some n) (hwhole : n % BLOCKSIZE = 0) :
    stashBytes sizes id = some n := by
  unfold stashBytes
  rw [hmap, hfile]
  exact Option.filter_eq_some_iff.mpr ⟨rfl, decide_eq_true hwhole⟩

/-- Loading a stash stays in the buffer, which grows as it has to. -/
theorem loadStash_grown : Ensures Access.InBounds (Grown buffer (stashBytes sizes id))
      (loadStash sizes id verify region buffer) := by
  unfold loadStash
  split
  · rename_i src hsrc
    have hbytes : stashBytes sizes id = some (src.blocks * BLOCKSIZE) := by
      unfold stashBytes
      rw [hsrc]
    rw [hbytes]
    exact loadMapped_grown (recorded_of_mapped hsrc)
  · rename_i hmap
    split
    · exact printHashForMissingStashedBlocks_inBounds.andThen fun _ =>
        .pure (.failed (Nat.le_refl _))
    · rename_i n hn
      refine .ite (fun _ => .pure (.failed (Nat.le_refl _))) fun hwhole => ?_
      rw [stashBytes_of_file hmap hn (not_not.mp hwhole)]
      exact loadFile_grown

theorem possible_loadStash_false {verify : Bool} (hbuffer : buffer < 2 ^ 64) :
    ∃ m < 2 ^ 64, Possible (loadStash sizes id verify region buffer) (m, false) := by
  unfold loadStash
  split
  · rename_i src _
    exact ⟨allocate (bytesOf src.blocks) buffer, Nat.max_lt.mpr ⟨hbuffer, bytesOf_lt _⟩,
      (possible_readBlocks false).bind (.pure _)⟩
  · refine ⟨buffer, hbuffer, ?_⟩
    split
    · exact possible_printHashForMissingStashedBlocks.bind (.pure _)
    · split
      · exact .pure _
      · exact (possible_succeeds false).bind (.pure _)

theorem possible_loadStash_true (h : stashBytes sizes id = some n) :
    Possible (loadStash sizes id false region 0) (n, true) := by
  unfold stashBytes at h
  unfold loadStash
  split at h
  · rename_i src hsrc
    cases h
    have hsize : src.blocks * BLOCKSIZE = allocate (bytesOf src.blocks) 0 := by
      unfold allocate
      rw [Nat.zero_max, bytesOf_of_lt (recorded_of_mapped hsrc)]
    rw [hsize]
    exact (possible_readBlocks true).bind ((possible_verifyBlocks true).bind (.pure _))
  · obtain ⟨hfile, hwhole⟩ := Option.filter_eq_some_iff.mp h
    have hsize : n = allocate n 0 := (Nat.zero_max n).symm
    rw [hfile]
    dsimp only
    rw [if_neg (not_not.mpr (of_decide_eq_true hwhole))]
    have hload : Possible (loadFile sizes id false region 0 n) (allocate n 0, true) :=
      (possible_succeeds true).bind (possible_transferAll.bind (.pure _))
    rwa [← hsize] at hload

end Stashes

/-! ## Sources -/

section Sources

variable {sizes : Sizes} {room : Nat}

theorem loadStashes_inBounds : ∀ {refs : List (Text × RangeSet)},
    (∀ ref ∈ refs, ∀ n, stashBytes sizes ref.1 = some n → Placed ref.2 room n) →
    LogsOnly Access.InBounds (loadStashes sizes room refs)
  | [], _ => .pure _
  | (id, locs) :: refs, h => by
    have hrest := loadStashes_inBounds (forall_mem_cons.mp h).2
    refine loadStash_grown.logs_bind fun loaded hgrown => .ite (fun hloaded => ?_) fun _ => hrest
    obtain ⟨n, hn, hle⟩ := hgrown.2 hloaded
    have hplaced := h (id, locs) mem_cons_self n hn
    have hloc : Placed locs room loaded.1 := ⟨hplaced.places, Nat.le_trans hplaced.packed hle⟩
    exact (LogsOnly.logAll (moveRange_placed_iff.mpr hloc)).bind fun _ => hrest

theorem possible_loadStashes : ∀ {refs : List (Text × RangeSet)},
    Possible (loadStashes sizes room refs) ()
  | [] => .pure ()
  | _ :: _ => by
    obtain ⟨m, _, hfalse⟩ := @possible_loadStash_false sizes .stash _ 0 false (by decide)
    exact hfalse.bind possible_loadStashes

theorem placed_of_loadStashes : ∀ {refs : List (Text × RangeSet)},
    LogsOnly Access.InBounds (loadStashes sizes room refs) →
    ∀ ref ∈ refs, ∀ n, stashBytes sizes ref.1 = some n → Placed ref.2 room n
  | (id, locs) :: refs, h, ref, href, n, hn => by
    rcases mem_cons.mp href with rfl | href
    · have hmoves := (h.right (possible_loadStash_true hn)).left
      exact moveRange_placed_iff.mp fun a ha => hmoves [] a ha
    · -- a later stash is reached when this one fails to load
      obtain ⟨m, _, hfalse⟩ := @possible_loadStash_false sizes .stash id 0 false (by decide)
      exact placed_of_loadStashes (h.right hfalse) ref href n hn

theorem loadSourceBlocks_inBounds_iff {source : Source} :
    LogsOnly Access.InBounds (loadSourceBlocks sizes room source) ↔ Fits sizes room source := by
  cases source with
  | stashes refs =>
    constructor
    · exact fun h => ⟨nofun, nofun, placed_of_loadStashes h.left⟩
    · exact fun h => (loadStashes_inBounds h.stashes).bind fun _ => .pure _
  | range src =>
    constructor
    · intro h
      refine ⟨?_, nofun, nofun⟩
      rintro _ ⟨⟩
      exact readBlocks_inBounds_iff.mp h
    · exact fun h => readBlocks_inBounds_iff.mpr (h.read src rfl)
  | mixed src locs refs =>
    constructor
    · intro h
      have hafter := h.right (possible_readBlocks true)
      have hmoves := hafter.left
      refine ⟨?_, ?_, placed_of_loadStashes (hafter.right (.logAll _)).left⟩
      · rintro _ ⟨⟩
        exact readBlocks_inBounds_iff.mp h.left
      · rintro _ _ _ ⟨⟩
        exact moveRange_placed_iff.mp fun a ha => hmoves [] a ha
    · intro h
      refine (readBlocks_inBounds_iff.mpr (h.read src rfl)).bind fun _ => ?_
      refine .ite (fun _ => ?_) fun _ => .pure _
      refine (LogsOnly.logAll (moveRange_placed_iff.mpr (h.placed src locs refs rfl))).bind
        fun _ => ?_
      exact (loadStashes_inBounds h.stashes).bind fun _ => .pure _

theorem possible_loadSourceBlocks {source : Source} :
    Possible (loadSourceBlocks sizes room source) true := by
  cases source with
  | stashes refs => exact possible_loadStashes.bind (.pure true)
  | range src => exact possible_readBlocks true
  | mixed src locs refs =>
    exact (possible_readBlocks true).bind
      ((Possible.logAll _).bind (possible_loadStashes.bind (.pure true)))

end Sources

/-! ## Commands -/

section Commands

variable {cfg : Config} {sizes : Sizes} {t : Transfer} {count : Nat} {source : Source}

theorem loadSource_inBounds (h : Fits sizes (room sizes count) source) :
    Ensures Access.InBounds (fun r => ∀ size, r = some size → room sizes count ≤ size)
      (loadSource cfg sizes t count source) := by
  have hverify : bytesOf count ≤ room sizes count := Nat.le_max_right _ _
  refine (loadSourceBlocks_inBounds_iff.mpr h).andThen fun _ => .ite (fun _ => ?_) fun _ =>
    .pure nofun
  refine (verifyBlocks_inBounds hverify).andThen fun _ => .ite (fun _ => ?_) fun _ => ?_
  · have hroom : ∀ size, some (room sizes count) = some size → room sizes count ≤ size :=
      fun size h => Nat.le_of_eq (Option.some.inj h)
    refine .ite (fun _ => succeeds_inBounds.andThen fun ok => .pure ?_) fun _ => .pure hroom
    cases ok with
    | true => exact hroom
    | false => exact nofun
  · refine .ite (fun _ => ?_) fun _ => .pure nofun
    refine loadStash_grown.bind fun loaded hgrown => .pure ?_
    intro size hsize
    split at hsize
    · rw [← Option.some.inj hsize]
      exact hgrown.1
    · cases hsize

theorem possible_loadSource :
    Possible (loadSource cfg sizes t count source) (some (room sizes count)) := by
  refine possible_loadSourceBlocks.bind ((possible_verifyBlocks true).bind ?_)
  show Possible (if t.overlaps cfg && sizes.canwrite then _ else _) _
  split
  · exact (possible_succeeds true).bind (.pure _)
  · exact .pure _

theorem writeTarget_inBounds {size : Nat} (h : Writable sizes t (room sizes count))
    (hsize : room sizes count ≤ size) :
    LogsOnly Access.InBounds (writeTarget sizes t count size) := by
  unfold Writable at h
  unfold writeTarget
  split at h
  · exact (writeBlocks_inBounds_iff.mpr (Nat.le_trans h hsize)).bind fun _ => .pure _
  · refine .logAll fun a ha => ?_
    rcases mem_cons.mp ha with rfl | ha
    · exact Access.inBounds_iff.mpr h
    · rw [mem_singleton.mp ha]
      refine Access.inBounds_of_le ?_
      calc 0 + bytesOf count = bytesOf count := Nat.zero_add _
        _ ≤ room sizes count := Nat.le_max_right _ _
        _ ≤ size := hsize

theorem writable_of_writeTarget {size : Nat}
    (h : LogsOnly Access.InBounds (writeTarget sizes t count size)) : Writable sizes t size := by
  unfold writeTarget at h
  unfold Writable
  split at h
  · exact writeBlocks_inBounds_iff.mp h.left
  · exact Access.inBounds_iff.mp (h [] _ (logs_logAll.mpr mem_cons_self))

theorem transfer_inBounds_iff : LogsOnly Access.InBounds (transfer cfg sizes t count source) ↔
      t.tgt.blocks * BLOCKSIZE < 2 ^ 64 ∧ Fits sizes (room sizes count) source ∧
        (sizes.canwrite = true → Writable sizes t (room sizes count)) := by
  constructor
  · intro h
    have htarget := readBlocks_inBounds_iff.mp h.left
    have hload := (h.right (possible_readBlocks true)).right (possible_verifyBlocks false)
    refine ⟨Nat.lt_of_le_of_lt htarget (bytesOf_lt _), ?_, ?_⟩
    · exact loadSourceBlocks_inBounds_iff.mp hload.left.left
    · intro hcanwrite
      have hwrite := hload.right possible_loadSource
      dsimp only at hwrite
      rw [if_pos hcanwrite] at hwrite
      exact writable_of_writeTarget hwrite
  · rintro ⟨htarget, hfits, hwritable⟩
    have hread : t.tgt.blocks * BLOCKSIZE ≤ bytesOf t.tgt.blocks :=
      Nat.le_of_eq (bytesOf_of_lt htarget).symm
    refine (readBlocks_inBounds_iff.mpr hread).bind fun _ => .ite (fun _ => ?_) fun _ => .pure _
    refine (verifyBlocks_inBounds (Nat.le_refl _)).bind fun _ => .ite (fun _ => .pure _) fun _ => ?_
    refine (loadSource_inBounds hfits).logs_bind fun loaded hloaded => ?_
    cases loaded with
    | none => exact .pure _
    | some size =>
      exact .ite (fun hcanwrite => writeTarget_inBounds (hwritable hcanwrite) (hloaded size rfl))
        fun _ => .pure _

theorem stash_inBounds_iff {id : Text} {src : RangeSet} :
    LogsOnly Access.InBounds (stash sizes id src) ↔ src.blocks * BLOCKSIZE < 2 ^ 64 := by
  constructor
  · intro h
    obtain ⟨m, hm, hfalse⟩ := @possible_loadStash_false sizes .buffer id _ true sizes.buffer_lt
    have hread := readBlocks_inBounds_iff.mp (h.right hfalse).left
    exact Nat.lt_of_le_of_lt hread (Nat.max_lt.mpr ⟨hm, bytesOf_lt _⟩)
  · intro h
    refine loadStash_grown.logs.bind fun loaded => .ite (fun _ => .pure _) fun _ => ?_
    have hverify : bytesOf src.blocks ≤ allocate (bytesOf src.blocks) loaded.1 :=
      Nat.le_max_right _ _
    have hread : src.blocks * BLOCKSIZE ≤ allocate (bytesOf src.blocks) loaded.1 := by
      rwa [bytesOf_of_lt h] at hverify ⊢
    refine (readBlocks_inBounds_iff.mpr hread).bind fun _ => .ite (fun _ => ?_) fun _ => .pure _
    exact (verifyBlocks_inBounds hverify).bind fun _ => .pure _

theorem accesses_inBounds_iff (cmd : Command) :
    LogsOnly Access.InBounds (accesses cfg sizes cmd) ↔ Consistent cfg sizes cmd := by
  cases cmd with
  | transfer t =>
    unfold accesses Consistent
    dsimp only
    rcases parseSize cfg t.count with _ | count
    · exact ⟨fun _ => (by rintro _ _ ⟨⟩), fun _ => .pure _⟩
    rcases parseSource cfg t.source with _ | source
    · exact ⟨fun _ => (by rintro _ _ _ ⟨⟩), fun _ => .pure _⟩
    rw [transfer_inBounds_iff]
    constructor
    · rintro h _ _ ⟨⟩ ⟨⟩
      exact h
    · exact fun h => h count source rfl rfl
  | stash id src => exact stash_inBounds_iff
  | free id => exact ⟨fun _ => trivial, fun _ => .pure _⟩
  | zero tgt => exact ⟨fun _ => trivial, fun _ => .pure _⟩
  | new tgt => exact ⟨fun _ => trivial, fun _ => .pure _⟩
  | erase tgt => exact ⟨fun _ => trivial, fun _ => .pure _⟩

end Commands

/--
**Which commands stay in their buffers.** Whatever the outcomes of the calls and checks, a line that
the parsers accept accesses only bytes of its buffers and of the patch entry, exactly if what the
parsers leave open fits together: the blocks of the source, the places and the stashes fit in a
buffer of the size that the block count gives, and the target or the patch in what it is taken from.
-/
theorem lineAccesses_inBounds_iff (cfg : Config) (sizes : Sizes) (line : Text) :
    LogsOnly Access.InBounds (lineAccesses cfg sizes line) ↔
      ∀ cmd, parseCommand cfg line = some cmd → Consistent cfg sizes cmd := by
  unfold lineAccesses
  rcases parseCommand cfg line with _ | cmd
  · exact ⟨fun _ => nofun, fun _ => .pure _⟩
  · rw [accesses_inBounds_iff]
    constructor
    · rintro h _ ⟨⟩
      exact h
    · exact fun h => h cmd rfl

end Buffers

/-! ## Commands that do not fit together -/

namespace Sample

open Buffers

def noSizes : Sizes where
  canwrite := true
  buffer := 0
  patch := 0
  stashMap _ := none
  file _ := none
  buffer_lt := by decide
  recorded _ _ h := nomatch h

/-- `move hab 2,0,1 1 2,1,4`: three blocks to a buffer for one. -/
def wide : Text := "move hab 2,0,1 1 2,1,4".toList

/-- `move hab 2,0,1 1 2,1,2 2,5,6`: a place that a buffer for one block does not have. -/
def misplaced : Text := copy ++ " 2,5,6".toList

/-- `bsdiff 3 4 hab hb 2,0,1 1 2,1,2`: a patch that is not in the entry. -/
def unpatched : Text := "bsdiff 3 4 hab hb 2,0,1 1 2,1,2".toList

end Sample

open Sample

open Buffers in
/-- Two blocks are moved over one of them. -/
theorem shift_inBounds : LogsOnly Access.InBounds (lineAccesses config noSizes shift) := by
  refine (lineAccesses_inBounds_iff _ _ _).mpr ?_
  have hparse : parseCommand config shift = some (.transfer shiftTransfer) := by
    decide +kernel
  intro cmd hcmd
  obtain rfl := Option.some.inj (hparse.symm.trans hcmd)
  intro count source hcount hsource
  have htwo : parseSize config shiftTransfer.count = some 2 := by decide +kernel
  obtain rfl := Option.some.inj (htwo.symm.trans hcount)
  have hrange : parseSource config shiftTransfer.source
      = some (.range ⟨[(1, 3)], by decide, by decide⟩) := by decide +kernel
  obtain rfl := Option.some.inj (hrange.symm.trans hsource)
  refine ⟨by decide +kernel, ⟨?_, nofun, nofun⟩, fun _ => ?_⟩
  · rintro _ ⟨⟩
    decide +kernel
  · show shiftTransfer.tgt.blocks * BLOCKSIZE ≤ _
    decide +kernel

open Buffers in
/-- Three lines that go on outside. When all calls succeed, the first reads twelve kilobytes into
a buffer of four, the second moves a block to a place behind the buffer, and the third takes its
patch from behind the patch entry. -/
theorem accesses_out_of_bounds : (⟨.buffer, 4096, 0, 12288⟩ ∈
        (lineAccesses config noSizes wide [1, 4096, 0, 1, 12288]).1 ∧
      ¬ (⟨.buffer, 4096, 0, 12288⟩ : Access).InBounds) ∧
    (⟨.buffer, 4096, 20480, 4096⟩ ∈
        (lineAccesses config noSizes misplaced [1, 4096, 0, 1, 4096]).1 ∧
      ¬ (⟨.buffer, 4096, 20480, 4096⟩ : Access).InBounds) ∧
    (⟨.patch, 0, 3, 4⟩ ∈ (lineAccesses config noSizes unpatched [1, 4096, 0, 1, 4096, 1]).1 ∧
      ¬ (⟨.patch, 0, 3, 4⟩ : Access).InBounds) ∧
    (performCommand config wide (.start [] []) disk).val = .error .memory ∧
    (performCommand config misplaced (.start [] []) disk).val = .error .memory := by
  refine ⟨⟨by decide +kernel, ?_⟩, ⟨by decide +kernel, ?_⟩, ⟨by decide +kernel, ?_⟩,
    by decide +kernel,
    by decide +kernel⟩
  all_goals
    rw [Access.inBounds_iff]
    decide

end Pterodon.Updater
