import Mathlib.Algebra.Order.Ring.Int
import Pterodon.Lib.CString

/-!
# Backing up and restoring an MMC partition

`mmc_raw_dump_internal` and `mmc_raw_copy` copy one file to another in one of two ways. If
the size of the input, as an `unsigned`, is a multiple of 512, they copy that many blocks and
fail if a block cannot be read or written. If it is not, they copy characters until `fgetc`
returns `EOF`, and do not look at what `fputc` returns. In neither case do they look at what
`fclose` returns, where the last bytes are written.

So a return value of 0 says little about the characters and about a size of four gigabytes or
more. When 0 is returned is `Stdio.Succeeds`, and what it takes for a complete copy is
`Stdio.Whole`.
-/

namespace Pterodon.Mmc

open Lib List

variable {input out : Bytes}

/-- How the calls of the C library turn out in one copy; the calls of each kind are
numbered. -/
structure Stdio where
  inOpens : Bool
  outOpens : Bool
  /-- Whether `ftell` returns the size, and not -1. -/
  tells : Bool
  /-- Whether the `fgetc` or `fread` of this number succeeds, before the end of the file. -/
  reads : Nat → Bool
  /-- Whether the `fputc` or `fwrite` of this number succeeds. -/
  writes : Nat → Bool
  /-- How many of the last bytes `fclose` could not write any more. -/
  lost : Nat

/-- The size of an input of `n` bytes in an `unsigned`. -/
def Stdio.size (io : Stdio) (n : Nat) : Nat := if io.tells then n % 2 ^ 32 else 2 ^ 32 - 1

/-- The loop over characters, from the `k`-th on. With `stop`, it ends after that many. -/
def copyChars (io : Stdio) (stop : Option Nat) : Nat → Bytes → Bytes
  | _, [] => []
  | k, b :: bs =>
    if !io.reads k then []
    else
      let rest := if stop = some (k + 1) then [] else copyChars io stop (k + 1) bs
      if io.writes k then b :: rest else rest

/-- The loop over blocks of 512 bytes, from the `i`-th on; false where it ends in an error. -/
def copyBlocks (io : Stdio) : Nat → Nat → Bytes → Bool × Bytes
  | 0, _, _ => (true, [])
  | count + 1, i, input =>
    if input.length < 512 ∨ !io.reads i then (false, [])
    else if !io.writes i then (false, [])
    else
      let (ok, rest) := copyBlocks io count (i + 1) (input.drop 512)
      (ok, input.take 512 ++ rest)

/-- The body the two functions share: what is returned, and what was written. -/
def copyStream (io : Stdio) (input : Bytes) (sz : Nat) (stop : Option Nat) : Int × Bytes :=
  if !io.inOpens ∨ !io.outOpens then (-1, [])
  else
    let (ok, out) :=
      if sz % 512 ≠ 0 then (true, copyChars io stop 0 input)
      else copyBlocks io (sz / 512) 0 input
    (if ok then 0 else -1, out.take (out.length - io.lost))

/-- `mmc_raw_copy`. -/
def mmcRawCopy (io : Stdio) (input : Bytes) : Int × Bytes :=
  copyStream io input (io.size input.length) none

/-- A build: with `BOARD_USE_MTK_LAYOUT`, sizes of some partitions are looked up. -/
structure Config where
  mtk : Bool
  bootMountPoint : Bytes
  /-- `Find_Partition_Size` of a mount point, by its `Total_Size`. -/
  findPartitionSize : Bytes → Option Nat

variable (cfg : Config)

/-- The size that `mmc_raw_dump_internal` goes by; 0 asks for that of the input. -/
def Stdio.dumpSize (io : Stdio) (n sz : Nat) : Nat := if sz = 0 then io.size n else sz

/-- `mmc_raw_dump_internal`. -/
def mmcRawDumpInternal (io : Stdio) (input : Bytes) (sz : Nat) : Int × Bytes :=
  let sz := io.dumpSize input.length sz
  copyStream io input sz (if cfg.mtk then some sz else none)

/-- One of the size lookups of `cmd_mmc_backup_raw_partition`: it replaces the size if the
path has the mount point in it. -/
def lookupSize (path mountPoint : Bytes) (sz : Option Nat) : Option Nat :=
  if path.tails.any mountPoint.isPrefixOf then
    sz.bind fun _ => (cfg.findPartitionSize mountPoint).map (· % 2 ^ 32)
  else sz

/-- The size `cmd_mmc_backup_raw_partition` passes on; `none` where it returns -1. -/
def backupSize (path : Bytes) : Option Nat :=
  if cfg.mtk then
    lookupSize cfg path (ascii "/uboot".toList)
      (lookupSize cfg path (ascii "/recovery".toList)
        (lookupSize cfg path cfg.bootMountPoint (some 0)))
  else some 0

/-- `cmd_mmc_backup_raw_partition` of a device path: what it returns, and the file. -/
def cmdMmcBackupRawPartition (path : Bytes) (io : Stdio) (content : Bytes) : Int × Bytes :=
  match backupSize cfg path with
  | none => (-1, [])
  | some sz => mmcRawDumpInternal cfg io content sz

/-- A block device after some bytes were written to its start. -/
def overwrite (old out : Bytes) : Bytes := (out ++ old.drop out.length).take old.length

/-- `cmd_mmc_restore_raw_partition` onto a partition, given by its name or by the path of its
device: what it returns, and the content of the partition. -/
def cmdMmcRestoreRawPartition (byName : Bool) (io : Stdio) (file old : Bytes) : Int × Bytes :=
  let (ret, out) :=
    if byName then mmcRawCopy io file else mmcRawDumpInternal cfg io file 0
  (ret, overwrite old out)

/-! ## Complete copies -/

/-- 0 is returned for `n` bytes if `sz` is taken for the size. -/
def Stdio.Succeeds (io : Stdio) (n sz : Nat) : Prop :=
  io.inOpens ∧ io.outOpens ∧
    (sz % 512 = 0 → sz ≤ n ∧ ∀ i < sz / 512, io.reads i ∧ io.writes i)

/-- All of the `n` bytes arrive then: blocks are as many as there are, or no call for a character
fails and, if they are counted, the count does not end too early; and `fclose` writes the rest. -/
def Stdio.Whole (io : Stdio) (n sz : Nat) (counted : Bool) : Prop :=
  n = 0 ∨ io.lost = 0 ∧
    if sz % 512 = 0 then n ≤ sz
    else (∀ k < n, io.reads k ∧ io.writes k) ∧ (counted → n ≤ sz)

variable {io : Stdio} {stop : Option Nat} {sz k : Nat}

theorem copyChars_sublist : copyChars io stop k input <+ input := by
  induction input generalizing k with
  | nil => exact .slnil
  | cons b bs ih =>
    have hrest : (if stop = some (k + 1) then [] else copyChars io stop (k + 1) bs) <+ bs := by
      split
      · exact nil_sublist _
      · exact ih
    rw [copyChars]
    split
    · exact nil_sublist _
    · dsimp only
      split
      · exact hrest.cons_cons b
      · exact hrest.cons b

theorem copyChars_eq_iff (hstop : ∀ s ∈ stop, k < s) : copyChars io stop k input = input ↔
    (∀ i < input.length, io.reads (k + i) ∧ io.writes (k + i)) ∧
      ∀ s ∈ stop, k + input.length ≤ s := by
  induction input generalizing k with
  | nil => simpa [copyChars] using fun s hs => Nat.le_of_lt (hstop s hs)
  | cons b bs ih =>
    have hsplit : (∀ i < (b :: bs).length, io.reads (k + i) ∧ io.writes (k + i)) ↔
        (io.reads k ∧ io.writes k) ∧
          ∀ i < bs.length, io.reads (k + 1 + i) ∧ io.writes (k + 1 + i) := by
      rw [length_cons, Nat.forall_lt_succ_left]
      simp only [Nat.add_zero, Nat.add_assoc, Nat.add_comm 1]
    rw [copyChars, hsplit]
    cases hr : io.reads k with
    | false => simp
    | true =>
      cases hw : io.writes k with
      | false =>
        -- a character is missing
        have hshort : (if stop = some (k + 1) then [] else copyChars io stop (k + 1) bs) ≠
            b :: bs := by
          intro h
          have hlen := congrArg length h
          split at hlen
          · simp at hlen
          · have := (@copyChars_sublist bs io stop (k + 1)).length_le
            simp at hlen
            omega
        simpa using hshort
      | true =>
        by_cases hs : stop = some (k + 1)
        · -- the count ends the loop: at the end of the input, or too early
          cases bs with
          | nil => simp [hs]
          | cons c bs => simp [hs]
        · have hnext := @ih (k + 1) fun s hs' => by
            have := hstop s hs'
            have : s ≠ k + 1 := fun h => hs (h ▸ hs')
            omega
          simpa [hs, Nat.add_assoc, Nat.add_comm 1] using hnext

theorem copyBlocks_eq_iff {count i : Nat} : copyBlocks io count i input = (true, out) ↔
    512 * count ≤ input.length ∧ (∀ j < count, io.reads (i + j) ∧ io.writes (i + j)) ∧
      out = input.take (512 * count) := by
  induction count generalizing i input out with
  | zero => exact ⟨fun h => by cases h; simp, fun h => by rw [h.2.2]; simp [copyBlocks]⟩
  | succ count ih =>
    have hsplit : (∀ j < count + 1, io.reads (i + j) ∧ io.writes (i + j)) ↔
        (io.reads i ∧ io.writes i) ∧
          ∀ j < count, io.reads (i + 1 + j) ∧ io.writes (i + 1 + j) := by
      rw [Nat.forall_lt_succ_left]
      simp only [Nat.add_zero, Nat.add_assoc, Nat.add_comm 1]
    have htake : input.take (512 * (count + 1)) =
        input.take 512 ++ (input.drop 512).take (512 * count) := by
      rw [Nat.mul_succ, Nat.add_comm, take_add]
    have hlength : (input.drop 512).length = input.length - 512 := length_drop
    rw [copyBlocks, hsplit, htake]
    by_cases hread : input.length < 512 ∨ (!io.reads i) = true
    · rw [if_pos hread]
      refine ⟨nofun, fun h => ?_⟩
      rcases hread with hshort | hfails
      · omega
      · simp [h.2.1.1.1] at hfails
    rw [if_neg hread]
    obtain ⟨hlen, hr⟩ := not_or.mp hread
    by_cases hwrite : (!io.writes i) = true
    · rw [if_pos hwrite]
      exact ⟨nofun, fun h => by simp [h.2.1.1.2] at hwrite⟩
    rw [if_neg hwrite]
    constructor
    · intro h
      obtain ⟨hok, rfl⟩ := Prod.mk.inj h
      obtain ⟨hrest, hcalls, hout⟩ := ih.mp (Prod.ext hok rfl)
      exact ⟨by omega, ⟨⟨by simpa using hr, by simpa using hwrite⟩, hcalls⟩,
        congrArg (input.take 512 ++ ·) hout⟩
    · rintro ⟨hrest, ⟨-, hcalls⟩, rfl⟩
      rw [ih.mpr ⟨by omega, hcalls, rfl⟩]

theorem copyBlocks_sublist {count i : Nat} : (copyBlocks io count i input).2 <+ input := by
  induction count generalizing i input with
  | zero => exact nil_sublist _
  | succ count ih =>
    rw [copyBlocks]
    split
    · exact nil_sublist _
    · split
      · exact nil_sublist _
      · have h := (Sublist.refl (input.take 512)).append (@ih (input.drop 512) (i + 1))
        rwa [take_append_drop] at h

theorem copyStream_sublist : (copyStream io input sz stop).2 <+ input := by
  rw [copyStream]
  split
  · exact nil_sublist _
  · refine ( take_sublist _ _).trans ?_
    split
    · exact copyChars_sublist
    · exact copyBlocks_sublist

theorem copyStream_chars (hopen : io.inOpens ∧ io.outOpens) (hsz : sz % 512 ≠ 0) :
    copyStream io input sz stop = (0, (copyChars io stop 0 input).take
      ((copyChars io stop 0 input).length - io.lost)) := by
  simp [copyStream, hopen, hsz]

theorem copyStream_blocks (hopen : io.inOpens ∧ io.outOpens) (hsz : sz % 512 = 0) :
    copyStream io input sz stop = (if (copyBlocks io (sz / 512) 0 input).1 then 0 else -1,
      (copyBlocks io (sz / 512) 0 input).2.take
        ((copyBlocks io (sz / 512) 0 input).2.length - io.lost)) := by
  simp [copyStream, hopen, hsz]

theorem copyStream_ret : (copyStream io input sz stop).1 = 0 ↔ io.Succeeds input.length sz := by
  by_cases hopen : io.inOpens ∧ io.outOpens
  · by_cases hsz : sz % 512 = 0
    · have hret : ∀ ok : Bool, (if ok then 0 else -1 : Int) = 0 ↔ ok = true := by decide
      rw [copyStream_blocks hopen hsz, hret, Stdio.Succeeds]
      constructor
      · intro hok
        obtain ⟨hle, hcalls, -⟩ := copyBlocks_eq_iff.mp (Prod.ext hok rfl)
        exact ⟨hopen.1, hopen.2, fun _ => ⟨by omega, by simpa using hcalls⟩⟩
      · rintro ⟨-, -, hblocks⟩
        obtain ⟨hle, hcalls⟩ := hblocks hsz
        rw [copyBlocks_eq_iff.mpr ⟨by omega, by simpa using hcalls, rfl⟩]
    · simp [copyStream_chars hopen hsz, Stdio.Succeeds, hopen, hsz]
  · have hclosed : (!io.inOpens) = true ∨ (!io.outOpens) = true := by
      simpa [← Bool.not_eq_true, imp_iff_not_or] using hopen
    rw [copyStream, if_pos hclosed, Stdio.Succeeds, ← and_assoc]
    simp [hopen]

/-- Nothing or everything is left of what was written. -/
theorem take_lost_eq_iff {written : Bytes} {lost : Nat} (h : written <+ input) :
    written.take (written.length - lost) = input ↔
      input = [] ∨ lost = 0 ∧ written = input := by
  constructor
  · intro heq
    have hlen := congrArg length heq
    have hle := h.length_le
    rw [length_take] at hlen
    rcases Nat.eq_zero_or_pos lost with rfl | hpos
    · exact .inr ⟨rfl, h.eq_of_length (by omega)⟩
    · exact .inl (length_eq_zero_iff.mp (by omega))
  · rintro (rfl | ⟨rfl, rfl⟩)
    · rw [sublist_nil.mp h, take_nil]
    · rw [Nat.sub_zero, take_length]

theorem copyStream_whole {counted : Bool} (h : io.Succeeds input.length sz) :
    (copyStream io input sz (if counted then some sz else none)).2 = input ↔
      io.Whole input.length sz counted := by
  obtain ⟨hin, hout, hblocks⟩ := h
  rw [Stdio.Whole, length_eq_zero_iff]
  by_cases hsz : sz % 512 = 0
  · obtain ⟨hle, hcalls⟩ := hblocks hsz
    have hcopy := (@copyBlocks_eq_iff input _ io (sz / 512) 0).mpr
      ⟨by omega, by simpa using hcalls, rfl⟩
    rw [copyStream_blocks ⟨hin, hout⟩ hsz, hcopy, take_lost_eq_iff ( take_sublist ..), if_pos hsz]
    refine or_congr_right (and_congr_right fun _ => ⟨fun heq => ?_, fun hle => ?_⟩)
    · have hlen := congrArg length heq
      rw [length_take] at hlen
      omega
    · exact take_of_length_le (by omega)
  · rw [copyStream_chars ⟨hin, hout⟩ hsz, take_lost_eq_iff copyChars_sublist, if_neg hsz,
      copyChars_eq_iff]
    · cases counted <;> simp
    · cases counted with
      | false => nofun
      | true =>
        intro s hs
        cases hs
        exact Nat.pos_of_ne_zero fun h0 => hsz (by rw [h0])

theorem copyStream_complete_iff {counted : Bool} :
    (∀ out, copyStream io input sz (if counted then some sz else none) = (0, out) → out = input) ↔
      (io.Succeeds input.length sz → io.Whole input.length sz counted) := by
  constructor
  · intro h hs
    exact (copyStream_whole hs).mp (h _ (Prod.ext (copyStream_ret.mpr hs) rfl))
  · intro h out hout
    have hs : io.Succeeds input.length sz := copyStream_ret.mp (by rw [hout])
    have := (copyStream_whole hs).mpr (h hs)
    rwa [hout] at this

/-- What is on the partition afterwards does not depend on what was there exactly if everything is
written over. -/
theorem overwrite_eq_iff {content : Bytes} (hlen : out.length ≤ content.length) :
    (∀ old, old.length = content.length → overwrite old out = content) ↔ out = content := by
  have hover : ∀ old : Bytes, old.length = content.length →
      overwrite old out = out ++ old.drop out.length := by
    intro old hold
    exact take_of_length_le (by rw [length_append, length_drop]; omega)
  constructor
  · intro h
    -- a partition without a byte of the content
    have hother := h (content.map fun b => if b = 0 then 1 else 0) (length_map _)
    rw [hover _ (length_map _), ← map_drop] at hother
    have hnil : content.drop out.length = [] := by
      have hrest := congrArg (drop out.length) hother
      rw [drop_left] at hrest
      cases hd : content.drop out.length with
      | nil => rfl
      | cons b bs =>
        rw [hd, map_cons] at hrest
        have hb := (cons.inj hrest).1
        split at hb
        · next h0 => simp [h0] at hb
        · next h0 => exact absurd hb.symm h0
    rwa [hnil, map_nil, append_nil] at hother
  · rintro rfl old hold
    rw [hover old hold, ← hold, drop_length, append_nil]

/-- Both ways of restoring take the size of the file; only one of them counts. -/
theorem cmdMmcRestoreRawPartition_eq (byName : Bool) (file old : Bytes) :
    cmdMmcRestoreRawPartition cfg byName io file old = ((copyStream io file (io.size file.length)
          (if !byName && cfg.mtk then some (io.size file.length) else none)).1,
        overwrite old (copyStream io file (io.size file.length)
          (if !byName && cfg.mtk then some (io.size file.length) else none)).2) := by
  cases byName <;> rfl

/-- A return value of 0 means a complete copy exactly if all bytes arrive whenever it is returned.
A partition restored from its backup is as it was, whatever the target had, exactly if all bytes
arrive in both copies whenever both return 0. -/
theorem backup_restores_iff (cfg : Config) (path content : Bytes) (byName : Bool)
    (backup restore : Stdio) :
    (∀ sz, (∀ out, mmcRawDumpInternal cfg backup content sz = (0, out) → out = content) ↔
      (backup.Succeeds content.length (backup.dumpSize content.length sz) →
        backup.Whole content.length (backup.dumpSize content.length sz) cfg.mtk)) ∧
    ((∀ out, mmcRawCopy backup content = (0, out) → out = content) ↔
      (backup.Succeeds content.length (backup.size content.length) →
        backup.Whole content.length (backup.size content.length) false)) ∧
    ((∀ old file restored, old.length = content.length →
        cmdMmcBackupRawPartition cfg path backup content = (0, file) →
        cmdMmcRestoreRawPartition cfg byName restore file old = (0, restored) →
        restored = content) ↔
      ∀ sz file, backupSize cfg path = some sz →
        file = (mmcRawDumpInternal cfg backup content sz).2.length →
        backup.Succeeds content.length (backup.dumpSize content.length sz) →
        restore.Succeeds file (restore.size file) →
        backup.Whole content.length (backup.dumpSize content.length sz) cfg.mtk ∧
          restore.Whole content.length (restore.size content.length) (!byName && cfg.mtk)) := by
  refine ⟨fun sz => copyStream_complete_iff, @copyStream_complete_iff _ _ _ false, ?_⟩
  simp only [cmdMmcRestoreRawPartition_eq, Prod.mk.injEq]
  constructor
  · rintro h sz _ hsz rfl hback hrest
    obtain ⟨file, hfile⟩ : ∃ file, file = (mmcRawDumpInternal cfg backup content sz).2 := ⟨_, rfl⟩
    rw [← hfile] at hrest
    have hsub : file <+ content := hfile ▸ copyStream_sublist
    have hret : cmdMmcBackupRawPartition cfg path backup content = (0, file) := by
      rw [cmdMmcBackupRawPartition, hsz, hfile]
      exact Prod.ext (copyStream_ret.mpr hback) rfl
    have hall := (overwrite_eq_iff (copyStream_sublist.trans hsub).length_le).mp fun old hold =>
      h old file _ hold hret ⟨copyStream_ret.mpr hrest, rfl⟩
    -- so nothing is missing in the file
    obtain rfl : file = content := hsub.antisymm (hall ▸ copyStream_sublist)
    exact ⟨(copyStream_whole hback).mp hfile.symm, (copyStream_whole hrest).mp hall⟩
  · rintro h old file restored hold hback ⟨hrest, rfl⟩
    rw [cmdMmcBackupRawPartition] at hback
    cases hsz : backupSize cfg path with
    | none =>
      rw [hsz] at hback
      cases hback
    | some sz =>
      rw [hsz] at hback
      have hback : mmcRawDumpInternal cfg backup content sz = (0, file) := hback
      have hs : backup.Succeeds content.length (backup.dumpSize content.length sz) :=
        copyStream_ret.mp (congrArg Prod.fst hback)
      obtain ⟨hwhole, hwhole'⟩ := h sz _ hsz rfl hs (by rw [hback]; exact copyStream_ret.mp hrest)
      obtain rfl : file = content :=
        (congrArg Prod.snd hback).symm.trans ((copyStream_whole hs).mpr hwhole)
      rw [(copyStream_whole (copyStream_ret.mp hrest)).mpr hwhole']
      exact (overwrite_eq_iff le_rfl).mpr rfl old hold

namespace Sample

def config : Config := ⟨false, [], fun _ => none⟩

def working : Stdio := ⟨true, true, true, fun _ => true, fun _ => true, 0⟩

/-- The target file system is full. -/
def full : Stdio := { working with writes := fun _ => false }

/-- The calls from the fourth one on fail. -/
def late : Stdio := { working with reads := (· < 3), writes := (· < 3) }

end Sample

open Sample

/-- Three bytes are restored, though the call behind the last character fails. -/
theorem sample_backup_restores :
    cmdMmcBackupRawPartition config [47] late [1, 2, 3] = (0, [1, 2, 3]) ∧
    ∀ old file restored, old.length = 3 →
      cmdMmcBackupRawPartition config [47] late [1, 2, 3] = (0, file) →
      cmdMmcRestoreRawPartition config true late file old = (0, restored) →
      restored = [1, 2, 3] := by
  have hwhole : late.Whole 3 (late.size 3) false :=
    .inr ⟨rfl, by decide⟩
  refine ⟨by decide +kernel, (backup_restores_iff config [47] [1, 2, 3] true late
    late).2.2.mpr fun sz file hsz _ _ _ => ?_⟩
  cases hsz
  exact ⟨hwhole, hwhole⟩

/-- A size that is a multiple of four gigabytes is taken for 0. -/
theorem dump_of_wrapped_size (input : Bytes) (h : input.length % 2 ^ 32 = 0) :
    mmcRawDumpInternal config working input 0 = (0, []) := by
  have hsize : working.dumpSize input.length 0 = 0 := h
  rw [mmcRawDumpInternal, hsize]
  rfl

/-- A backup of one byte that could not be written returns 0 and is empty, and so is the
backup of a partition of four gigabytes. -/
theorem backup_incomplete :
    cmdMmcBackupRawPartition config [47] full [7] = (0, []) ∧
    mmcRawCopy full [7] = (0, []) ∧
    mmcRawDumpInternal config working (List.replicate (2 ^ 32) 7) 0 = (0, []) := by
  refine ⟨by decide +kernel, by decide +kernel, dump_of_wrapped_size _ ?_⟩
  simp only [length_replicate, Nat.mod_self]

end Pterodon.Mmc
