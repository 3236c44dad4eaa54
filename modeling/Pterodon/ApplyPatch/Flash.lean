import Pterodon.ApplyPatch.Probe

/-!
# `applypatch_flash`

`applypatch_flash` writes a file to a partition, unless the partition has the data
already. The hash it checks is that of the whole file, but the number of bytes it writes
is an argument of its own, and it goes on to write when the file could not be read at
all. `SourceFits` says when the two agree; then only data with the hash is ever written,
and the partition has it when the function returns 0. A size for which there is no buffer ends the
process before anything is written.

A source shorter than `target_size` makes `WriteToPartition` read on behind its buffer.
What is there is a parameter, and it may end: a write from memory that is not there
fails.
-/

namespace Pterodon.ApplyPatch

open Lib List

/-- The arguments of `applypatch_flash`. -/
structure FlashArgs where
  sourceFilename : Text
  targetFilename : Text
  targetSha1Str : Text
  targetSize : Nat

/-- What `applypatch_flash` decides to do. -/
inductive FlashPlan where
  | returns (code : Int)
  /-- Call `WriteToPartition` with this buffer. -/
  | write (buffer : Bytes)
  | dies (why : Abort)
  deriving DecidableEq

/-- `EMMC:<device>:<size>:<sha1>`. -/
def FlashArgs.fullname (args : FlashArgs) : Text :=
  args.targetFilename ++ ':' :: (Nat.toDigits 10 args.targetSize ++ ':' :: args.targetSha1Str)

/-- The second half of the decision, with what the first left in `source_file`. -/
def planSource (env : Env) (args : FlashArgs) (targetSha1 sourceFile : Bytes) (d : Storage) :
    FlashPlan :=
  match loadFileContents env args.sourceFilename d with
  | .error why => .dies why
  | .ok (some data) => if env.sha1 data ≠ targetSha1 then .returns 1 else .write data
  | .ok none => .write sourceFile

def planFlash (env : Env) (args : FlashArgs) (d : Storage) : FlashPlan :=
  match parseSha1 args.targetSha1Str with
  | none => .returns 1
  | some targetSha1 =>
    match args.targetFilename.splitOn ':' with
    | [tag, _] =>
      if tag ≠ emmc then .returns 1
      else
        match loadPartitionContents env args.fullname d with
        | .error why => .dies why
        | .ok none => planSource env args targetSha1 [] d
        | .ok (some data) =>
          if env.sha1 data = targetSha1 then .returns 0
          else planSource env args targetSha1 data d
    | _ => .returns 1

/-- `WriteToPartition` of `len` bytes from the start of a buffer, with `behind` in memory after
it. The data of an empty vector is a null pointer. -/
def writeBuffer (behind buffer : Bytes) (len : Nat) (target : Text) : Apply Bool :=
  let data := (buffer ++ if buffer = [] then [] else behind).take len
  if data.length = len then writeToPartition data target
  else
    match target.splitOn ':' with
    | tag :: device :: _ => do
      let d ← Prog.disk
      if tag ≠ emmc then pure false
      else if (d.partition device).isNone then pure false
      else do
        -- as far as the memory goes
        let _ ← writeFrom device 0 data
        pure false
    | _ => pure false

def applypatchFlash (env : Env) (behind : Bytes) (args : FlashArgs) : Apply Int := do
  let d ← Prog.disk
  match planFlash env args d with
  | .returns code => pure code
  | .dies why => Prog.fail why
  | .write buffer => do
    let written ← writeBuffer behind buffer args.targetSize args.targetFilename
    pure (if written then 0 else 1)

/-! ## The name of the target -/

theorem colon_not_mem_toDigits (n : Nat) : ':' ∉ Nat.toDigits 10 n := by
  intro h
  exact absurd (Nat.isDigit_of_mem_toDigits (by omega) (by omega) h) (by decide)

theorem colon_not_mem_parseHex : ∀ {n : Nat} {s : Text} {bytes : Bytes},
    parseHex n s = some bytes → ':' ∉ s
  | 0, [], _, _ => not_mem_nil
  | 0, _ :: _, _, h => absurd h (by simp [parseHex])
  | _ + 1, [], _, h => absurd h (by simp [parseHex])
  | _ + 1, [_], _, h => absurd h (by simp [parseHex])
  | n + 1, hi :: lo :: rest, _, h => by
    simp only [parseHex, Option.bind_eq_bind, Option.bind_eq_some_iff] at h
    obtain ⟨x, hhi, y, hlo, bytes, hrest, _⟩ := h
    have hcolon : hexDigit ':' = none := by decide
    rw [mem_cons, mem_cons]
    rintro (rfl | rfl | hmem)
    · exact absurd (hcolon.symm.trans hhi) (by simp)
    · exact absurd (hcolon.symm.trans hlo) (by simp)
    · exact colon_not_mem_parseHex hrest hmem

/-- `ParseUint` reads what `std::to_string` prints. -/
def ReadsSizes (env : Env) : Prop := ∀ n < 2 ^ 64, env.parseUint (Nat.toDigits 10 n) = some n

section Plan

variable {env : Env} {args : FlashArgs} {d : Storage} {device : Text} {digest : Bytes}

/-- The partition begins with data of the size and the hash. -/
def Flashed (env : Env) (dev : Bytes) (size : Nat) (digest : Bytes) : Prop :=
  size ≤ dev.length ∧ env.sha1 (dev.take size) = digest

/-- The probe finds the data if the partition begins with it. A size of 0 is no size for it. -/
theorem load_fullname (henv : ReadsSizes env) (hsize : args.targetSize < 2 ^ 64)
    (hname : args.targetFilename.splitOn ':' = [emmc, device])
    (hsha : parseSha1 args.targetSha1Str = some digest) :
    (args.targetSize = 0 ∨ d.partition device = none) ∧
        loadPartitionContents env args.fullname d = .ok none ∨
      0 < args.targetSize ∧ ∃ dev, d.partition device = some dev ∧
        (env.heap.allocates args.targetSize = false ∧
            loadPartitionContents env args.fullname d = .error .badAlloc ∨
          env.heap.allocates args.targetSize = true ∧
            (Flashed env dev args.targetSize digest ∧
                loadPartitionContents env args.fullname d = .ok (some (dev.take args.targetSize)) ∨
              ¬ Flashed env dev args.targetSize digest ∧
                loadPartitionContents env args.fullname d = .ok none)) := by
  have hsplit : args.fullname.splitOn ':'
      = [emmc, device, Nat.toDigits 10 args.targetSize, args.targetSha1Str] := by
    rw [FlashArgs.fullname, splitOn_append_cons_self, splitOn_append_cons_self, hname,
      splitOn_eq_singleton (colon_not_mem_toDigits _),
      splitOn_eq_singleton (colon_not_mem_parseHex hsha)]
    rfl
  have hpairs : parsePartition env args.fullname = if args.targetSize = 0 then none
      else some (device, [(args.targetSize, args.targetSha1Str)]) := by
    rw [parsePartition, hsplit]
    dsimp only
    rw [if_pos rfl, parsePairs, henv _ hsize]
    cases args.targetSize <;> rfl
  by_cases hzero : args.targetSize = 0
  · rw [if_pos hzero] at hpairs
    exact .inl ⟨.inl hzero, by rw [loadPartitionContents, hpairs]⟩
  rw [if_neg hzero] at hpairs
  cases hdev : d.partition device with
  | none => exact .inl ⟨.inr rfl, by rw [loadPartitionContents, hpairs]; simp only [hdev]⟩
  | some dev =>
    have hload := @loadPartitionContents_eq_find env dev _ _ device d hpairs hdev
      (forall_mem_singleton.mpr (by rw [hsha]; rfl))
    have hlargest : largestSize [(args.targetSize, args.targetSha1Str)] = args.targetSize := rfl
    rw [hlargest] at hload
    refine .inr ⟨Nat.pos_of_ne_zero hzero, dev, rfl, ?_⟩
    rw [hload]
    cases env.heap.allocates args.targetSize with
    | false => exact .inl ⟨rfl, rfl⟩
    | true =>
      refine .inr ⟨rfl, ?_⟩
      have hfind : (sortPairs [(args.targetSize, args.targetSha1Str)]).find? (matchesPair env dev) =
          if matchesPair env dev (args.targetSize, args.targetSha1Str) then
            some (args.targetSize, args.targetSha1Str) else none := find?_singleton
      have hmatch : matchesPair env dev (args.targetSize, args.targetSha1Str) = true ↔
          Flashed env dev args.targetSize digest := by
        rw [matchesPair_iff, hsha, Option.some.injEq, eq_comm (a := digest)]
        rfl
      rw [if_pos rfl, hfind]
      by_cases hthere : Flashed env dev args.targetSize digest
      · rw [if_pos (hmatch.mpr hthere)]
        exact .inl ⟨hthere, rfl⟩
      · rw [if_neg fun h => hthere (hmatch.mp h)]
        exact .inr ⟨hthere, rfl⟩

/-- The probe ends the call: there is no buffer of the size, or the data is there already. -/
def Probed (env : Env) (device : Text) (size : Nat) (digest : Bytes) (d : Storage) : Prop :=
  0 < size ∧ ∃ dev, d.partition device = some dev ∧
    (env.heap.allocates size = true → Flashed env dev size digest)

/-- The call does not come to look at the source: a bad argument, or the probe ends it. -/
def Settled (env : Env) (args : FlashArgs) (d : Storage) : Prop :=
  parseSha1 args.targetSha1Str = none ∨ (∀ device, args.targetFilename.splitOn ':' ≠ [emmc,
    device]) ∨
    ∃ digest device, parseSha1 args.targetSha1Str = some digest ∧
      args.targetFilename.splitOn ':' = [emmc, device] ∧ Probed env device args.targetSize digest d

/--
The source can be read, and if it has the hash it has the size. A source that cannot be read is no
harm only if nothing is to be written and nothing is what the hash is of, and one for which there is
no buffer ends the process.
-/
def SourceFits (env : Env) (args : FlashArgs) (d : Storage) : Prop :=
  match loadFileContents env args.sourceFilename d with
  | .error _ => True
  | .ok (some data) =>
    parseSha1 args.targetSha1Str = some (env.sha1 data) → data.length = args.targetSize
  | .ok none => args.targetSize = 0 ∧ parseSha1 args.targetSha1Str = some (env.sha1 [])

theorem planFlash_eq (henv : ReadsSizes env) (hsize : args.targetSize < 2 ^ 64)
    (hname : args.targetFilename.splitOn ':' = [emmc, device])
    (hsha : parseSha1 args.targetSha1Str = some digest) :
    (Probed env device args.targetSize digest d ∧
        planFlash env args d = if env.heap.allocates args.targetSize then .returns 0
          else .dies .badAlloc) ∨
      (¬ Probed env device args.targetSize digest d ∧
        planFlash env args d = planSource env args digest [] d) := by
  unfold planFlash
  rw [hsha, hname]
  dsimp only
  rw [if_neg (not_not.mpr rfl)]
  rcases load_fullname henv hsize hname hsha with ⟨hnone, hload⟩ | ⟨hpos, dev, hdev, hload⟩
  · refine .inr ⟨?_, by rw [hload]⟩
    rintro ⟨hpos, dev, hdev, -⟩
    rcases hnone with hzero | hnone
    · omega
    · exact absurd (hnone.symm.trans hdev) nofun
  · rcases hload with ⟨halloc, hload⟩ | ⟨halloc, ⟨hthere, hload⟩ | ⟨hnot, hload⟩⟩
    · refine .inl ⟨⟨hpos, dev, hdev, fun h => ?_⟩, ?_⟩
      · exact absurd (halloc.symm.trans h) Bool.false_ne_true
      · rw [hload, halloc]
        rfl
    · refine .inl ⟨⟨hpos, dev, hdev, fun _ => hthere⟩, ?_⟩
      rw [hload, halloc]
      exact if_pos hthere.2
    · refine .inr ⟨?_, by rw [hload]⟩
      rintro ⟨-, dev', hdev', hthere⟩
      obtain rfl := Option.some.inj (hdev.symm.trans hdev')
      exact hnot (hthere halloc)

theorem args_of_write {buffer : Bytes} (h : planFlash env args d = .write buffer) :
    ∃ digest device, parseSha1 args.targetSha1Str = some digest ∧
      args.targetFilename.splitOn ':' = [emmc, device] := by
  unfold planFlash at h
  split at h
  · cases h
  rename_i digest hsha
  split at h
  · rename_i tag device hname
    split at h
    · cases h
    · rename_i htag
      rw [not_not.mp htag] at hname
      exact ⟨digest, device, hsha, hname⟩
  · cases h

end Plan

/-! ## Writing -/

section Writing

variable {data : Bytes} {device : Text} {h : List Write} {v : Unit} {d : Storage}

theorem prefix_iff_take_drop {xs ys : Bytes} (n : Nat) :
    xs <+: ys ↔ ys.take (min n xs.length) = xs.take n ∧ xs.drop n <+: ys.drop n := by
  rcases Nat.le_total n xs.length with hle | hle
  · rw [Nat.min_eq_left hle]
    constructor
    · rintro ⟨t, rfl⟩
      rw [take_append_of_le_length hle, drop_append_of_le_length hle]
      exact ⟨rfl, prefix_append _ _⟩
    · rintro ⟨htake, hdrop⟩
      rw [← take_append_drop n xs, ← take_append_drop n ys, htake]
      exact (prefix_append_right_inj _).mpr hdrop
  · rw [Nat.min_eq_right hle, take_of_length_le hle, drop_of_length_le hle, prefix_iff_eq_take,
      eq_comm, and_iff_left nil_prefix]

theorem firstMismatch_none_iff {dev : Bytes} : ∀ {fuel p : Nat},
    data.length ≤ p + fuel * 4096 →
    (firstMismatch dev data fuel p = none ↔ data.drop p <+: dev.drop p)
  | 0, p, hfuel => by
    rw [drop_of_length_le (by omega)]
    exact iff_of_true rfl nil_prefix
  | fuel + 1, p, hfuel => by
    rw [firstMismatch]
    split
    · rw [prefix_iff_take_drop 4096, length_drop, drop_drop, drop_drop]
      split
      · rename_i hsame
        rw [firstMismatch_none_iff (by omega), and_iff_right hsame]
      · rename_i hdiffer
        exact iff_of_false nofun fun h => hdiffer h.1
    · rw [drop_of_length_le (by omega)]
      exact iff_of_true rfl nil_prefix

theorem wp_writeAttempts : ∀ (attempts start : Nat) {h : List Write} {d : Storage},
    wlp (writeAttempts device data attempts start)
      (fun ok _ _ d' => ok = true → data <+: (d'.partition device).getD [])
      h v d := by
  intro attempts
  induction attempts with
  | zero =>
    intro start h d
    exact wp_pure nofun
  | succ attempts ih =>
    intro start h d
    have hany : ∀ (bs : Bytes) (offset : Nat), Does (fun _ => True) (fun _ _ => True)
        (writeFrom device offset bs) := by
      intro bs offset v d
      exact ⟨fun _ _ => trivial, trivial⟩
    refine wp_bind (wp_does (hany _ _) (fun _ _ _ => trivial) ?_ (fun _ _ _ _ _ _ => trivial))
    intro written h' v' d' _ _
    refine wp_ite (fun _ => wp_pure nofun) (fun _ => ?_)
    refine wp_bind (wp_disk ?_)
    cases hmis : firstMismatch ((d'.partition device).getD []) data data.length 0 with
    | none =>
      refine wp_pure fun _ => ?_
      exact (firstMismatch_none_iff (by omega)).mp hmis
    | some p => exact ih p

theorem wp_writeToPartition_true {target : Text} {rest : List Text}
    (hname : target.splitOn ':' = emmc :: device :: rest) :
    wlp (writeToPartition data target)
      (fun ok _ _ d' => ok = true → data <+: (d'.partition device).getD [])
      h v d := by
  unfold writeToPartition
  rw [hname]
  refine wp_ite (fun _ => wp_pure nofun) (fun _ => ?_)
  exact wp_writeAttempts 2 0

end Writing

/-! ## The result -/

section Result

variable {env : Env} {args : FlashArgs} {d : Storage}

/-- A write is only made with data of the size and the hash, exactly if the source fits or is not
looked at. -/
theorem writes_verified_iff (henv : ReadsSizes env) (hsize : args.targetSize < 2 ^ 64) :
    (∀ buffer, planFlash env args d = .write buffer →
      buffer.length = args.targetSize ∧ parseSha1 args.targetSha1Str = some (env.sha1 buffer)) ↔
      Settled env args d ∨ SourceFits env args d := by
  cases hsha : parseSha1 args.targetSha1Str with
  | none =>
    refine ⟨fun _ => .inl (.inl hsha), fun _ buffer hw => ?_⟩
    obtain ⟨_, _, hsome, _⟩ := args_of_write hw
    exact absurd (hsha.symm.trans hsome) (by simp)
  | some digest =>
    by_cases hname : ∃ device, args.targetFilename.splitOn ':' = [emmc, device]
    · obtain ⟨device, hname⟩ := hname
      rcases planFlash_eq henv hsize hname hsha with ⟨hprobed, hplan⟩ | ⟨hnot, hplan⟩
      · refine ⟨fun _ => .inl (.inr (.inr ⟨digest, device, hsha, hname, hprobed⟩)), ?_⟩
        intro _ buffer hw
        rw [hplan] at hw
        split at hw <;> cases hw
      · have hunsettled : ¬ Settled env args d := by
          rintro (hnone | hbad | ⟨digest', device', hsha', hname', hprobed⟩)
          · exact absurd (hsha.symm.trans hnone) (by simp)
          · exact hbad device hname
          · obtain rfl : digest = digest' := Option.some.inj (hsha.symm.trans hsha')
            obtain rfl : device = device' := by
              have := hname.symm.trans hname'
              simpa using this
            exact hnot hprobed
        rw [or_iff_right hunsettled, hplan]
        unfold planSource SourceFits
        rw [hsha]
        rcases loadFileContents env args.sourceFilename d with why | _ | data
        · exact iff_of_true nofun trivial
        · constructor
          · intro h
            obtain ⟨hlen, heq⟩ := h [] rfl
            exact ⟨hlen.symm, heq⟩
          · rintro ⟨hzero, heq⟩ buffer hw
            obtain rfl : [] = buffer := by simpa using hw
            exact ⟨hzero.symm, heq⟩
        · dsimp only
          by_cases heq : env.sha1 data = digest
          · rw [if_neg (not_not.mpr heq)]
            constructor
            · intro h _
              exact (h data rfl).1
            · intro h buffer hw
              obtain rfl : data = buffer := by simpa using hw
              exact ⟨h (congrArg some heq.symm), congrArg some heq.symm⟩
          · rw [if_pos heq]
            refine ⟨fun _ h => absurd (Option.some.inj h).symm heq, fun _ buffer hw => ?_⟩
            cases hw
    · refine ⟨fun _ => .inl (.inr (.inl fun device h => hname ⟨device, h⟩)), fun _ buffer hw => ?_⟩
      obtain ⟨_, device, _, hgood⟩ := args_of_write hw
      exact absurd ⟨device, hgood⟩ hname

/-- If only such data is written, a run that returns 0 leaves it on the partition. -/
theorem wp_applypatchFlash (henv : ReadsSizes env) (hsize : args.targetSize < 2 ^ 64)
    (behind : Bytes)
    (hwrites : ∀ buffer, planFlash env args d = .write buffer →
      buffer.length = args.targetSize ∧ parseSha1 args.targetSha1Str = some (env.sha1 buffer)) :
    wlp (applypatchFlash env behind args)
      (fun code _ _ d' => code = 0 → ∃ digest device, parseSha1 args.targetSha1Str = some digest ∧
        args.targetFilename.splitOn ':' = [emmc, device] ∧
        args.targetSize ≤ ((d'.partition device).getD []).length ∧
        env.sha1 (((d'.partition device).getD []).take args.targetSize) = digest) [] () d := by
  refine wp_bind (wp_disk ?_)
  cases hplan : planFlash env args d with
  | returns code =>
    refine wp_pure fun hzero => ?_
    rw [hzero] at hplan
    -- Only the probe returns 0 by itself.
    cases hsha : parseSha1 args.targetSha1Str with
    | none =>
      unfold planFlash at hplan
      rw [hsha] at hplan
      cases hplan
    | some digest =>
      by_cases hname : ∃ device, args.targetFilename.splitOn ':' = [emmc, device]
      · obtain ⟨device, hname⟩ := hname
        refine ⟨digest, device, rfl, hname, ?_⟩
        rcases planFlash_eq henv hsize hname hsha with ⟨⟨_, dev, hdev, hthere⟩, hends⟩ | ⟨_, hsrc⟩
        · rw [hplan] at hends
          split at hends
          · rename_i halloc
            rw [hdev]
            exact hthere halloc
          · cases hends
        · rw [hplan] at hsrc
          unfold planSource at hsrc
          split at hsrc
          · cases hsrc
          · split at hsrc <;> cases hsrc
          · cases hsrc
      · unfold planFlash at hplan
        rw [hsha] at hplan
        dsimp only at hplan
        split at hplan
        · rename_i tag device hsplit
          split at hplan
          · cases hplan
          · rename_i htag
            rw [not_not.mp htag] at hsplit
            exact absurd ⟨device, hsplit⟩ hname
        · cases hplan
  | dies why => exact wp_fail trivial
  | write buffer =>
    obtain ⟨hlen, hhash⟩ := hwrites buffer hplan
    obtain ⟨digest, device, hsha, hname⟩ := args_of_write hplan
    have htake : (buffer ++ if buffer = [] then [] else behind).take args.targetSize = buffer := by
      rw [← hlen, take_left]
    refine wp_bind ?_
    unfold writeBuffer
    rw [htake, if_pos hlen]
    refine wp_mono (wp_writeToPartition_true hname) ?_ (fun _ _ _ _ _ => trivial)
    intro ok h' v' d' hok
    refine wp_pure fun hzero => ⟨digest, device, hsha, hname, ?_⟩
    have hok : ok = true := by
      cases ok with
      | true => rfl
      | false => cases hzero
    rename_i hprefix
    have hpre := hprefix hok
    rw [← hlen, ← prefix_iff_eq_take.mp hpre]
    exact ⟨hpre.length_le, Option.some.inj (hhash.symm.trans hsha)⟩

/--
`applypatch_flash` writes only data of the size and the hash asked for exactly if its source fits
or is not looked at; and then the partition begins with such data whenever it returns 0.
-/
theorem flash_verified (env : Env) (args : FlashArgs) (d : Storage) (henv : ReadsSizes env)
    (hsize : args.targetSize < 2 ^ 64) :
    ((∀ buffer, planFlash env args d = .write buffer →
      buffer.length = args.targetSize ∧ parseSha1 args.targetSha1Str = some (env.sha1 buffer)) ↔
      Settled env args d ∨ SourceFits env args d) ∧
    (Settled env args d ∨ SourceFits env args d → ∀ behind,
      (applypatchFlash env behind args () d).val = .ok 0 →
      ∃ digest device, parseSha1 args.targetSha1Str = some digest ∧
        args.targetFilename.splitOn ':' = [emmc, device] ∧
        let dev := ((finished (applypatchFlash env behind args) () d).partition device).getD []
        args.targetSize ≤ dev.length ∧ env.sha1 (dev.take args.targetSize) = digest) := by
  have hiff := writes_verified_iff (d := d) henv hsize
  refine ⟨hiff, fun hfits behind hval => ?_⟩
  exact wp_ok (wp_applypatchFlash henv hsize behind (hiff.mpr hfits)) hval rfl

end Result

/-! ## A file of two bytes -/

namespace Boot

def target : Bytes := [3, 4]

/-- A digest that tells `target` from the rest. -/
def sha1 (x : Bytes) : Bytes := List.replicate 20 (if x = target then 0x22 else 0)

def env : Env := ⟨sha1, decimal, Sample.heap⟩

def device : Text := "boot".toList

def targetSha1 : Text := List.replicate 40 '2'

/-- The file `f` is to be flashed to the partition, which holds something else. -/
def flashArgs (size : Nat) : FlashArgs := ⟨['f'], emmc ++ ':' :: device, targetSha1, size⟩

def downloaded : Storage where
  partition dev := if dev = device then some [9, 9] else none
  file path := if path = ['f'] then some target else none

theorem env_readsSizes : ReadsSizes env := fun n _ => decimal_toDigits n

end Boot

theorem whole_file_flashed :
    (applypatchFlash Boot.env [] (Boot.flashArgs 2) () Boot.downloaded).val = .ok 0 ∧
    ∃ digest device, parseSha1 Boot.targetSha1 = some digest ∧
      (Boot.flashArgs 2).targetFilename.splitOn ':' = [emmc, device] ∧
      let dev := ((finished (applypatchFlash Boot.env [] (Boot.flashArgs 2)) ()
        Boot.downloaded).partition device).getD []
      2 ≤ dev.length ∧ Boot.env.sha1 (dev.take 2) = digest := by
  have hval : (applypatchFlash Boot.env [] (Boot.flashArgs 2) () Boot.downloaded).val = .ok 0 := by
    decide +kernel
  refine ⟨hval, (flash_verified Boot.env (Boot.flashArgs 2) Boot.downloaded Boot.env_readsSizes
    (by decide)).2 (.inr ?_) [] hval⟩
  exact fun _ => rfl

/-- With the size 1 its first byte is written and the function returns 0, but nothing with the hash
is on the partition. -/
theorem longer_file_flashed :
    planFlash Boot.env (Boot.flashArgs 1) Boot.downloaded = .write Boot.target ∧
    (applypatchFlash Boot.env [] (Boot.flashArgs 1) () Boot.downloaded).val = .ok 0 ∧
    (finished (applypatchFlash Boot.env [] (Boot.flashArgs 1)) () Boot.downloaded).partition
      Boot.device = some [3, 9] ∧
    parseSha1 Boot.targetSha1 ≠ some (Boot.env.sha1 [3]) := by
  decide +kernel

end Pterodon.ApplyPatch
