import Pterodon.Lib.Scan
import Pterodon.Bootloader.Message

/-!
# Retrying an installation

When an installation ends with `INSTALL_RETRY`, recovery counts the attempt in the option
`--retry_count` of the bootloader message and reboots into itself, up to `RETRY_LIMIT`
times. The counter survives only in the recovery field of the message, where
`set_retry_bootloader_message` writes it last, after everything it was started with. That
includes `argv[0]`, so that every retry adds a copy of it, and what does not fit the field
is cut off at its end: the counter first.

With room for all of it, the counter arrives, and there are at most `RETRY_LIMIT + 1`
attempts.
-/

namespace Pterodon.Bootloader

open Lib List

variable {a : Bytes} {j k : Nat}

/-- The options of `main`. -/
inductive Opt where
  | updatePackage
  | retryCount
  | wipeData
  | wipeCache
  | showText
  | sideload
  | sideloadAutoReboot
  | justExit
  | locale
  | shutdownAfter
  | reason
  | security
  | wipeAb
  | wipePackageSize
  | promptAndWipeData
deriving DecidableEq, Repr

/-- A `struct option`. -/
structure LongOption where
  opt : Opt
  name : Bytes
  /-- `required_argument`, and not `no_argument`. -/
  required : Bool
deriving DecidableEq, Repr

def OPTIONS : List LongOption := [
  ⟨.updatePackage,
    ascii "update_package".toList, true⟩,
  ⟨.retryCount, ascii "retry_count".toList, true⟩,
  ⟨.wipeData, ascii "wipe_data".toList, false⟩,
  ⟨.wipeCache, ascii "wipe_cache".toList, false⟩,
  ⟨.showText, ascii "show_text".toList, false⟩,
  ⟨.sideload, ascii "sideload".toList, false⟩, ⟨.sideloadAutoReboot,
    ascii "sideload_auto_reboot".toList, false⟩,
  ⟨.justExit, ascii "just_exit".toList, false⟩,
  ⟨.locale, ascii "locale".toList, true⟩, ⟨.shutdownAfter,
    ascii "shutdown_after".toList, false⟩,
  ⟨.reason, ascii "reason".toList, true⟩,
  ⟨.security, ascii "security".toList, false⟩,
  ⟨.wipeAb, ascii "wipe_ab".toList, false⟩, ⟨.wipePackageSize,
    ascii "wipe_package_size".toList,
      true⟩, ⟨.promptAndWipeData,
    ascii "prompt_and_wipe_data".toList, false⟩]

/-! ## Reading the arguments -/

/-- The option a long option's text names: an exact match, or else the only one it
abbreviates. `found` is an abbreviated one found before. -/
def findOption (name : Bytes) : List LongOption → Option LongOption → Option LongOption
  | [], found => found
  | o :: os, found =>
    if !name.isPrefixOf o.name then findOption name os found
    else if o.name.length = name.length then some o
    else
      match found with
      | none => findOption name os (some o)
      | some _ => none

/-- What `getopt_long` makes of one argument. -/
inductive Arg where
  /-- Not an option; it is moved behind the options. -/
  | operand
  /-- `--`: the rest are no options. -/
  | terminator
  /-- `?`. -/
  | invalid
  | option (opt : Opt) (value : Option Bytes)
  /-- The option's argument is the next argument, whatever it is. -/
  | awaits (opt : Opt)
deriving DecidableEq, Repr

def dash : UInt8 := 45

def equals : UInt8 := 61

/-- A long option, without its dashes. -/
def readLong (body : Bytes) : Arg :=
  let name := body.takeWhile (· ≠ equals)
  let value := if equals ∈ body then some (body.drop (name.length + 1)) else none
  match findOption name OPTIONS none with
  | none => .invalid
  | some o =>
    match o.required, value with
    | false, none => .option o.opt none
    | false, some _ => .invalid
    | true, some v => .option o.opt (some v)
    | true, none => .awaits o.opt

/-- One argument. There are no short options, so that each letter after a single dash is
invalid; but what follows a dash among them is read as a long option. -/
def readArg (a : Bytes) : Arg :=
  match a with
  | [] => .operand
  | c :: rest =>
    if c ≠ dash ∨ rest = [] then .operand
    else if rest = [dash] then .terminator
    else
      match rest.dropWhile (· ≠ dash) with
      | [] => .invalid
      | _ :: body => readLong body

/-- The two of `main`'s variables that decide about an installation. -/
structure Parsed where
  retryCount : Nat
  updatePackage : Option Bytes
deriving DecidableEq, Repr

/-- The loop of `main` over the options: what is set, the option that waits for its
argument, and whether the options have ended. -/
structure Scan where
  parsed : Parsed
  awaits : Option Opt
  ended : Bool

section Main

-- `android::base::ParseInt` of a number that is not negative
variable (parseInt : Bytes → Option Nat)

/-- The `switch` of `main`. -/
def Parsed.set (p : Parsed) (opt : Opt) (value : Option Bytes) : Parsed :=
  match opt with
  | .retryCount => { p with retryCount := (value.bind parseInt).getD p.retryCount }
  | .updatePackage => { p with updatePackage := value }
  | _ => p

def scanArg (s : Scan) (a : Bytes) : Scan :=
  if s.ended then s
  else
    match s.awaits with
    | some opt => { s with parsed := s.parsed.set parseInt opt (some a), awaits := none }
    | none =>
      match readArg a with
      | .operand => s
      | .terminator => { s with ended := true }
      | .invalid => s
      | .option opt value => { s with parsed := s.parsed.set parseInt opt value }
      | .awaits opt => { s with awaits := some opt }

/-- What `main` knows after its loop over the arguments that follow `argv[0]`. -/
def parseArgs (options : List Bytes) : Parsed :=
  (options.foldl (scanArg parseInt) ⟨⟨0, none⟩, none, false⟩).parsed

/-! ## One boot -/

def RETRY_LIMIT : Nat := 4

def retryPrefix : Bytes :=
  ascii "--retry_count".toList

/-- `--retry_count=%d`. -/
def retryOption (n : Nat) : Bytes := retryPrefix ++ equals :: natBytes n

/-- The arguments `set_retry_bootloader_message` keeps. -/
def withoutRetry (args : List Bytes) : List Bytes :=
  args.filter fun a => !retryPrefix.isPrefixOf a

/-- `set_retry_bootloader_message`; `written` says whether the message could be updated. -/
def setRetryBootloaderMessage (written : Bool) (retryCount : Nat) (args : List Bytes)
    (misc : BootloaderMessage) : BootloaderMessage :=
  if written then
    updateBootloaderMessageInStruct misc (withoutRetry args ++ [retryOption retryCount])
  else misc

/-- The results of `install_package`. -/
inductive InstallResult where
  | success
  | error
  | corrupt
  | none
  | skipped
  | retry
deriving DecidableEq, Repr

/-- What one boot of recovery meets. -/
structure Boot where
  access : Access
  commandFile : Option Bytes
  batteryOk : Bool
  bootreasonInBlacklist : Bool
  status : InstallResult
  firstWritten : Bool
  retryWritten : Bool
  reboots : Bool

/-- What one boot of recovery does about the update. -/
structure Outcome where
  /-- `install_package` was called. -/
  attempted : Bool
  retries : Bool
  misc : BootloaderMessage

/-- The branch of `main` for an update package. -/
def installUpdate (boot : Boot) (parsed : Parsed) (args : List Bytes)
    (misc : BootloaderMessage) : Outcome :=
  if parsed.updatePackage.isNone || !boot.batteryOk || boot.bootreasonInBlacklist then
    ⟨false, false, misc⟩
  else
    let misc :=
      if parsed.retryCount = 0 then setRetryBootloaderMessage boot.firstWritten 1 args misc
      else misc
    if boot.status = .retry ∧ parsed.retryCount < RETRY_LIMIT then
      ⟨true, boot.reboots,
        setRetryBootloaderMessage boot.retryWritten (parsed.retryCount + 1) args misc⟩
    else ⟨true, false, misc⟩

/-- `main`, as far as it installs a package. -/
def main (argv0 : Bytes) (boot : Boot) (misc : BootloaderMessage) : Outcome :=
  let (args, misc) := getArgs boot.access [argv0] boot.commandFile misc
  installUpdate boot (parseArgs parseInt args.tail) args misc

/-- The number of installation attempts in a sequence of boots, each of them brought about
by the one before. -/
def attempts (argv0 : Bytes) : List Boot → BootloaderMessage → Nat
  | [], _ => 0
  | boot :: boots, misc =>
    let out := main parseInt argv0 boot misc
    (if out.attempted then 1 else 0) +
      if out.retries then attempts argv0 boots out.misc else 0

end Main

theorem isLine_retryOption (n : Nat) : IsLine (retryOption n) := by
  have hdigits : ∀ b ∈ natBytes n, b ≠ newline ∧ b ≠ 0 := fun b hb =>
    have hdigit := isDigitByte_of_mem_natBytes hb
    ⟨ne_of_isDigitByte hdigit (by decide), ne_of_isDigitByte hdigit (by decide)⟩
  refine ⟨cons_ne_nil _ _, ?_, ?_⟩ <;>
  · rw [retryOption, mem_append, mem_cons, not_or, not_or]
    refine ⟨by decide, by decide, fun hmem => ?_⟩
    simpa using hdigits _ hmem

/-! ## The counter arrives -/

/-- The argument neither ends the options nor takes the next argument for its own. -/
def selfContained (a : Bytes) : Bool :=
  match readArg a with
  | .terminator => false
  | .awaits _ => false
  | _ => true

section Arrival

variable {parseInt : Bytes → Option Nat}

theorem scanArg_selfContained {s : Scan} (ha : selfContained a = true) (hawaits : s.awaits = none)
    (hended : s.ended = false) :
    (scanArg parseInt s a).awaits = none ∧ (scanArg parseInt s a).ended = false := by
  rw [selfContained] at ha
  simp only [scanArg, hended, hawaits]
  cases hread : readArg a with
  | operand | invalid => exact ⟨hawaits, hended⟩
  | terminator | awaits opt =>
    rw [hread] at ha
    exact Bool.noConfusion ha
  | option opt value => exact ⟨rfl, rfl⟩

theorem foldl_scanArg_selfContained {args : List Bytes} (h : ∀ a ∈ args, selfContained a = true)
    (s : Scan) (hawaits : s.awaits = none) (hended : s.ended = false) :
    (args.foldl (scanArg parseInt) s).awaits = none ∧
      (args.foldl (scanArg parseInt) s).ended = false := by
  induction args generalizing s with
  | nil => exact ⟨hawaits, hended⟩
  | cons a args ih =>
    obtain ⟨h₁, h₂⟩ := scanArg_selfContained (h a mem_cons_self) hawaits hended
    exact ih (forall_mem_cons.mp h).2 _ h₁ h₂

theorem readArg_retryOption (n : Nat) :
    readArg (retryOption n) = .option .retryCount (some (natBytes n)) := rfl

/-- A counter behind self-contained arguments is the one `main` reads. -/
theorem parseArgs_retryOption {args : List Bytes} (h : ∀ a ∈ args, selfContained a = true)
    {n : Nat} (hn : parseInt (natBytes n) = some n) :
    (parseArgs parseInt (args ++ [retryOption n])).retryCount = n := by
  obtain ⟨hawaits, hended⟩ := @foldl_scanArg_selfContained parseInt args h
    ⟨⟨0, none⟩, none, false⟩ rfl rfl
  rw [parseArgs, foldl_append, foldl_cons, scanArg]
  simp [hawaits, hended, readArg_retryOption, Parsed.set, hn]

/-- The message holds these options, whole. -/
structure Holds (misc : BootloaderMessage) (options : List Bytes) : Prop where
  lines : ∀ o ∈ options, IsLine o
  fits : (encoding options).length < 768
  nonempty : options ≠ []
  recovery : misc.recovery.val = padded 768 (encoding options)

theorem Holds.update (boot : BootloaderMessage) {options : List Bytes}
    (hlines : ∀ o ∈ options, IsLine o) (hfits : (encoding options).length < 768)
    (hne : options ≠ []) : Holds (updateBootloaderMessageInStruct boot options) options := by
  refine ⟨hlines, hfits, hne, ?_⟩
  have h := update_recovery boot (fun o ho => (hlines o ho).noZero)
  rwa [take_of_length_le (by omega)] at h

/-- Recovery retries only below the limit, and then with the next number. -/
theorem installUpdate_cases {boot : Boot} (hwritten : boot.retryWritten = true) (parsed : Parsed)
    (args : List Bytes) (misc : BootloaderMessage) :
    (installUpdate boot parsed args misc).retries = false ∨
    ∃ boot', parsed.retryCount < RETRY_LIMIT ∧
      (installUpdate boot parsed args misc).misc = updateBootloaderMessageInStruct boot'
        (withoutRetry args ++ [retryOption (parsed.retryCount + 1)]) := by
  rw [installUpdate]
  by_cases hskip : (parsed.updatePackage.isNone || !boot.batteryOk ||
      boot.bootreasonInBlacklist) = true
  · rw [if_pos hskip]
    exact Or.inl rfl
  rw [if_neg hskip]
  by_cases hretry : boot.status = .retry ∧ parsed.retryCount < RETRY_LIMIT
  · rw [if_pos hretry, hwritten]
    exact Or.inr ⟨_, hretry.2, rfl⟩
  · rw [if_neg hretry]
    exact Or.inl rfl

theorem main_cases {argv0 : Bytes} {boot : Boot} {misc : BootloaderMessage}
    {options : List Bytes} (hmisc : Holds misc options) (hread : boot.access.read = true)
    (hwritten : boot.retryWritten = true) :
    (main parseInt argv0 boot misc).retries = false ∨
    ∃ boot', (parseArgs parseInt options).retryCount < RETRY_LIMIT ∧
      (main parseInt argv0 boot misc).misc = updateBootloaderMessageInStruct boot'
        (withoutRetry (argv0 :: options) ++
          [retryOption ((parseArgs parseInt options).retryCount + 1)]) := by
  have hargs : messageArgs misc = options :=
    messageArgs_encoding hmisc.lines hmisc.fits hmisc.recovery
  rw [main, getArgs_message hread argv0 boot.commandFile hargs hmisc.nonempty]
  exact installUpdate_cases hwritten (parseArgs parseInt options) (argv0 :: options) _

end Arrival

/-! ## The bound -/

section Bound

variable {parseInt : Bytes → Option Nat} {argv0 : Bytes} {kept : List Bytes}

/-- The options of the message after the `k`-th attempt was counted, with `j` copies of
`argv[0]`. -/
def retryOptions (argv0 : Bytes) (kept : List Bytes) (j k : Nat) : List Bytes :=
  List.replicate j argv0 ++ kept ++ [retryOption k]

theorem encoding_length_retryOptions (hj : j ≤ RETRY_LIMIT) (hk : k ≤ RETRY_LIMIT) :
    (encoding (retryOptions argv0 kept j k)).length ≤
      (encoding (retryOptions argv0 kept RETRY_LIMIT RETRY_LIMIT)).length := by
  have hcounter : ∀ n ≤ RETRY_LIMIT, (optionLine (retryOption n)).length = 16 := by
    decide
  have hcopies : j * (optionLine argv0).length ≤ RETRY_LIMIT * (optionLine argv0).length :=
    Nat.mul_le_mul_right _ hj
  simp only [encoding, retryOptions, length_append, flatMap_append, length_flatMap,
    map_replicate, sum_replicate_nat, map_cons, hcounter k hk, hcounter RETRY_LIMIT (Nat.le_refl _)]
  omega

theorem readArg_of_head (h : a.head? ≠ some dash) : readArg a = .operand := by
  cases a with
  | nil => rfl
  | cons c rest =>
    have hc : c ≠ dash := fun hc => h (by rw [hc]; rfl)
    simp [readArg, hc]

theorem selfContained_of_head (h : a.head? ≠ some dash) : selfContained a = true := by
  rw [selfContained, readArg_of_head h]

theorem withoutRetry_append (args args' : List Bytes) :
    withoutRetry (args ++ args') = withoutRetry args ++ withoutRetry args' :=
  filter_append args args'

theorem withoutRetry_withoutRetry (args : List Bytes) :
    withoutRetry (withoutRetry args) = withoutRetry args := by
  rw [withoutRetry, withoutRetry, filter_filter]
  simp only [Bool.and_self]

theorem withoutRetry_copies (k : Nat) : withoutRetry (List.replicate k argv0) =
    if retryPrefix.isPrefixOf argv0 then [] else List.replicate k argv0 := by
  rw [withoutRetry]
  by_cases h : retryPrefix.isPrefixOf argv0 <;> simp [h]

theorem withoutRetry_replicate (h0 : argv0.head? ≠ some dash) (j : Nat) :
    withoutRetry (List.replicate j argv0) = List.replicate j argv0 := by
  rw [withoutRetry_copies]
  refine if_neg fun h => h0 ?_
  obtain ⟨rest, rfl⟩ := isPrefixOf_iff_prefix.mp h
  rfl

theorem withoutRetry_retryOption (k : Nat) : withoutRetry [retryOption k] = [] := rfl

theorem withoutRetry_first (h0 : argv0.head? ≠ some dash) (options : List Bytes) (k : Nat) :
    withoutRetry (argv0 :: options) ++ [retryOption k] =
      retryOptions argv0 (withoutRetry options) 1 k := by
  have hcons : argv0 :: options = List.replicate 1 argv0 ++ options := rfl
  rw [hcons, withoutRetry_append, withoutRetry_replicate h0, retryOptions]

/-- What is written for each later one: there is one more copy of `argv[0]`. -/
theorem withoutRetry_next (h0 : argv0.head? ≠ some dash) (options : List Bytes) (j k : Nat) :
    withoutRetry (argv0 :: retryOptions argv0 (withoutRetry options) j k) ++ [retryOption (k + 1)] =
      retryOptions argv0 (withoutRetry options) (j + 1) (k + 1) := by
  have hcons : argv0 :: retryOptions argv0 (withoutRetry options) j k =
      List.replicate (j + 1) argv0 ++ withoutRetry options ++ [retryOption k] := rfl
  rw [hcons, withoutRetry_append, withoutRetry_append, withoutRetry_replicate h0,
    withoutRetry_withoutRetry, withoutRetry_retryOption, append_nil, retryOptions]

/-- The assumptions under which the counter always fits. -/
structure Roomy (parseInt : Bytes → Option Nat) (argv0 : Bytes) (kept : List Bytes) : Prop where
  parse : ∀ n ≤ RETRY_LIMIT, parseInt (natBytes n) = some n
  argv0_line : IsLine argv0
  argv0_head : argv0.head? ≠ some dash
  lines : ∀ o ∈ kept, IsLine o
  selfContained : ∀ o ∈ kept, selfContained o = true
  room : (encoding (retryOptions argv0 kept RETRY_LIMIT RETRY_LIMIT)).length < 768

theorem Roomy.holds (h : Roomy parseInt argv0 kept) (boot : BootloaderMessage) (hj : j ≤ k)
    (hk : k ≤ RETRY_LIMIT) :
    Holds (updateBootloaderMessageInStruct boot (retryOptions argv0 kept j k))
      (retryOptions argv0 kept j k) := by
  apply Holds.update
  · intro o ho
    rw [retryOptions, mem_append, mem_append, mem_singleton] at ho
    rcases ho with (ho | ho) | rfl
    · rw [eq_of_mem_replicate ho]
      exact h.argv0_line
    · exact h.lines o ho
    · exact isLine_retryOption k
  · exact Nat.lt_of_le_of_lt (encoding_length_retryOptions (Nat.le_trans hj hk) hk) h.room
  · simp [retryOptions]

theorem attempts_cons_le {boot : Boot} {boots : List Boot} {misc : BootloaderMessage} {n : Nat}
    (h : (main parseInt argv0 boot misc).retries = true →
      attempts parseInt argv0 boots (main parseInt argv0 boot misc).misc ≤ n) :
    attempts parseInt argv0 (boot :: boots) misc ≤ n + 1 := by
  rw [attempts]
  by_cases hr : (main parseInt argv0 boot misc).retries = true
  · have := h hr
    split <;> omega
  · split <;> omega

/-- Once the counter stands at `k`, no more than `RETRY_LIMIT - k + 1` attempts follow. -/
theorem attempts_le {options : List Bytes} (h : Roomy parseInt argv0 (withoutRetry options))
    (boots : List Boot) (haccess : ∀ b ∈ boots, b.access.read = true ∧ b.retryWritten = true)
    {misc : BootloaderMessage} (hj : j ≤ k) (hk : k ≤ RETRY_LIMIT)
    (hmisc : Holds misc (retryOptions argv0 (withoutRetry options) j k)) :
    attempts parseInt argv0 boots misc ≤ RETRY_LIMIT - k + 1 := by
  induction boots generalizing misc j k with
  | nil => exact Nat.zero_le _
  | cons boot boots ih =>
    obtain ⟨hread, hwritten⟩ := haccess boot mem_cons_self
    have hcount :
        (parseArgs parseInt (retryOptions argv0 (withoutRetry options) j k)).retryCount = k := by
      apply parseArgs_retryOption _ (h.parse k hk)
      intro a ha
      rcases mem_append.mp ha with ha | ha
      · rw [eq_of_mem_replicate ha]
        exact selfContained_of_head h.argv0_head
      · exact h.selfContained a ha
    apply attempts_cons_le
    intro hretries
    have hcases := @main_cases parseInt argv0 boot misc _ hmisc hread hwritten
    rw [hretries, hcount] at hcases
    obtain ⟨boot', hlt, hnext⟩ := hcases.resolve_left Bool.noConfusion
    rw [withoutRetry_next h.argv0_head] at hnext
    have hrest := ih (forall_mem_cons.mp haccess).2
      (Nat.succ_le_succ hj) hlt (hnext ▸ h.holds boot' (Nat.succ_le_succ hj) hlt)
    omega

/-- If the message has room for the counter and `RETRY_LIMIT` more copies of `argv[0]`, and
no option ends the options or takes the counter for its argument, an update is attempted at
most `RETRY_LIMIT + 1` times. -/
theorem retries_bounded (boot : BootloaderMessage) (options : List Bytes)
    (hne : options ≠ []) (hlines : ∀ o ∈ options, IsLine o)
    (hfit : (encoding options).length + 1 ≤ 768)
    (hroomy : Roomy parseInt argv0 (withoutRetry options))
    (boots : List Boot) (haccess : ∀ b ∈ boots, b.access.read = true ∧ b.retryWritten = true) :
    attempts parseInt argv0 boots (updateBootloaderMessageInStruct boot options) ≤
      RETRY_LIMIT + 1 := by
  cases boots with
  | nil => exact Nat.zero_le _
  | cons b boots =>
    obtain ⟨hread, hwritten⟩ := haccess b mem_cons_self
    apply attempts_cons_le
    intro hretries
    have hcases := @main_cases parseInt argv0 b _ _ (Holds.update boot hlines hfit hne)
      hread hwritten
    rw [hretries] at hcases
    obtain ⟨boot', hlt, hnext⟩ := hcases.resolve_left Bool.noConfusion
    rw [withoutRetry_first hroomy.argv0_head] at hnext
    have hrest := attempts_le hroomy boots (forall_mem_cons.mp haccess).2
      (Nat.succ_le_succ (Nat.zero_le _)) hlt
      (hnext ▸ hroomy.holds boot' (Nat.succ_le_succ (Nat.zero_le _)) hlt)
    omega

end Bound

/-! ## What a retry keeps -/

section Keeping

variable {argv0 : Bytes} {access : Access} {commandFile : Option Bytes}
  {options : List Bytes}

/-- `set_retry_bootloader_message` with the arguments of this boot, a reboot, and `get_args`. -/
def retryOnce (access : Access) (argv0 : Bytes) (commandFile : Option Bytes)
    (s : List Bytes × BootloaderMessage) (n : Nat) : List Bytes × BootloaderMessage :=
  getArgs access [argv0] commandFile (setRetryBootloaderMessage true n s.1 s.2)

/-- There is room for the options, a counter of `ns`, and so many copies of `argv[0]`. -/
def Room (argv0 : Bytes) (options : List Bytes) (ns : List Nat) : Prop :=
  ∀ k ≤ ns.length, ∀ n ∈ ns,
    (encoding (List.replicate k argv0 ++ withoutRetry options ++ [retryOption n])).length < 768

theorem retryOnce_args (hread : access.read = true) (h0 : IsLine argv0)
    (hlines : ∀ o ∈ options, IsLine o) {ns : List Nat} {n : Nat}
    (hroom : Room argv0 options (n :: ns))
    {s : List Bytes × BootloaderMessage} (hs : withoutRetry s.1 =
      withoutRetry (List.replicate (ns.length + 1) argv0) ++ withoutRetry options) :
    (retryOnce access argv0 commandFile s n).1 = argv0 ::
      (withoutRetry s.1 ++ [retryOption n]) := by
  obtain ⟨j, hj, hcopies⟩ : ∃ j ≤ ns.length + 1,
      withoutRetry (List.replicate (ns.length + 1) argv0) = List.replicate j argv0 := by
    rw [withoutRetry_copies]
    by_cases h : retryPrefix.isPrefixOf argv0
    · exact ⟨0, Nat.zero_le _, if_pos h⟩
    · exact ⟨_, Nat.le_refl _, if_neg h⟩
  rw [hcopies] at hs
  have hkept : ∀ o ∈ withoutRetry s.1, IsLine o := by
    rw [hs]
    refine forall_mem_append.mpr ⟨fun o ho => ?_, fun o ho => hlines o (mem_of_mem_filter ho)⟩
    rwa [eq_of_mem_replicate ho]
  have hholds := Holds.update s.2 (forall_mem_append.mpr
    ⟨hkept, forall_mem_singleton.mpr (isLine_retryOption n)⟩)
    (hs ▸ hroom j hj n mem_cons_self) (by simp)
  rw [retryOnce, setRetryBootloaderMessage, if_pos rfl, getArgs_message hread argv0 commandFile
    (messageArgs_encoding hholds.lines hholds.fits hholds.recovery) hholds.nonempty]

/-- Every retry adds a copy of `argv[0]`, unless that is itself taken for the counter. -/
theorem retries_kept (hread : access.read = true) (h0 : IsLine argv0)
    (hlines : ∀ o ∈ options, IsLine o) (misc : BootloaderMessage) {ns : List Nat}
    (hroom : Room argv0 options ns) :
    withoutRetry (ns.foldr (fun n s => retryOnce access argv0 commandFile s n)
      (argv0 :: options, misc)).1 =
      withoutRetry (List.replicate (ns.length + 1) argv0) ++ withoutRetry options := by
  induction ns with
  | nil => exact withoutRetry_append [argv0] options
  | cons n ns ih =>
    have hs := ih fun k hk m hm => hroom k (Nat.le_succ_of_le hk) m (mem_cons_of_mem n hm)
    have hcons : ∀ args, argv0 :: (args ++ [retryOption n]) = [argv0] ++ args ++ [retryOption n] :=
      fun args => rfl
    rw [foldr_cons, retryOnce_args hread h0 hlines hroom hs, hs, hcons, withoutRetry_append,
      withoutRetry_append, withoutRetry_append, withoutRetry_withoutRetry,
      withoutRetry_withoutRetry, withoutRetry_retryOption, append_nil, ← append_assoc,
      ← withoutRetry_append]
    rfl

/-- After any number of retries, the arguments are those of the first boot with the last counter if
and only if `argv[0]` starts like the counter: otherwise it is kept among the options. -/
theorem retries_keep_options_iff (hread : access.read = true) (h0 : IsLine argv0)
    (options : List Bytes) (hlines : ∀ o ∈ options, IsLine o) (misc : BootloaderMessage)
    (ns : List Nat) (n : Nat) (hroom : Room argv0 options (n :: ns)) :
    ((n :: ns).foldr (fun m s => retryOnce access argv0 commandFile s m) (argv0 :: options,
      misc)).1 =
      argv0 :: (withoutRetry options ++ [retryOption n]) ↔ retryPrefix.isPrefixOf argv0 = true := by
  have hs := @retries_kept _ access commandFile _ hread h0 hlines misc ns fun k hk m hm =>
    hroom k (Nat.le_succ_of_le hk) m (mem_cons_of_mem n hm)
  rw [foldr_cons, retryOnce_args hread h0 hlines hroom hs, hs, withoutRetry_copies]
  by_cases h : retryPrefix.isPrefixOf argv0
  · simp [h]
  · -- the copies make the list longer
    refine iff_of_false (fun heq => ?_) h
    have hlen := congrArg List.length heq
    rw [if_neg h] at hlen
    simp only [length_cons, length_append, length_replicate] at hlen
    omega

end Keeping

namespace Sample

def parseInt (s : Bytes) : Option Nat :=
  if s ≠ [] ∧ s.all fun b => 48 ≤ b ∧ b ≤ 57 then
    some (s.foldl (fun n b => 10 * n + (b.toNat - 48)) 0)
  else none

def argv0 : Bytes := ascii "/sbin/recovery".toList

/-- `--update_package=u`. -/
def package : Bytes :=
  ascii "--update_package=u".toList

/-- A reason that fills the field to its last byte but one. -/
def longReason : Bytes :=
  ascii "--reason=".toList ++ List.replicate 729 120

def failing : Boot where
  access := ⟨true, true⟩
  commandFile := none
  batteryOk := true
  bootreasonInBlacklist := false
  status := .retry
  firstWritten := true
  retryWritten := true
  reboots := true

end Sample

open Sample

/-- With a name that starts like the counter, three retries keep the options. -/
theorem named_like_counter_kept :
    ([3, 2, 1].foldr (fun m s => retryOnce ⟨true, true⟩ retryPrefix none s m)
      ([retryPrefix, package], .zero)).1 = [retryPrefix, package, retryOption 3] := by
  have hlines : ∀ o ∈ [package], IsLine o :=
    forall_mem_singleton.mpr ⟨by decide, by decide, by decide⟩
  exact (retries_keep_options_iff rfl ⟨by decide, by decide, by decide⟩ [package] hlines .zero
    [2, 1] 3 (by unfold Room; decide)).mpr (by decide)

/-- The name of the program is an option after the first retry, and twice after the second. -/
theorem program_name_kept : getArgs ⟨true, true⟩ [argv0] none
        (updateBootloaderMessageInStruct BootloaderMessage.zero [package]) =
      ([argv0, package],
        updateBootloaderMessageInStruct BootloaderMessage.zero [package]) ∧
    ([2, 1].foldr (fun m s => retryOnce ⟨true, true⟩ argv0 none s m)
      (getArgs ⟨true, true⟩ [argv0] none
        (updateBootloaderMessageInStruct BootloaderMessage.zero [package]))).1 =
      [argv0, argv0, argv0, package, retryOption 2] := by
  decide +kernel

theorem package_retries_bounded : attempts parseInt argv0 (List.replicate 9 failing)
      (updateBootloaderMessageInStruct BootloaderMessage.zero [package]) = 5 ∧
    attempts parseInt argv0 (List.replicate 9 failing)
      (updateBootloaderMessageInStruct BootloaderMessage.zero [package]) ≤
      RETRY_LIMIT + 1 := by
  have hlines : ∀ o ∈ [package], IsLine o :=
    forall_mem_singleton.mpr ⟨by decide, by decide, by decide⟩
  have hroomy : Roomy parseInt argv0 (withoutRetry [package]) :=
    { parse := by decide
      argv0_line := ⟨by decide, by decide, by decide⟩
      argv0_head := by decide
      lines := hlines
      selfContained := by decide
      room := by decide }
  refine ⟨by decide +kernel, retries_bounded .zero [package] (by decide) hlines
    (by decide) hroomy (List.replicate 9 failing) ?_⟩
  intro b hb
  rw [eq_of_mem_replicate hb]
  exact ⟨rfl, rfl⟩

/-- The two options fit the message, but with `argv[0]` and the counter they do not: the
counter is cut off, and every boot is a first attempt. -/
theorem long_reason_unbounded :
    (∀ o ∈ [package, longReason], o ≠ [] ∧ newline ∉ o ∧ 0 ∉ o) ∧
    (encoding [package, longReason]).length + 1 ≤ 768 ∧
    (parseArgs parseInt [package, longReason]).updatePackage.isSome ∧
    attempts parseInt argv0 (List.replicate 6 failing)
      (updateBootloaderMessageInStruct BootloaderMessage.zero
        [package, longReason]) = RETRY_LIMIT + 2 := by
  decide +kernel

end Pterodon.Bootloader
