import Mathlib.Logic.Function.Iterate
import Pterodon.Lib.CString

/-!
# The bootloader message

The bootloader control block (BCB) tells the bootloader to start recovery and tells
recovery its options: `update_bootloader_message_in_struct` writes `recovery`, a newline
and every option with a newline into a field of 768 bytes, by bounded concatenation, and
`get_args` splits the field at its newlines and drops what is empty. `get_args` then
writes the options it found back, so that a device that loses power boots into recovery
again with the same options.

The one fact about the encoder is `update_recovery`: whatever the options, the field holds
the encoding cut off after 767 bytes, and zeros.
-/

namespace Pterodon.Bootloader

open Lib List

/-- A `char` array of `n` bytes. -/
abbrev Field (n : Nat) : Type := { bytes : Bytes // bytes.length = n }

/-- `memset` of a field to zero. -/
def Field.zero (n : Nat) : Field n := ⟨padded n [], padded_length (Nat.zero_le n)⟩

def Field.strlcpy {n : Nat} (dst : Field n) (src : Bytes) : Field n :=
  ⟨Lib.strlcpy dst.val src, by rw [strlcpy_length, dst.property]⟩

def Field.strlcat {n : Nat} (dst : Field n) (src : Bytes) : Field n :=
  ⟨Lib.strlcat dst.val src, by rw [strlcat_length, dst.property]⟩

theorem Field.zero_val (n : Nat) : (Field.zero n).val = padded n [] := rfl

theorem Field.strlcpy_val {n : Nat} (dst : Field n) (src : Bytes) :
    (dst.strlcpy src).val = Lib.strlcpy dst.val src := rfl

theorem Field.strlcat_val {n : Nat} (dst : Field n) (src : Bytes) :
    (dst.strlcat src).val = Lib.strlcat dst.val src := rfl

/-- `struct bootloader_message`: the first two kilobytes of the misc partition. -/
structure BootloaderMessage where
  command : Field 32
  status : Field 32
  recovery : Field 768
  stage : Field 32
  reserved : Field 1184
deriving DecidableEq

variable (boot : BootloaderMessage)

def BootloaderMessage.zero : BootloaderMessage :=
  ⟨.zero 32, .zero 32, .zero 768, .zero 32, .zero 1184⟩

def bootRecovery : Bytes :=
  ascii "boot-recovery".toList

def recoveryName : Bytes := ascii "recovery".toList

def newline : UInt8 := 10

/-- One option appended to the recovery field, with a newline unless it ends in one. -/
def appendOption (recovery : Field 768) (s : Bytes) : Field 768 :=
  let recovery := recovery.strlcat (cstr s)
  if s.getLast? ≠ some newline then recovery.strlcat [newline] else recovery

def updateBootloaderMessageInStruct (options : List Bytes) : BootloaderMessage :=
  { boot with
    command := (Field.zero 32).strlcpy bootRecovery
    recovery := options.foldl appendOption
      ((Field.zero 768).strlcpy (recoveryName ++ [newline])) }

/-- Which accesses to the misc partition succeed in one call of `get_args`. -/
structure Access where
  /-- `read_bootloader_message` at the start. -/
  read : Bool
  /-- `update_bootloader_message` at the end. -/
  update : Bool

/-- The arguments of a text, one a line; empty lines and lines of zeros are skipped. -/
def lineArgs (lines : List Bytes) : List Bytes :=
  lines.filter fun line => !line.isEmpty && line.head? != some 0

/-- The arguments in the recovery field; its last byte is overwritten first. -/
def messageArgs : List Bytes :=
  match (cstr (boot.recovery.val.take 767 ++ [0])).splitOn newline with
  | first :: lines => if first = recoveryName then lineArgs lines else []
  | [] => []

/-- `get_args`: the arguments, and the message in the misc partition afterwards.
`commandFile` is the content of the command file in the cache, if there is one. -/
def getArgs (access : Access) (argv : List Bytes) (commandFile : Option Bytes)
    (misc : BootloaderMessage) : List Bytes × BootloaderMessage :=
  let boot := if access.read then misc else .zero
  let args := if argv.length = 1 then argv ++ messageArgs boot else argv
  let args :=
    if args.length = 1 then
      args ++ lineArgs ((commandFile.map (·.splitOn newline)).getD [])
    else args
  (args, if access.update then updateBootloaderMessageInStruct misc args.tail else misc)

/-! ## What the field holds -/

/-- An option as it is meant to stand in the field. -/
def optionLine (s : Bytes) : Bytes :=
  if s.getLast? ≠ some newline then s ++ [newline] else s

def encoding (options : List Bytes) : Bytes :=
  recoveryName ++ [newline] ++ options.flatMap optionLine

theorem take_take_append {α : Type} (n : Nat) (t s : List α) :
    (t.take n ++ s).take n = (t ++ s).take n := by
  rw [take_append, take_append, take_take, Nat.min_self, length_take]
  congr 2
  omega

variable {t s : Bytes}

theorem strlcat_cut {recovery : Field 768} (ht : 0 ∉ t)
    (h : recovery.val = padded 768 (t.take 767)) :
    (recovery.strlcat s).val = padded 768 ((t ++ s).take 767) := by
  have ht' : 0 ∉ t.take 767 := fun hmem => ht (mem_of_mem_take hmem)
  have hlen : (t.take 767).length < 768 := by
    rw [length_take]
    omega
  rw [Field.strlcat_val, h, strlcat_padded ht' hlen, take_take_append]

theorem appendOption_cut {recovery : Field 768} (ht : 0 ∉ t) (hs : 0 ∉ s)
    (h : recovery.val = padded 768 (t.take 767)) :
    (appendOption recovery s).val = padded 768 ((t ++ optionLine s).take 767) := by
  have hts : 0 ∉ t ++ s := by simp [ht, hs]
  have hfirst := strlcat_cut ht h (s := s)
  rw [appendOption, optionLine, cstr_of_notMem hs]
  by_cases hnl : s.getLast? ≠ some newline
  · rw [if_pos hnl, if_pos hnl, strlcat_cut hts hfirst, append_assoc]
  · rw [if_neg hnl, if_neg hnl, hfirst]

theorem optionLine_noZero (hs : 0 ∉ s) : 0 ∉ optionLine s := by
  rw [optionLine]
  by_cases hnl : s.getLast? ≠ some newline
  · rw [if_pos hnl]
    simp [hs, newline]
  · rw [if_neg hnl]
    exact hs

section Options

variable {options : List Bytes}

/-- The field holds the encoding of the options, cut off to leave room for a zero. -/
theorem update_recovery (hopts : ∀ o ∈ options, 0 ∉ o) :
    (updateBootloaderMessageInStruct boot options).recovery.val =
      padded 768 ((encoding options).take 767) := by
  -- one option at a time, `t` being the encoding of those before
  have hfold : ∀ (options : List Bytes) (t : Bytes) (recovery : Field 768),
      (∀ o ∈ options, 0 ∉ o) → 0 ∉ t → recovery.val = padded 768 (t.take 767) →
      (options.foldl appendOption recovery).val =
        padded 768 ((t ++ options.flatMap optionLine).take 767) := by
    intro options
    induction options with
    | nil =>
      intro t recovery _ _ h
      rw [foldl_nil, h, flatMap_nil, append_nil]
    | cons o os ih =>
      intro t recovery ho ht h
      have ho' : 0 ∉ o := ho o mem_cons_self
      have ht' : 0 ∉ t ++ optionLine o := by simp [ht, optionLine_noZero ho']
      rw [foldl_cons, ih (t ++ optionLine o) (appendOption recovery o)
        (fun o' hmem => ho o' (mem_cons_of_mem _ hmem)) ht' (appendOption_cut ht ho' h),
        flatMap_cons, append_assoc]
  have hstart : ((Field.zero 768).strlcpy (recoveryName ++ [newline])).val =
      padded 768 ((recoveryName ++ [newline]).take 767) := by
    rw [Field.strlcpy_val, Field.zero_val, strlcpy_padded (Nat.zero_lt_succ 767)]
  exact hfold options _ _ hopts (by decide) hstart

/-! ## What comes back -/

/-- An option that can stand on a line of its own. -/
structure IsLine (o : Bytes) : Prop where
  nonempty : o ≠ []
  noNewline : newline ∉ o
  noZero : 0 ∉ o

theorem IsLine.optionLine {o : Bytes} (h : IsLine o) : optionLine o = o ++ [newline] := by
  rw [Bootloader.optionLine, if_pos]
  intro hlast
  exact h.noNewline (mem_of_getLast? hlast)

theorem terminated_field {field : Field 768} (hlen : t.length < 768) (ht : 0 ∉ t)
    (h : field.val = padded 768 t) : cstr (field.val.take 767 ++ [0]) = t := by
  obtain ⟨k, hk⟩ : ∃ k, 768 - t.length = k + 1 := ⟨767 - t.length, by omega⟩
  have hcut : field.val.take 767 ++ [0] = padded 768 t := by
    rw [h, padded, hk, replicate_succ', ← append_assoc]
    congr 1
    apply take_left'
    rw [length_append, length_replicate]
    omega
  rw [hcut, cstr_padded ht]

section Lines

variable (h : ∀ o ∈ options, IsLine o)
include h

/-- The encoding is its lines, the last of them empty, joined by newlines. -/
theorem encoding_eq_intercalate :
    encoding options = [newline].intercalate (recoveryName :: options ++ [[]]) := by
  have hlines : ∀ (first : Bytes) (options : List Bytes), (∀ o ∈ options, IsLine o) →
      [newline].intercalate (first :: options ++ [[]]) =
        first ++ [newline] ++ options.flatMap optionLine := by
    intro first options
    induction options generalizing first with
    | nil =>
      simp [List.intercalate]
    | cons o os ih =>
      intro h
      have hos : ∀ o' ∈ os, IsLine o' := fun o' hmem => h o' (mem_cons_of_mem _ hmem)
      have hstep : [newline].intercalate (first :: (o :: os ++ [[]])) =
          first ++ [newline] ++ [newline].intercalate (o :: os ++ [[]]) := by
        simp [List.intercalate]
      rw [cons_append, hstep, ih o hos, flatMap_cons, (h o mem_cons_self).optionLine]
  exact (hlines recoveryName options h).symm

theorem encoding_noZero : 0 ∉ encoding options := by
  rw [encoding, mem_append, not_or]
  refine ⟨by decide, ?_⟩
  intro hmem
  obtain ⟨o, ho, hz⟩ := mem_flatMap.mp hmem
  exact optionLine_noZero (h o ho).noZero hz

theorem lineArgs_lines : lineArgs (options ++ [[]]) = options := by
  have hkeep : options.filter (fun line => !line.isEmpty && line.head? != some 0) = options := by
    rw [filter_eq_self]
    intro o ho
    obtain ⟨hne, -, hzero⟩ := h o ho
    cases o with
    | nil => exact absurd rfl hne
    | cons b bs =>
      have hb : b ≠ 0 := fun h0 => hzero (h0 ▸ mem_cons_self)
      simp [hb]
  rw [lineArgs, filter_append, hkeep]
  exact append_nil options

theorem splitOn_encoding :
    (encoding options).splitOn newline = recoveryName :: (options ++ [[]]) := by
  rw [encoding_eq_intercalate h]
  apply splitOn_intercalate
  · intro line hline
    rw [cons_append, mem_cons, mem_append, mem_singleton] at hline
    rcases hline with rfl | hline | rfl
    · decide
    · exact (h line hline).noNewline
    · exact not_mem_nil
  · simp

theorem messageArgs_encoding {boot : BootloaderMessage} (hfit : (encoding options).length < 768)
    (hrec : boot.recovery.val = padded 768 (encoding options)) : messageArgs boot = options := by
  rw [messageArgs, terminated_field hfit (encoding_noZero h) hrec, splitOn_encoding h]
  exact lineArgs_lines h

end Lines

theorem getArgs_message {access : Access} (hread : access.read = true) (argv0 : Bytes)
    (commandFile : Option Bytes) {misc : BootloaderMessage}
    (hargs : messageArgs misc = options) (hne : options ≠ []) :
    getArgs access [argv0] commandFile misc = (argv0 :: options,
      if access.update then updateBootloaderMessageInStruct misc options else misc) := by
  have hlen : ¬ ([argv0] ++ options).length = 1 := by
    have hpos : 0 < options.length := length_pos_iff.mpr hne
    rw [length_append, length_singleton]
    omega
  simp only [getArgs, hread, if_true, length_singleton, hargs, if_neg hlen]
  rfl

theorem update_update (options : List Bytes) :
    updateBootloaderMessageInStruct (updateBootloaderMessageInStruct boot options) options =
      updateBootloaderMessageInStruct boot options := rfl

/-- Options that fit the recovery field survive it: `get_args` returns them after `argv[0]`
as often as it is run, leaves the message as it was, and no other field is touched. -/
theorem get_args_returns_options (boot : BootloaderMessage) (options : List Bytes)
    (hne : options ≠ []) (hlines : ∀ o ∈ options, IsLine o)
    (hfit : (encoding options).length + 1 ≤ 768) (access : Access) (hread : access.read = true)
    (argv0 : Bytes) (commandFile : Option Bytes) :
    let bcb := updateBootloaderMessageInStruct boot options
    getArgs access [argv0] commandFile bcb = (argv0 :: options, bcb) ∧
    (∀ n, (fun misc => (getArgs access [argv0] commandFile misc).2)^[n] bcb = bcb) ∧
    bcb.status = boot.status ∧ bcb.stage = boot.stage ∧ bcb.reserved = boot.reserved := by
  intro bcb
  have hrec : bcb.recovery.val = padded 768 (encoding options) := by
    have h := update_recovery boot (fun o ho => (hlines o ho).noZero)
    rwa [take_of_length_le (by omega)] at h
  have hargs : getArgs access [argv0] commandFile bcb = (argv0 :: options, bcb) := by
    rw [getArgs_message hread argv0 commandFile (messageArgs_encoding hlines hfit hrec) hne,
      update_update, ite_self]
  refine ⟨hargs, ?_, rfl, rfl, rfl⟩
  apply Function.iterate_fixed
  rw [hargs]

end Options

def Sample.options : List Bytes :=
  [ascii "--wipe_data".toList,
   ascii "--locale=en".toList]

theorem sample_options_returned : getArgs ⟨true, true⟩ [[114]] none
      (updateBootloaderMessageInStruct BootloaderMessage.zero Sample.options) =
      ([114] :: Sample.options,
        updateBootloaderMessageInStruct BootloaderMessage.zero Sample.options) := by
  have hlines : ∀ o ∈ Sample.options, IsLine o := by
    intro o ho
    simp only [Sample.options, mem_cons, not_mem_nil, or_false] at ho
    rcases ho with rfl | rfl
    · exact ⟨by decide, by decide, by decide⟩
    · exact ⟨by decide, by decide, by decide⟩
  exact (get_args_returns_options .zero Sample.options (by decide) hlines (by decide)
    ⟨true, true⟩ rfl [114] none).1

/-! ## Options that do not fit -/

/-- What the field keeps of the options' lines behind the last newline in it. -/
def cutLine (options : List Bytes) : Bytes :=
  (((options.flatMap optionLine).take 758).splitOn newline).getLastD []

/-- A text that is cut off has the same lines, up to the last of them. -/
theorem splitOn_take {α : Type} [DecidableEq α] (a : α) (text : List α) (n : Nat) :
    ∃ k last, (text.take n).splitOn a = (text.splitOn a).take k ++ [last] ∧ last ⊆ text := by
  induction text generalizing n with
  | nil => exact ⟨0, [], by rw [take_nil]; rfl, nil_subset _⟩
  | cons x xs ih =>
    cases n with
    | zero => exact ⟨0, [], rfl, nil_subset _⟩
    | succ n =>
      obtain ⟨k, last, hk, hlast⟩ := ih n
      have hxs := subset_cons_of_subset x hlast
      have hcons : ∀ ys : List α, (x :: ys).splitOn a =
          if x = a then [] :: ys.splitOn a else (ys.splitOn a).modifyHead (x :: ·) := by
        simp [splitOn, splitOnP_cons_eq_if_modifyHead]
      rw [take_succ_cons, hcons, hcons, hk]
      by_cases hx : x = a
      · rw [if_pos hx, if_pos hx]
        exact ⟨k + 1, last, rfl, hxs⟩
      · rw [if_neg hx, if_neg hx]
        cases k with
        | zero => exact ⟨0, x :: last, rfl, cons_subset_cons x hlast⟩
        | succ k =>
          cases hs : xs.splitOn a with
          | nil => exact absurd hs (splitOnP_ne_nil _ _)
          | cons l ls => exact ⟨k + 1, last, rfl, hxs⟩

theorem splitOn_name (t : Bytes) :
    (recoveryName ++ newline :: t).splitOn newline = recoveryName :: t.splitOn newline := rfl

/-- The lines that come back: whole options, and what the cut leaves of the next one. -/
theorem messageArgs_cut {options : List Bytes} (h : ∀ o ∈ options, IsLine o) :
    ∃ k, messageArgs (updateBootloaderMessageInStruct boot options) =
      lineArgs ((options ++ [[]]).take k ++ [cutLine options]) ∧ 0 ∉ cutLine options := by
  have hlines : (options.flatMap optionLine).splitOn newline = options ++ [[]] := by
    have hall := splitOn_encoding h
    exact (List.cons.inj ((splitOn_name _).symm.trans hall)).2
  obtain ⟨k, last, hk, hlast⟩ := splitOn_take newline (options.flatMap optionLine) 758
  obtain rfl : cutLine options = last := by
    rw [cutLine, hk, getLastD_concat]
  have hcut : (encoding options).take 767 =
      recoveryName ++ newline :: (options.flatMap optionLine).take 758 := rfl
  have hzero : 0 ∉ encoding options := encoding_noZero h
  refine ⟨k, ?_, fun hmem => hzero (mem_append_right _ (hlast hmem))⟩
  rw [messageArgs, terminated_field (by rw [length_take]; omega)
    (fun hmem => hzero (mem_of_mem_take hmem))
    (update_recovery boot fun o ho => (h o ho).noZero), hcut, splitOn_name, hk, hlines]
  exact if_pos rfl

theorem getArgs_tail {access : Access} (hread : access.read = true) (argv0 : Bytes)
    (misc : BootloaderMessage) : (getArgs access [argv0] none misc).1.tail = messageArgs misc := by
  cases hargs : messageArgs misc with
  | nil =>
    simp only [getArgs, hread, if_true, hargs]
    rfl
  | cons o os => rw [getArgs_message hread argv0 none hargs (cons_ne_nil o os)]; rfl

/-- Every option that `get_args` finds is one of those written, if and only if the field keeps no
line of its own making: it ends in a newline, or what follows the last one is an option too. -/
theorem decoded_options_iff (boot : BootloaderMessage) (options : List Bytes)
    (hlines : ∀ o ∈ options, IsLine o) (access : Access) (hread : access.read = true)
    (argv0 : Bytes) :
    (∀ o ∈ (getArgs access [argv0] none (updateBootloaderMessageInStruct boot options)).1.tail,
      o ∈ options) ↔ cutLine options = [] ∨ cutLine options ∈ options := by
  obtain ⟨k, hk, hzero⟩ := messageArgs_cut boot hlines
  have hmem : ∀ o, o ∈ lineArgs ((options ++ [[]]).take k ++ [cutLine options]) ↔
      (o ∈ (options ++ [[]]).take k ∨ o = cutLine options) ∧ o ≠ [] ∧ o.head? ≠ some 0 := by
    simp [lineArgs, or_and_right]
  rw [getArgs_tail hread, hk]
  constructor
  · intro h
    by_cases hne : cutLine options = []
    · exact .inl hne
    · exact .inr (h _ ((hmem _).mpr ⟨.inr rfl, hne, fun h0 => hzero (mem_of_mem_head? h0)⟩))
  · intro h o ho
    obtain ⟨ho | rfl, hne, -⟩ := (hmem o).mp ho
    · exact (mem_append.mp (mem_of_mem_take ho)).resolve_right
        fun hnil => hne (mem_singleton.mp hnil)
    · exact h.resolve_left hne

/-- The second option fills the field up to its newline. -/
def Sample.filling : List Bytes := [[97], List.replicate 755 98, [99]]

/-- The third one is lost, and the others come back as they are. -/
theorem sample_options_decoded : (∀ o ∈ Sample.filling, IsLine o) ∧
    ∀ o ∈ (getArgs ⟨true, true⟩ [[114]] none
      (updateBootloaderMessageInStruct .zero Sample.filling)).1.tail, o ∈ Sample.filling := by
  have hplain : ∀ o ∈ Sample.filling, o ≠ [] ∧ newline ∉ o ∧ 0 ∉ o := by decide +kernel
  have hlines : ∀ o ∈ Sample.filling, IsLine o := fun o ho =>
    ⟨(hplain o ho).1, (hplain o ho).2.1, (hplain o ho).2.2⟩
  exact ⟨hlines, (decoded_options_iff .zero _ hlines ⟨true, true⟩ rfl [114]).mpr
    (by decide +kernel)⟩

/-- An option of 800 bytes comes back with 758 of them. -/
theorem long_option_shortened :
    (getArgs ⟨true, true⟩ [[114]] none (updateBootloaderMessageInStruct BootloaderMessage.zero
      [List.replicate 800 120])).1.tail = [List.replicate 758 120] := by
  decide +kernel

end Pterodon.Bootloader
