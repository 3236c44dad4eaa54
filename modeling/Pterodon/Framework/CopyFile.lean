import Pterodon.Lib.CString
import Mathlib.Logic.Function.Basic

/-!
# Copying and moving a file

`Framework::copy_file` reads the source with `read_all` and writes what it got with
`write_all`, until `read_all` returns 0; `Framework::move_file` unlinks the source once
`copy_file` returned true. The kernel may answer each `read` and `write` as it likes, so
the model takes its answers from two lists. A call that runs out of answers is still
running: it has no result.

`copy_file` passes `allow_empty_fd`, and with it `read_all` returns 0 both at the end of
the file and when it gives up before the first byte: a read fails for good, or the source
is busy more than five times in a row. The copy is complete exactly if that happens to
none of the calls before the end of the file.
-/

namespace Pterodon.Framework

open Lib List

/-- What `read_all` and `write_all` tell apart in `errno`; `other 0` is no error. -/
inductive Errno where
  | again
  | intr
  | other (code : Nat)
deriving DecidableEq, Repr

/-- The kernel's answer to one `read` or `write`. -/
inductive Answer where
  /-- It moves bytes: no more than asked for, and no more than there are. -/
  | moves (n : Nat)
  | fails (e : Errno)
deriving DecidableEq, Repr

/-- The two open descriptors, `errno`, and the answers still to come. -/
structure Io where
  /-- What of the source is still unread. -/
  rest : Bytes
  /-- What the destination holds. -/
  dest : Bytes
  errno : Errno
  reads : List Answer
  writes : List Answer
deriving DecidableEq, Repr

/-- The bytes a `read` of `count` bytes returns; `none` is a return value of -1. A read
that moves bytes returns none of them at the end of the file only. -/
def Answer.got (count : Nat) (rest : Bytes) : Answer → Option Bytes
  | .moves n => some (rest.take (min (n + 1) count))
  | .fails _ => none

/-- A call that succeeds leaves `errno` alone. -/
def Answer.errno (before : Errno) : Answer → Errno
  | .moves _ => before
  | .fails e => e

/-- The loop of `read_all`, `count` bytes before the buffer is full, `buf` what it holds.
The first component of the result is `none` where the source returns -1. -/
def readLoop (allowEmptyFd : Bool) : List Answer → Nat → Nat → Bytes → Bytes → Errno →
      Option (Option Bytes × Bytes × Errno × List Answer)
  | [], count, _, buf, rest, errno =>
    if count = 0 then some (some buf, rest, errno, []) else none
  | a :: answers, count, tries, buf, rest, errno =>
    if count = 0 then some (some buf, rest, errno, a :: answers)
    else
      let got := a.got count rest
      let errno := a.errno errno
      if got.getD [] = [] then
        -- `tries++` happens whenever its left operand holds, in a `uint8_t`
        let busy := errno = .again ∨ (allowEmptyFd = false ∧ got = some [])
        let tried := if busy then (tries + 1) % 256 else tries
        if busy ∧ tries < 5 then readLoop allowEmptyFd answers count tried buf rest errno
        else if errno = .intr then readLoop allowEmptyFd answers count tried buf rest errno
        else
          some (if buf ≠ [] then some buf else if allowEmptyFd then some [] else none,
            rest, errno, answers)
      else
        readLoop allowEmptyFd answers (count - (got.getD []).length) 0 (buf ++ got.getD [])
          (rest.drop (got.getD []).length) errno

/-- `Framework::read_all`. -/
def readAll (count : Nat) (allowEmptyFd : Bool) (io : Io) : Option (Option Bytes × Io) :=
  (readLoop allowEmptyFd io.reads count 0 [] io.rest io.errno).map
    fun (ret, rest, errno, reads) => (ret, { io with rest, errno, reads })

/-- The loop of `write_all`: `data` is what is still to be written. -/
def writeLoop : List Answer → Bytes → Bytes → Errno →
    Option (Bool × Bytes × Errno × List Answer)
  | answers, [], dest, errno => some (true, dest, errno, answers)
  | [], _ :: _, _, _ => none
  | .moves n :: answers, b :: bs, dest, _ =>
    -- `errno` is reset before the call, so that a call that wrote nothing is an error
    if n = 0 then some (false, dest, .other 0, answers)
    else writeLoop answers ((b :: bs).drop n) (dest ++ (b :: bs).take n) (.other 0)
  | .fails e :: answers, b :: bs, dest, _ =>
    if e = .again ∨ e = .intr then writeLoop answers (b :: bs) dest e
    else some (false, dest, e, answers)

/-- `Framework::write_all`. -/
def writeAll (data : Bytes) (io : Io) : Option (Bool × Io) :=
  (writeLoop io.writes data io.dest io.errno).map
    fun (ret, dest, errno, writes) => (ret, { io with dest, errno, writes })

/-- The loop of `copy_file` with a buffer of `bufsiz` bytes. -/
def copyLoop (bufsiz : Nat) : Nat → Io → Option (Bool × Io)
  | 0, _ => none
  | fuel + 1, io =>
    match readAll bufsiz true io with
    | none => none
    | some (none, io) => some (false, io)
    | some (some [], io) => some (true, io)
    | some (some (b :: bs), io) =>
      match writeAll (b :: bs) io with
      | none => none
      | some (false, io) => some (false, io)
      | some (true, io) => copyLoop bufsiz fuel io

/-- The answer to an `unlink`. -/
inductive Unlink where
  | done
  /-- `ENOENT`. -/
  | missing
  | failed
deriving DecidableEq, Repr

/-- What the kernel will answer in one call of `copy_file` or `move_file`. -/
structure Kernel where
  srcOpens : Bool
  destOpens : Bool
  errno : Errno
  reads : List Answer
  writes : List Answer
  unlink : Unlink

/-- Both files are open, and nothing is read or written yet. -/
def Kernel.start (kernel : Kernel) (content : Bytes) : Io :=
  ⟨content, [], kernel.errno, kernel.reads, kernel.writes⟩

variable {Path : Type} [DecidableEq Path]

/-- `Framework::copy_file` over the contents of the files. Two paths are two files. -/
def copyFile (bufsiz : Nat) (kernel : Kernel) (files : Path → Option Bytes)
    (src dest : Path) : Option (Bool × (Path → Option Bytes)) :=
  if src = dest then some (false, files)
  else
    match kernel.srcOpens, files src with
    | true, some content =>
      if kernel.destOpens then
        -- every round of the loop but the last takes an answer to `read`
        (copyLoop bufsiz (kernel.reads.length + 1) (kernel.start content)).map
          fun (ret, io) => (ret, Function.update files dest (some io.dest))
      else some (false, files)
    | _, _ => some (false, files)

/-- `Framework::delete_file`. -/
def deleteFile (kernel : Kernel) (files : Path → Option Bytes) (path : Path) :
    Bool × (Path → Option Bytes) :=
  match kernel.unlink with
  | .done => (true, Function.update files path none)
  | .missing => (true, files)
  | .failed => (false, files)

/-- `Framework::move_file`. -/
def moveFile (bufsiz : Nat) (kernel : Kernel) (files : Path → Option Bytes)
    (src dest : Path) : Option (Bool × (Path → Option Bytes)) :=
  (copyFile bufsiz kernel files src dest).map fun (copied, files) =>
    if copied then deleteFile kernel files src else (false, files)

/-! ## Giving up -/

/-- The answers make `read_all` stop before its first byte; it was busy `tries` times. -/
def givesUp : Nat → List Answer → Bool
  | _, [] | _, .moves _ :: _ => false
  | tries, .fails .again :: answers => 5 ≤ tries || givesUp (tries + 1) answers
  | tries, .fails .intr :: answers => givesUp tries answers
  | _, .fails (.other _) :: _ => true

/-- The states in which the loop of `copy_file` calls `read_all`. -/
def calls (bufsiz : Nat) : Nat → Io → List Io
  | 0, _ => []
  | fuel + 1, io =>
    io :: match readAll bufsiz true io with
      | some (some (b :: bs), io) =>
        match writeAll (b :: bs) io with
        | some (true, io) => calls bufsiz fuel io
        | _ => []
      | _ => []

variable {answers answers' : List Answer} {errno errno' : Errno}

theorem readLoop_atEnd {count tries : Nat} {buf rest' : Bytes} {ret : Option Bytes}
    (h : readLoop true answers count tries buf [] errno = some (ret, rest', errno', answers')) :
    ret = some buf ∧ rest' = [] := by
  induction answers generalizing tries errno with
  | nil =>
    rw [readLoop] at h
    by_cases hc : count = 0
    · rw [if_pos hc] at h
      cases h
      exact ⟨rfl, rfl⟩
    · rw [if_neg hc] at h
      cases h
  | cons a answers ih =>
    rw [readLoop] at h
    by_cases hc : count = 0
    · rw [if_pos hc] at h
      cases h
      exact ⟨rfl, rfl⟩
    · rw [if_neg hc] at h
      have hgot : (a.got count []).getD [] = [] := by cases a <;> simp [Answer.got]
      simp only [hgot] at h
      by_cases hbusy : (a.errno errno = .again ∨ (true = false ∧ a.got count [] = some [])) ∧
          tries < 5
      · rw [if_pos hbusy] at h
        exact ih h
      · rw [if_neg hbusy] at h
        by_cases hintr : a.errno errno = .intr
        · rw [if_pos hintr] at h
          exact ih h
        · rw [if_neg hintr] at h
          cases h
          by_cases hb : buf = []
          · simp [hb]
          · simp [hb]

/-- `read_all` returns the next bytes of the source. It returns none only at its end, or when
it gives up. -/
theorem readLoop_spec {count tries : Nat} {buf rest rest' : Bytes} {ret : Option Bytes}
    (hc : 0 < count ∨ buf ≠ [])
    (h : readLoop true answers count tries buf rest errno = some (ret, rest', errno', answers')) :
    ∃ got, ret = some (buf ++ got) ∧ rest = got ++ rest' ∧
      (buf ++ got = [] → rest = [] ∨ givesUp tries answers = true) := by
  -- a full buffer is returned as it is
  have hfull : ∀ {count : Nat} {buf : Bytes}, count = 0 → (0 < count ∨ buf ≠ []) →
      buf ++ [] ≠ [] := by
    intro count buf h0 hc hnil
    exact hc.elim (by omega) fun hne => hne (by simpa using hnil)
  induction answers generalizing count tries buf rest errno with
  | nil =>
    rw [readLoop] at h
    by_cases h0 : count = 0
    · rw [if_pos h0] at h
      cases h
      exact ⟨[], by simp, by simp, fun hnil => absurd hnil (hfull h0 hc)⟩
    · rw [if_neg h0] at h
      cases h
  | cons a answers ih =>
    by_cases hrest : rest = []
    · subst hrest
      obtain ⟨hret, hrest'⟩ := readLoop_atEnd h
      exact ⟨[], by simp [hret], by simp [hrest'], fun _ => .inl rfl⟩
    rw [readLoop] at h
    by_cases h0 : count = 0
    · rw [if_pos h0] at h
      cases h
      exact ⟨[], by simp, by simp, fun hnil => absurd hnil (hfull h0 hc)⟩
    rw [if_neg h0] at h
    cases a with
    | moves n =>
      -- bytes arrive, since the source has some left
      have hgot : rest.take (min (n + 1) count) ≠ [] := by
        rw [Ne, take_eq_nil_iff]
        rintro (hmin | hnil)
        · omega
        · exact hrest hnil
      simp only [Answer.got, Answer.errno, Option.getD_some, if_neg hgot] at h
      obtain ⟨got, hret, hgot', -⟩ := ih (Or.inr (by simp [hgot])) h
      refine ⟨rest.take (min (n + 1) count) ++ got, ?_, ?_, ?_⟩
      · rw [hret, append_assoc]
      · rw [append_assoc, ← hgot']
        exact (prefix_iff_eq_append.mp ( take_prefix _ _)).symm
      · intro hall
        simp [hgot] at hall
    | fails e =>
      cases e with
      | again =>
        by_cases ht : tries < 5
        · -- busy, and not for too long: the loop goes on
          simp only [Answer.errno, true_or, true_and, if_pos ht,
            Nat.mod_eq_of_lt (show tries + 1 < 256 by omega)] at h
          simpa [givesUp, Nat.not_le.mpr ht] using ih hc h
        · simp only [Answer.got, Answer.errno, Option.getD_none, true_or, true_and, if_neg ht,
            reduceCtorEq, if_false, if_true] at h
          cases h
          by_cases hb : buf = []
          · exact ⟨[], by simp [hb], rfl, fun _ => .inr (by simp [givesUp]; omega)⟩
          · exact ⟨[], by simp [hb], rfl, by simp [hb]⟩
      | intr => exact ih hc h
      | other code =>
        simp only [Answer.got, Answer.errno, Option.getD_none, reduceCtorEq, false_or,
          false_and, if_false, if_true] at h
        cases h
        by_cases hb : buf = []
        · exact ⟨[], by simp [hb], rfl, fun _ => .inr rfl⟩
        · exact ⟨[], by simp [hb], rfl, by simp [hb]⟩

theorem readLoop_givesUp {count tries : Nat} (rest : Bytes) (h : givesUp tries answers = true)
    (hc : count ≠ 0) : ∃ errno' answers',
      readLoop true answers count tries [] rest errno = some (some [], rest, errno', answers') := by
  induction answers generalizing tries errno with
  | nil => cases h
  | cons a answers ih =>
    rw [readLoop, if_neg hc]
    cases a with
    | moves n => cases h
    | fails e =>
      cases e with
      | again =>
        by_cases ht : tries < 5
        · simp only [Answer.errno, true_or, true_and, if_pos ht,
            Nat.mod_eq_of_lt (show tries + 1 < 256 by omega)]
          exact ih (by simpa [givesUp, Nat.not_le.mpr ht] using h)
        · simp [Answer.got, Answer.errno, ht]
      | intr => exact ih h
      | other code => simp [Answer.got, Answer.errno]

theorem writeLoop_complete {data dest dest' : Bytes}
    (h : writeLoop answers data dest errno = some (true, dest', errno', answers')) :
    dest' = dest ++ data := by
  fun_induction writeLoop answers data dest errno with
  | case1 answers dest errno =>
    cases h
    exact (append_nil _).symm
  | case2 | case3 | case6 => cases h
  | case4 n answers b bs dest _ hn ih =>
    rw [ih h, append_assoc, take_append_drop]
  | case5 e answers b bs dest _ he ih => exact ih h

/-- The loop copies all of the source exactly if no `read_all` gives up with bytes left. -/
theorem copyLoop_complete_iff {bufsiz : Nat} (hb : 0 < bufsiz) (fuel : Nat) (io : Io) :
    (∀ io', copyLoop bufsiz fuel io = some (true, io') → io'.dest = io.dest ++ io.rest) ↔
      ∀ c ∈ calls bufsiz fuel io, c.rest = [] ∨ givesUp 0 c.reads = false := by
  induction fuel generalizing io with
  | zero => simp [copyLoop, calls]
  | succ fuel ih =>
    rw [copyLoop, calls, readAll, forall_mem_cons]
    have hgives := fun h => @readLoop_givesUp io.reads io.errno bufsiz 0 io.rest h (by omega)
    cases hread : readLoop true io.reads bufsiz 0 [] io.rest io.errno with
    | none =>
      have hnot : givesUp 0 io.reads = false := Bool.eq_false_iff.mpr fun h => by
        obtain ⟨_, _, heq⟩ := hgives h
        cases hread.symm.trans heq
      simp [hnot]
    | some out =>
      obtain ⟨ret, rest, errno, reads⟩ := out
      -- what `read_all` returned comes off the front of the source
      obtain ⟨got, rfl, hrest, hnil⟩ := readLoop_spec (.inl hb) hread
      cases got with
      | nil =>
        have hend := hnil rfl
        simp only [Option.map_some, append_nil, Option.some.injEq, Prod.mk.injEq, true_and,
          forall_eq', self_eq_append_right, not_mem_nil, false_implies, implies_true, and_true]
        rcases hend with hend | hend
        · simp [hend]
        · simp [hend]
      | cons b bs =>
        have hnot : givesUp 0 io.reads = false := Bool.eq_false_iff.mpr fun h => by
          obtain ⟨_, _, heq⟩ := hgives h
          cases hread.symm.trans heq
        simp only [Option.map_some, nil_append, writeAll, hnot, or_true, true_and]
        cases hwrite : writeLoop io.writes (b :: bs) io.dest errno with
        | none => simp
        | some out =>
          obtain ⟨ok, dest, errno', writes⟩ := out
          cases ok with
          | false => simp
          | true =>
            rw [hrest, ← append_assoc, ← writeLoop_complete hwrite]
            exact ih ⟨rest, dest, errno', reads, writes⟩

/-! ## The two file operations -/

section Files

variable {bufsiz : Nat} {kernel : Kernel} {files files' : Path → Option Bytes}
  {src dest : Path} {ret : Bool}

theorem copyFile_eq {content : Bytes} (hsrc : files src = some content) (hne : src ≠ dest) :
    copyFile bufsiz kernel files src dest =
      if kernel.srcOpens ∧ kernel.destOpens then
        (copyLoop bufsiz (kernel.reads.length + 1) (kernel.start content)).map
          fun (ret, io) => (ret, Function.update files dest (some io.dest))
      else some (false, files) := by
  rw [copyFile, if_neg hne, hsrc]
  cases hs : kernel.srcOpens <;> cases hd : kernel.destOpens <;> simp

theorem copyFile_src {content : Bytes} (hsrc : files src = some content) (hne : src ≠ dest)
    (h : copyFile bufsiz kernel files src dest = some (ret, files')) : files' src = files src := by
  rw [copyFile_eq hsrc hne] at h
  split at h
  · obtain ⟨⟨ok, io⟩, -, hout⟩ := Option.map_eq_some_iff.mp h
    cases hout
    exact Function.update_of_ne hne ..
  · cases h
    rfl

theorem copyFile_complete_iff {content : Bytes} (hb : 0 < bufsiz) (hsrc : files src = some content)
    (hne : src ≠ dest) :
    (∀ files', copyFile bufsiz kernel files src dest = some (true, files') →
      files' dest = files src) ↔
      (kernel.srcOpens ∧ kernel.destOpens →
        ∀ c ∈ calls bufsiz (kernel.reads.length + 1) (kernel.start content),
          c.rest = [] ∨ givesUp 0 c.reads = false) := by
  rw [copyFile_eq hsrc hne, ← copyLoop_complete_iff hb]
  split
  · next hopen =>
    simp only [Option.map_eq_some_iff, Prod.mk.injEq, hopen, true_implies, and_self]
    constructor
    · intro h io' hloop
      have hdest := h _ ⟨_, hloop, rfl, rfl⟩
      rw [Function.update_self, hsrc] at hdest
      exact Option.some.inj hdest
    · rintro h files' ⟨⟨ok, io⟩, hloop, rfl, rfl⟩
      rw [Function.update_self, hsrc, h io hloop]
      rfl
  · next hopen => simp [hopen]

/-- `copy_file` returns true only if the destination is a copy of the source, and `move_file`
takes the source away only if the destination was a copy of it, exactly if no `read_all` that
`copy_file` makes gives up before its first byte with bytes of the source left. -/
theorem move_file_keeps_data_iff {content : Bytes} (hb : 0 < bufsiz)
    (hsrc : files src = some content) (hne : src ≠ dest) :
    ((∀ files', copyFile bufsiz kernel files src dest = some (true, files') →
        files' dest = files src) ∧
      ∀ ret files', moveFile bufsiz kernel files src dest = some (ret, files') →
        files' src ≠ files src → files' src = none ∧ files' dest = files src) ↔
      (kernel.srcOpens ∧ kernel.destOpens →
        ∀ c ∈ calls bufsiz (kernel.reads.length + 1) (kernel.start content),
          c.rest = [] ∨ givesUp 0 c.reads = false) := by
  rw [← copyFile_complete_iff hb hsrc hne]
  refine ⟨And.left, fun hcopies => ⟨hcopies, fun ret files' h hgone => ?_⟩⟩
  obtain ⟨⟨copied, copy⟩, hcopy, hout⟩ := Option.map_eq_some_iff.mp h
  have hsame := copyFile_src hsrc hne hcopy
  cases copied with
  | false =>
    cases hout
    exact absurd hsame hgone
  | true =>
    simp only [deleteFile] at hout
    cases hu : kernel.unlink with
    | done =>
      rw [hu] at hout
      cases hout
      refine ⟨Function.update_self .., ?_⟩
      rw [Function.update_of_ne hne.symm, hcopies copy hcopy]
    | missing | failed =>
      rw [hu] at hout
      cases hout
      exact absurd hsame hgone

end Files

namespace Sample

def files : Bool → Option Bytes := fun path => if path then none else some [1, 2, 3]

/-- A kernel that answers some reads late and in parts, and the last one with an error. The end of
the file is read six times, since `errno` still says that the source was busy. -/
def slow : Kernel where
  srcOpens := true
  destOpens := true
  errno := .other 0
  reads := [.fails .intr, .moves 0, .fails .again, .moves 9] ++ List.replicate 6 (.moves 0) ++
    [.fails (.other 5)]
  writes := [.moves 1, .fails .again, .moves 9]
  unlink := .done

def broken : Kernel where
  srcOpens := true
  destOpens := true
  errno := .other 0
  reads := [.fails (.other 5)]
  writes := []
  unlink := .done

end Sample

open Sample

theorem slow_file_moved :
    (moveFile 1024 slow files false true).map (fun (ret, fs) => (ret, fs false, fs true)) =
      some (true, none, some [1, 2, 3]) ∧
    ∀ ret files', moveFile 1024 slow files false true = some (ret, files') →
      files' false ≠ files false → files' false = none ∧ files' true = files false := by
  exact ⟨by decide +kernel,
    ((@move_file_keeps_data_iff _ _ 1024 slow files false true [1, 2, 3] (by decide) rfl
      (by decide)).mpr (by decide +kernel)).2⟩

/-- The read error is taken for the end of the file: the copy is empty and reported
complete, and the only full copy is unlinked. -/
theorem broken_file_lost : files false = some [1, 2, 3] ∧
    (copyFile 1024 broken files false true).map
      (fun (ret, fs) => (ret, fs true)) = some (true, some []) ∧
    (moveFile 1024 broken files false true).map
      (fun (ret, fs) => (ret, fs false, fs true)) = some (true, none, some []) := by
  decide +kernel

end Pterodon.Framework
