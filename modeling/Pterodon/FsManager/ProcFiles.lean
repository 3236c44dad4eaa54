import Pterodon.Lib.Scan

/-!
# The tables of the kernel

`is_path_mounted` and `IsFilesystemSupported` read a table character by character. Both put one
word of a line into a buffer of 256 bytes without a look at its end, and then skip the rest of the
line, up to the newline. The blank behind the word is gone by then. If it was the newline itself,
the line that is skipped is the next one. In `/proc/mounts` more words follow. In
`/proc/filesystems` the name is the last word, so of two file systems on lines next to each other
that need no device the second one is not seen.
-/

namespace Pterodon.FsManager

open List Lib

/-- Which loop the next character is read by. -/
inductive Phase where
  /-- The first one of a line. -/
  | first
  /-- The one that puts a word into the buffer. -/
  | word (p : Bytes)
  /-- The one that skips the rest of a line. -/
  | skip

/-- The scan of a table for a word; `none` where it writes behind the buffer. The two functions
differ in what follows a character that is no blank in the first loop. -/
def scan (other : Phase) (sought : Bytes) : Phase → Bytes → Option Bool
  | _, [] => some false
  | .first, c :: text => scan other sought (if isSpace c then .word [] else other) text
  | .word p, c :: text =>
    if p.length < 256 then
      if isSpace c then if cstr p = sought then some true else scan other sought .skip text
      else scan other sought (.word (p ++ [c])) text
    else none
  | .skip, c :: text => scan other sought (if c = 10 then .first else .skip) text

/-- `is_path_mounted`, with what is in `/proc/mounts` if it opens. -/
def isPathMounted (mounts : Option Bytes) (mountPoint : Bytes) : Option Bool :=
  match mounts with
  | none => some false
  | some text => scan .first mountPoint .first text

/-- `IsFilesystemSupported`, with what is in `/proc/filesystems` if it opens. -/
def isFilesystemSupported (filesystems : Option Bytes) (filesystem : Bytes) : Option Bool :=
  match filesystems with
  | none => some true
  | some text => scan .skip filesystem .first text

section Scan

variable {other : Phase} {sought p w line rest : Bytes} {b : UInt8}

theorem scan_word (hw : ∀ c ∈ w, isSpace c = false) (hb : isSpace b = true) (hp : p.length ≤ 256) :
    scan other sought (.word p) (w ++ b :: rest) =
      if (p ++ w).length < 256 then
        if cstr (p ++ w) = sought then some true else scan other sought .skip rest
      else none := by
  induction w generalizing p with
  | nil => simp [scan, hb]
  | cons c w ih =>
    obtain ⟨hc, hw⟩ := forall_mem_cons.mp hw
    rw [cons_append, scan, hc]
    by_cases hlt : p.length < 256
    · rw [if_pos hlt, ih hw (by simp; omega)]
      simp
    · rw [if_neg hlt, if_neg (by simp; omega)]

theorem scan_skip (hline : 10 ∉ line) :
    scan other sought .skip (line ++ 10 :: rest) = scan other sought .first rest := by
  induction line with
  | nil => simp [scan]
  | cons c line ih =>
    obtain ⟨hc, hline⟩ := not_or.mp (mt mem_cons.mpr hline)
    rw [cons_append, scan, if_neg (Ne.symm hc), ih hline]

theorem scan_first (hw : ∀ c ∈ w, isSpace c = false) (hb : isSpace b = true) :
    scan .first sought .first (w ++ b :: rest) = scan .first sought (.word []) rest := by
  induction w with
  | nil => simp [scan, hb]
  | cons c w ih =>
    obtain ⟨hc, hw⟩ := forall_mem_cons.mp hw
    rw [cons_append, scan, hc, if_neg Bool.false_ne_true, ih hw]

end Scan

/-! ## Lines of a table -/

/-- What a scan makes of a line: the word that it puts into the buffer, if any, and whether the
line ends with that. -/
structure Row where
  word : Option Bytes
  last : Bool

/-- The words that a scan reads. The line behind one that ends with its word is skipped. -/
def seen : Bool → List Row → List Bytes
  | _, [] => []
  | true, _ :: rows => seen false rows
  | false, r :: rows => r.word.toList ++ seen r.last rows

/-- The answer of a scan that reads these words. -/
def verdict (sought : Bytes) : List Bytes → Option Bool
  | [] => some false
  | w :: words =>
    if w.length < 256 then if w = sought then some true else verdict sought words else none

/-- The words fit into the buffer, up to the one that is sought. -/
def Fits (sought : Bytes) (words : List Bytes) : Prop :=
  (∀ w ∈ words.takeWhile (· ≠ sought), w.length < 256) ∧ (sought ∈ words → sought.length < 256)

theorem verdict_eq_some_iff {sought : Bytes} {words : List Bytes} {b : Bool} :
    verdict sought words = some b ↔ Fits sought words ∧ b = decide (sought ∈ words) := by
  induction words with
  | nil => simp [verdict, Fits, eq_comm]
  | cons w words ih =>
    rw [verdict]
    by_cases heq : w = sought
    · simp [Fits, heq, eq_comm]
    · by_cases hlen : w.length < 256
      · simp [Fits, heq, hlen, ih, Ne.symm heq]
      · simp [Fits, heq, hlen]

theorem mem_of_mem_seen {w : Bytes} {rows : List Row} {skip : Bool} (h : w ∈ seen skip rows) :
    ∃ r ∈ rows, r.word = some w := by
  induction rows generalizing skip with
  | nil => simp [seen] at h
  | cons r rows ih =>
    cases skip with
    | true =>
      obtain ⟨r', hr', hword⟩ := ih h
      exact ⟨r', mem_cons_of_mem _ hr', hword⟩
    | false =>
      rcases mem_append.mp h with h | h
      · exact ⟨r, mem_cons_self, by simpa using h⟩
      · obtain ⟨r', hr', hword⟩ := ih h
        exact ⟨r', mem_cons_of_mem _ hr', hword⟩

section Rows

variable {α : Type} {other : Phase} {sought : Bytes} {text : α → Bytes} {row : α → Row}

/-- The scan of a table, from what it does with a line. -/
theorem scan_rows (lines : List α) (skip : Bool)
    (hskip : ∀ l rest, scan other sought .skip (text l ++ rest) = scan other sought .first rest)
    (hfirst : ∀ l rest, scan other sought .first (text l ++ rest) =
      match (row l).word with
      | none => scan other sought (if (row l).last then .skip else .first) rest
      | some w =>
        if w.length < 256 then if w = sought then some true
          else scan other sought (if (row l).last then .skip else .first) rest
        else none) :
    scan other sought (if skip then .skip else .first) (lines.flatMap text) =
      verdict sought (seen skip (lines.map row)) := by
  induction lines generalizing skip with
  | nil => cases skip <;> rfl
  | cons l lines ih =>
    rw [flatMap_cons, map_cons]
    cases skip with
    | true =>
      rw [if_pos rfl, hskip]
      exact ih false
    | false =>
      rw [if_neg Bool.false_ne_true, hfirst, ih]
      cases hword : (row l).word with
      | none => simp [seen, hword]
      | some w => simp [seen, hword, verdict]

/-- A scan gives the right answer exactly if the words that it reads fit, and what is sought is
among them if a line has it. -/
theorem scan_right_iff {lines : List α} (h : scan other sought .first (lines.flatMap text) =
      verdict sought (seen false (lines.map row))) :
    scan other sought .first (lines.flatMap text) =
        some (lines.any fun l => (row l).word = some sought) ↔
      Fits sought (seen false (lines.map row)) ∧
      ((∃ l ∈ lines, (row l).word = some sought) → sought ∈ seen false (lines.map row)) := by
  rw [h, verdict_eq_some_iff, Bool.eq_iff_iff]
  simp only [any_eq_true, decide_eq_true_eq]
  refine and_congr_right fun _ => ⟨Iff.mp, fun h => ⟨h, fun hmem => ?_⟩⟩
  obtain ⟨r, hr, hword⟩ := mem_of_mem_seen hmem
  obtain ⟨l, hl, rfl⟩ := mem_map.mp hr
  exact ⟨l, hl, hword⟩

end Rows

/-- A word of a table. -/
def IsWord (w : Bytes) : Prop := 0 ∉ w ∧ ∀ c ∈ w, isSpace c = false

/-! ## Mounts -/

/-- A line with two words or more. -/
structure MountLine where
  device : Bytes
  /-- The blank behind the device. -/
  blank : UInt8
  mountPoint : Bytes
  /-- The blank behind the mount point and the other words, with the blanks between them. -/
  rest : Option (UInt8 × Bytes)
  words : IsWord device ∧ IsWord mountPoint
  blanks : isSpace blank = true ∧ ∀ r ∈ rest, isSpace r.1 = true
  one_line : blank ≠ 10 ∧ ∀ r ∈ rest, 10 ∉ r.1 :: r.2

def MountLine.text (l : MountLine) : Bytes :=
  l.device ++ l.blank :: (l.mountPoint ++ (l.rest.elim [] fun r => r.1 :: r.2) ++ [10])

/-- The second word is read. -/
def MountLine.row (l : MountLine) : Row := ⟨some l.mountPoint, l.rest.isNone⟩

theorem MountLine.scan_skip_text (l : MountLine) (m rest : Bytes) :
    scan .first m .skip (l.text ++ rest) = scan .first m .first rest := by
  have hword : ∀ {w}, IsWord w → 10 ∉ w := fun hw h => Bool.noConfusion (hw.2 10 h)
  have hline : 10 ∉ l.device ++ l.blank :: (l.mountPoint ++ l.rest.elim [] fun r => r.1 ::
      r.2) := by
    have hrest : 10 ∉ l.rest.elim [] fun r => r.1 :: r.2 := by
      cases hr : l.rest with
      | none => simp
      | some r => exact l.one_line.2 r hr
    simp [hword l.words.1, hword l.words.2, Ne.symm l.one_line.1, hrest]
  rw [← scan_skip hline, MountLine.text]
  simp

theorem MountLine.scan_text (l : MountLine) (m rest : Bytes) :
    scan .first m .first (l.text ++ rest) =
      if l.mountPoint.length < 256 then if l.mountPoint = m then some true
        else scan .first m (if l.rest.isNone then .skip else .first) rest
      else none := by
  have htext : l.text ++ rest = l.device ++ l.blank ::
      (l.mountPoint ++ ((l.rest.elim [] fun r => r.1 :: r.2) ++ 10 :: rest)) := by
    simp [MountLine.text]
  rw [htext, scan_first l.words.1.2 l.blanks.1]
  cases hr : l.rest with
  | none =>
    -- the newline is the blank behind the word
    rw [Option.elim_none, nil_append, scan_word l.words.2.2 rfl (Nat.zero_le _), nil_append,
      cstr_of_notMem l.words.2.1]
    rfl
  | some r =>
    rw [Option.elim_some, cons_append, scan_word l.words.2.2 (l.blanks.2 r hr) (Nat.zero_le _),
      nil_append, cstr_of_notMem l.words.2.1,
      scan_skip fun h => l.one_line.2 r hr (mem_cons_of_mem _ h)]
    rfl

/-- A path is found in a table exactly as the second words of its lines say if those that are read
fit into the buffer, up to the path itself, and one of them is the path if a line has it. Those of
lines with three words or more are all read; the line behind a line of two words is not. -/
theorem isPathMounted_iff (lines : List MountLine) (m : Bytes) :
    isPathMounted (some (lines.flatMap MountLine.text)) m =
        some (lines.any fun l => l.mountPoint = m) ↔
      Fits m (seen false (lines.map MountLine.row)) ∧
      ((∃ l ∈ lines, l.mountPoint = m) → m ∈ seen false (lines.map MountLine.row)) := by
  have hright := scan_right_iff (scan_rows lines false (fun l => l.scan_skip_text m)
    fun l => l.scan_text m : scan .first m .first (lines.flatMap MountLine.text) =
      verdict m (seen false (lines.map MountLine.row)))
  rw [isPathMounted]
  simpa only [MountLine.row, Option.some.injEq] using hright

/-- The line `a`, a mount point of a number of characters, `c`. -/
def Sample.line (n : Nat) : MountLine where
  device := [97]
  blank := 32
  mountPoint := List.replicate n 98
  rest := some (32, [99])
  words := ⟨by simp [IsWord, isSpace], by simp, fun c hc => by rw [eq_of_mem_replicate hc]; decide⟩
  blanks := by decide
  one_line := by decide

open Sample

/-- The mount point of the first line is found. That of the second one, which is too long for the
buffer, is not read any more. -/
theorem first_line_mounted : isPathMounted (some ([line 1, line 256].flatMap MountLine.text)) [98] =
      some true := by
  refine (isPathMounted_iff [line 1, line 256] [98]).mpr
    ⟨⟨fun w hw => ?_, fun _ => by decide⟩, fun _ => mem_cons_self⟩
  -- no word is read before the one that is sought
  have hnone : takeWhile (· ≠ [98]) ([98] :: [List.replicate 256 (98 : UInt8)]) = [] :=
    takeWhile_cons_of_neg (by decide)
  exact absurd (hnone ▸ hw) not_mem_nil

/-- A mount point of 256 characters is written behind the buffer. -/
theorem long_word_overflows : ∃ l : MountLine, l.mountPoint = List.replicate 256 98 ∧
    isPathMounted (some l.text) l.mountPoint = none := by
  refine ⟨line 256, rfl, ?_⟩
  rw [isPathMounted, ← append_nil (line 256).text, MountLine.scan_text, if_neg]
  exact not_lt.mpr (Nat.le_of_eq length_replicate.symm)

/-! ## File systems -/

/-- A line with the name of a file system. -/
structure FilesystemLine where
  nodev : Bool
  name : Bytes
  is_word : IsWord name

def FilesystemLine.text (l : FilesystemLine) : Bytes :=
  (if l.nodev then [110, 111, 100, 101, 118] else []) ++ 9 :: (l.name ++ [10])

/-- The name is read if the line has no `nodev`; it is the last word. -/
def FilesystemLine.row (l : FilesystemLine) : Row :=
  ⟨if l.nodev then none else some l.name, !l.nodev⟩

theorem FilesystemLine.scan_skip_text (l : FilesystemLine) (f rest : Bytes) :
    scan .skip f .skip (l.text ++ rest) = scan .skip f .first rest := by
  have hname : 10 ∉ l.name := fun h => Bool.noConfusion (l.is_word.2 10 h)
  have hskip := @scan_skip .skip f l.name rest hname
  cases hdev : l.nodev <;> simp [FilesystemLine.text, hdev, scan, hskip]

/-- A line with `nodev` is skipped from its second character on. -/
theorem FilesystemLine.scan_text (l : FilesystemLine) (f rest : Bytes) :
    scan .skip f .first (l.text ++ rest) =
      match l.row.word with
      | none => scan .skip f (if l.row.last then .skip else .first) rest
      | some w =>
        if w.length < 256 then if w = f then some true
          else scan .skip f (if l.row.last then .skip else .first) rest
        else none := by
  have hskip := l.scan_skip_text f rest
  have hword := @scan_word .skip f [] l.name rest 10 l.is_word.2 rfl (Nat.zero_le _)
  rw [nil_append, cstr_of_notMem l.is_word.1] at hword
  cases hdev : l.nodev with
  | true =>
    simp [FilesystemLine.text, hdev, scan] at hskip
    simp [FilesystemLine.row, FilesystemLine.text, hdev, scan, isSpace, hskip]
  | false => simp [FilesystemLine.row, FilesystemLine.text, hdev, scan, isSpace, hword]

/-- A file system is found exactly as the lines without `nodev` say if the names that are read fit
into the buffer, up to the one that is sought, and that is one of them if a line has it. The line
behind a line without `nodev` that is read is not read. -/
theorem isFilesystemSupported_iff (lines : List FilesystemLine) (f : Bytes) :
    isFilesystemSupported (some (lines.flatMap FilesystemLine.text)) f =
        some (lines.any fun l => l.nodev = false ∧ l.name = f) ↔
      Fits f (seen false (lines.map FilesystemLine.row)) ∧
      ((∃ l ∈ lines, l.nodev = false ∧ l.name = f) →
        f ∈ seen false (lines.map FilesystemLine.row)) := by
  have hright := scan_right_iff (scan_rows lines false (fun l => l.scan_skip_text f)
    fun l => l.scan_text f : scan .skip f .first (lines.flatMap FilesystemLine.text) =
      verdict f (seen false (lines.map FilesystemLine.row)))
  have hnamed : ∀ l : FilesystemLine, l.row.word = some f ↔ l.nodev = false ∧ l.name = f := by
    intro l
    cases hdev : l.nodev <;> simp [FilesystemLine.row, hdev]
  rw [isFilesystemSupported]
  simpa only [hnamed] using hright

/-- A file system called by one letter. -/
def Sample.filesystem (nodev : Bool) (letter : UInt8) (h : letter ≠ 0 ∧ isSpace letter = false) :
    FilesystemLine :=
  ⟨nodev, [letter], fun h0 => h.1 (mem_singleton.mp h0).symm, by simpa using h.2⟩

/-- The lines `a`, `nodev b` and `c`: `c` is read since the line that is skipped is not `c`. -/
theorem third_line_supported :
    isFilesystemSupported (some [9, 97, 10, 110, 111, 100, 101, 118, 9, 98, 10, 9, 99, 10]) [99] =
      some true :=
  (isFilesystemSupported_iff [filesystem false 97 (by decide),
    filesystem true 98 (by decide), filesystem false 99 (by decide)] [99]).mpr
    ⟨⟨by decide, by decide⟩, by decide⟩

/-- Of the lines `a` and `b` the second one is skipped. -/
theorem next_line_skipped :
    isFilesystemSupported (some [9, 97, 10, 9, 98, 10]) [98] = some false := by
  decide

end Pterodon.FsManager
