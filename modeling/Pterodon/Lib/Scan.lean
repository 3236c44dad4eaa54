import Mathlib.Algebra.Order.Ring.Int
import Pterodon.Lib.CString
import Mathlib.Data.List.DropRight

/-!
# Reading numbers and lines back

The reading side of texts made of decimal numbers and lines: what `isspace`, `Trim` and a
`%zu` of `sscanf` make of them. A number that was printed in decimal is read back as the
number it was, whatever follows it, as long as that is not a digit.
-/

namespace Pterodon.Lib

open List

variable {b : UInt8} {s rest : Bytes}

/-- `isspace` in the C locale. -/
def isSpace (b : UInt8) : Bool := b = 32 || (9 ≤ b && b ≤ 13)

/-- `isdigit`. -/
def isDigitByte (b : UInt8) : Bool := 48 ≤ b && b ≤ 57

def trim (s : Bytes) : Bytes := (s.dropWhile isSpace).rdropWhile isSpace

def digitsValue (ds : Bytes) : Nat := ds.foldl (fun n d => 10 * n + (d.toNat - 48)) 0

/-- The sign in front of a number: whether it is a minus, and what follows it. -/
def scanSign (s : Bytes) : Bool × Bytes :=
  if s.head? = some 45 then (true, s.tail)
  else if s.head? = some 43 then (false, s.tail)
  else (false, s)

/-- A `%zu` of `sscanf`, for a `size_t` of `w` bits: the number and what follows it. The
number goes through an `uintmax_t` of 64 bits, as `strtoumax` has it: too large a number is
clamped, and a minus negates modulo `2 ^ 64`. -/
def scanSize (w : Nat) (s : Bytes) : Option (Nat × Bytes) :=
  let (negative, s) := scanSign (s.dropWhile isSpace)
  let digits := s.takeWhile isDigitByte
  let v := digitsValue digits
  if digits = [] then none
  else
    let v := if 2 ^ 64 ≤ v then 2 ^ 64 - 1 else if negative then 2 ^ 64 - v else v
    some (v % 2 ^ w, s.drop digits.length)

/-- The format `"%zu %zu"`; the blank in it is covered by the blanks `%zu` skips. -/
def scanSizes (w : Nat) (s : Bytes) : Option (Nat × Nat) :=
  (scanSize w s).bind fun (first, s) => (scanSize w s).map fun (second, _) => (first, second)

/-! ## Printed numbers -/

theorem toNat_of_isDigit {c : Char} (h : c.isDigit = true) : 48 ≤ c.toNat ∧ c.toNat ≤ 57 := by
  simp only [Char.isDigit, Bool.and_eq_true, decide_eq_true_eq] at h
  exact h

theorem isDigitByte_iff : isDigitByte b = true ↔ 48 ≤ b.toNat ∧ b.toNat ≤ 57 := by
  simp only [isDigitByte, Bool.and_eq_true, decide_eq_true_eq]
  exact Iff.rfl

theorem isDigitByte_of_mem_natBytes {n : Nat} (h : b ∈ natBytes n) : isDigitByte b = true := by
  obtain ⟨c, hc, rfl⟩ := mem_map.mp h
  have hdigit := toNat_of_isDigit (Nat.isDigit_of_mem_toDigits (by omega) (by omega) hc)
  rw [isDigitByte_iff, UInt8.toNat_ofNat']
  omega

theorem ne_of_isDigitByte {c : UInt8} (h : isDigitByte b = true) (hc : isDigitByte c = false) :
    b ≠ c := by
  rintro rfl
  exact Bool.false_ne_true (hc.symm.trans h)

theorem isSpace_of_isDigitByte (h : isDigitByte b = true) : isSpace b = false := by
  have hb := isDigitByte_iff.mp h
  have hblank : b ≠ 32 := ne_of_isDigitByte h rfl
  have hcontrol : ¬ b ≤ 13 := by
    show ¬ b.toNat ≤ 13
    omega
  simp only [isSpace, hblank, hcontrol, decide_false, Bool.and_false, Bool.or_false]

theorem natBytes_ne_nil (n : Nat) : natBytes n ≠ [] :=
  fun h => Nat.toDigits_ne_nil (map_eq_nil_iff.mp h)

theorem digitsValue_natBytes (n : Nat) : digitsValue (natBytes n) = n := by
  have hfold : ∀ (cs : List Char), (∀ c ∈ cs, c.isDigit = true) → ∀ acc,
      (ascii cs).foldl (fun n d => 10 * n + (d.toNat - 48)) acc = Nat.ofDigitChars 10 cs acc := by
    intro cs
    induction cs with
    | nil => exact fun _ _ => rfl
    | cons c cs ih =>
      intro hall acc
      have hc := toNat_of_isDigit (hall c mem_cons_self)
      have hbyte : (UInt8.ofNat c.toNat).toNat = c.toNat := by
        rw [UInt8.toNat_ofNat']
        omega
      have hrest := ih (forall_mem_cons.mp hall).2
        (10 * acc + ((UInt8.ofNat c.toNat).toNat - 48))
      rw [hbyte] at hrest
      show (ascii cs).foldl _ (10 * acc + ((UInt8.ofNat c.toNat).toNat - 48)) = _
      rw [hbyte]
      exact hrest
  rw [digitsValue, natBytes, hfold _ (fun c hc => Nat.isDigit_of_mem_toDigits (by omega)
    (by omega) hc)]
  exact Nat.ofDigitChars_ten_toDigits

theorem natBytes_eq_cons (n : Nat) :
    ∃ d ds, natBytes n = d :: ds ∧ isSpace d = false ∧ d ≠ 45 ∧ d ≠ 43 := by
  cases hn : natBytes n with
  | nil => exact absurd hn (natBytes_ne_nil n)
  | cons d ds =>
    have hd := isDigitByte_of_mem_natBytes (hn ▸ mem_cons_self)
    exact ⟨d, ds, rfl, isSpace_of_isDigitByte hd, ne_of_isDigitByte hd rfl,
      ne_of_isDigitByte hd rfl⟩

/-- A number that fits is read back, with blanks in front and anything but a digit behind. -/
theorem scanSize_natBytes {w n : Nat} (hn : n < 2 ^ w) (hn64 : n < 2 ^ 64) {blanks rest : Bytes}
    (hblanks : ∀ b ∈ blanks, isSpace b = true) (hrest : ∀ b ∈ rest.head?, isDigitByte b = false) :
    scanSize w (blanks ++ (natBytes n ++ rest)) = some (n, rest) := by
  obtain ⟨d, ds, hcons, hspace, hminus, hplus⟩ := natBytes_eq_cons n
  have hdrop : (blanks ++ (natBytes n ++ rest)).dropWhile isSpace = natBytes n ++ rest := by
    rw [dropWhile_append_of_pos hblanks, hcons, cons_append,
      dropWhile_cons_of_neg (by rw [hspace]; exact Bool.false_ne_true)]
  have hsign : scanSign (natBytes n ++ rest) = (false, natBytes n ++ rest) := by
    rw [scanSign, hcons, cons_append, head?_cons,
      if_neg (fun h => hminus (Option.some.inj h)), if_neg (fun h => hplus (Option.some.inj h))]
  have htake : (natBytes n ++ rest).takeWhile isDigitByte = natBytes n := by
    rw [takeWhile_append_of_pos fun b hb => isDigitByte_of_mem_natBytes hb]
    cases rest with
    | nil => exact append_nil _
    | cons b rest =>
      rw [takeWhile_cons_of_neg (by rw [hrest b rfl]; exact Bool.false_ne_true), append_nil]
  rw [scanSize, hdrop, hsign]
  show (if (natBytes n ++ rest).takeWhile isDigitByte = [] then none else _) = _
  rw [htake, digitsValue_natBytes, if_neg (natBytes_ne_nil n), if_neg (Nat.not_le.mpr hn64)]
  show some (n % 2 ^ w, (natBytes n ++ rest).drop (natBytes n).length) = _
  rw [Nat.mod_eq_of_lt hn, drop_left]

theorem scanSizes_cons {w m : Nat} (hm : m < 2 ^ w) (hm64 : m < 2 ^ 64) (t : Bytes) :
    scanSizes w (natBytes m ++ 32 :: t) =
      (scanSize w (32 :: t)).map fun (second, _) => (m, second) := by
  have hfirst := @scanSize_natBytes w m hm hm64 [] (32 :: t) (by simp)
    (fun b hb => Option.some.inj hb ▸ rfl)
  rw [nil_append] at hfirst
  rw [scanSizes, hfirst]
  rfl

theorem scanSizes_natBytes {w m n : Nat} (hm : m < 2 ^ w) (hn : n < 2 ^ w) (hm64 : m < 2 ^ 64)
    (hn64 : n < 2 ^ 64) : scanSizes w (natBytes m ++ 32 :: natBytes n) = some (m, n) := by
  have hsecond := @scanSize_natBytes w n hn hn64 [32] [] (by simp [isSpace]) (by simp)
  rw [append_nil, singleton_append] at hsecond
  rw [scanSizes_cons hm hm64, hsecond]
  rfl

/-! ## Lines -/

/-- A line that `Trim` leaves alone. -/
structure Solid (l : Bytes) : Prop where
  no_newline : 10 ∉ l
  nonempty : l ≠ []
  first : ∀ b ∈ l.head?, isSpace b = false
  last : ∀ b ∈ l.getLast?, isSpace b = false

theorem Solid.of_no_space {l : Bytes} (hne : l ≠ []) (h : ∀ b ∈ l, isSpace b = false) : Solid l :=
  ⟨fun hmem => Bool.noConfusion (h 10 hmem), hne, fun b hb => h b (mem_of_mem_head? hb),
    fun b hb => h b (mem_of_getLast? hb)⟩

theorem solid_natBytes (n : Nat) : Solid (natBytes n) :=
  Solid.of_no_space (natBytes_ne_nil n) fun _ hb =>
    isSpace_of_isDigitByte (isDigitByte_of_mem_natBytes hb)

theorem Solid.append {l m : Bytes} (hl : Solid l) (hm : Solid m) (hb : b ≠ 10) :
    Solid (l ++ b :: m) := by
  refine ⟨?_, by simp, ?_, ?_⟩
  · rw [mem_append, mem_cons]
    rintro (h | h | h)
    · exact hl.no_newline h
    · exact hb h.symm
    · exact hm.no_newline h
  · rw [head?_append_of_ne_nil _ hl.nonempty]
    exact hl.first
  · rw [append_cons, getLast?_append_of_ne_nil _ hm.nonempty]
    exact hm.last

theorem trim_append (hne : s ≠ []) (hfirst : ∀ b ∈ s.head?, isSpace b = false) (rest : Bytes) :
    trim (s ++ rest) = (s ++ rest).rdropWhile isSpace := by
  obtain ⟨b, t, rfl⟩ := exists_cons_of_ne_nil hne
  rw [trim, cons_append, dropWhile_cons_of_neg (by rw [hfirst b rfl]; exact Bool.false_ne_true)]

theorem rdropWhile_append_of_all {blanks : Bytes} (h : ∀ b ∈ blanks, isSpace b = true)
    (hlast : ∀ b ∈ s.getLast?, isSpace b = false) : (s ++ blanks).rdropWhile isSpace = s := by
  rw [rdropWhile, reverse_append, dropWhile_append_of_pos fun c hc => h c (mem_reverse.mp hc)]
  rw [← rdropWhile, rdropWhile_eq_self_iff]
  intro hs hspace
  rw [hlast _ (getLast?_eq_some_getLast hs)] at hspace
  exact Bool.false_ne_true hspace

theorem rdropWhile_append_of_not_all (h : ¬ ∀ b ∈ rest, isSpace b = true) :
    (s ++ rest).rdropWhile isSpace = s ++ rest.rdropWhile isSpace := by
  have hkept : rest.reverse.dropWhile isSpace ≠ [] := by
    intro hnil
    rw [dropWhile_eq_nil_iff] at hnil
    exact h fun b hb => hnil b (mem_reverse.mpr hb)
  rw [rdropWhile, reverse_append, dropWhile_append,
    if_neg (by rw [List.isEmpty_iff]; exact hkept), reverse_append, reverse_reverse, ← rdropWhile]

theorem splitOn_lines {lines : List Bytes} (h : ∀ l ∈ lines, 10 ∉ l) (rest : Bytes) :
    (lines.flatMap (· ++ [10]) ++ rest).splitOn 10 = lines ++ rest.splitOn 10 := by
  induction lines with
  | nil => rfl
  | cons l lines ih =>
    have hrest := ih (forall_mem_cons.mp h).2
    rw [flatMap_cons, append_assoc, append_assoc, singleton_append,
      splitOn_append_cons_self_of_not_mem (h l mem_cons_self), hrest, cons_append]

section

variable {lines : List Bytes} (hne : lines ≠ []) (hsolid : ∀ l ∈ lines, Solid l)

include hne hsolid

theorem lines_head :
    lines.flatMap (· ++ [10]) ≠ [] ∧ ∀ b ∈ (lines.flatMap (· ++ [10])).head?, isSpace b =
      false := by
  obtain ⟨l, ls, rfl⟩ := exists_cons_of_ne_nil hne
  have hl := hsolid l mem_cons_self
  rw [flatMap_cons, append_assoc]
  refine ⟨by simp, ?_⟩
  rw [head?_append_of_ne_nil _ hl.nonempty]
  exact hl.first

theorem splitOn_trim_lines (hrest : ∀ b ∈ rest, isSpace b = true) :
    (trim (lines.flatMap (· ++ [10]) ++ rest)).splitOn 10 = lines := by
  obtain ⟨hne', hfirst⟩ := lines_head hne hsolid
  rw [trim_append hne' hfirst]
  rcases eq_nil_or_concat' lines with rfl | ⟨init, l, rfl⟩
  · exact absurd rfl hne
  · have hl := hsolid l (mem_append_right _ (mem_singleton.mpr rfl))
    have hassoc : (init ++ [l]).flatMap (· ++ [10]) ++ rest =
        (init.flatMap (· ++ [10]) ++ l) ++ (10 :: rest) := by
      simp
    rw [hassoc, rdropWhile_append_of_all, splitOn_lines, splitOn_eq_singleton hl.no_newline]
    · exact fun m hm => (hsolid m (mem_append_left _ hm)).no_newline
    · intro b hb
      rcases mem_cons.mp hb with rfl | hb
      · rfl
      · exact hrest b hb
    · rw [getLast?_append_of_ne_nil _ hl.nonempty]
      exact hl.last

theorem splitOn_trim_more (hrest : ¬ ∀ b ∈ rest, isSpace b = true) :
    ∃ more, more ≠ [] ∧ (trim (lines.flatMap (· ++ [10]) ++ rest)).splitOn 10 = lines ++ more := by
  obtain ⟨hne', hfirst⟩ := lines_head hne hsolid
  refine ⟨(rest.rdropWhile isSpace).splitOn 10, splitOn_ne_nil _ _, ?_⟩
  rw [trim_append hne' hfirst, rdropWhile_append_of_not_all hrest,
    splitOn_lines fun l hl => (hsolid l hl).no_newline]

end

end Pterodon.Lib
