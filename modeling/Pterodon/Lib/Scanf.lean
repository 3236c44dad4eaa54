import Mathlib.Algebra.Order.Ring.Int
import Pterodon.Lib.Text
import Mathlib.Data.List.DropRight

/-!
# Reading a text with `fscanf`

A format is a list of directives. A blank in it skips blanks, any other character has to stand in
the text, and a conversion reads an integer, blanks before it skipped. Reading stops at the first
directive that does not match; the caller is told how many integers were read, and nothing about
characters of the format that were not found behind the last of them.

The other way to read a text is token by token (`lex`). A format whose directives are those of some
tokens gets to its end exactly if the text starts with these tokens (`fscanf_iff`).
-/

namespace Pterodon.Lib

open List

/-- `isspace` in the C locale. -/
def isBlank (c : Char) : Bool := c = ' ' || ('\t' ≤ c && c ≤ '\r')

def skipBlanks (s : Text) : Text := s.dropWhile isBlank

/-! ## Integers -/

/-- `%d`, `%i`, `%u` and `%x`. -/
inductive Conv where
  | d
  | i
  | u
  | x
  deriving DecidableEq

/-- The value of a hexadecimal digit; 16 for any other character. -/
def digitValue (c : Char) : Nat :=
  if c.isDigit then c.toNat - '0'.toNat
  else if 'a' ≤ c ∧ c ≤ 'f' then c.toNat - 'a'.toNat + 10
  else if 'A' ≤ c ∧ c ≤ 'F' then c.toNat - 'A'.toNat + 10
  else 16

/-- Whether the text is `0x` or `0X` and a digit. -/
def isHex : Text → Bool
  | '0' :: x :: h :: _ => (x = 'x' || x = 'X') && digitValue h < 16
  | _ => false

/-- The base of the number a conversion reads, and how many characters to skip in front of it. -/
def Conv.base (conv : Conv) (s : Text) : Nat × Nat :=
  match conv with
  | .d | .u => (10, 0)
  | .x => if isHex s then (16, 2) else (16, 0)
  | .i => if isHex s then (16, 2) else if s.head? = some '0' then (8, 0) else (10, 0)

/-- A number without a sign, and what follows it. -/
def scanNat (conv : Conv) (s : Text) : Option (Nat × Text) :=
  let base := (conv.base s).1
  let s := s.drop (conv.base s).2
  let digits := s.takeWhile (digitValue · < base)
  if digits = [] then none
  else some (digits.foldl (fun n c => n * base + digitValue c) 0, s.drop digits.length)

/-- A number with or without a sign, and what follows it. -/
def scanInt (conv : Conv) : Text → Option (Int × Text)
  | '-' :: s => (scanNat conv s).map fun r => (-(r.1 : Int), r.2)
  | '+' :: s => (scanNat conv s).map fun r => ((r.1 : Int), r.2)
  | s => (scanNat conv s).map fun r => ((r.1 : Int), r.2)

/--
What a conversion stores into a 32-bit variable. The number goes through an integer of 64 bits, a
signed one for `%d` and `%i`; too large a number is clamped there.
-/
def Conv.stored (conv : Conv) (z : Int) : Nat :=
  match conv with
  | .d | .i => (max (-2 ^ 63) (min z (2 ^ 63 - 1)) % 2 ^ 32).toNat
  | .u | .x => if 2 ^ 64 ≤ z.natAbs then 2 ^ 32 - 1 else (z % 2 ^ 32).toNat

/-! ## Formats -/

inductive Directive where
  | space
  | lit (c : Char)
  | num (conv : Conv)

/-- How the reading of a format ends. -/
inductive Stop where
  | complete
  /-- The text goes on in another way. -/
  | mismatch
  | eof
  deriving DecidableEq

/-- The integers that were read, how reading ended, and what is left of the text. -/
structure Scan where
  values : List Int
  stop : Stop
  rest : Text

/-- What `fscanf` returns; `EOF` is -1. -/
def Scan.ret (r : Scan) : Int := if r.values = [] ∧ r.stop = .eof then -1 else r.values.length

def Scan.first (r : Scan) : Int := r.values.getD 0 0

def fscanf : List Directive → Text → Scan
  | [], s => ⟨[], .complete, s⟩
  | .space :: fmt, s => fscanf fmt (skipBlanks s)
  | .lit _ :: _, [] => ⟨[], .eof, []⟩
  | .lit c :: fmt, d :: s => if d = c then fscanf fmt s else ⟨[], .mismatch, d :: s⟩
  | .num conv :: fmt, s =>
    match scanInt conv (skipBlanks s) with
    | none => ⟨[], if skipBlanks s = [] then .eof else .mismatch, skipBlanks s⟩
    | some (z, s) =>
      let r := fscanf fmt s
      { r with values := z :: r.values }

/-! ## Tokens -/

inductive Token where
  | sym (c : Char)
  | number (conv : Conv) (z : Int)
  /-- A hexadecimal number behind `0x`. -/
  | hex (z : Int)

def lexSym (c : Char) : Text → Option Text
  | [] => none
  | d :: s => if d = c then some s else none

/-- A given number, blanks before it skipped. -/
def lexNumber (conv : Conv) (z : Int) (s : Text) : Option Text :=
  (scanInt conv (skipBlanks s)).bind fun r => if r.1 = z then some r.2 else none

/-- What follows a token, if the text starts with it; blanks before it are skipped. -/
def Token.lex : Token → Text → Option Text
  | .sym c, s => lexSym c (skipBlanks s)
  | .number conv z, s => lexNumber conv z (skipBlanks s)
  | .hex z, s => (lexSym '0' (skipBlanks s)).bind fun s => (lexSym 'x' s).bind (lexNumber .x z)

/-- What follows some tokens. -/
def lex (ts : List Token) (s : Text) : Option Text := ts.foldlM (fun s t => t.lex s) s

/-- The part of a format that reads a token. -/
def Token.directives : Token → List Directive
  | .sym c => [.space, .lit c]
  | .number conv _ => [.space, .num conv]
  | .hex _ => [.space, .lit '0', .lit 'x', .num .x]

def Token.values : Token → List Int
  | .sym _ => []
  | .number _ z => [z]
  | .hex z => [z]

theorem lex_nil (s : Text) : lex [] s = some s := rfl

theorem lex_cons (t : Token) (ts : List Token) (s : Text) :
    lex (t :: ts) s = (t.lex s).bind (lex ts) := rfl

theorem lex_append (ts us : List Token) (s : Text) :
    lex (ts ++ us) s = (lex ts s).bind (lex us) := by
  induction ts generalizing s with
  | nil => rfl
  | cons t ts ih =>
    rw [cons_append, lex_cons, lex_cons]
    cases t.lex s with
    | none => rfl
    | some s' => exact ih s'

theorem lex_append_iff {ts us : List Token} {s rest : Text} :
    lex (ts ++ us) s = some rest ↔ ∃ s', lex ts s = some s' ∧ lex us s' = some rest := by
  rw [lex_append, Option.bind_eq_some_iff]

theorem skipBlanks_skipBlanks (s : Text) : skipBlanks (skipBlanks s) = skipBlanks s :=
  dropWhile_idempotent isBlank s

/-! ## Formats and tokens -/

/-- Go on with another format. -/
def Scan.andThen (r : Scan) (fmt : List Directive) : Scan :=
  if r.stop = .complete then
    let r' := fscanf fmt r.rest
    ⟨r.values ++ r'.values, r'.stop, r'.rest⟩
  else r

theorem fscanf_append (fmt fmt' : List Directive) (s : Text) :
    fscanf (fmt ++ fmt') s = (fscanf fmt s).andThen fmt' := by
  induction fmt generalizing s with
  | nil => rfl
  | cons dir fmt ih =>
    rw [cons_append]
    cases dir with
    | space => exact ih _
    | lit c =>
      cases s with
      | nil => rfl
      | cons d s =>
        rw [fscanf, fscanf]
        split
        · exact ih s
        · rfl
    | num conv =>
      rw [fscanf, fscanf]
      cases scanInt conv (skipBlanks s) with
      | none =>
        dsimp only
        split <;> rfl
      | some r =>
        dsimp only
        rw [ih]
        unfold Scan.andThen
        split <;> rfl

theorem Scan.eq_of {r : Scan} {values : List Int} {stop : Stop} (hvalues : r.values = values)
    (hstop : r.stop = stop) : r = ⟨values, stop, r.rest⟩ := by
  rw [← hvalues, ← hstop]

def conversions : List Directive → Nat
  | [] => 0
  | .num _ :: fmt => conversions fmt + 1
  | _ :: fmt => conversions fmt

theorem conversions_append (fmt fmt' : List Directive) :
    conversions (fmt ++ fmt') = conversions fmt + conversions fmt' := by
  induction fmt with
  | nil => exact (Nat.zero_add _).symm
  | cons dir fmt ih =>
    cases dir <;> simp only [cons_append, conversions, ih]
    omega

/-- All integers are read if the format gets to its end, and no more in any case. -/
theorem fscanf_values_length (fmt : List Directive) (s : Text) :
    (fscanf fmt s).values.length ≤ conversions fmt ∧
      ((fscanf fmt s).stop = .complete → (fscanf fmt s).values.length = conversions fmt) := by
  induction fmt generalizing s with
  | nil => exact ⟨Nat.le_refl 0, fun _ => rfl⟩
  | cons dir fmt ih =>
    cases dir with
    | space => exact ih _
    | lit c =>
      cases s with
      | nil => exact ⟨Nat.zero_le _, fun h => by cases h⟩
      | cons d s =>
        rw [fscanf]
        split
        · exact ih s
        · exact ⟨Nat.zero_le _, fun h => by cases h⟩
    | num conv =>
      rw [fscanf]
      cases scanInt conv (skipBlanks s) with
      | none =>
        refine ⟨Nat.zero_le _, fun h => ?_⟩
        dsimp only at h
        split at h <;> cases h
      | some r =>
        obtain ⟨hle, heq⟩ := ih r.2
        exact ⟨Nat.succ_le_succ hle, fun h => congrArg (· + 1) (heq h)⟩

/-- A format that ends in a conversion is at its end once all integers are read. -/
theorem fscanf_complete {fmt : List Directive} {conv : Conv} {s : Text}
    (h : (fscanf (fmt ++ [.num conv]) s).ret = conversions fmt + 1) :
    (fscanf (fmt ++ [.num conv]) s).stop = .complete := by
  have hlen : (fscanf (fmt ++ [.num conv]) s).values.length = conversions fmt + 1 := by
    unfold Scan.ret at h
    split at h <;> omega
  rw [fscanf_append] at hlen ⊢
  unfold Scan.andThen at hlen ⊢
  split
  · rename_i hstop
    rw [if_pos hstop, length_append, (fscanf_values_length fmt s).2 hstop] at hlen
    rw [fscanf] at hlen ⊢
    cases hint : scanInt conv (skipBlanks (fscanf fmt s).rest) with
    | none =>
      rw [hint] at hlen
      dsimp only [length_nil] at hlen
      omega
    | some r => rfl
  · rename_i hstop
    rw [if_neg hstop] at hlen
    have hle := (fscanf_values_length fmt s).1
    omega

theorem fscanf_num_iff (conv : Conv) (s : Text) (z : Int) (rest : Text) :
    fscanf [.num conv] s = ⟨[z], .complete, rest⟩ ↔ lexNumber conv z s = some rest := by
  rw [fscanf]
  unfold lexNumber
  cases scanInt conv (skipBlanks s) with
  | none =>
    constructor
    · intro h
      cases (Scan.mk.inj h).1
    · exact nofun
  | some r =>
    dsimp only [fscanf, Option.bind_some]
    constructor
    · intro h
      obtain ⟨hz, _, hrest⟩ := Scan.mk.inj h
      rw [if_pos (List.cons.inj hz).1, hrest]
    · intro h
      split at h
      · rename_i hz
        rw [hz, Option.some.inj h]
      · cases h

theorem fscanf_lit_iff (c : Char) (fmt : List Directive) (s : Text) (values : List Int)
    (rest : Text) :
    fscanf (.lit c :: fmt) s = ⟨values, .complete, rest⟩ ↔
      ∃ s', lexSym c s = some s' ∧ fscanf fmt s' = ⟨values, .complete, rest⟩ := by
  cases s with
  | nil =>
    constructor
    · intro h
      cases (Scan.mk.inj h).2.1
    · rintro ⟨s', h, _⟩
      cases h
  | cons d s =>
    rw [fscanf, lexSym]
    by_cases hd : d = c
    · rw [if_pos hd, if_pos hd]
      exact ⟨fun h => ⟨s, rfl, h⟩, fun ⟨s', hs, h⟩ => Option.some.inj hs ▸ h⟩
    · rw [if_neg hd, if_neg hd]
      constructor
      · intro h
        cases (Scan.mk.inj h).2.1
      · rintro ⟨s', h, _⟩
        cases h

theorem Token.fscanf_iff (t : Token) (s rest : Text) :
    fscanf t.directives s = ⟨t.values, .complete, rest⟩ ↔ t.lex s = some rest := by
  cases t with
  | sym c =>
    show fscanf [.lit c] (skipBlanks s) = _ ↔ lexSym c (skipBlanks s) = some rest
    rw [fscanf_lit_iff]
    constructor
    · rintro ⟨s', hs, h⟩
      rw [hs, (Scan.mk.inj h).2.2]
    · intro h
      exact ⟨rest, h, rfl⟩
  | number conv z => exact fscanf_num_iff conv (skipBlanks s) z rest
  | hex z =>
    show fscanf [.lit '0', .lit 'x', .num .x] (skipBlanks s) = _ ↔
      ((lexSym '0' (skipBlanks s)).bind fun s => (lexSym 'x' s).bind (lexNumber .x z)) = some rest
    simp only [fscanf_lit_iff, Option.bind_eq_some_iff, Token.values, fscanf_num_iff]

/-- **A format gets to its end on exactly the texts that start with its tokens.** -/
theorem fscanf_iff (ts : List Token) (s rest : Text) :
    fscanf (ts.flatMap Token.directives) s = ⟨ts.flatMap Token.values, .complete, rest⟩ ↔
      lex ts s = some rest := by
  induction ts generalizing s with
  | nil =>
    constructor
    · intro h
      rw [lex_nil, (Scan.mk.inj h).2.2]
    · intro h
      rw [← Option.some.inj h]
      rfl
  | cons t ts ih =>
    rw [flatMap_cons, flatMap_cons, fscanf_append, lex_cons, Option.bind_eq_some_iff]
    constructor
    · intro h
      unfold Scan.andThen at h
      split at h
      · rename_i hstop
        obtain ⟨hvalues, hstop', hrest⟩ := Scan.mk.inj h
        have hlen : (fscanf t.directives s).values.length = t.values.length := by
          rw [(fscanf_values_length _ s).2 hstop]
          cases t <;> rfl
        obtain ⟨hfirst, hsecond⟩ := append_inj hvalues hlen
        have hscan : fscanf t.directives s = ⟨t.values, .complete,
            (fscanf t.directives s).rest⟩ := by
          rw [← hfirst, ← hstop]
        refine ⟨_, (t.fscanf_iff s _).mp hscan, (ih _).mp ?_⟩
        rw [← hsecond, ← hstop', ← hrest]
      · rename_i hstop
        exact absurd (congrArg Scan.stop h) hstop
    · rintro ⟨s', ht, hts⟩
      rw [(t.fscanf_iff s s').mpr ht]
      unfold Scan.andThen
      rw [if_pos rfl, (ih s').mpr hts]

theorem skipBlanks_length_le (s : Text) : (skipBlanks s).length ≤ s.length :=
  (dropWhile_suffix isBlank).length_le

variable {conv : Conv} {s rest : Text}

theorem scanNat_length_le {n : Nat} (h : scanNat conv s = some (n, rest)) :
    rest.length ≤ s.length := by
  unfold scanNat at h
  dsimp only at h
  split at h
  · cases h
  · rw [← (Prod.mk.inj (Option.some.inj h)).2, drop_drop, length_drop]
    omega

theorem scanInt_length_le {z : Int} (h : scanInt conv s = some (z, rest)) :
    rest.length ≤ s.length := by
  have hmap : ∀ {t : Text} {f : Nat × Text → Int × Text}, (∀ r, (f r).2 = r.2) →
      (scanNat conv t).map f = some (z, rest) → rest.length ≤ t.length := by
    intro t f hf ht
    obtain ⟨⟨n, rest'⟩, hn, heq⟩ := Option.map_eq_some_iff.mp ht
    have hrest := hf (n, rest')
    rw [heq] at hrest
    rw [show rest = rest' from hrest]
    exact scanNat_length_le hn
  unfold scanInt at h
  split at h
  · exact Nat.le_succ_of_le (hmap (fun _ => rfl) h)
  · exact Nat.le_succ_of_le (hmap (fun _ => rfl) h)
  · exact hmap (fun _ => rfl) h

theorem fscanf_rest_length_le (fmt : List Directive) (s : Text) :
    (fscanf fmt s).rest.length ≤ s.length := by
  induction fmt generalizing s with
  | nil => exact Nat.le_refl _
  | cons dir fmt ih =>
    have hskip := skipBlanks_length_le s
    cases dir with
    | space => exact Nat.le_trans (ih _) hskip
    | lit c =>
      cases s with
      | nil => exact Nat.le_refl _
      | cons d s =>
        rw [fscanf]
        split
        · exact Nat.le_succ_of_le (ih s)
        · exact Nat.le_refl _
    | num conv =>
      rw [fscanf]
      cases hint : scanInt conv (skipBlanks s) with
      | none => exact hskip
      | some r => exact Nat.le_trans (ih r.2) (Nat.le_trans (scanInt_length_le hint) hskip)

/-! ## Formats of symbols and a number -/

def symbols (cs : List Char) : List Token := cs.map Token.sym

/-- Some symbols and a number, each with a blank before it. -/
def numberFormat (cs : List Char) (conv : Conv) : List Directive :=
  (symbols cs).flatMap Token.directives ++ [.space, .num conv]

theorem symbols_values (cs : List Char) : (symbols cs).flatMap Token.values = [] := by
  induction cs with
  | nil => rfl
  | cons c cs ih => exact ih

theorem conversions_symbols (cs : List Char) :
    conversions ((symbols cs).flatMap Token.directives) = 0 := by
  induction cs with
  | nil => rfl
  | cons c cs ih => exact ih

theorem fscanf_number_iff (cs : List Char) (conv : Conv) (s : Text) (z : Int) (rest : Text) :
    fscanf (numberFormat cs conv) s = ⟨[z], .complete, rest⟩ ↔
      lex (symbols cs ++ [.number conv z]) s = some rest := by
  rw [← fscanf_iff, flatMap_append, flatMap_append, symbols_values]
  rfl

theorem fscanf_number_complete {cs : List Char} (h : (fscanf (numberFormat cs conv) s).ret = 1) :
    ∃ z, fscanf (numberFormat cs conv) s =
      ⟨[z], .complete, (fscanf (numberFormat cs conv) s).rest⟩ := by
  have hfmt : numberFormat cs conv =
      ((symbols cs).flatMap Token.directives ++ [.space]) ++ [.num conv] := by
    rw [append_assoc]
    rfl
  have hcount : conversions ((symbols cs).flatMap Token.directives ++ [.space]) = 0 := by
    rw [conversions_append, conversions_symbols]
    rfl
  have hstop : (fscanf (numberFormat cs conv) s).stop = .complete := by
    rw [hfmt] at h ⊢
    exact fscanf_complete (by rw [h, hcount]; rfl)
  have hlen := (fscanf_values_length _ s).2 hstop
  rw [hfmt, conversions_append, hcount, ← hfmt] at hlen
  obtain ⟨z, hz⟩ := length_eq_one_iff.mp hlen
  exact ⟨z, by rw [← hz, ← hstop]⟩

/-- Symbols alone: nothing is reported if they are not there, except at the end of the text. -/
theorem fscanf_symbols_iff (cs : List Char) (s rest : Text) :
    fscanf ((symbols cs).flatMap Token.directives) s = ⟨[], .complete, rest⟩ ↔
      lex (symbols cs) s = some rest := by
  rw [← fscanf_iff, symbols_values]

theorem fscanf_num_skipBlanks (conv : Conv) (fmt : List Directive) (s : Text) :
    fscanf (.num conv :: fmt) (skipBlanks s) = fscanf (.num conv :: fmt) s := by
  rw [fscanf, fscanf, skipBlanks_skipBlanks]

theorem lexSym_iff {c : Char} {s' : Text} : lexSym c s = some s' ↔ s = c :: s' := by
  cases s with
  | nil => exact ⟨nofun, nofun⟩
  | cons d s =>
    rw [lexSym, List.cons.injEq]
    split
    · rename_i hd
      exact ⟨fun h => ⟨hd, Option.some.inj h⟩, fun h => congrArg some h.2⟩
    · rename_i hd
      exact ⟨nofun, fun h => absurd h.1 hd⟩

theorem stored_small {n : Nat} (h : n < 2 ^ 31) : Conv.stored .i n = n := by
  unfold Conv.stored
  dsimp only
  omega

theorem fscanf_space {fmt : List Directive} {values : List Int} :
    fscanf (fmt ++ [.space]) s = ⟨values, .complete, rest⟩ ↔
      ∃ rest', fscanf fmt s = ⟨values, .complete, rest'⟩ ∧ rest = skipBlanks rest' := by
  rw [fscanf_append]
  unfold Scan.andThen
  constructor
  · intro h
    split at h
    · rename_i hstop
      obtain ⟨hvalues, _, hrest⟩ := Scan.mk.inj h
      rw [fscanf, fscanf, append_nil] at hvalues
      exact ⟨_, by rw [← hvalues, ← hstop], hrest.symm⟩
    · rename_i hstop
      exact absurd (congrArg Scan.stop h) hstop
  · rintro ⟨rest', h, rfl⟩
    rw [h]
    dsimp only
    rw [if_pos rfl, fscanf, fscanf, append_nil]

end Pterodon.Lib
