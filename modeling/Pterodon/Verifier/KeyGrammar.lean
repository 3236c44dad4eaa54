import Pterodon.Verifier.LoadKeys

/-!
# The grammar of key files

The comment above `load_keys` says what a key file is: keys separated by commas, each a C literal in
braces, with a version in front of it unless it is a key of the first kind. `KeyText` is such a key,
`Written` says that a text is made of some of them; blanks may stand between any two tokens.

The loader accepts more than that. `fscanf` does not report symbols that are missing behind the last
number of a format, so the brace behind a version and those at the end of a key may be left out. A
key that starts with another character than `{` or `v` gets no exponent and no hash length at all.
And the first word of a modulus is stored before the length is looked at. `KeyReading.Proper` is
what it takes that none of this happened: for the texts that are accepted, it is the same as being
written in the grammar.
-/

namespace Pterodon.Verifier

open Lib Lib.Logged

/-! ## The grammar -/

/-- Numbers behind others, with commas. -/
def more (zs : List Int) : List Token := zs.flatMap fun z => [.sym ',', .number .u z]

/-- Numbers separated by commas, behind some symbols. -/
def listing (opening : List Char) : List Int → List Token
  | [] => symbols opening
  | z :: zs => symbols opening ++ [.number .u z] ++ more zs

inductive RsaVersion where
  | v1
  | v2
  | v3
  | v4
  deriving DecidableEq

/-- The hash that is implied by the version. -/
def RsaVersion.hashLen : RsaVersion → Nat
  | .v1 | .v2 => SHA_DIGEST_LENGTH
  | .v3 | .v4 => SHA256_DIGEST_LENGTH

def RsaVersion.exponent : RsaVersion → Nat
  | .v1 | .v3 => 3
  | .v2 | .v4 => 65537

/-- The version as it is written; a key of the first kind has none. -/
def RsaVersion.number : RsaVersion → Option Int
  | .v1 => none
  | .v2 => some 2
  | .v3 => some 3
  | .v4 => some 4

inductive KeyText where
  | rsa (version : RsaVersion) (n0inv : Int) (modulus rr : List Int)
  | ec (x y : List Int)

/-- A key has as many words, or bytes, as it declares. -/
def KeyText.WellFormed : KeyText → Prop
  | .rsa _ _ modulus rr => 0 < modulus.length ∧ modulus.length ≤ 256 ∧ rr.length = modulus.length
  | .ec x y => x.length = orderBytes ∧ y.length = orderBytes

/-- The version, if there is one, and the opening brace. -/
def startTokens : Option Int → List Token
  | none => [.sym '{']
  | some v => [.sym 'v', .number .d v, .sym '{']

/-- The numbers of an RSA key, up to the closing braces. -/
def rsaNumbers (declared n0inv : Int) (modulus rr : List Int) : List Token :=
  [.number .i declared, .sym ',', .hex n0inv] ++
    (listing [',', '{'] modulus ++ listing ['}', ',', '{'] rr)

/-- The numbers of an EC key, with the closing braces. -/
def ecNumbers (declared : Int) (x y : List Int) : List Token :=
  [.number .i declared] ++ ((listing [',', '{'] x ++ symbols ['}']) ++
    ((listing [',', '{'] y ++ symbols ['}']) ++ symbols ['}']))

def KeyText.tokens : KeyText → List Token
  | .rsa version n0inv modulus rr =>
    startTokens version.number ++ (rsaNumbers modulus.length n0inv modulus rr ++ symbols ['}', '}'])
  | .ec x y => startTokens (some 5) ++ ecNumbers orderBytes x y

/-- The keys of a file, separated by commas. -/
def fileTokens : List KeyText → List Token
  | [] => []
  | [key] => key.tokens
  | key :: keys => key.tokens ++ ([.sym ','] ++ fileTokens keys)

/-- The text is made of these keys. -/
def Written (keys : List KeyText) (text : Text) : Prop :=
  ∃ rest, lex (fileTokens keys) text = some rest ∧ skipBlanks rest = []

/-- The certificate a key stands for. -/
def KeyText.certificate : KeyText → Certificate Key
  | .rsa version _ modulus _ =>
    ⟨version.hashLen, .rsa, .rsa (modulus.map (Conv.stored .u)) version.exponent⟩
  | .ec x y =>
    ⟨SHA256_DIGEST_LENGTH, .ec, .ec (Coordinate.value ⟨x, true⟩) (Coordinate.value ⟨y, true⟩)⟩

/-! ## What keeps a key within the grammar -/

def Start.Proper : Start → Prop
  | .brace => True
  | .version v opened => opened = true ∧ 2 ≤ v ∧ v ≤ 5
  | .other _ => False

/-- All braces are there, and the length is the number of the words or bytes. -/
def Body.Proper : Body → Prop
  | .rsa r => r.closed = true ∧ r.declared = r.modulus.length
  | .ec r => r.x.closed = true ∧ r.y.closed = true ∧ r.closed = true ∧ r.declared = orderBytes

def KeyReading.Proper (r : KeyReading) : Prop := r.start.Proper ∧ r.body.Proper

instance (start : Start) : Decidable start.Proper :=
  match start with
  | .brace => .isTrue trivial
  | .version v opened => inferInstanceAs (Decidable (opened = true ∧ 2 ≤ v ∧ v ≤ 5))
  | .other _ => .isFalse id

instance (body : Body) : Decidable body.Proper :=
  match body with
  | .rsa r => inferInstanceAs (Decidable (r.closed = true ∧ r.declared = r.modulus.length))
  | .ec r => inferInstanceAs (Decidable (r.x.closed = true ∧ r.y.closed = true ∧
      r.closed = true ∧ r.declared = orderBytes))

instance (r : KeyReading) : Decidable r.Proper :=
  inferInstanceAs (Decidable (r.start.Proper ∧ r.body.Proper))

/-! ## One format -/

section Formats

variable {s s' : Text} {r : Scan}

theorem yields_scan {fmt : List Directive} {n : Int} :
    Yields (scan fmt n) s r s' ↔ r = fscanf fmt s ∧ r.ret = n ∧ s' = r.rest := by
  unfold Yields scan
  constructor
  · intro h
    split at h
    · rename_i hret
      cases h
      exact ⟨rfl, hret, rfl⟩
    · cases h
  · rintro ⟨rfl, hret, rfl⟩
    rw [if_pos hret]

theorem yields_scan_number {cs : List Char} {conv : Conv} :
    Yields (scan (numberFormat cs conv) 1) s r s' ↔
      ∃ z, r = ⟨[z], .complete, s'⟩ ∧ lex (symbols cs ++ [.number conv z]) s = some s' := by
  rw [yields_scan]
  constructor
  · rintro ⟨rfl, hret, rfl⟩
    obtain ⟨z, hz⟩ := fscanf_number_complete hret
    exact ⟨z, hz, (fscanf_number_iff cs conv s z _).mp hz⟩
  · rintro ⟨z, rfl, hlex⟩
    exact ⟨((fscanf_number_iff cs conv s z s').mpr hlex).symm, rfl, rfl⟩

theorem yields_scanMore {store : Nat → Parser Store Unit}
    (hstore : ∀ i s u s', Yields (store i) s u s' ↔ s' = s) :
    ∀ (count i : Nat) {s : Text} {zs : List Int},
      Yields (scanMore store i count) s zs s' ↔ zs.length = count ∧ lex (more zs) s = some s' := by
  intro count
  induction count with
  | zero =>
    intro i s zs
    rw [scanMore, yields_pure, List.length_eq_zero_iff]
    constructor
    · rintro ⟨rfl, rfl⟩
      exact ⟨rfl, rfl⟩
    · rintro ⟨rfl, h⟩
      exact ⟨rfl, (Option.some.inj h).symm⟩
  | succ count ih =>
    intro i s zs
    simp only [scanMore, yields_bind, yields_pure, hstore]
    constructor
    · rintro ⟨_, s₁, hr, _, _, rfl, zs', _, hzs, rfl, rfl⟩
      obtain ⟨z, rfl, hlex⟩ := (@yields_scan_number _ _ _ [','] .u).mp hr
      obtain ⟨hlen, hmore⟩ := (ih (i + 1)).mp hzs
      refine ⟨congrArg (· + 1) hlen, ?_⟩
      exact lex_append_iff.mpr ⟨_, hlex, hmore⟩
    · rintro ⟨hlen, h⟩
      obtain ⟨z, zs', rfl⟩ := List.exists_cons_of_length_eq_add_one hlen
      obtain ⟨s₁, hlex, hmore⟩ := lex_append_iff.mp h
      exact ⟨_, s₁, (@yields_scan_number _ _ _ [','] .u).mpr ⟨z, rfl, hlex⟩, (), s₁, rfl, zs', s',
        (ih (i + 1)).mpr ⟨Nat.succ.inj hlen, hmore⟩, rfl, rfl⟩

theorem yields_listing {store : Nat → Parser Store Unit}
    (hstore : ∀ i s u s', Yields (store i) s u s' ↔ s' = s) (cs : List Char) {n : Nat}
    {zs : List Int} :
    (∃ r s₁ ws, Yields (scan (numberFormat cs .u) 1) s r s₁ ∧
      Yields (scanMore store 1 (n - 1)) s₁ ws s' ∧ zs = r.first :: ws) ↔
      zs.length = max 1 n ∧ lex (listing cs zs) s = some s' := by
  constructor
  · rintro ⟨r, s₁, ws, hr, hws, rfl⟩
    obtain ⟨z, rfl, hlex⟩ := yields_scan_number.mp hr
    obtain ⟨hlen, hmore⟩ := (yields_scanMore hstore _ 1).mp hws
    refine ⟨by rw [List.length_cons]; omega, ?_⟩
    exact lex_append_iff.mpr ⟨s₁, hlex, hmore⟩
  · rintro ⟨hlen, h⟩
    obtain ⟨z, ws, rfl⟩ := List.exists_cons_of_length_pos (by omega : 0 < zs.length)
    obtain ⟨s₁, hlex, hmore⟩ := lex_append_iff.mp h
    rw [List.length_cons] at hlen
    exact ⟨⟨[z], .complete, s₁⟩, s₁, ws, yields_scan_number.mpr ⟨z, rfl, hlex⟩,
      (yields_scanMore hstore _ 1).mpr ⟨by omega, hmore⟩, rfl⟩

theorem yields_scan_head :
    Yields (scan [.space, .num .i, .space, .lit ',', .space, .lit '0', .lit 'x',
      .num .x] 2) s r s' ↔
      ∃ z w, r = ⟨[z, w], .complete, s'⟩ ∧
        lex [.number .i z, .sym ',', .hex w] s = some s' := by
  rw [yields_scan]
  constructor
  · rintro ⟨rfl, hret, rfl⟩
    have hstop := @fscanf_complete
      [.space, .num .i, .space, .lit ',', .space, .lit '0', .lit 'x'] .x s hret
    have hlen := (fscanf_values_length _ s).2 hstop
    obtain ⟨z, w, hzw⟩ := List.length_eq_two.mp hlen
    have hscan := Scan.eq_of hzw hstop
    exact ⟨z, w, hscan, (fscanf_iff [.number .i z, .sym ',', .hex w] s _).mp hscan⟩
  · rintro ⟨z, w, rfl, hlex⟩
    exact ⟨((fscanf_iff [.number .i z, .sym ',', .hex w] s s').mpr hlex).symm, rfl, rfl⟩

/-- Symbols alone, with a blank behind them or not: if they are there. -/
theorem yields_scan_symbols (cs : List Char) :
    Yields (scan ((symbols cs).flatMap Token.directives) 0) s r s' ∧ r.stop = .complete ↔
      r = ⟨[], .complete, s'⟩ ∧ lex (symbols cs) s = some s' := by
  rw [yields_scan, ← fscanf_symbols_iff]
  constructor
  · rintro ⟨⟨rfl, _, rfl⟩, hstop⟩
    have hlen := (fscanf_values_length _ s).2 hstop
    rw [conversions_symbols, List.length_eq_zero_iff] at hlen
    have hscan := Scan.eq_of hlen hstop
    exact ⟨hscan, hscan⟩
  · rintro ⟨rfl, h⟩
    exact ⟨⟨h.symm, rfl, rfl⟩, rfl⟩

theorem yields_scan_close (cs : List Char) :
    Yields (scan ((symbols cs).flatMap Token.directives ++ [.space]) 0) s r s' ∧
        r.stop = .complete ↔
      r = ⟨[], .complete, s'⟩ ∧ ∃ s₁, lex (symbols cs) s = some s₁ ∧ s' = skipBlanks s₁ := by
  rw [yields_scan]
  constructor
  · rintro ⟨⟨rfl, _, rfl⟩, hstop⟩
    have hlen := (fscanf_values_length _ s).2 hstop
    rw [conversions_append, conversions_symbols] at hlen
    have hnil := List.length_eq_zero_iff.mp hlen
    have hscan := Scan.eq_of hnil hstop
    obtain ⟨s₁, hs₁, hrest⟩ := fscanf_space.mp hscan
    exact ⟨hscan, s₁, (fscanf_symbols_iff cs s s₁).mp hs₁, hrest⟩
  · rintro ⟨rfl, s₁, hlex, rfl⟩
    exact ⟨⟨(fscanf_space.mpr ⟨s₁, (fscanf_symbols_iff cs s s₁).mpr hlex, rfl⟩).symm, rfl, rfl⟩,
      rfl⟩

end Formats

/-! ## One key -/

section Keys

variable {s s' : Text}

theorem yields_store (n : Nat) (i : Nat) (s : Text) (u : Unit) (s' : Text) :
    Yields (log ⟨i, n⟩ : Parser Store Unit) s u s' ↔ s' = s := yields_log

theorem yields_skip (i : Nat) (s : Text) (u : Unit) (s' : Text) :
    Yields ((fun _ => pure () : Nat → Parser Store Unit) i) s u s' ↔ s' = s :=
  yields_pure.trans ⟨And.right, fun h => ⟨rfl, h⟩⟩

theorem yields_parseRsaKey {r : RsaReading} (hclosed : r.closed = true) :
    Yields parseRsaKey s r s' ↔
      (r.keyLenWords ≤ 256 ∧ r.modulus.length = max 1 r.keyLenWords ∧
        r.rr.length = max 1 r.keyLenWords) ∧
      ∃ s₁, lex (rsaNumbers r.declared r.n0inv r.modulus r.rr ++ symbols ['}', '}']) s = some s₁ ∧
        s' = skipBlanks s₁ := by
  obtain ⟨declared, n0inv, modulus, rr, closed⟩ := r
  obtain rfl : closed = true := hclosed
  simp only [parseRsaKey, yields_bind, yields_ite, not_yields_fail, yields_log, yields_pure,
    yields_scan_head, rsaNumbers, lex_append_iff, RsaReading.mk.injEq]
  constructor
  · rintro ⟨_, s₁, ⟨z, w, rfl, hnumbers⟩, h⟩
    split at h
    · exact h.elim
    rename_i hle
    obtain ⟨word, s₂, hword, _, _, rfl, words, s₄, hwords, r, s₅, hr, rs, s₆, hrs, tail, s₇, htail,
      ⟨rfl, rfl, rfl, rfl, hclosed⟩, rfl⟩ := h
    obtain ⟨hmodulus, hlex⟩ := (yields_listing (yields_store _) [',', '{']).mp
      ⟨word, _, words, hword, hwords, rfl⟩
    obtain ⟨hrr, hlex'⟩ := (yields_listing yields_skip ['}', ',', '{']).mp ⟨r, s₅, rs, hr, hrs, rfl⟩
    obtain ⟨_, s₈, hclose, hs'⟩ := (yields_scan_close ['}', '}']).mp
      ⟨htail, of_decide_eq_true hclosed.symm⟩
    exact ⟨⟨Nat.not_lt.mp hle, hmodulus, hrr⟩, s₈, ⟨s₆, ⟨s₁, hnumbers, s₄, hlex, hlex'⟩, hclose⟩,
      hs'⟩
  · rintro ⟨⟨hle, hmodulus, hrr⟩, s₈, ⟨s₆, ⟨s₁, hhead, s₄, hlex, hlex'⟩, hclose⟩, rfl⟩
    obtain ⟨word, s₂, words, hword, hwords, rfl⟩ :=
      (yields_listing (yields_store _) [',', '{']).mpr ⟨hmodulus, hlex⟩
    obtain ⟨r, s₅, rs, hr, hrs, rfl⟩ :=
      (yields_listing yields_skip ['}', ',', '{']).mpr ⟨hrr, hlex'⟩
    obtain ⟨htail, hstop⟩ := (yields_scan_close ['}', '}']).mpr ⟨rfl, s₈, hclose, rfl⟩
    exact ⟨_, s₁, ⟨_, _, rfl, hhead⟩, (if_neg (Nat.not_lt.mpr hle)).mpr
      ⟨word, s₂, hword, (), s₂, rfl,
      words, s₄, hwords, r, s₅, hr, rs, s₆, hrs, _, _, htail, ⟨rfl, rfl, rfl, rfl, rfl⟩, rfl⟩⟩

theorem yields_parseCoordinate {n : Nat} {c : Coordinate} (hclosed : c.closed = true) :
    Yields (parseCoordinate n) s c s' ↔
      c.bytes.length = max 1 n ∧ lex (listing [',', '{'] c.bytes ++ symbols ['}']) s = some s' := by
  have hstore : ∀ i s u s',
      Yields (log ⟨n - i - 1, n⟩ : Parser Store Unit) s u s' ↔ s' = s :=
    fun i s u s' => yields_log
  obtain ⟨bytes, closed⟩ := c
  obtain rfl : closed = true := hclosed
  simp only [parseCoordinate, yields_bind, yields_log, yields_pure, lex_append_iff,
    Coordinate.mk.injEq]
  constructor
  · rintro ⟨byte, s₁, hbyte, _, _, rfl, bytes, s₃, hbytes, tail, s₄, htail, ⟨rfl, hclosed⟩, rfl⟩
    obtain ⟨hlen, hlex⟩ := (yields_listing hstore [',', '{']).mp
      ⟨byte, _, bytes, hbyte, hbytes, rfl⟩
    obtain ⟨_, hclose⟩ := (yields_scan_symbols ['}']).mp ⟨htail, of_decide_eq_true hclosed.symm⟩
    exact ⟨hlen, s₃, hlex, hclose⟩
  · rintro ⟨hlen, s₃, hlex, hclose⟩
    obtain ⟨byte, s₁, bytes, hbyte, hbytes, rfl⟩ :=
      (yields_listing hstore [',', '{']).mpr ⟨hlen, hlex⟩
    obtain ⟨htail, _⟩ := (yields_scan_symbols ['}']).mpr ⟨rfl, hclose⟩
    exact ⟨byte, s₁, hbyte, (), s₁, rfl, bytes, s₃, hbytes, _, s', htail, ⟨rfl, rfl⟩, rfl⟩

theorem yields_parseEcKey {onCurve : Nat → Nat → Bool} {r : EcReading} (hx : r.x.closed = true)
    (hy : r.y.closed = true) (hclosed : r.closed = true) :
    Yields (parseEcKey onCurve) s r s' ↔
      (Conv.stored .i r.declared = orderBytes ∧ r.x.bytes.length = orderBytes ∧
        r.y.bytes.length = orderBytes ∧ onCurve r.x.value r.y.value = true) ∧
      ∃ s₁, lex (ecNumbers r.declared r.x.bytes r.y.bytes) s = some s₁ ∧ s' = skipBlanks s₁ := by
  obtain ⟨declared, x, y, closed⟩ := r
  obtain rfl : closed = true := hclosed
  simp only [parseEcKey, yields_bind, yields_ite, not_yields_fail, yields_pure, ecNumbers,
    lex_append_iff, EcReading.mk.injEq]
  constructor
  · rintro ⟨_, s₁, hhead, h⟩
    obtain ⟨z, rfl, hnumber⟩ := (@yields_scan_number _ _ _ [] .i).mp hhead
    split at h
    · exact h.elim
    rename_i hdeclared
    obtain ⟨x, s₂, hparse, y, s₃, hparse', tail, s₄, htail, h⟩ := h
    split at h
    case isFalse => exact h.elim
    rename_i hcurve
    obtain ⟨⟨rfl, rfl, rfl, hclosed⟩, rfl⟩ := h
    obtain ⟨hlen, hlex⟩ := (yields_parseCoordinate hx).mp hparse
    obtain ⟨hlen', hlex'⟩ := (yields_parseCoordinate hy).mp hparse'
    obtain ⟨_, s₅, hclose, hs'⟩ := (yields_scan_close ['}']).mp
      ⟨htail, of_decide_eq_true hclosed.symm⟩
    rw [lex_append_iff] at hlex hlex'
    exact ⟨⟨not_not.mp hdeclared, hlen, hlen', hcurve⟩, s₅,
      ⟨s₁, hnumber, s₂, hlex, s₃, hlex', hclose⟩, hs'⟩
  · rintro ⟨⟨hdeclared, hlen, hlen', hcurve⟩, s₅, ⟨s₁, hnumber, s₂, hlex, s₃, hlex', hclose⟩, rfl⟩
    rw [← lex_append_iff] at hlex hlex'
    obtain ⟨htail, _⟩ := (yields_scan_close ['}']).mpr ⟨rfl, s₅, hclose, rfl⟩
    have hhead := (@yields_scan_number _ _ _ [] .i).mpr ⟨declared, rfl, hnumber⟩
    refine ⟨_, s₁, hhead, (if_neg (not_not_intro hdeclared)).mpr ⟨x, s₂,
      (yields_parseCoordinate hx).mpr ⟨hlen, hlex⟩, y, s₃,
      (yields_parseCoordinate hy).mpr ⟨hlen', hlex'⟩, _, _, htail, ?_⟩⟩
    rw [if_pos hcurve]
    exact ⟨⟨rfl, rfl, rfl, rfl⟩, rfl⟩

def startOf : Option Int → Start
  | none => .brace
  | some v => .version v true

theorem yields_scanChar {c : Char} : Yields scanChar s c s' ↔ lex [.sym c] s = some s' := by
  show _ ↔ (lexSym c (skipBlanks s)).bind (lex []) = some s'
  unfold Yields scanChar
  cases skipBlanks s with
  | nil => constructor <;> intro h <;> cases h
  | cons d t =>
    rw [lexSym]
    by_cases hd : d = c
    · subst hd
      rw [if_pos rfl]
      exact ⟨fun h => congrArg some (Prod.mk.inj (Option.some.inj h)).2,
        fun h => congrArg (fun t => some (d, t)) (Option.some.inj h)⟩
    · rw [if_neg hd]
      exact ⟨fun h => absurd (Prod.mk.inj (Option.some.inj h)).1 hd, fun h => by cases h⟩

theorem yields_scan_version {r : Scan} :
    Yields (scan [.num .d, .space, .lit '{'] 1) s r s' ∧ r.stop = .complete ↔
      ∃ v, r = ⟨[v], .complete, s'⟩ ∧ lex [.number .d v, .sym '{'] s = some s' := by
  have hfmt : ∀ v s', fscanf [.num .d, .space, .lit '{'] s = ⟨[v], .complete, s'⟩ ↔
      lex [.number .d v, .sym '{'] s = some s' := by
    intro v s'
    rw [← fscanf_iff]
    show _ ↔ fscanf [.num .d, .space, .lit '{'] (skipBlanks s) = _
    rw [fscanf_num_skipBlanks]
    exact Iff.rfl
  rw [yields_scan]
  constructor
  · rintro ⟨⟨rfl, _, rfl⟩, hstop⟩
    obtain ⟨v, hv⟩ := List.length_eq_one_iff.mp ((fscanf_values_length _ s).2 hstop)
    have hscan := Scan.eq_of hv hstop
    exact ⟨v, hscan, (hfmt v _).mp hscan⟩
  · rintro ⟨v, rfl, hlex⟩
    exact ⟨⟨((hfmt v s').mpr hlex).symm, rfl, rfl⟩, rfl⟩

theorem yields_loadStart {version : Option Int} :
    Yields loadStart s (startOf version) s' ↔ lex (startTokens version) s = some s' := by
  unfold loadStart
  rw [yields_bind]
  cases version with
  | none =>
    constructor
    · rintro ⟨c, s₁, hc, h⟩
      split at h
      · rename_i hbrace
        rw [hbrace, (yields_pure.mp h).2.symm] at hc
        exact yields_scanChar.mp hc
      split at h
      · obtain ⟨r, s₂, _, h⟩ := yields_bind.mp h
        cases (yields_pure.mp h).1
      · cases (yields_pure.mp h).1
    · intro h
      exact ⟨'{', s', yields_scanChar.mpr h, yields_ite.mpr (yields_pure.mpr ⟨rfl, rfl⟩)⟩
  | some v =>
    show _ ↔ lex ([.sym 'v'] ++ [.number .d v, .sym '{']) s = some s'
    rw [lex_append_iff]
    constructor
    · rintro ⟨c, s₁, hc, h⟩
      split at h
      · cases (yields_pure.mp h).1
      split at h
      · rename_i hv
        obtain ⟨r, s₂, hr, h⟩ := yields_bind.mp h
        obtain ⟨hstart, rfl⟩ := yields_pure.mp h
        obtain ⟨rfl, hopened⟩ := Start.version.inj hstart
        obtain ⟨v, hvalues, hlex⟩ := yields_scan_version.mp
          ⟨hr, of_decide_eq_true hopened.symm⟩
        rw [hv] at hc
        rw [hvalues]
        exact ⟨s₁, yields_scanChar.mp hc, hlex⟩
      · cases (yields_pure.mp h).1
    · rintro ⟨s₁, hc, hlex⟩
      obtain ⟨hr, _⟩ := yields_scan_version.mpr ⟨v, rfl, hlex⟩
      exact ⟨'v', s₁, yields_scanChar.mpr hc,
        yields_bind.mpr ⟨_, s', hr, yields_pure.mpr ⟨rfl, rfl⟩⟩⟩

theorem Start.Proper.eq_startOf {start : Start} (h : start.Proper) :
    (∃ version : RsaVersion, start = startOf version.number) ∨ start = startOf (some 5) := by
  cases start with
  | brace => exact .inl ⟨.v1, rfl⟩
  | version v opened =>
    obtain ⟨rfl, hlo, hhi⟩ := h
    have hv : v = 2 ∨ v = 3 ∨ v = 4 ∨ v = 5 := by omega
    rcases hv with rfl | rfl | rfl | rfl
    · exact .inl ⟨.v2, rfl⟩
    · exact .inl ⟨.v3, rfl⟩
    · exact .inl ⟨.v4, rfl⟩
    · exact .inr rfl
  | other c => exact h.elim

variable {onCurve : Nat → Nat → Bool} {key : KeyReading}

theorem yields_loadBody_rsa {version : RsaVersion} :
    Yields (loadBody onCurve (startOf version.number)) s key s' ↔
      ∃ r, Yields parseRsaKey s r s' ∧
        key = ⟨startOf version.number, .rsa r, ⟨version.hashLen, .rsa,
          .rsa ((r.modulus.map (Conv.stored .u)).take r.keyLenWords) version.exponent⟩⟩ := by
  have hparams : (startOf version.number).params =
      some ⟨version.hashLen, .rsa, version.exponent⟩ := by cases version <;> rfl
  simp [loadBody, hparams, yields_bind, yields_pure]

theorem yields_loadBody_ec : Yields (loadBody onCurve (startOf (some 5))) s key s' ↔
      ∃ r, Yields (parseEcKey onCurve) s r s' ∧
        key = ⟨startOf (some 5), .ec r, ⟨SHA256_DIGEST_LENGTH, .ec, .ec r.x.value r.y.value⟩⟩ := by
  have hparams : (startOf (some 5)).params = some ⟨SHA256_DIGEST_LENGTH, .ec, 0⟩ := rfl
  simp [loadBody, hparams, yields_bind, yields_pure]

/-- What the loader makes of a key of the grammar. -/
def KeyText.reading : KeyText → KeyReading
  | .rsa version n0inv modulus rr =>
    ⟨startOf version.number, .rsa ⟨modulus.length, n0inv, modulus, rr, true⟩,
      KeyText.certificate (.rsa version n0inv modulus rr)⟩
  | .ec x y =>
    ⟨startOf (some 5), .ec ⟨orderBytes, ⟨x, true⟩, ⟨y, true⟩, true⟩, KeyText.certificate (.ec x y)⟩

theorem KeyText.reading_cert (k : KeyText) : k.reading.cert = k.certificate := by
  cases k <;> rfl

theorem KeyText.reading_proper (k : KeyText) : k.reading.Proper := by
  cases k with
  | rsa version n0inv modulus rr =>
    refine ⟨?_, rfl, rfl⟩
    show (startOf version.number).Proper
    cases version <;> decide
  | ec x y => exact ⟨⟨rfl, by decide, by decide⟩, rfl, rfl, rfl, rfl⟩

theorem loadBody_start {start : Start} (h : Yields (loadBody onCurve start) s key s') :
    key.start = start := by
  unfold loadBody at h
  split at h
  · exact absurd h not_yields_fail
  split at h
  · obtain ⟨r, s₁, _, h⟩ := yields_bind.mp h
    rw [(yields_pure.mp h).1]
  · obtain ⟨r, s₁, _, h⟩ := yields_bind.mp h
    rw [(yields_pure.mp h).1]

theorem keyLenWords_eq {r : RsaReading} (hle : r.keyLenWords ≤ 256)
    (hlen : r.modulus.length = max 1 r.keyLenWords) (hdeclared : r.declared = r.modulus.length) :
    r.keyLenWords = r.modulus.length := by
  unfold RsaReading.keyLenWords at hle hlen ⊢
  rw [hdeclared] at hle hlen ⊢
  exact stored_small (by omega)

theorem loadKey_sound (hkey : Yields (loadKey onCurve) s key s') (hproper : key.Proper) :
    ∃ k : KeyText, k.WellFormed ∧ key = k.reading ∧
      ∃ s₁, lex k.tokens s = some s₁ ∧ s' = skipBlanks s₁ := by
  obtain ⟨start, s₁, hstart, hbody⟩ := yields_bind.mp hkey
  obtain ⟨hp, hb⟩ := hproper
  rw [loadBody_start hbody] at hp
  rcases hp.eq_startOf with ⟨version, rfl⟩ | rfl
  · obtain ⟨r, hr, rfl⟩ := yields_loadBody_rsa.mp hbody
    obtain ⟨hclosed, hdeclared⟩ := hb
    obtain ⟨⟨hle, hlen, hrr⟩, s₂, hlex, hs'⟩ := (yields_parseRsaKey hclosed).mp hr
    have hwords := keyLenWords_eq hle hlen hdeclared
    refine ⟨.rsa version r.n0inv r.modulus r.rr, ⟨by omega, by omega, by omega⟩, ?_, s₂, ?_, hs'⟩
    · have htake : (r.modulus.map (Conv.stored .u)).take r.keyLenWords =
          r.modulus.map (Conv.stored .u) :=
        List.take_of_length_le (by rw [List.length_map]; omega)
      rw [htake, KeyText.reading, KeyText.certificate, ← hdeclared, ← hclosed]
    · rw [hdeclared] at hlex
      exact lex_append_iff.mpr ⟨s₁, yields_loadStart.mp hstart, hlex⟩
  · obtain ⟨r, hr, rfl⟩ := yields_loadBody_ec.mp hbody
    obtain ⟨declared, ⟨x, xClosed⟩, ⟨y, yClosed⟩, closed⟩ := r
    obtain ⟨hx, hy, hclosed, hdeclared⟩ := hb
    subst hx hy hclosed hdeclared
    obtain ⟨⟨_, hlen, hlen', _⟩, s₂, hlex, hs'⟩ := (yields_parseEcKey rfl rfl rfl).mp hr
    exact ⟨.ec x y, ⟨hlen, hlen'⟩, rfl, s₂,
      lex_append_iff.mpr ⟨s₁, yields_loadStart.mp hstart, hlex⟩, hs'⟩

/-- Whether the point is on the curve decides about acceptance and nothing else. -/
theorem parseEcKey_any {r : EcReading} (h : Yields (parseEcKey onCurve) s r s') :
    Yields (parseEcKey fun _ _ => true) s r s' := by
  simp only [parseEcKey, yields_bind, yields_ite, not_yields_fail] at h ⊢
  obtain ⟨head, s₁, hhead, h⟩ := h
  refine ⟨head, s₁, hhead, ?_⟩
  split at h
  · exact h.elim
  rename_i hdeclared
  obtain ⟨x, s₂, hx, y, s₃, hy, tail, s₄, htail, h⟩ := h
  split at h
  · rw [if_neg hdeclared]
    exact ⟨x, s₂, hx, y, s₃, hy, tail, s₄, htail, h⟩
  · exact h.elim

theorem loadKey_complete {k : KeyText} {s₁ : Text} (hkey : Yields (loadKey onCurve) s key s')
    (hwf : k.WellFormed) (hlex : lex k.tokens s = some s₁) :
    key = k.reading ∧ s' = skipBlanks s₁ := by
  obtain ⟨start, s₂, hstart, hbody⟩ := yields_bind.mp hkey
  cases k with
  | rsa version n0inv modulus rr =>
    obtain ⟨hpos, hle, hrr⟩ := hwf
    obtain ⟨s₃, hopen, hnumbers⟩ := lex_append_iff.mp hlex
    obtain ⟨rfl, rfl⟩ := hstart.unique (yields_loadStart.mpr hopen)
    obtain ⟨r, hr, rfl⟩ := yields_loadBody_rsa.mp hbody
    have hwords : RsaReading.keyLenWords ⟨modulus.length, n0inv, modulus, rr, true⟩ =
        modulus.length := stored_small (by omega)
    have hparse := (@yields_parseRsaKey s₂ (skipBlanks s₁)
      ⟨modulus.length, n0inv, modulus, rr, true⟩ rfl).mpr
        ⟨by rw [hwords]; exact ⟨hle, by dsimp only; omega, by dsimp only; omega⟩, s₁, hnumbers, rfl⟩
    obtain ⟨rfl, rfl⟩ := hr.unique hparse
    refine ⟨?_, rfl⟩
    rw [hwords, List.take_of_length_le (by rw [List.length_map])]
    rfl
  | ec x y =>
    obtain ⟨hlen, hlen'⟩ := hwf
    obtain ⟨s₃, hopen, hnumbers⟩ := lex_append_iff.mp hlex
    obtain ⟨rfl, rfl⟩ := hstart.unique (yields_loadStart.mpr hopen)
    obtain ⟨r, hr, rfl⟩ := yields_loadBody_ec.mp hbody
    have hparse := (@yields_parseEcKey s₂ (skipBlanks s₁) (fun _ _ => true)
      ⟨orderBytes, ⟨x, true⟩, ⟨y, true⟩, true⟩ rfl rfl rfl).mpr
        ⟨⟨stored_small (by decide), hlen, hlen', rfl⟩, s₁, hnumbers, rfl⟩
    obtain ⟨rfl, rfl⟩ := (parseEcKey_any hr).unique hparse
    exact ⟨rfl, rfl⟩

end Keys

/-! ## The whole file -/

section Files

variable {onCurve : Nat → Nat → Bool} {s s' : Text}

theorem yields_fgetc {c : Option Char} :
    Yields fgetc s c s' ↔ (c = none ∧ s = [] ∧ s' = []) ∨ ∃ d, c = some d ∧ s = d :: s' := by
  cases s with
  | nil =>
    constructor
    · intro h
      obtain ⟨hc, hs'⟩ := Prod.mk.inj (Option.some.inj h)
      exact .inl ⟨hc.symm, rfl, hs'.symm⟩
    · rintro (⟨rfl, _, rfl⟩ | ⟨d, _, h⟩)
      · rfl
      · cases h
  | cons d s =>
    constructor
    · intro h
      obtain ⟨hc, hs'⟩ := Prod.mk.inj (Option.some.inj h)
      exact .inr ⟨d, hc.symm, by rw [hs']⟩
    · rintro (⟨_, h, _⟩ | ⟨e, rfl, h⟩)
      · cases h
      · obtain ⟨rfl, rfl⟩ := List.cons.inj h
        rfl

/-- One round of the loop: a key, and then either a comma and more keys or the end. -/
theorem yields_loadKeysFrom {fuel : Nat} {keys : List KeyReading} :
    Yields (loadKeysFrom onCurve (fuel + 1)) s keys s' ↔
      ∃ key s₁, Yields (loadKey onCurve) s key s₁ ∧
        ((s₁ = [] ∧ s' = [] ∧ keys = [key]) ∨
          ∃ s₂ rest, s₁ = ',' :: s₂ ∧ Yields (loadKeysFrom onCurve fuel) s₂ rest s' ∧
            keys = key :: rest) := by
  rw [loadKeysFrom, yields_bind]
  constructor
  · rintro ⟨key, s₁, hkey, h⟩
    obtain ⟨c, s₂, hc, hnext⟩ := yields_bind.mp h
    refine ⟨key, s₁, hkey, ?_⟩
    rcases yields_fgetc.mp hc with ⟨rfl, rfl, rfl⟩ | ⟨d, rfl, rfl⟩
    · obtain ⟨rfl, rfl⟩ := yields_pure.mp hnext
      exact .inl ⟨rfl, rfl, rfl⟩
    · by_cases hd : d = ','
      · subst hd
        obtain ⟨rest, s₃, hrest, hlast⟩ := yields_bind.mp hnext
        obtain ⟨rfl, rfl⟩ := yields_pure.mp hlast
        exact .inr ⟨s₂, rest, rfl, hrest, rfl⟩
      · split at hnext
        · rename_i hcomma
          exact absurd (Option.some.inj hcomma) hd
        · rename_i hnone
          cases hnone
        · exact absurd hnext not_yields_fail
  · rintro ⟨key, s₁, hkey, ⟨rfl, rfl, rfl⟩ | ⟨s₂, rest, rfl, hrest, rfl⟩⟩
    · exact ⟨key, [], hkey, yields_bind.mpr
        ⟨none, [], yields_fgetc.mpr (.inl ⟨rfl, rfl, rfl⟩), yields_pure.mpr ⟨rfl, rfl⟩⟩⟩
    · exact ⟨key, _, hkey, yields_bind.mpr ⟨some ',', s₂, yields_fgetc.mpr (.inr ⟨',', rfl, rfl⟩),
        yields_bind.mpr ⟨rest, s', hrest, yields_pure.mpr ⟨rfl, rfl⟩⟩⟩⟩

theorem fileTokens_cons (key : KeyText) {keys : List KeyText} (h : keys ≠ []) :
    fileTokens (key :: keys) = key.tokens ++ ([.sym ','] ++ fileTokens keys) := by
  cases keys with
  | nil => exact absurd rfl h
  | cons k ks => rfl

theorem loadKeysFrom_sound {fuel : Nat} {keys : List KeyReading}
    (h : Yields (loadKeysFrom onCurve fuel) s keys s') (hproper : ∀ r ∈ keys, r.Proper) :
    ∃ ks : List KeyText, ks ≠ [] ∧ (∀ k ∈ ks, k.WellFormed) ∧ keys = ks.map KeyText.reading ∧
      Written ks s := by
  induction fuel generalizing s keys with
  | zero => exact absurd h not_yields_fail
  | succ fuel ih =>
    obtain ⟨key, s₁, hkey, ⟨rfl, rfl, rfl⟩ | ⟨s₂, rest, rfl, hrest, rfl⟩⟩ :=
      yields_loadKeysFrom.mp h
    · obtain ⟨k, hwf, rfl, s₂, hlex, hblank⟩ :=
        loadKey_sound hkey (hproper key List.mem_cons_self)
      exact ⟨[k], List.cons_ne_nil _ _, List.forall_mem_singleton.mpr hwf, rfl, s₂, hlex,
        hblank.symm⟩
    · obtain ⟨k, hwf, rfl, s₃, hlex, hcomma⟩ :=
        loadKey_sound hkey (hproper key List.mem_cons_self)
      obtain ⟨ks, hne, hall, rfl, last, hlexs, hblank⟩ :=
        ih hrest (List.forall_mem_cons.mp hproper).2
      refine ⟨k :: ks, List.cons_ne_nil _ _, List.forall_mem_cons.mpr ⟨hwf, hall⟩, rfl, last, ?_,
        hblank⟩
      rw [fileTokens_cons k hne, lex_append, hlex, Option.bind_some, lex_append, lex_cons,
        Token.lex,
        ← hcomma]
      exact hlexs

theorem loadKeysFrom_complete {fuel : Nat} {keys : List KeyReading} {ks : List KeyText}
    (h : Yields (loadKeysFrom onCurve fuel) s keys s') (hne : ks ≠ [])
    (hall : ∀ k ∈ ks, k.WellFormed) (hwritten : Written ks s) : keys = ks.map KeyText.reading := by
  induction fuel generalizing s keys ks with
  | zero => exact absurd h not_yields_fail
  | succ fuel ih =>
    obtain ⟨k, ks, rfl⟩ := List.exists_cons_of_ne_nil hne
    obtain ⟨last, hlex, hblank⟩ := hwritten
    obtain ⟨key, s₁, hkey, hnext⟩ := yields_loadKeysFrom.mp h
    have hwf := hall k List.mem_cons_self
    by_cases hks : ks = []
    · subst hks
      obtain ⟨rfl, rfl⟩ := loadKey_complete hkey hwf hlex
      rcases hnext with ⟨_, _, rfl⟩ | ⟨s₂, rest, hcomma, _⟩
      · rfl
      · rw [hblank] at hcomma
        cases hcomma
    · rw [fileTokens_cons k hks] at hlex
      obtain ⟨s₃, hk, hlexs⟩ := lex_append_iff.mp hlex
      obtain ⟨s₄, hcomma, hlexs⟩ := lex_append_iff.mp hlexs
      obtain ⟨rfl, rfl⟩ := loadKey_complete hkey hwf hk
      have hskip : skipBlanks s₃ = ',' :: s₄ := by
        obtain ⟨s₅, hsym, hnil⟩ := Option.bind_eq_some_iff.mp hcomma
        rw [lexSym_iff.mp hsym, Option.some.inj hnil]
      rcases hnext with ⟨hend, _⟩ | ⟨s₂, rest, hcomma', hrest, rfl⟩
      · rw [hskip] at hend
        cases hend
      · rw [hskip] at hcomma'
        obtain rfl := (List.cons.inj hcomma').2
        rw [ih hrest hks (List.forall_mem_cons.mp hall).2 ⟨last, hlexs, hblank⟩]
        rfl

end Files

end Pterodon.Verifier
