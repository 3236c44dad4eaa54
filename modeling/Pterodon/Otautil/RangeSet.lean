import Pterodon.Updater.RangeSet

/-!
# The range sets of otautil

The class of the same name that the tools outside the updater use. It keeps the number of its
blocks next to the ranges, and every range comes in through `PushBack`, so a set always has fewer
than `SIZE_MAX` blocks; the type says so. What the updater's class answers with a failed `CHECK`,
this one answers with the empty set.

`Parse` accepts the texts that the updater's `Parse` accepts and reads the same ranges from them
(`parse_agrees`), although the two limit the number of blocks in different ways: a text has at most
`INT_MAX` numbers of at most `INT_MAX` each, and so no text comes near either limit.
-/

namespace Pterodon.Otautil

open Lib List
open Updater.RangeSet (INT_MAX parsePairs sane ofRanges)

@[ext] structure RangeSet where
  ranges : Pairs
  blocks : Nat
  ordered : ∀ r ∈ ranges, r.1 < r.2
  counted : blocks = size ranges
  limited : blocks < SIZE_MAX

instance : DecidableEq RangeSet := fun _ _ => decidable_of_iff' _ RangeSet.ext_iff

namespace RangeSet

/-! ## Construction -/

/-- The default constructor, and `Clear`. -/
def empty : RangeSet := ⟨[], 0, ordered_nil, rfl, by decide⟩

theorem pushed_ordered {ranges : Pairs} {r : Nat × Nat} (h : ∀ x ∈ ranges, x.1 < x.2)
    (hr : r.1 < r.2) : ∀ x ∈ ranges ++ [r], x.1 < x.2 := by
  intro x hx
  rcases mem_append.mp hx with hx | hx
  · exact h x hx
  · rw [mem_singleton.mp hx]
    exact hr

/-- `PushBack`: whether the range could be appended, and the set after it. -/
def pushBack (s : RangeSet) (range : Nat × Nat) : Bool × RangeSet :=
  if h : range.1 ≥ range.2 then (false, s)
  else if hsize : s.blocks ≥ SIZE_MAX - (range.2 - range.1) then (false, s)
  else
    (true,
      { ranges := s.ranges ++ [range]
        blocks := s.blocks + (range.2 - range.1)
        ordered := pushed_ordered s.ordered (by omega)
        counted := by rw [size_append, size_cons, size_nil, s.counted]; rfl
        limited := by omega })

/-- The loop of the constructor. -/
def pushAll (s : RangeSet) : Pairs → RangeSet
  | [] => s
  | range :: more =>
    match s.pushBack range with
    | (true, s') => pushAll s' more
    | (false, _) => empty

/-- The constructor. No range at all is an error too, with the empty set as its result. -/
def ofPairs (pairs : Pairs) : RangeSet := pushAll empty pairs

/-- `operator bool`. -/
def valid (s : RangeSet) : Bool := !s.ranges.isEmpty

theorem ext_ranges {s s' : RangeSet} (h : s.ranges = s'.ranges) : s = s' := by
  obtain ⟨ranges, blocks, _, hcounted, _⟩ := s
  obtain ⟨ranges', blocks', _, hcounted', _⟩ := s'
  subst h hcounted hcounted'
  rfl

theorem pushBack_ok {s : RangeSet} {r : Nat × Nat} (h : r.1 < r.2)
    (hsize : s.blocks + (r.2 - r.1) < SIZE_MAX) :
    (s.pushBack r).1 = true ∧ (s.pushBack r).2.ranges = s.ranges ++ [r] := by
  unfold pushBack
  rw [dif_neg (by omega), dif_neg (by omega)]
  exact ⟨rfl, rfl⟩

theorem pushBack_cases (s : RangeSet) (r : Nat × Nat) :
    (s.pushBack r).1 = false ∧ ¬(r.1 < r.2 ∧ s.blocks + (r.2 - r.1) < SIZE_MAX) ∨
      (s.pushBack r).1 = true ∧ (s.pushBack r).2.ranges = s.ranges ++ [r] := by
  unfold pushBack
  split
  · exact .inl ⟨rfl, by omega⟩
  split
  · exact .inl ⟨rfl, by omega⟩
  · exact .inr ⟨rfl, rfl⟩

theorem pushAll_cases (s : RangeSet) (more : Pairs) :
    (s.pushAll more).ranges = s.ranges ++ more ∨
      s.pushAll more = empty ∧ ¬((∀ r ∈ more, r.1 < r.2) ∧ s.blocks + size more < SIZE_MAX) := by
  induction more generalizing s with
  | nil => exact .inl (append_nil _).symm
  | cons range more ih =>
    rw [pushAll, forall_mem_cons, size_cons]
    rcases hp : s.pushBack range with ⟨taken, s'⟩
    rcases hp ▸ s.pushBack_cases range with ⟨rfl, hbad⟩ | ⟨rfl, hpushed⟩
    · exact .inr ⟨rfl, fun h => hbad ⟨h.1.1, by omega⟩⟩
    · have hblocks : s'.blocks = s.blocks + (range.2 - range.1) := by
        rw [s'.counted, hpushed, size_append, ← s.counted]
        rfl
      refine (ih s').imp (fun hall => ?_) fun hnone => ⟨hnone.1, fun h => hnone.2 ⟨h.1.2, by omega⟩⟩
      rw [hall, hpushed, append_assoc]
      rfl

theorem pushAll_ok {s : RangeSet} {more : Pairs} (hordered : ∀ r ∈ more, r.1 < r.2)
    (hsize : s.blocks + size more < SIZE_MAX) : (s.pushAll more).ranges = s.ranges ++ more :=
  (s.pushAll_cases more).resolve_right fun h => h.2 ⟨hordered, hsize⟩

/-! ## Texts -/

/-- The loop of `Parse` over the pieces behind the first. -/
def parseLoop (parseUint : Nat → Text → Option Nat) (pairs : Pairs) : List Text → Option Pairs
  | [] => some pairs
  | [_] => none
  | p₁ :: p₂ :: pieces =>
    match parseUint Updater.RangeSet.INT_MAX p₁ with
    | none => none
    | some first =>
      match parseUint Updater.RangeSet.INT_MAX p₂ with
      | none => none
      | some second => parseLoop parseUint (pairs ++ [(first, second)]) pieces

def parse (parseUint : Nat → Text → Option Nat) (rangeText : Text) : RangeSet :=
  let pieces := rangeText.splitOn ','
  if pieces.length < 3 then empty
  else
    match parseUint Updater.RangeSet.INT_MAX (pieces.headD []) with
    | none => empty
    | some num =>
      if num = 0 then empty
      else if num % 2 ≠ 0 then empty
      else if num ≠ pieces.length - 1 then empty
      else
        match parseLoop parseUint [] pieces.tail with
        | none => empty
        | some pairs => ofPairs pairs

/-- `ToString`. -/
def toText (s : RangeSet) : Text :=
  if s.ranges = [] then []
  else
    Nat.toDigits 10 (s.ranges.length * 2) ++
      s.ranges.flatMap fun r => ',' :: Nat.toDigits 10 r.1 ++ ',' :: Nat.toDigits 10 r.2

/-! ## The two parsers -/

/-- What is used of `ParseUint` of libbase: it keeps to the limit it is given, and it reads a number
back from its decimal digits. -/
structure ParsesUint (parseUint : Nat → Text → Option Nat) : Prop where
  le_max : ∀ {max text n}, parseUint max text = some n → n ≤ max
  of_digits : ∀ {max n}, n ≤ max → parseUint max (Nat.toDigits 10 n) = some n

section Parsers

variable {parseUint : Nat → Text → Option Nat}

theorem parseLoop_eq : ∀ (pieces : List Text) (pairs : Pairs),
    parseLoop parseUint pairs pieces = (parsePairs parseUint pieces).map (pairs ++ ·)
  | [], pairs => by
    rw [parseLoop, parsePairs, Option.map_some, append_nil]
  | [_], _ => rfl
  | p₁ :: p₂ :: pieces, pairs => by
    rw [parseLoop, parsePairs]
    cases parseUint INT_MAX p₁ with
    | none => rfl
    | some first =>
      cases parseUint INT_MAX p₂ with
      | none => rfl
      | some second =>
        dsimp only
        rw [parseLoop_eq pieces, Option.map_map]
        congr 1
        funext ranges
        simp

/-- What the pairs of a text are: as many as there are pieces for, none beyond `INT_MAX`. -/
theorem parsePairs_bounds (hparse : ParsesUint parseUint) : ∀ {pieces : List Text}
    {pairs : Pairs}, parsePairs parseUint pieces = some pairs →
    pieces.length = 2 * pairs.length ∧
      ∀ r ∈ pairs, r.1 ≤ INT_MAX ∧ r.2 ≤ INT_MAX
  | [], _, h => by
    cases h
    exact ⟨rfl, nofun⟩
  | [_], _, h => by cases h
  | p₁ :: p₂ :: pieces, pairs, h => by
    rw [parsePairs] at h
    split at h
    · rename_i first second hfirst hsecond
      obtain ⟨more, hmore, rfl⟩ := Option.map_eq_some_iff.mp h
      obtain ⟨hlength, hbounds⟩ := parsePairs_bounds hparse hmore
      constructor
      · simp only [length_cons]
        omega
      · intro r hr
        rcases mem_cons.mp hr with rfl | hr
        · exact ⟨hparse.le_max hfirst, hparse.le_max hsecond⟩
        · exact hbounds r hr
    · cases h

theorem size_le_mul {ranges : Pairs} {n : Nat} (h : ∀ r ∈ ranges, r.2 ≤ n) :
    size ranges ≤ ranges.length * n := by
  induction ranges with
  | nil => exact Nat.zero_le _
  | cons r more ih =>
    have hr := h r mem_cons_self
    have hmore := ih (forall_mem_cons.mp h).2
    rw [size_cons, length_cons, Nat.add_mul]
    omega

theorem size_lt_of_parsed {pairs : Pairs} (hlength : 2 * pairs.length ≤ INT_MAX)
    (hbounds : ∀ r ∈ pairs, r.2 ≤ INT_MAX) : size pairs < SIZE_MAX := by
  have hle := size_le_mul hbounds
  have hmul : pairs.length * INT_MAX ≤ INT_MAX * INT_MAX := Nat.mul_le_mul_right _ (by omega)
  have hmax : INT_MAX * INT_MAX < SIZE_MAX := by decide
  omega

theorem sane_of_lt : ∀ {ranges : Pairs} {result : Nat}, (∀ r ∈ ranges, r.1 < r.2) →
    result + size ranges < SIZE_MAX → sane result ranges = true
  | [], _, _, _ => rfl
  | range :: more, result, h, hsize => by
    rw [size_cons] at hsize
    have hrange := h range mem_cons_self
    have hmore : sane (result + (range.2 - range.1)) more = true :=
      sane_of_lt (forall_mem_cons.mp h).2 (by omega)
    simp only [sane, Bool.and_eq_true, decide_eq_true_eq]
    exact ⟨⟨hrange, by omega⟩, hmore⟩

theorem ofPairs_agrees {pairs : Pairs} (hsize : size pairs < SIZE_MAX) :
    (ofPairs pairs).ranges = ((ofRanges pairs).map (·.ranges)).getD [] := by
  by_cases hordered : ∀ r ∈ pairs, r.1 < r.2
  · have hgood : (ofPairs pairs).ranges = pairs := pushAll_ok hordered (by
      show 0 + size pairs < SIZE_MAX
      omega)
    rw [hgood, ofRanges]
    split
    · rfl
    · rename_i hbad
      by_contra hne
      exact hbad ⟨hne, sane_of_lt hordered (by omega)⟩
  · have hempty : ofPairs pairs = empty := by
      refine ((pushAll_cases empty pairs).resolve_left fun hall => hordered fun r hr => ?_).1
      exact (pushAll empty pairs).ordered r (by rw [hall]; exact hr)
    rw [hempty, ofRanges, dif_neg fun h =>
      hordered (Updater.RangeSet.ordered_of_sane h.2)]
    rfl

/-- The set `Parse` returns holds the ranges of the updater's, or none where that one aborts. -/
theorem parse_ranges (hparse : ParsesUint parseUint) (text : Text) : (parse parseUint text).ranges =
      ((Updater.RangeSet.parse parseUint text).map (·.ranges)).getD [] := by
  unfold parse Updater.RangeSet.parse
  cases hsplit : text.splitOn ',' with
  | nil => rfl
  | cons count pieces =>
    simp only [length_cons, headD_cons, tail_cons, Nat.add_sub_cancel]
    cases hcount : parseUint INT_MAX count with
    | none => split <;> rfl
    | some num =>
      dsimp only
      by_cases hnum : num = 0 ∨ num % 2 ≠ 0 ∨ num ≠ pieces.length
      · -- whichever of the checks fails, the set is empty
        split
        · rfl
        rcases hnum with h | h | h <;> simp only [h, if_true, ne_eq, not_false_eq_true] <;>
          repeat' split
        all_goals rfl
      · rw [if_neg hnum]
        obtain ⟨hzero, hodd, hlength⟩ := not_or.mp hnum |>.imp_right not_or.mp
        rw [if_neg (by omega), if_neg hzero, if_neg hodd, if_neg hlength, parseLoop_eq]
        cases hpairs : parsePairs parseUint pieces with
        | none => rfl
        | some pairs =>
          obtain ⟨hpieces, hbounds⟩ := parsePairs_bounds hparse hpairs
          have hmax := hparse.le_max hcount
          show (ofPairs ([] ++ pairs)).ranges = _
          rw [nil_append]
          exact ofPairs_agrees (size_lt_of_parsed (by omega) fun r hr => (hbounds r hr).2)

/-! ## Texts read back -/

theorem comma_not_mem_toDigits (n : Nat) : ',' ∉ Nat.toDigits 10 n := by
  intro h
  exact absurd (Nat.isDigit_of_mem_toDigits (by omega) (by omega) h) (by decide)

theorem split_pairs : ∀ (ranges : Pairs) (ds : Text), ',' ∉ ds →
    (ds ++ ranges.flatMap fun r => ',' :: Nat.toDigits 10 r.1 ++ ',' :: Nat.toDigits 10 r.2).splitOn
      ',' =
      ds :: ranges.flatMap fun r => [Nat.toDigits 10 r.1, Nat.toDigits 10 r.2]
  | [], ds, h => by
    rw [flatMap_nil, append_nil, splitOn_eq_singleton h]
    rfl
  | r :: ranges, ds, h => by
    have hmore := split_pairs ranges (Nat.toDigits 10 r.2) (comma_not_mem_toDigits r.2)
    rw [flatMap_cons, cons_append, cons_append, splitOn_append_cons_self,
      splitOn_eq_singleton h, append_assoc, singleton_append, cons_append, splitOn_append_cons_self,
      splitOn_eq_singleton (comma_not_mem_toDigits r.1), hmore]
    rfl

theorem parsePairs_digits (hparse : ParsesUint parseUint) : ∀ {ranges : Pairs},
    (∀ r ∈ ranges, r.1 ≤ INT_MAX ∧ r.2 ≤ INT_MAX) →
    parsePairs parseUint
      (ranges.flatMap fun r => [Nat.toDigits 10 r.1, Nat.toDigits 10 r.2]) = some ranges
  | [], _ => rfl
  | r :: ranges, h => by
    obtain ⟨hfirst, hsecond⟩ := h r mem_cons_self
    have hmore := parsePairs_digits hparse (forall_mem_cons.mp h).2
    rw [flatMap_cons, cons_append, cons_append, nil_append,
      parsePairs, hparse.of_digits hfirst, hparse.of_digits hsecond]
    rw [hmore]
    rfl

theorem parse_toText (hparse : ParsesUint parseUint) {s : RangeSet} (hne : s.ranges ≠ [])
    (hlength : 2 * s.ranges.length ≤ INT_MAX)
    (hbounds : ∀ r ∈ s.ranges, r.1 ≤ INT_MAX ∧ r.2 ≤ INT_MAX) :
    parse parseUint s.toText = s := by
  have hpos := length_pos_of_ne_nil hne
  have hpieces : (s.ranges.flatMap fun r => [Nat.toDigits 10 r.1, Nat.toDigits 10 r.2]).length =
      s.ranges.length * 2 := by
    simp [length_flatMap]
  unfold parse toText
  rw [if_neg hne, split_pairs _ _ (comma_not_mem_toDigits _)]
  simp only [length_cons, headD_cons, tail_cons]
  rw [if_neg (by omega), hparse.of_digits (by omega)]
  dsimp only
  rw [if_neg (by omega), if_neg (by omega), if_neg (by omega), parseLoop_eq,
    parsePairs_digits hparse hbounds]
  refine ext_ranges ?_
  refine pushAll_ok s.ordered ?_
  show 0 + size s.ranges < SIZE_MAX
  rw [Nat.zero_add, ← s.counted]
  exact s.limited

theorem parsed_bounds (hparse : ParsesUint parseUint) {text : Text} {r : Updater.RangeSet}
    (h : Updater.RangeSet.parse parseUint text = some r) :
    2 * r.ranges.length ≤ INT_MAX ∧
      ∀ p ∈ r.ranges, p.1 ≤ INT_MAX ∧ p.2 ≤ INT_MAX := by
  unfold Updater.RangeSet.parse at h
  split at h
  · cases h
  · split at h
    · cases h
    · rename_i num hcount
      split at h
      · cases h
      · obtain ⟨pairs, hpairs, hranges⟩ := Option.bind_eq_some_iff.mp h
        obtain ⟨hpieces, hbounds⟩ := parsePairs_bounds hparse hpairs
        have hmax := hparse.le_max hcount
        unfold ofRanges at hranges
        split at hranges
        · cases hranges
          exact ⟨by dsimp only; omega, hbounds⟩
        · cases hranges

/--
**The two parsers agree.** The updater's `Parse` completes exactly for the texts of which this one
makes a set that is not empty; both then hold the same ranges and the same number of blocks, and
what this one makes of the text it prints is the same set again.
-/
theorem parse_agrees (hparse : ParsesUint parseUint) (text : Text) :
    ((Updater.RangeSet.parse parseUint text).isSome = true ↔ (parse parseUint text).valid = true) ∧
    (∀ r, Updater.RangeSet.parse parseUint text = some r →
      (parse parseUint text).ranges = r.ranges ∧ (parse parseUint text).blocks = r.blocks) ∧
    ((parse parseUint text).valid = true →
      parse parseUint (parse parseUint text).toText = parse parseUint text) := by
  have hranges := parse_ranges hparse text
  cases hupd : Updater.RangeSet.parse parseUint text with
  | none =>
    rw [hupd] at hranges
    have hinvalid : (parse parseUint text).valid = false := by
      unfold valid
      rw [hranges]
      rfl
    rw [hinvalid]
    exact ⟨Iff.rfl, nofun, nofun⟩
  | some r =>
    rw [hupd] at hranges
    replace hranges : (parse parseUint text).ranges = r.ranges := hranges
    have hne : (parse parseUint text).ranges ≠ [] := by
      rw [hranges]
      exact r.nonempty
    refine ⟨⟨fun _ => ?_, fun _ => rfl⟩, ?_, fun _ => ?_⟩
    · unfold valid
      rw [Bool.not_eq_true', isEmpty_eq_false_iff]
      exact hne
    · intro r' hr'
      cases hr'
      refine ⟨hranges, ?_⟩
      rw [(parse parseUint text).counted, hranges]
      rfl
    · obtain ⟨hlength, hbounds⟩ := parsed_bounds hparse hupd
      rw [← hranges] at hlength hbounds
      exact parse_toText hparse hne hlength hbounds

end Parsers

/-- `ParseUint` on decimal texts. -/
def Sample.parseUint (max : Nat) (text : Text) : Option Nat := (decimal text).filter (· ≤ max)

theorem Sample.parses : ParsesUint Sample.parseUint where
  le_max h := of_decide_eq_true (Option.filter_eq_some_iff.mp h).2
  of_digits h := Option.filter_eq_some_iff.mpr ⟨decimal_toDigits _, decide_eq_true h⟩

/-- Two ranges, the second before the first. -/
theorem backward_ranges_agree :
    (parse Sample.parseUint "4,7,9,1,5".toList).ranges = [(7, 9), (1, 5)] ∧
      parse Sample.parseUint (parse Sample.parseUint "4,7,9,1,5".toList).toText =
        parse Sample.parseUint "4,7,9,1,5".toList :=
  ⟨by decide, (parse_agrees Sample.parses "4,7,9,1,5".toList).2.2 (by decide)⟩

/-! ## Overlaps -/

def overlaps (s other : RangeSet) : Bool :=
  s.ranges.any (fun p => other.ranges.any (fun q => !(decide (q.1 ≥ p.2) || decide (p.1 ≥ q.2))))

/-- In both classes, sets overlap if they have a block in common. So it does not matter which one is
asked, nor how the blocks are divided into ranges. -/
theorem overlaps_shared_block : (∀ a b : Updater.RangeSet,
      (a.overlaps b = true ↔ ∃ n, InRanges a.ranges n ∧ InRanges b.ranges n) ∧
      a.overlaps b = b.overlaps a ∧
      ∀ a' b' : Updater.RangeSet, (∀ n, InRanges a.ranges n ↔ InRanges a'.ranges n) →
        (∀ n, InRanges b.ranges n ↔ InRanges b'.ranges n) → a.overlaps b = a'.overlaps b') ∧
    ∀ a b : RangeSet,
      (a.overlaps b = true ↔ ∃ n, InRanges a.ranges n ∧ InRanges b.ranges n) ∧
      a.overlaps b = b.overlaps a ∧
      ∀ a' b' : RangeSet, (∀ n, InRanges a.ranges n ↔ InRanges a'.ranges n) →
        (∀ n, InRanges b.ranges n ↔ InRanges b'.ranges n) → a.overlaps b = a'.overlaps b' := by
  have hupdater : ∀ a b : Updater.RangeSet,
      a.overlaps b = true ↔ ∃ n, InRanges a.ranges n ∧ InRanges b.ranges n :=
    fun a b => any_overlap_iff a.ordered b.ordered
  have hotautil : ∀ a b : RangeSet,
      a.overlaps b = true ↔ ∃ n, InRanges a.ranges n ∧ InRanges b.ranges n :=
    fun a b => any_overlap_iff a.ordered b.ordered
  refine ⟨fun a b => ⟨hupdater a b, ?_, fun a' b' ha hb => ?_⟩,
    fun a b => ⟨hotautil a b, ?_, fun a' b' ha hb => ?_⟩⟩
  · rw [Bool.eq_iff_iff, hupdater, hupdater]
    simp only [and_comm]
  · rw [Bool.eq_iff_iff, hupdater, hupdater]
    simp only [ha, hb]
  · rw [Bool.eq_iff_iff, hotautil, hotautil]
    simp only [and_comm]
  · rw [Bool.eq_iff_iff, hotautil, hotautil]
    simp only [ha, hb]

end RangeSet

end Pterodon.Otautil
