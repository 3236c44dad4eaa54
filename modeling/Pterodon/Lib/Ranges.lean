import Mathlib.Data.List.Nodup
import Mathlib.Data.Set.Card
import Pterodon.Lib.CString

/-!
# Lists of half-open ranges

A list of pairs read as half-open ranges of numbers, in the order in which they are listed.
`spread` lists the numbers one by one. Where the ranges are in ascending order and share no
number (`Ascending`), the list has no number twice and its order is that of the numbers. Where
there is even a gap between any two (`Apart`), the ranges are determined by the set of their
numbers (`apart_unique`): there is one way only to write a set of numbers like that.
-/

namespace Pterodon.Lib

open List

/-- The largest `size_t`, of 64 bits. -/
def SIZE_MAX : Nat := 2 ^ 64 - 1

def numbers (r : Nat × Nat) : List Nat := List.range' r.1 (r.2 - r.1)

def spread (ranges : Pairs) : List Nat := ranges.flatMap numbers

theorem ordered_nil : ∀ r ∈ ([] : Pairs), r.1 < r.2 := forall_mem_nil _

def size (ranges : Pairs) : Nat := (ranges.map fun r => r.2 - r.1).sum

def InRanges (ranges : Pairs) (n : Nat) : Prop := ∃ r ∈ ranges, r.1 ≤ n ∧ n < r.2

def Ascending (ranges : Pairs) : Prop := ranges.Pairwise fun a b => a.2 ≤ b.1

def Apart (ranges : Pairs) : Prop := ranges.Pairwise fun a b => a.2 < b.1

theorem Apart.ascending {ranges : Pairs} (h : Apart ranges) : Ascending ranges :=
  h.imp Nat.le_of_lt

section Spread

variable {r : Nat × Nat} {ranges : Pairs} {n : Nat}

theorem mem_numbers : n ∈ numbers r ↔ r.1 ≤ n ∧ n < r.2 := by
  unfold numbers
  rw [mem_range'_1]
  omega

@[simp] theorem numbers_length (r : Nat × Nat) : (numbers r).length = r.2 - r.1 := length_range'

theorem getElem?_numbers {k : Nat} (h : k < r.2 - r.1) : (numbers r)[k]? = some (r.1 + k) := by
  unfold numbers
  rw [getElem?_range' h, Nat.one_mul]

@[simp] theorem spread_nil : spread [] = [] := rfl

@[simp] theorem spread_cons (r : Nat × Nat) (ranges : Pairs) :
    spread (r :: ranges) = numbers r ++ spread ranges := flatMap_cons

@[simp] theorem size_nil : size [] = 0 := rfl

@[simp] theorem size_cons (r : Nat × Nat) (ranges : Pairs) :
    size (r :: ranges) = (r.2 - r.1) + size ranges := rfl

theorem spread_append (xs ys : Pairs) : spread (xs ++ ys) = spread xs ++ spread ys :=
  flatMap_append

theorem mem_spread : n ∈ spread ranges ↔ InRanges ranges n := by
  unfold spread InRanges
  rw [mem_flatMap]
  simp only [mem_numbers]

theorem spread_length : ∀ ranges : Pairs, (spread ranges).length = size ranges
  | [] => rfl
  | r :: ranges => by
    rw [spread_cons, size_cons, length_append, numbers_length, spread_length ranges]

theorem spread_cons_length (r : Nat × Nat) (ranges : Pairs) :
    (spread (r :: ranges)).length = (r.2 - r.1) + (spread ranges).length := by
  rw [spread_cons, length_append, numbers_length]

theorem size_reverse (ranges : Pairs) : size ranges.reverse = size ranges := by
  unfold size
  rw [map_reverse, sum_reverse]

theorem size_append (xs ys : Pairs) : size (xs ++ ys) = size xs + size ys := by
  unfold size
  rw [map_append, sum_append]

theorem inRanges_cons : InRanges (r :: ranges) n ↔ (r.1 ≤ n ∧ n < r.2) ∨ InRanges ranges n := by
  unfold InRanges
  simp only [mem_cons, exists_eq_or_imp]

theorem Ascending.sorted (h : Ascending ranges) : (spread ranges).Pairwise (· < ·) := by
  induction ranges with
  | nil => exact List.Pairwise.nil
  | cons r ranges ih =>
    obtain ⟨hfirst, hrest⟩ := pairwise_cons.mp h
    rw [spread_cons, pairwise_append]
    refine ⟨pairwise_lt_range', ih hrest, ?_⟩
    intro a ha b hb
    obtain ⟨_, har⟩ := mem_numbers.mp ha
    obtain ⟨q, hq, hqb, _⟩ := mem_spread.mp hb
    have := hfirst q hq
    omega

theorem Ascending.nodup (h : Ascending ranges) : (spread ranges).Nodup :=
  h.sorted.imp Nat.ne_of_lt

theorem Ascending.ncard (h : Ascending ranges) : {n | InRanges ranges n}.ncard = size ranges := by
  have hset : {n | InRanges ranges n} = ((spread ranges).toFinset : Set Nat) := by
    ext n
    rw [Set.mem_ofPred_eq, coe_toFinset, Set.mem_ofPred_eq, mem_spread]
  rw [hset, Set.ncard_coe_finset, toFinset_card_of_nodup h.nodup, spread_length]

theorem Ascending.size_le {lo hi : Nat} (h : Ascending ranges) (hordered : ∀ r ∈ ranges, r.1 < r.2)
    (hlo : ∀ r ∈ ranges, lo ≤ r.1) (hhi : ∀ r ∈ ranges, r.2 ≤ hi) : size ranges ≤ hi - lo := by
  induction ranges generalizing lo with
  | nil => exact Nat.zero_le _
  | cons r ranges ih =>
    obtain ⟨hfirst, hrest⟩ := pairwise_cons.mp h
    have htail := ih hrest (forall_mem_cons.mp hordered).2 hfirst
      (forall_mem_cons.mp hhi).2
    have h₁ := hordered r mem_cons_self
    have h₂ := hlo r mem_cons_self
    have h₃ := hhi r mem_cons_self
    rw [size_cons]
    omega

/-- Two lists share a number if a range of one reaches into a range of the other. -/
theorem any_overlap_iff {ps qs : Pairs} (hps : ∀ p ∈ ps, p.1 < p.2) (hqs : ∀ q ∈ qs, q.1 < q.2) :
    ps.any (fun p => qs.any (fun q => !(decide (q.1 ≥ p.2) || decide (p.1 ≥ q.2)))) = true ↔
      ∃ b, InRanges ps b ∧ InRanges qs b := by
  constructor
  · intro h
    obtain ⟨p, hp, h⟩ := any_eq_true.mp h
    obtain ⟨q, hq, h⟩ := any_eq_true.mp h
    have hpq : q.1 < p.2 ∧ p.1 < q.2 := by
      simpa using h
    have hp' := hps p hp
    have hq' := hqs q hq
    exact ⟨max p.1 q.1, ⟨p, hp, by omega, by omega⟩, ⟨q, hq, by omega, by omega⟩⟩
  · rintro ⟨b, ⟨p, hp, h₁, h₂⟩, ⟨q, hq, h₃, h₄⟩⟩
    refine any_eq_true.mpr ⟨p, hp, any_eq_true.mpr ⟨q, hq, ?_⟩⟩
    have h₅ : ¬ q.1 ≥ p.2 := by omega
    have h₆ : ¬ p.1 ≥ q.2 := by omega
    simp [h₅, h₆]

end Spread

/-! ## One way to write a set -/

/-- The first range of two lists with the same members is the same: it starts at the least member
and ends at the first number behind it that is none. -/
theorem apart_head {a b : Nat × Nat} {as bs : Pairs} (hb : Apart (b :: bs))
    (hoa : ∀ r ∈ a :: as, r.1 < r.2) (hob : ∀ r ∈ b :: bs, r.1 < r.2)
    (h : ∀ n, InRanges (a :: as) n → InRanges (b :: bs) n) :
    b.1 ≤ a.1 ∧ (b.1 = a.1 → a.2 ≤ b.2) := by
  obtain ⟨hb', _⟩ := pairwise_cons.mp hb
  have ha₁ := hoa a mem_cons_self
  have hb₁ := hob b mem_cons_self
  constructor
  · rcases inRanges_cons.mp (h a.1 ⟨a, mem_cons_self, Nat.le_refl _, ha₁⟩) with hin | ⟨q, hq, hin⟩
    · exact hin.1
    · have := hb' q hq
      omega
  · by_contra hlt
    -- the end of `b` is a member of `a`, but of no range behind `b`
    rcases inRanges_cons.mp (h b.2 ⟨a, mem_cons_self, by omega, by omega⟩) with hin | ⟨q, hq, hin⟩
    · omega
    · have := hb' q hq
      omega

/-- Ranges with a gap between any two are determined by their members. -/
theorem apart_unique : ∀ {as bs : Pairs}, Apart as → Apart bs → (∀ r ∈ as, r.1 < r.2) →
    (∀ r ∈ bs, r.1 < r.2) → (∀ n, InRanges as n ↔ InRanges bs n) → as = bs
  | [], [], _, _, _, _, _ => rfl
  | [], b :: bs, _, _, _, hob, h => by
    obtain ⟨r, hr, _⟩ := (h b.1).mpr ⟨b, mem_cons_self, Nat.le_refl _, hob b mem_cons_self⟩
    cases hr
  | a :: as, [], _, _, hoa, _, h => by
    obtain ⟨r, hr, _⟩ := (h a.1).mp ⟨a, mem_cons_self, Nat.le_refl _, hoa a mem_cons_self⟩
    cases hr
  | a :: as, b :: bs, ha, hb, hoa, hob, h => by
    obtain ⟨hba, hba'⟩ := apart_head hb hoa hob fun n => (h n).mp
    obtain ⟨hab, hab'⟩ := apart_head ha hob hoa fun n => (h n).mpr
    have hfst : a.1 = b.1 := Nat.le_antisymm hab hba
    have heq : a = b := Prod.ext hfst (Nat.le_antisymm (hba' hfst.symm) (hab' hfst))
    subst heq
    obtain ⟨ha', has⟩ := pairwise_cons.mp ha
    obtain ⟨hb', hbs⟩ := pairwise_cons.mp hb
    -- what is behind the first range is the same too
    have hrest : ∀ n, InRanges as n ↔ InRanges bs n := by
      intro n
      constructor
      · rintro ⟨r, hr, hin⟩
        refine (inRanges_cons.mp ((h n).mp ⟨r, mem_cons_of_mem _ hr, hin⟩)).resolve_left ?_
        have := ha' r hr
        omega
      · rintro ⟨r, hr, hin⟩
        refine (inRanges_cons.mp ((h n).mpr ⟨r, mem_cons_of_mem _ hr, hin⟩)).resolve_left ?_
        have := hb' r hr
        omega
    rw [apart_unique has hbs (forall_mem_cons.mp hoa).2
      (forall_mem_cons.mp hob).2 hrest]

end Pterodon.Lib
