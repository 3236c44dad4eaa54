import Mathlib.Logic.Relation

/-!
# What comes to pass whatever the schedule

`Inevitably Step P s` says that a system at `s` gets to `P` whichever of its steps are taken,
and that it cannot get stuck before. It follows from a measure that every step lowers, and
it fails where the system can go round in a circle.

Some steps may happen at any time and undo progress, such as wake-ups for no reason. A run
has finitely many of them, but how many is not known: `Budgeted` counts them down from a
number that is given at the start.
-/

namespace Pterodon.Lib

variable {S : Type}

/-- `P` comes to hold on every run from `s`. -/
inductive Inevitably (Step : S → S → Prop) (P : S → Prop) : S → Prop
  | now {s : S} : P s → Inevitably Step P s
  | next {s : S} : (∃ t, Step s t) → (∀ t, Step s t → Inevitably Step P t) → Inevitably Step P s

/-- A measure that goes down, along states that satisfy an invariant. -/
theorem Inevitably.of_measure {Step : S → S → Prop} {P I : S → Prop} (μ : S → Nat)
    (henabled : ∀ s, I s → ¬ P s → ∃ t, Step s t)
    (hstep : ∀ s t, I s → ¬ P s → Step s t → I t ∧ μ t < μ s) : ∀ s, I s → Inevitably Step P s := by
  intro s
  induction hμ : μ s using Nat.strongRecOn generalizing s with
  | ind n ih =>
    intro hs
    by_cases hP : P s
    · exact .now hP
    · refine .next (henabled s hs hP) fun t ht => ?_
      obtain ⟨hI, hlt⟩ := hstep s t hs hP ht
      exact ih (μ t) (hμ ▸ hlt) t rfl hI

/-- Where the system can always go on without `P`, `P` is not inevitable. -/
theorem not_inevitably {Step : S → S → Prop} {P C : S → Prop}
    (h : ∀ s, C s → ¬ P s ∧ ∃ t, Step s t ∧ C t) {s : S} (hs : C s) : ¬ Inevitably Step P s := by
  intro hin
  induction hin with
  | now hP => exact (h _ hs).1 hP
  | next _ _ ih =>
    obtain ⟨-, t, ht, hC⟩ := h _ hs
    exact ih t ht hC

theorem Inevitably.mono {Step : S → S → Prop} {P Q : S → Prop} (hPQ : ∀ s, P s → Q s) {s : S}
    (h : Inevitably Step P s) : Inevitably Step Q s := by
  induction h with
  | now hP => exact .now (hPQ _ hP)
  | next he _ ih => exact .next he ih

/-- What is inevitable comes to hold on some run. -/
theorem Inevitably.reaches {Step : S → S → Prop} {P : S → Prop} {s : S} (h : Inevitably Step P s) :
    ∃ t, Relation.ReflTransGen Step s t ∧ P t := by
  induction h with
  | now hP => exact ⟨_, .refl, hP⟩
  | next he _ ih =>
    obtain ⟨t, ht⟩ := he
    obtain ⟨t', hrun, hP⟩ := ih t ht
    exact ⟨t', hrun.head ht, hP⟩

/-- Steps, and a number of disturbances that goes down with each of them. -/
inductive Budgeted (Step Disturb : S → S → Prop) : S × Nat → S × Nat → Prop
  | step {s t : S} (n : Nat) : Step s t → Budgeted Step Disturb (s, n) (t, n)
  | disturb {s t : S} (n : Nat) : Disturb s t → Budgeted Step Disturb (s, n + 1) (t, n)

/-- The steps of a system and its disturbances. -/
def Moves (Step Disturb : S → S → Prop) (s t : S) : Prop := Step s t ∨ Disturb s t

/-- What holds at the start and is kept by every move holds in every state. -/
theorem reaches_invariant {Move : S → S → Prop} {I : S → Prop} {s t : S}
    (h : Relation.ReflTransGen Move s t) (hs : I s) (hkeep : ∀ a b, I a → Move a b → I b) :
      I t := by
  induction h with
  | refl => exact hs
  | tail _ hstep ih => exact hkeep _ _ ih hstep

/-- A measure that goes down with every step, and up by a bounded amount with a disturbance. -/
theorem Inevitably.of_budget {Step Disturb : S → S → Prop} {P I : S → Prop} (μ : S → Nat) (c : Nat)
    (henabled : ∀ s, I s → ¬ P s → ∃ t, Step s t)
    (hstep : ∀ s t, I s → ¬ P s → Step s t → I t ∧ μ t < μ s)
    (hdisturb : ∀ s t, I s → ¬ P s → Disturb s t → I t ∧ μ t < μ s + c) {s : S} (hs : I s)
    (n : Nat) :
    Inevitably (Budgeted Step Disturb) (fun p => P p.1) (s, n) := by
  refine Inevitably.of_measure (I := fun p => I p.1) (fun p => μ p.1 + c * p.2) ?_ ?_ (s, n) hs
  · rintro ⟨s, n⟩ hI hP
    obtain ⟨t, ht⟩ := henabled s hI hP
    exact ⟨(t, n), .step n ht⟩
  · rintro ⟨s, n⟩ ⟨t, m⟩ hI hP hmove
    cases hmove with
    | step _ ht =>
      obtain ⟨hI', hlt⟩ := hstep s t hI hP ht
      exact ⟨hI', Nat.add_lt_add_right hlt _⟩
    | disturb _ ht =>
      obtain ⟨hI', hlt⟩ := hdisturb s t hI hP ht
      refine ⟨hI', ?_⟩
      show μ t + c * m < μ s + c * (m + 1)
      rw [Nat.mul_succ]
      omega

end Pterodon.Lib
