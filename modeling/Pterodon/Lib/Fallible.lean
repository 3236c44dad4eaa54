import Mathlib.Logic.Basic

/-!
# Procedures that stop at their first error

A procedure changes a state and may stop with an error code, in the state it had reached.
`Ends x s a s'` says that it got to its end. A sequence got to its end exactly if its parts
did, one after the other, so a successful run of a long procedure is read from its first
line to its last, one call at a time. `Meets x s Q E` is about the runs that stop as well.
-/

namespace Pterodon.Lib

variable {ε σ α β : Type}

/-- A procedure over a state of type `σ` with error codes of type `ε`. -/
abbrev Fallible (ε σ : Type) : Type → Type := ExceptT ε (StateM σ)

/-- The run from `s` returns `a` and leaves `s'`. -/
def Ends (x : Fallible ε σ α) (s : σ) (a : α) (s' : σ) : Prop := x.run.run s = (.ok a, s')

/-- Stop with an error unless a call succeeded. -/
def check (ok : Bool) (e : ε) : Fallible ε σ Unit := if ok then pure () else throw e

theorem ends_of_isOk {x : Fallible ε σ Unit} {s : σ} (h : (x.run.run s).1.isOk = true) :
    Ends x s () (x.run.run s).2 := by
  rw [Ends]
  rcases hrun : x.run.run s with ⟨_ | _, s'⟩
  · rw [hrun] at h
    cases h
  · rfl

variable {a : α} {s' : σ}

theorem ends_pure {b : α} {s : σ} : Ends (pure a : Fallible ε σ α) s b s' ↔ b = a ∧ s' = s := by
  constructor
  · intro h
    obtain ⟨ha, hs⟩ := Prod.mk.inj h
    exact ⟨(Except.ok.inj ha).symm, hs.symm⟩
  · rintro ⟨rfl, rfl⟩
    rfl

variable {e : ε}

theorem not_ends_throw {s : σ} : ¬ Ends (throw e : Fallible ε σ α) s a s' := by
  intro h
  cases (Prod.mk.inj h).1

section Bind

variable {x : Fallible ε σ α} {f : α → Fallible ε σ β} {s s₁ : σ}

theorem run_bind_ok (h : x.run.run s = (.ok a, s₁)) : (x >>= f).run.run s = (f a).run.run s₁ := by
  simp only [ExceptT.run_bind, StateT.run_bind, h]
  rfl

theorem run_bind_error (h : x.run.run s = (.error e, s₁)) :
    (x >>= f).run.run s = (.error e, s₁) := by
  simp only [ExceptT.run_bind, StateT.run_bind, h]
  rfl

end Bind

variable {b : β}

theorem ends_bind {x : Fallible ε σ α} {f : α → Fallible ε σ β} {s : σ} :
    Ends (x >>= f) s b s' ↔ ∃ a s₁, Ends x s a s₁ ∧ Ends (f a) s₁ b s' := by
  rcases hx : x.run.run s with ⟨e | a, s₁⟩
  · rw [Ends, run_bind_error hx]
    constructor
    · intro h
      cases (Prod.mk.inj h).1
    · rintro ⟨a, s₂, ha, -⟩
      rw [Ends, hx] at ha
      cases (Prod.mk.inj ha).1
  · rw [Ends, run_bind_ok hx]
    constructor
    · exact fun h => ⟨a, s₁, hx, h⟩
    · rintro ⟨a', s₂, ha, h⟩
      rw [Ends, hx] at ha
      obtain ⟨hok, rfl⟩ := Prod.mk.inj ha
      cases hok
      exact h

variable {ok : Bool}

theorem ends_check {u : Unit} {s : σ} : Ends (check ok e) s u s' ↔ ok = true ∧ s' = s := by
  cases ok with
  | false => exact ⟨fun h => absurd h not_ends_throw, fun h => absurd h.1 Bool.false_ne_true⟩
  | true => exact ends_pure.trans ⟨fun h => ⟨rfl, h.2⟩, fun h => ⟨rfl, h.2⟩⟩

/-! Calls that come first in a sequence. -/

theorem ends_check_bind {f : Unit → Fallible ε σ β} {s : σ} :
    Ends (check ok e >>= f) s b s' ↔ ok = true ∧ Ends (f ()) s b s' := by
  rw [ends_bind]
  constructor
  · rintro ⟨_, s₁, hcheck, h⟩
    obtain ⟨hok, rfl⟩ := ends_check.mp hcheck
    exact ⟨hok, h⟩
  · exact fun ⟨hok, h⟩ => ⟨(), s, ends_check.mpr ⟨hok, rfl⟩, h⟩

theorem ends_get_bind {f : σ → Fallible ε σ β} {s : σ} :
    Ends (get >>= f) s b s' ↔ Ends (f s) s b s' := by
  rw [ends_bind]
  constructor
  · rintro ⟨a, s₁, hget, h⟩
    obtain ⟨ha, rfl⟩ := Prod.mk.inj hget
    cases ha
    exact h
  · exact fun h => ⟨s, s, rfl, h⟩

theorem ends_modify_bind {g : σ → σ} {f : Unit → Fallible ε σ β} {s : σ} :
    Ends (modify g >>= f) s b s' ↔ Ends (f ()) (g s) b s' := by
  rw [ends_bind]
  constructor
  · rintro ⟨_, s₁, hmod, h⟩
    obtain rfl := (Prod.mk.inj hmod).2
    exact h
  · exact fun h => ⟨(), g s, rfl, h⟩

/-! ## Runs that may stop -/

/-- The run from `s` gets to its end with `Q`, or stops in a state with `E`. -/
def Meets (x : Fallible ε σ α) (s : σ) (Q : α → σ → Prop) (E : σ → Prop) : Prop :=
  match x.run.run s with
  | (.ok a, s') => Q a s'
  | (.error _, s') => E s'

section

variable {x : Fallible ε σ α} {f : α → Fallible ε σ β} {s : σ} {Q : α → σ → Prop}
  {R : β → σ → Prop} {E P : σ → Prop}

theorem meets_pure (h : Q a s) : Meets (pure a : Fallible ε σ α) s Q E := h

theorem meets_throw (h : E s) : Meets (throw e : Fallible ε σ α) s Q E := h

theorem Meets.ends (h : Meets x s Q E) (hx : Ends x s a s') : Q a s' := by
  rw [Meets, hx] at h
  exact h

theorem Meets.always (h : Meets x s Q E) (hQ : ∀ a s', Q a s' → P s') (hE : ∀ s', E s' → P s') :
    P (x.run.run s).2 := by
  rw [Meets] at h
  rcases hrun : x.run.run s with ⟨e | a, s'⟩
  · rw [hrun] at h
    exact hE s' h
  · rw [hrun] at h
    exact hQ a s' h

theorem Meets.mono {Q' : α → σ → Prop} {E' : σ → Prop} (h : Meets x s Q E)
    (hQ : ∀ a s', Q a s' → Q' a s') (hE : ∀ s', E s' → E' s') : Meets x s Q' E' := by
  rw [Meets] at h ⊢
  rcases hrun : x.run.run s with ⟨e | a, s'⟩
  · rw [hrun] at h
    exact hE s' h
  · rw [hrun] at h
    exact hQ a s' h

theorem Meets.bind (h : Meets x s Q E) (hf : ∀ a s', Q a s' → Meets (f a) s' R E) :
    Meets (x >>= f) s R E := by
  rw [Meets] at h ⊢
  rcases hx : x.run.run s with ⟨e | a, s'⟩
  · rw [hx] at h
    rw [run_bind_error hx]
    exact h
  · rw [hx] at h
    rw [run_bind_ok hx]
    exact hf a s' h

theorem meets_check_bind {f : Unit → Fallible ε σ β} (hok : ok = true → Meets (f ()) s R E)
    (hstop : E s) : Meets (check ok e >>= f) s R E := by
  cases ok with
  | false => exact hstop
  | true => exact hok rfl

theorem meets_get_bind {f : σ → Fallible ε σ β} (h : Meets (f s) s R E) :
    Meets (get >>= f) s R E := h

theorem meets_modify_bind {g : σ → σ} {f : Unit → Fallible ε σ β} (h : Meets (f ()) (g s) R E) :
    Meets (modify g >>= f) s R E := h

end

end Pterodon.Lib
