import Pterodon.Lib.Crash

/-!
# Programs that do not see a difference

`Alike R Ok m` says that the program `m` runs the same from two volatile states that `R` relates:
the effects and the result are the same, and `R` relates what is left of the states. It need not do
so unless the surviving state is `Ok` as long as the first run lasts. The rules follow the syntax;
only a program that looks at its volatile state, or changes it, has something to show.
-/

namespace Pterodon.Lib

open List

variable {ε σ υ φ α β : Type} [Effect ε σ]

/-- The state is good at the beginning, and after every effect. -/
def Throughout (Ok : σ → Prop) (t : List ε) (d : σ) : Prop := ∀ t', t' <+: t → Ok (acts t' d)

theorem Throughout.split {Ok : σ → Prop} {t t' : List ε} {d : σ} (h : Throughout Ok (t ++ t') d) :
    Throughout Ok t d ∧ Throughout Ok t' (acts t d) := by
  refine ⟨fun s hs => h s (hs.trans (prefix_append t t')), fun s hs => ?_⟩
  rw [← acts_append]
  exact h _ ((prefix_append_right_inj t).mpr hs)

/-- The same effects and the same result, and related states. -/
def Outcome.Agrees (R : υ → υ → Prop) (o o' : Outcome ε υ φ α) : Prop :=
  o'.trace = o.trace ∧ o'.val = o.val ∧ R o.vol o'.vol

/-- The program does not see the difference between related states. -/
def Alike (R : υ → υ → Prop) (Ok : σ → Prop) (m : Prog ε σ υ φ α) : Prop :=
  ∀ v w d, R v w → Throughout Ok (m v d).trace d → (m v d).Agrees R (m w d)

namespace Alike

variable {R : υ → υ → Prop} {Ok : σ → Prop}

protected theorem pure (a : α) : Alike R Ok (pure a : Prog ε σ υ φ α) :=
  fun _ _ _ h _ => ⟨rfl, rfl, h⟩

theorem fail (e : φ) : Alike R Ok (Prog.fail e : Prog ε σ υ φ α) := fun _ _ _ h _ => ⟨rfl, rfl, h⟩

theorem emit (e : ε) : Alike R Ok (Prog.emit e : Prog ε σ υ φ Unit) :=
  fun _ _ _ h _ => ⟨rfl, rfl, h⟩

theorem disk : Alike R Ok (Prog.disk : Prog ε σ υ φ σ) := fun _ _ _ h _ => ⟨rfl, rfl, h⟩

theorem modify {g : υ → υ} (hg : ∀ {v w}, R v w → R (g v) (g w)) :
    Alike R Ok (Prog.modify g : Prog ε σ υ φ Unit) := fun _ _ _ h _ => ⟨rfl, rfl, hg h⟩

protected theorem bind {m : Prog ε σ υ φ α} {k : α → Prog ε σ υ φ β} (hm : Alike R Ok m)
    (hk : ∀ a, Alike R Ok (k a)) : Alike R Ok (m >>= k) := by
  intro v w d h hok
  change Throughout Ok (Prog.bind m k v d).trace d at hok
  show (Prog.bind m k v d).Agrees R (Prog.bind m k w d)
  unfold Prog.bind at hok ⊢
  cases hval : (m v d).val with
  | error e =>
    rw [hval] at hok
    obtain ⟨htrace, hval', hvol⟩ := hm v w d h hok
    rw [hval', hval]
    exact ⟨htrace, rfl, hvol⟩
  | ok a =>
    rw [hval] at hok
    obtain ⟨htrace, hval', hvol⟩ := hm v w d h hok.split.1
    obtain ⟨htrace', hrest⟩ := hk a _ _ _ hvol hok.split.2
    rw [hval', hval, htrace]
    exact ⟨congrArg ((m v d).trace ++ ·) htrace', hrest⟩

theorem attempt {m : Prog ε σ υ φ α} (hm : Alike R Ok m) : Alike R Ok (Prog.attempt m) := by
  intro v w d h hok
  obtain ⟨htrace, hval, hvol⟩ := hm v w d h hok
  exact ⟨htrace, congrArg Except.ok hval, hvol⟩

end Alike

end Pterodon.Lib
