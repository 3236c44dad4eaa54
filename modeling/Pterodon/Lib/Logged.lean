import Pterodon.Lib.Text

/-!
# Computations that log

A computation goes from state to state, may fail, and logs events of a type `ω` on the way, those
before a failure too. `Yields` is about runs that do not fail, `Logs` about all of them.

A parser is such a computation with the rest of a text as its state. Another use is a computation
whose state is the list of the answers that it will get from its environment: `Possible` says that
there are answers that lead to a given result.
-/

namespace Pterodon.Lib

open List

/-- What was logged, and the result with the new state. -/
def Logged (σ ω α : Type) : Type := σ → List ω × Option (α × σ)

/-- A computation that takes the rest of a text. -/
abbrev Parser (ω α : Type) : Type := Logged Text ω α

namespace Logged

variable {σ ω α β : Type}

protected def pure (a : α) : Logged σ ω α := fun s => ([], some (a, s))

protected def bind (p : Logged σ ω α) (f : α → Logged σ ω β) : Logged σ ω β := fun s =>
  match (p s).2 with
  | none => ((p s).1, none)
  | some (a, s') => ((p s).1 ++ (f a s').1, (f a s').2)

instance : Monad (Logged σ ω) where
  pure := Logged.pure
  bind := Logged.bind

def fail : Logged σ ω α := fun _ => ([], none)

def log (e : ω) : Logged σ ω Unit := fun s => ([e], some ((), s))

def logAll (es : List ω) : Logged σ ω Unit := fun s => (es, some ((), s))

/-- The run succeeds with `a` and leaves `s'`. -/
def Yields (p : Logged σ ω α) (s : σ) (a : α) (s' : σ) : Prop := (p s).2 = some (a, s')

/-- The run logs `e`, whether it succeeds or not. -/
def Logs (p : Logged σ ω α) (s : σ) (e : ω) : Prop := e ∈ (p s).1

variable {cond : Prop} {q : Logged σ ω α}

section

variable {p : Logged σ ω α} {f : α → Logged σ ω β} {s s' : σ} {a b : α} {c : β} {e e' : ω}

theorem yields_pure : Yields (pure a : Logged σ ω α) s b s' ↔ b = a ∧ s' = s := by
  constructor
  · intro h
    obtain ⟨ha, hs⟩ := Prod.mk.inj (Option.some.inj h)
    exact ⟨ha.symm, hs.symm⟩
  · rintro ⟨rfl, rfl⟩
    rfl

theorem not_yields_fail : ¬ Yields (fail : Logged σ ω α) s a s' := by
  intro h
  cases h

theorem yields_log {u : Unit} : Yields (log e) s u s' ↔ s' = s :=
  ⟨fun h => (Prod.mk.inj (Option.some.inj h)).2.symm, fun h => by rw [h]; rfl⟩

theorem yields_bind : Yields (p >>= f) s c s' ↔ ∃ a s₁, Yields p s a s₁ ∧ Yields (f a) s₁ c s' := by
  show (Logged.bind p f s).2 = _ ↔ _
  unfold Logged.bind
  constructor
  · intro h
    split at h
    · cases h
    · rename_i a s₁ hp
      exact ⟨a, s₁, hp, h⟩
  · rintro ⟨a, s₁, hp, hf⟩
    rw [hp]
    exact hf

theorem Yields.unique {s₁ s₂ : σ} (h₁ : Yields p s a s₁) (h₂ : Yields p s b s₂) : a = b ∧ s₁ = s₂ :=
  Prod.mk.inj (Option.some.inj (h₁.symm.trans h₂))

theorem not_logs_pure : ¬ Logs (pure a : Logged σ ω α) s e := not_mem_nil

theorem not_logs_fail : ¬ Logs (fail : Logged σ ω α) s e := not_mem_nil

theorem logs_log : Logs (log e) s e' ↔ e' = e := mem_singleton

theorem logs_logAll {es : List ω} : Logs (logAll es) s e ↔ e ∈ es := Iff.rfl

theorem logs_bind :
    Logs (p >>= f) s e ↔ Logs p s e ∨ ∃ a s₁, Yields p s a s₁ ∧ Logs (f a) s₁ e := by
  show e ∈ (Logged.bind p f s).1 ↔ _
  unfold Logged.bind Yields Logs
  rcases hp : (p s).2 with _ | ⟨a, s₁⟩
  · constructor
    · exact .inl
    · rintro (h | ⟨a, s₁, h, _⟩)
      · exact h
      · cases h
  · rw [mem_append]
    constructor
    · rintro (h | h)
      · exact .inl h
      · exact .inr ⟨a, s₁, rfl, h⟩
    · rintro (h | ⟨a', s₁', h, hf⟩)
      · exact .inl h
      · cases h
        exact .inr hf

theorem yields_ite [Decidable cond] :
    Yields (if cond then p else q) s a s' ↔ if cond then Yields p s a s' else Yields q s a s' := by
  split <;> rfl

theorem bind_congr {g : α → Logged σ ω β} (h : ∀ a s₁, Yields p s a s₁ → f a s₁ = g a s₁) :
    (p >>= f) s = (p >>= g) s := by
  show Logged.bind p f s = Logged.bind p g s
  unfold Logged.bind
  split
  · rfl
  · rename_i a s₁ hp
    rw [h a s₁ hp]

end

/-! ## Computations that log only some events -/

/-- Whatever is logged satisfies `P`. -/
def LogsOnly (P : ω → Prop) (p : Logged σ ω α) : Prop := ∀ s e, Logs p s e → P e

section

variable {P : ω → Prop}

theorem LogsOnly.pure (a : α) : LogsOnly P (pure a : Logged σ ω α) :=
  fun _ _ h => absurd h not_logs_pure

theorem LogsOnly.fail : LogsOnly P (fail : Logged σ ω α) := fun _ _ h => absurd h not_logs_fail

theorem LogsOnly.log {e : ω} (he : P e) : LogsOnly P (log e : Logged σ ω Unit) := by
  intro s e' h
  rw [logs_log.mp h]
  exact he

theorem LogsOnly.bind {p : Logged σ ω α} {f : α → Logged σ ω β} (hp : LogsOnly P p)
    (hf : ∀ a, LogsOnly P (f a)) : LogsOnly P (p >>= f) := by
  intro s e h
  rcases logs_bind.mp h with h | ⟨a, s₁, _, h⟩
  · exact hp s e h
  · exact hf a s₁ e h

theorem LogsOnly.ite [Decidable cond] {p : Logged σ ω α} (hp : cond → LogsOnly P p)
    (hq : ¬ cond → LogsOnly P q) : LogsOnly P (if cond then p else q) := by
  split
  · exact hp ‹_›
  · exact hq ‹_›

theorem LogsOnly.logAll {es : List ω} (he : ∀ e ∈ es, P e) :
    LogsOnly P (logAll es : Logged σ ω Unit) := fun _ e h => he e h

theorem LogsOnly.left {p : Logged σ ω α} {f : α → Logged σ ω β} (h : LogsOnly P (p >>= f)) :
    LogsOnly P p := fun s e he => h s e (logs_bind.mpr (.inl he))

/-- Whatever is logged satisfies `P`, and all results satisfy `Q`. -/
structure Ensures (P : ω → Prop) (Q : α → Prop) (p : Logged σ ω α) : Prop where
  logs : LogsOnly P p
  returns : ∀ s a s', Yields p s a s' → Q a

variable {Q : α → Prop} {R : β → Prop}

theorem Ensures.pure {a : α} (h : Q a) : Ensures P Q (pure a : Logged σ ω α) :=
  ⟨.pure a, fun _ _ _ hb => (yields_pure.mp hb).1 ▸ h⟩

theorem Ensures.logs_bind {p : Logged σ ω α} {f : α → Logged σ ω β} (hp : Ensures P Q p)
    (hf : ∀ a, Q a → LogsOnly P (f a)) : LogsOnly P (p >>= f) := by
  intro s e h
  rcases Logged.logs_bind.mp h with h | ⟨a, s₁, ha, h⟩
  · exact hp.logs s e h
  · exact hf a (hp.returns s a s₁ ha) s₁ e h

theorem Ensures.bind {p : Logged σ ω α} {f : α → Logged σ ω β} (hp : Ensures P Q p)
    (hf : ∀ a, Q a → Ensures P R (f a)) : Ensures P R (p >>= f) := by
  refine ⟨hp.logs_bind fun a ha => (hf a ha).logs, ?_⟩
  intro s c s' h
  obtain ⟨a, s₁, ha, hc⟩ := yields_bind.mp h
  exact (hf a (hp.returns s a s₁ ha)).returns s₁ c s' hc

theorem Ensures.ite [Decidable cond] {p : Logged σ ω α} (hp : cond → Ensures P Q p)
    (hq : ¬ cond → Ensures P Q q) : Ensures P Q (if cond then p else q) := by
  split
  · exact hp ‹_›
  · exact hq ‹_›

theorem LogsOnly.andThen {p : Logged σ ω α} {f : α → Logged σ ω β} (hp : LogsOnly P p)
    (hf : ∀ a, Ensures P R (f a)) : Ensures P R (p >>= f) :=
  Ensures.bind ⟨hp, fun _ _ _ _ => trivial⟩ fun a _ => hf a

end

/-! ## Computations that ask -/

/-- Take the next answer; 0 when there are no more. -/
def ask : Logged (List Nat) ω Nat := fun answers => ([], some (answers.headD 0, answers.tail))

/-- Some answers lead to the result `a`, whatever answers come after them. -/
def Possible (p : Logged (List Nat) ω α) (a : α) : Prop := ∀ s, ∃ s', Yields p s' a s

section

variable {p : Logged (List Nat) ω α} {f : α → Logged (List Nat) ω β} {a : α} {b : β}

theorem Possible.pure (a : α) : Possible (pure a : Logged (List Nat) ω α) a := fun s => ⟨s, rfl⟩

theorem Possible.ask (k : Nat) : Possible (ask : Logged (List Nat) ω Nat) k :=
  fun s => ⟨k :: s, rfl⟩

theorem Possible.log (e : ω) : Possible (log e) () := fun s => ⟨s, rfl⟩

theorem Possible.logAll (es : List ω) : Possible (logAll es) () := fun s => ⟨s, rfl⟩

theorem Possible.bind (hp : Possible p a) (hf : Possible (f a) b) : Possible (p >>= f) b := by
  intro s
  obtain ⟨s₁, h₁⟩ := hf s
  obtain ⟨s₀, h₀⟩ := hp s₁
  exact ⟨s₀, yields_bind.mpr ⟨a, s₁, h₀, h₁⟩⟩

theorem LogsOnly.right {P : ω → Prop} (h : LogsOnly P (p >>= f)) (hp : Possible p a) :
    LogsOnly P (f a) := by
  intro s e he
  obtain ⟨s', hs'⟩ := hp s
  exact h s' e (logs_bind.mpr (.inr ⟨a, s, hs', he⟩))

theorem LogsOnly.ask {P : ω → Prop} : LogsOnly P (ask : Logged (List Nat) ω Nat) :=
  nofun

end

/-! ## Parsers that take something -/

/-- What is left is no longer than before. -/
def Shrinks (p : Parser ω α) : Prop := ∀ s a s', Yields p s a s' → s'.length ≤ s.length

/-- Whatever is logged satisfies `P`, and what is left is no longer than before. -/
structure Takes (P : ω → Prop) (p : Parser ω α) : Prop where
  logs : LogsOnly P p
  shrinks : Shrinks p

section

variable {P : ω → Prop}

theorem Takes.pure (a : α) : Takes P (pure a : Parser ω α) :=
  ⟨LogsOnly.pure a, fun _ _ _ h => Nat.le_of_eq (congrArg List.length (yields_pure.mp h).2)⟩

theorem Takes.fail : Takes P (fail : Parser ω α) :=
  ⟨LogsOnly.fail, fun _ _ _ h => absurd h not_yields_fail⟩

theorem Takes.log {e : ω} (he : P e) : Takes P (log e) :=
  ⟨LogsOnly.log he, fun _ _ _ h => Nat.le_of_eq (congrArg List.length (yields_log.mp h))⟩

theorem Takes.bind {p : Parser ω α} {f : α → Parser ω β} (hp : Takes P p)
    (hf : ∀ a, Takes P (f a)) : Takes P (p >>= f) := by
  refine ⟨hp.logs.bind fun a => (hf a).logs, fun s c s' h => ?_⟩
  obtain ⟨a, s₁, ha, hc⟩ := yields_bind.mp h
  exact Nat.le_trans ((hf a).shrinks s₁ c s' hc) (hp.shrinks s a s₁ ha)

theorem Takes.ite [Decidable cond] {p q : Parser ω α} (hp : Takes P p) (hq : Takes P q) :
    Takes P (if cond then p else q) := by
  split
  · exact hp
  · exact hq

end

end Logged

end Pterodon.Lib
