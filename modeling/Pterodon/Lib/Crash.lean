import Mathlib.Logic.Basic
import Mathlib.Data.List.Basic

/-!
# Programs that may be stopped between two effects

A program here has three kinds of state. What it *does* to the outside world is a list
of effects `ε`; the outside world is a state `σ` on which an effect acts and which
survives when the program is stopped. What it keeps to itself, `υ`, does not survive.
It ends with a value or with an error `φ`.

A run is recorded as the list of its effects, so being stopped is nothing but having
performed a prefix of that list. `wp` is the one judgement about programs: it says what
holds at the end, and that an assertion `I` holds after every single effect. Both may
look at the history `h` of the effects so far as well as at the state, so the order in
which things happened can be spoken about. The rules follow the syntax.

`Reach` iterates runs that are stopped, and `Reach.inv` is the induction over it. `History`
does the same and remembers the effects; what it preserves are the assertions for which
every program is `Stable`.
-/

namespace Pterodon.Lib

open List

/-- What an effect does to the state that survives. -/
class Effect (ε σ : Type) where
  act : ε → σ → σ

/-- One run: its effects, what is left of the volatile state, and how it ended. -/
structure Outcome (ε υ φ α : Type) where
  trace : List ε
  vol : υ
  val : Except φ α

/-- A program, from its volatile state and the surviving state it finds. -/
def Prog (ε σ υ φ α : Type) : Type := υ → σ → Outcome ε υ φ α

variable {ε σ υ φ α β : Type} [Effect ε σ]

/-- The state after a list of effects. -/
def acts : List ε → σ → σ
  | [], d => d
  | e :: t, d => acts t (Effect.act e d)

@[simp] theorem acts_nil (d : σ) : acts ([] : List ε) d = d := rfl

@[simp] theorem acts_cons (e : ε) (t : List ε) (d : σ) :
    acts (e :: t) d = acts t (Effect.act e d) := rfl

theorem acts_append : ∀ (t t' : List ε) (d : σ), acts (t ++ t') d = acts t' (acts t d)
  | [], _, _ => rfl
  | _ :: t, t', _ => acts_append t t' _

namespace Prog

protected def pure (a : α) : Prog ε σ υ φ α := fun v _ => ⟨[], v, .ok a⟩

/-- Run `m`, and go on with `f` unless it ended with an error. -/
protected def bind (m : Prog ε σ υ φ α) (f : α → Prog ε σ υ φ β) : Prog ε σ υ φ β := fun v d =>
  match (m v d).val with
  | .error e => ⟨(m v d).trace, (m v d).vol, .error e⟩
  | .ok a =>
    let o := f a (m v d).vol (acts (m v d).trace d)
    ⟨(m v d).trace ++ o.trace, o.vol, o.val⟩

instance : Monad (Prog ε σ υ φ) where
  pure := Prog.pure
  bind := Prog.bind

protected theorem bind_pure (m : Prog ε σ υ φ α) : Prog.bind m Prog.pure = m := by
  funext v d
  unfold Prog.bind
  cases h : (m v d).val with
  | error e =>
    show Outcome.mk (m v d).trace (m v d).vol (.error e) = m v d
    rw [← h]
  | ok a =>
    show Outcome.mk ((m v d).trace ++ []) (m v d).vol (.ok a) = m v d
    rw [← h, append_nil]

protected theorem bind_assoc {γ : Type} (m : Prog ε σ υ φ α) (f : α → Prog ε σ υ φ β)
    (g : β → Prog ε σ υ φ γ) :
    Prog.bind (Prog.bind m f) g = Prog.bind m (fun a => Prog.bind (f a) g) := by
  funext v d
  unfold Prog.bind
  cases (m v d).val with
  | error e => rfl
  | ok a =>
    dsimp only
    cases (f a (m v d).vol (acts (m v d).trace d)).val with
    | error e => rfl
    | ok b =>
      dsimp only
      rw [acts_append, append_assoc]

instance : LawfulMonad (Prog ε σ υ φ) :=
  LawfulMonad.mk' _ Prog.bind_pure (fun _ _ => rfl) Prog.bind_assoc

def emit (e : ε) : Prog ε σ υ φ Unit := fun v _ => ⟨[e], v, .ok ()⟩

def disk : Prog ε σ υ φ σ := fun v d => ⟨[], v, .ok d⟩

def get : Prog ε σ υ φ υ := fun v _ => ⟨[], v, .ok v⟩

def modify (f : υ → υ) : Prog ε σ υ φ Unit := fun v _ => ⟨[], f v, .ok ()⟩

def fail (e : φ) : Prog ε σ υ φ α := fun v _ => ⟨[], v, .error e⟩

/-- Run `m` and hand its error, if any, to the caller as a value. -/
def attempt (m : Prog ε σ υ φ α) : Prog ε σ υ φ (Except φ α) := fun v d =>
  ⟨(m v d).trace, (m v d).vol, .ok (m v d).val⟩

end Prog

variable {m : Prog ε σ υ φ α} {f : α → Prog ε σ υ φ β} {a : α}

theorem bind_looked {v : υ} {d : σ} (h : m v d = ⟨[], v, .ok a⟩) : (m >>= f) v d = f a v d := by
  show Prog.bind m f v d = f a v d
  unfold Prog.bind
  rw [h]
  rfl

theorem bind_failed {v : υ} {d : σ} {e : φ} (h : m v d = ⟨[], v, .error e⟩) :
    (m >>= f) v d = ⟨[], v, .error e⟩ := by
  show Prog.bind m f v d = _
  unfold Prog.bind
  rw [h]

/-! ## Assertions along a run -/

/-- `I` holds after every effect of the list. -/
def Along (I : List ε → σ → Prop) : List ε → List ε → σ → Prop
  | _, [], _ => True
  | h, e :: t, d => I (h ++ [e]) (Effect.act e d) ∧ Along I (h ++ [e]) t (Effect.act e d)

theorem Along.append {I : List ε → σ → Prop} : ∀ {t t' h : List ε} {d : σ},
    Along I h t d → Along I (h ++ t) t' (acts t d) → Along I h (t ++ t') d
  | [], t', h, d, _, h' => by simpa using h'
  | e :: t, t', h, d, ht, h' => by
    refine ⟨ht.1, Along.append ht.2 ?_⟩
    simpa using h'

/-- An assertion that holds after every effect holds wherever the run is stopped. -/
theorem Along.take {I : List ε → σ → Prop} : ∀ {t h : List ε} {d : σ} (k : Nat),
    Along I h t d → I h d → I (h ++ t.take k) (acts (t.take k) d)
  | _, h, d, 0, _, h0 => by simpa using h0
  | [], h, d, k + 1, _, h0 => by simpa using h0
  | e :: t, h, d, k + 1, ht, _ => by
    have := Along.take k ht.2 ht.1
    simpa using this

/-- What a run achieves: `Q` if it ends with a value, `E` if with an error. -/
def Outcome.Ends (o : Outcome ε υ φ α) (Q : α → List ε → υ → σ → Prop)
    (E : φ → List ε → υ → σ → Prop) (h : List ε) (d : σ) : Prop :=
  match o.val with
  | .ok a => Q a (h ++ o.trace) o.vol (acts o.trace d)
  | .error e => E e (h ++ o.trace) o.vol (acts o.trace d)

/--
From history `h`, volatile state `v` and state `d`, every effect of `m` leads to a state
with `I`, and `m` ends in `Q` or in `E`.
-/
def wp (I : List ε → σ → Prop) (m : Prog ε σ υ φ α) (Q : α → List ε → υ → σ → Prop)
    (E : φ → List ε → υ → σ → Prop) (h : List ε) (v : υ) (d : σ) : Prop :=
  Along I h (m v d).trace d ∧ (m v d).Ends Q E h d

/-- `m` ends in `Q` if it ends with a value. -/
abbrev wlp (m : Prog ε σ υ φ α) (Q : α → List ε → υ → σ → Prop) : List ε → υ → σ → Prop :=
  wp (fun _ _ => True) m Q (fun _ _ _ _ => True)

variable {e : ε} {c : Prop} {m' : Prog ε σ υ φ α}

section Rules

variable {I : List ε → σ → Prop} {Q : α → List ε → υ → σ → Prop}
  {E : φ → List ε → υ → σ → Prop} {h : List ε} {v : υ} {d : σ}

theorem wp_known {v' : υ} (hm : m v d = ⟨[], v', .ok a⟩) (hq : Q a h v' d) : wp I m Q E h v d := by
  unfold wp Outcome.Ends
  rw [hm]
  refine ⟨trivial, ?_⟩
  rw [append_nil]
  exact hq

theorem wp_pure (hq : Q a h v d) : wp I (pure a) Q E h v d := wp_known rfl hq

/-- The rule of composition. -/
theorem wp_bind {R : β → List ε → υ → σ → Prop}
    (hm : wp I m (fun a h v d => wp I (f a) R E h v d) E h v d) : wp I (m >>= f) R E h v d := by
  obtain ⟨halong, hends⟩ := hm
  show Along I h (Prog.bind m f v d).trace d ∧ (Prog.bind m f v d).Ends R E h d
  unfold Outcome.Ends at hends
  unfold Prog.bind
  cases hval : (m v d).val with
  | error e =>
    rw [hval] at hends
    exact ⟨halong, hends⟩
  | ok a =>
    rw [hval] at hends
    obtain ⟨halong', hends'⟩ := hends
    refine ⟨halong.append halong', ?_⟩
    unfold Outcome.Ends at hends' ⊢
    simpa only [acts_append, append_assoc] using hends'

theorem wp_emit {Q : Unit → List ε → υ → σ → Prop} (hi : I (h ++ [e]) (Effect.act e d))
    (hq : Q () (h ++ [e]) v (Effect.act e d)) : wp I (Prog.emit e) Q E h v d :=
  ⟨⟨hi, trivial⟩, hq⟩

theorem wp_disk {Q : σ → List ε → υ → σ → Prop} (hq : Q d h v d) : wp I Prog.disk Q E h v d :=
  wp_known rfl hq

theorem wp_get {Q : υ → List ε → υ → σ → Prop} (hq : Q v h v d) : wp I Prog.get Q E h v d :=
  wp_known rfl hq

theorem wp_modify {f : υ → υ} {Q : Unit → List ε → υ → σ → Prop} (hq : Q () h (f v) d) :
    wp I (Prog.modify f) Q E h v d := wp_known rfl hq

theorem wp_fail {e : φ} (he : E e h v d) : wp I (Prog.fail e) Q E h v d := by
  refine ⟨trivial, ?_⟩
  show E e (h ++ []) v d
  rw [append_nil]
  exact he

theorem wp_attempt {R : Except φ α → List ε → υ → σ → Prop}
    (hm : wp I m (fun a => R (.ok a)) (fun e => R (.error e)) h v d) :
    wp I (Prog.attempt m) R E h v d := by
  obtain ⟨halong, hends⟩ := hm
  refine ⟨halong, ?_⟩
  unfold Outcome.Ends at hends
  show R (m v d).val (h ++ (m v d).trace) (m v d).vol (acts (m v d).trace d)
  cases hval : (m v d).val with
  | ok a | error e => rw [hval] at hends; exact hends

theorem wp_ite {_ : Decidable c} (ht : c → wp I m Q E h v d) (hf : ¬ c → wp I m' Q E h v d) :
    wp I (if c then m else m') Q E h v d := by
  split
  · exact ht ‹_›
  · exact hf ‹_›

/-- The rule of consequence. -/
theorem wp_mono {Q' : α → List ε → υ → σ → Prop} {E' : φ → List ε → υ → σ → Prop}
    (hm : wp I m Q E h v d) (hq : ∀ a h v d, Q a h v d → Q' a h v d)
    (he : ∀ e h v d, E e h v d → E' e h v d) : wp I m Q' E' h v d := by
  obtain ⟨halong, hends⟩ := hm
  refine ⟨halong, ?_⟩
  unfold Outcome.Ends at hends ⊢
  cases hval : (m v d).val with
  | ok a => rw [hval] at hends; exact hq _ _ _ _ hends
  | error e => rw [hval] at hends; exact he _ _ _ _ hends

end Rules

/-! ## What a program does at most

A coarser judgement, for the parts of a program of which only the kind of effects
matters. -/

/-- All effects of `m` are `P`, and it changes the volatile state as `R` says. -/
def Does (P : ε → Prop) (R : υ → υ → Prop) (m : Prog ε σ υ φ α) : Prop :=
  ∀ v d, (∀ e ∈ (m v d).trace, P e) ∧ R v (m v d).vol

/-- `h'` and `d'` come from `h` and `d` by effects that are all `P`. -/
def Extends (P : ε → Prop) (h : List ε) (d : σ) (h' : List ε) (d' : σ) : Prop :=
  ∃ t, (∀ e ∈ t, P e) ∧ h' = h ++ t ∧ d' = acts t d

section Extends

variable {P : ε → Prop} {h h' h'' : List ε} {d d' d'' : σ}

theorem Extends.refl (P : ε → Prop) (h : List ε) (d : σ) : Extends P h d h d :=
  ⟨[], nofun, (append_nil h).symm, rfl⟩

theorem Extends.trans (h₁ : Extends P h d h' d') (h₂ : Extends P h' d' h'' d'') :
    Extends P h d h'' d'' := by
  obtain ⟨t, ht, hh, hd⟩ := h₁
  obtain ⟨t', ht', hh', hd'⟩ := h₂
  refine ⟨t ++ t', ?_, ?_, ?_⟩
  · intro e he
    rcases mem_append.mp he with he | he
    · exact ht e he
    · exact ht' e he
  · rw [hh', hh, append_assoc]
  · rw [hd', hd, acts_append]

theorem Extends.mono {P' : ε → Prop} (h₁ : Extends P h d h' d') (hP : ∀ e, P e → P' e) :
    Extends P' h d h' d' := by
  obtain ⟨t, ht, hh, hd⟩ := h₁
  exact ⟨t, fun e he => hP e (ht e he), hh, hd⟩

theorem Extends.emit (h₁ : Extends P h d h' d') (he : P e) :
    Extends P h d (h' ++ [e]) (Effect.act e d') := by
  refine h₁.trans ⟨[e], ?_, rfl, rfl⟩
  intro e' he'
  rw [mem_singleton.mp he']
  exact he

/-- An assertion that survives every effect of the kind holds after them. -/
theorem Extends.along {I : List ε → σ → Prop} : ∀ {t h : List ε} {d : σ}, (∀ e ∈ t, P e) →
    (∀ h' d', Extends P h d h' d' → I h' d') → Along I h t d
  | [], _, _, _, _ => trivial
  | e :: t, h, d, ht, hi => by
    have he : Extends P h d (h ++ [e]) (Effect.act e d) :=
      (Extends.refl P h d).emit (ht e mem_cons_self)
    refine ⟨hi _ _ he, Extends.along (fun e' he' => ht e' (mem_cons_of_mem _ he')) ?_⟩
    exact fun h' d' h₁ => hi h' d' (he.trans h₁)

/-- A relation that every effect of the kind respects holds across them. -/
theorem Extends.rel {R : σ → σ → Prop} (hrefl : ∀ d, R d d)
    (htrans : ∀ {d d' d''}, R d d' → R d' d'' → R d d'')
    (hact : ∀ e d, P e → R d (Effect.act e d)) (hx : Extends P h d h' d') : R d d' := by
  obtain ⟨t, ht, -, rfl⟩ := hx
  induction t generalizing d with
  | nil => exact hrefl d
  | cons e t ih =>
    have hrest := @ih (Effect.act e d) (fun e' he' => ht e' (mem_cons_of_mem _ he'))
    exact htrans (hact e d (ht e mem_cons_self)) hrest

end Extends

section Does

variable {P : ε → Prop} {R : υ → υ → Prop}

theorem does_pure (hrefl : ∀ v, R v v) (a : α) : Does P R (pure a : Prog ε σ υ φ α) :=
  fun v _ => ⟨nofun, hrefl v⟩

section

omit [Effect ε σ]

theorem does_fail (hrefl : ∀ v, R v v) (e : φ) : Does P R (Prog.fail e : Prog ε σ υ φ α) :=
  fun v _ => ⟨nofun, hrefl v⟩

theorem does_disk (hrefl : ∀ v, R v v) : Does P R (Prog.disk : Prog ε σ υ φ σ) :=
  fun v _ => ⟨nofun, hrefl v⟩

theorem does_get (hrefl : ∀ v, R v v) : Does P R (Prog.get : Prog ε σ υ φ υ) :=
  fun v _ => ⟨nofun, hrefl v⟩

theorem does_modify {f : υ → υ} (hf : ∀ v, R v (f v)) :
    Does P R (Prog.modify f : Prog ε σ υ φ Unit) :=
  fun v _ => ⟨nofun, hf v⟩

theorem does_mono {P' : ε → Prop} {R' : υ → υ → Prop} (hm : Does P R m) (hP : ∀ e, P e → P' e)
    (hR : ∀ v v', R v v' → R' v v') : Does P' R' m :=
  fun v d => ⟨fun e he => hP e ((hm v d).1 e he), hR _ _ (hm v d).2⟩

theorem does_emit (hrefl : ∀ v, R v v) (he : P e) : Does P R (Prog.emit e : Prog ε σ υ φ Unit) := by
  intro v d
  refine ⟨?_, hrefl v⟩
  intro e' he'
  rw [mem_singleton.mp he']
  exact he

theorem does_ite {_ : Decidable c} (hm : Does P R m) (hm' : Does P R m') :
    Does P R (if c then m else m') := by
  split
  · exact hm
  · exact hm'

end

theorem does_bind (htrans : ∀ {u v w}, R u v → R v w → R u w) (hm : Does P R m)
    (hf : ∀ a, Does P R (f a)) : Does P R (m >>= f) := by
  intro v d
  obtain ⟨ht, hr⟩ := hm v d
  show (∀ e ∈ (Prog.bind m f v d).trace, P e) ∧ R v (Prog.bind m f v d).vol
  unfold Prog.bind
  cases (m v d).val with
  | error e => exact ⟨ht, hr⟩
  | ok a =>
    obtain ⟨ht', hr'⟩ := hf a (m v d).vol (acts (m v d).trace d)
    refine ⟨?_, htrans hr hr'⟩
    intro e he
    rcases mem_append.mp he with he | he
    · exact ht e he
    · exact ht' e he

variable {I : List ε → σ → Prop} {Q : α → List ε → υ → σ → Prop} {E : φ → List ε → υ → σ → Prop}
  {h : List ε} {v : υ} {d : σ}

theorem wp_does (hm : Does P R m) (hi : ∀ h' d', Extends P h d h' d' → I h' d')
    (hq : ∀ a h' v' d', Extends P h d h' d' → R v v' → Q a h' v' d')
    (he : ∀ e h' v' d', Extends P h d h' d' → R v v' → E e h' v' d') : wp I m Q E h v d := by
  obtain ⟨ht, hr⟩ := hm v d
  refine ⟨Extends.along ht hi, ?_⟩
  have hext : Extends P h d (h ++ (m v d).trace) (acts (m v d).trace d) := ⟨_, ht, rfl, rfl⟩
  unfold Outcome.Ends
  cases (m v d).val with
  | ok a => exact hq a _ _ _ hext hr
  | error e => exact he e _ _ _ hext hr

theorem wp_silent (hm : Does (fun _ => False) R m) (hq : ∀ a v', R v v' → Q a h v' d)
    (he : ∀ e v', R v v' → E e h v' d) : wp I m Q E h v d := by
  obtain ⟨ht, hr⟩ := hm v d
  have hnil : (m v d).trace = [] := eq_nil_iff_forall_not_mem.mpr ht
  unfold wp Outcome.Ends
  rw [hnil, append_nil]
  refine ⟨trivial, ?_⟩
  cases (m v d).val with
  | ok a => exact hq a _ hr
  | error e => exact he e _ hr

end Does

/-! ## What a program keeps whatever it finds -/

/-- `m` keeps `I`, after every effect and at the end, from any state with `I`. -/
def Stable (I : List ε → σ → Prop) (m : Prog ε σ υ φ α) : Prop :=
  ∀ h v d, I h d → wp I m (fun _ h' _ d' => I h' d') (fun _ h' _ d' => I h' d') h v d

section Stable

variable {I : List ε → σ → Prop}

theorem stable_pure (a : α) : Stable I (pure a : Prog ε σ υ φ α) := fun _ _ _ h => wp_pure h

theorem stable_fail (e : φ) : Stable I (Prog.fail e : Prog ε σ υ φ α) := fun _ _ _ h => wp_fail h

theorem stable_get : Stable I (Prog.get : Prog ε σ υ φ υ) := fun _ _ _ h => wp_get h

theorem stable_disk : Stable I (Prog.disk : Prog ε σ υ φ σ) := fun _ _ _ h => wp_disk h

theorem stable_modify (f : υ → υ) : Stable I (Prog.modify f : Prog ε σ υ φ Unit) :=
  fun _ _ _ h => wp_modify h

theorem stable_emit (he : ∀ h d, I h d → I (h ++ [e]) (Effect.act e d)) :
    Stable I (Prog.emit e : Prog ε σ υ φ Unit) :=
  fun h _ d hi => wp_emit (he h d hi) (he h d hi)

theorem stable_bind (hm : Stable I m) (hf : ∀ a, Stable I (f a)) : Stable I (m >>= f) :=
  fun h v d hi => wp_bind (wp_mono (hm h v d hi) (fun a h' v' d' hi' => hf a h' v' d' hi')
    (fun _ _ _ _ hi' => hi'))

theorem stable_attempt (hm : Stable I m) : Stable I (Prog.attempt m) :=
  fun h v d hi => wp_attempt (hm h v d hi)

/-- What every effect of a kind keeps, programs with effects of that kind keep. -/
theorem stable_does {P : ε → Prop} {R : υ → υ → Prop} (hm : Does P R m)
    (hP : ∀ e h d, P e → I h d → I (h ++ [e]) (Effect.act e d)) : Stable I m := by
  have hext : ∀ {h h' : List ε} {d d' : σ}, I h d → Extends P h d h' d' → I h' d' := by
    rintro h h' d d' hi ⟨t, ht, rfl, rfl⟩
    induction t generalizing h d with
    | nil => rwa [append_nil]
    | cons e t ih =>
      have hrest := ih (hP e h d (ht e mem_cons_self) hi)
        (fun e' he' => ht e' (mem_cons_of_mem _ he'))
      rwa [append_assoc] at hrest
  intro h v d hi
  exact wp_does hm (fun _ _ hx => hext hi hx) (fun _ _ _ _ hx _ => hext hi hx)
    (fun _ _ _ _ hx _ => hext hi hx)

end Stable

/-! ## Runs that are stopped and started again -/

/-- The state left behind by a run that is stopped after `k` effects. -/
def stoppedAt (m : Prog ε σ υ φ α) (v : υ) (d : σ) (k : Nat) : σ := acts ((m v d).trace.take k) d

/-- What a run that is not stopped leaves behind. -/
def finished (m : Prog ε σ υ φ α) (v : υ) (d : σ) : σ := acts (m v d).trace d

/-- The states after any number of runs, each of one of the programs `m i`, that are stopped
where `ok` allows it. -/
inductive Reach {ι : Type} (m : ι → Prog ε σ υ φ α) (v : υ) (ok : σ → Nat → Prop) (d₀ : σ) :
    σ → Prop where
  | start : Reach m v ok d₀ d₀
  | stop {d : σ} (i : ι) (k : Nat) :
      Reach m v ok d₀ d → ok d k → Reach m v ok d₀ (stoppedAt (m i) v d k)

section Runs

variable {I : List ε → σ → Prop} {Q : α → List ε → υ → σ → Prop} {E : φ → List ε → υ → σ → Prop}
  {h : List ε} {v : υ} {d : σ}

theorem wp_run (hm : wp I m Q E h v d) :
    wp I m (fun a h' v' d' => Q a h' v' d' ∧ (m v d).val = .ok a ∧ v' = (m v d).vol ∧
      d' = finished m v d) E h v d := by
  obtain ⟨halong, hends⟩ := hm
  refine ⟨halong, ?_⟩
  unfold Outcome.Ends at hends ⊢
  cases hval : (m v d).val with
  | error e => rw [hval] at hends; exact hends
  | ok a => rw [hval] at hends; exact ⟨hends, rfl, rfl, rfl⟩

theorem wp_ok (hm : wp I m Q E h v d) (hval : (m v d).val = .ok a) :
    Q a (h ++ (m v d).trace) (m v d).vol (finished m v d) := by
  obtain ⟨_, hends⟩ := hm
  unfold Outcome.Ends at hends
  rw [hval] at hends
  exact hends

theorem wp_total (hm : wp I m Q (fun _ _ _ _ => False) h v d) :
    ∃ a, (m v d).val = .ok a ∧ Q a (h ++ (m v d).trace) (m v d).vol (finished m v d) := by
  cases hval : (m v d).val with
  | ok a => exact ⟨a, rfl, wp_ok hm hval⟩
  | error e =>
    obtain ⟨_, hends⟩ := hm
    unfold Outcome.Ends at hends
    rw [hval] at hends
    exact hends.elim

end Runs

/-- What every stopped run preserves holds in every state reached. -/
theorem Reach.inv {ι : Type} {m : ι → Prog ε σ υ φ α} {v : υ} {ok : σ → Nat → Prop}
    {J : σ → Prop} {d₀ d : σ} (hr : Reach m v ok d₀ d) (h₀ : J d₀)
    (hstep : ∀ i d k, J d → ok d k → J (stoppedAt (m i) v d k)) : J d := by
  induction hr with
  | start => exact h₀
  | stop i k _ hok ih => exact hstep i _ k ih hok

/-- The effects of any number of runs, and the state after them: each is a run of one of the
programs `m i`, from some volatile state, and may be stopped anywhere. -/
inductive History {ι : Type} (m : ι → Prog ε σ υ φ α) (d₀ : σ) : List ε → σ → Prop where
  | start : History m d₀ [] d₀
  | stop {h : List ε} {d : σ} (i : ι) (v : υ) (k : Nat) : History m d₀ h d →
      History m d₀ (h ++ (m i v d).trace.take k) (stoppedAt (m i) v d k)

/-- What every program keeps holds throughout. -/
theorem History.inv {ι : Type} {m : ι → Prog ε σ υ φ α} {I : List ε → σ → Prop} {d₀ d : σ}
    {h : List ε} (hr : History m d₀ h d) (h₀ : I [] d₀) (hm : ∀ i, Stable I (m i)) : I h d := by
  induction hr with
  | start => exact h₀
  | stop i v k _ ih => exact (hm i _ v _ ih).1.take k ih

end Pterodon.Lib
