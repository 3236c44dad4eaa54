import Pterodon.Lib.CString

/-!
# Computations that read a byte string

A parser over a buffer is safe when it looks at no byte outside it. `Reads α` is a
computation that may look at any byte by its index; it yields its result and the list
of the indices it looked at. Looking past the end is possible and yields `0`, so that
safety is a fact to be proved about the list and not one built into the type.

`Spec` is the one notion of the library: from a given byte string, every index read
satisfies `R` and the result satisfies `Q`. It composes along `bind`.
-/

namespace Pterodon.Lib

/-- A result and the indices read on the way. -/
def Reads (α : Type) : Type := Bytes → α × List Nat

namespace Reads

variable {α β : Type}

protected def pure (a : α) : Reads α := fun _ => (a, [])

protected def bind (m : Reads α) (f : α → Reads β) : Reads β := fun mem =>
  ((f (m mem).1 mem).1, (m mem).2 ++ (f (m mem).1 mem).2)

instance : Monad Reads where
  pure := Reads.pure
  bind := Reads.bind

/-- The byte at `i`. -/
def byte (i : Nat) : Reads UInt8 := fun mem => (mem.getD i 0, [i])

/-- The `n` bytes from `i` on. -/
def slice (i n : Nat) : Reads Bytes := fun mem =>
  ((mem.drop i).take n, List.range' i n)

def run (m : Reads α) (mem : Bytes) : α := (m mem).1

def indices (m : Reads α) (mem : Bytes) : List Nat := (m mem).2

@[simp] theorem run_pure (a : α) (mem : Bytes) : run (pure a) mem = a := rfl

@[simp] theorem run_bind (m : Reads α) (f : α → Reads β) (mem : Bytes) :
    run (m >>= f) mem = run (f (run m mem)) mem := rfl

@[simp] theorem run_byte (i : Nat) (mem : Bytes) : run (byte i) mem = mem.getD i 0 := rfl

@[simp] theorem run_slice (i n : Nat) (mem : Bytes) :
    run (slice i n) mem = (mem.drop i).take n := rfl

@[simp] theorem run_ite (c : Prop) {_ : Decidable c} (m m' : Reads α) (mem : Bytes) :
    run (if c then m else m') mem = if c then run m mem else run m' mem := by
  split <;> rfl

theorem bind_congr {m : Reads α} {f g : α → Reads β} {mem : Bytes}
    (h : f (m.run mem) mem = g (m.run mem) mem) : (m >>= f) mem = (m >>= g) mem := by
  show Reads.bind m f mem = Reads.bind m g mem
  unfold run at h
  unfold Reads.bind
  rw [h]

/-- Every index read satisfies `R`, and the result satisfies `Q`. -/
def Spec (mem : Bytes) (R : Nat → Prop) (m : Reads α) (Q : α → Prop) : Prop :=
  (∀ i ∈ m.indices mem, R i) ∧ Q (m.run mem)

variable {mem : Bytes} {R : Nat → Prop} {Q : α → Prop}

theorem Spec.pure {a : α} (h : Q a) : Spec mem R (pure a) Q :=
  ⟨by intro i hi; exact absurd hi (List.not_mem_nil), h⟩

theorem Spec.byte {i : Nat} {Q : UInt8 → Prop} (hi : R i) (h : Q (mem.getD i 0)) :
    Spec mem R (byte i) Q := by
  refine ⟨?_, h⟩
  intro j hj
  rw [List.mem_singleton.mp hj]
  exact hi

theorem Spec.slice {i n : Nat} {Q : Bytes → Prop} (hr : ∀ j, i ≤ j → j < i + n → R j)
    (h : Q ((mem.drop i).take n)) : Spec mem R (slice i n) Q := by
  refine ⟨?_, h⟩
  intro j hj
  obtain ⟨h₁, h₂⟩ := List.mem_range'_1.mp hj
  exact hr j h₁ h₂

theorem Spec.bind {m : Reads α} {f : α → Reads β} {Q' : β → Prop} (hm : Spec mem R m Q)
    (hf : ∀ a, Q a → Spec mem R (f a) Q') : Spec mem R (m >>= f) Q' := by
  have hf' := hf _ hm.2
  refine ⟨?_, hf'.2⟩
  intro i hi
  rcases List.mem_append.mp hi with hi | hi
  · exact hm.1 i hi
  · exact hf'.1 i hi

theorem Spec.ite {c : Prop} [Decidable c] {m m' : Reads α} (h : c → Spec mem R m Q)
    (h' : ¬ c → Spec mem R m' Q) : Spec mem R (if c then m else m') Q := by
  split
  · exact h ‹_›
  · exact h' ‹_›

theorem Spec.weaken {m : Reads α} {R' : Nat → Prop} (h : Spec mem R m Q)
    (hr : ∀ i, R i → R' i) : Spec mem R' m Q :=
  ⟨fun i hi => hr i (h.1 i hi), h.2⟩

end Reads

end Pterodon.Lib
