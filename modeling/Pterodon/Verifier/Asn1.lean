import Pterodon.Lib.Reads

/-!
# The ASN.1 decoder

`asn1_decoder.cpp` walks a DER structure with a pointer and a number of bytes left.
The pointer is an absolute index into the file here, so that what the decoder looks
at can be compared with the bounds of the file. Methods that advance the pointer
return the context they leave behind.

`get_byte` yields `-1` at the end of the context, which no mask turns into a tag the
decoder looks for: `none` is that `-1`.
-/

namespace Pterodon.Verifier

open Lib Reads

/-- `asn1_context`, less the application tag, which nothing here asks for. -/
structure Asn1Context where
  p : Nat
  length : Nat

variable (c : Asn1Context)

def kMaskConstructed : UInt8 := 0xE0
def kMaskTag : UInt8 := 0x7F

def kTagOctetString : UInt8 := 0x04
def kTagSequence : UInt8 := 0x30
def kTagSet : UInt8 := 0x31
def kTagConstructed : UInt8 := 0xA0

/-- `sizeof(size_t)`. -/
def sizeofSize : Nat := 8

namespace Asn1Context

/-- The context one byte on. -/
def advance (n : Nat) : Asn1Context := ⟨c.p + n, c.length - n⟩

def peekByte : Reads (Option UInt8) :=
  if c.length = 0 then pure none
  else do
    let b ← Reads.byte c.p
    pure (some b)

def getByte : Reads (Option UInt8 × Asn1Context) :=
  if c.length = 0 then pure (none, c)
  else do
    let b ← Reads.byte c.p
    pure (some b, c.advance 1)

def skipBytes (numSkip : Nat) : Option Asn1Context :=
  if c.length < numSkip then none else some (c.advance numSkip)

/-- The loop of `decode_length` over the octets of a long length. -/
def decodeOctets : Nat → Nat → Asn1Context → Reads (Option (Nat × Asn1Context))
  | 0, length, c => pure (some (length, c))
  | n + 1, length, c => do
    let (byte, c) ← c.getByte
    match byte with
    | none => pure none
    | some b => decodeOctets n (length * 256 + b.toNat) c

def decodeLength : Reads (Option (Nat × Asn1Context)) := do
  let (byte, c) ← c.getByte
  match byte with
  | none => pure none
  | some b =>
    if b &&& 0x80 = 0x00 then pure (some (b.toNat, c))
    else if sizeofSize ≤ (b &&& kMaskTag).toNat then pure none
    else decodeOctets (b &&& kMaskTag).toNat 0 c

/-- What the `*_get` methods for containers share: a length, then a context of that length. -/
def enter : Reads (Option Asn1Context) := do
  let len ← c.decodeLength
  match len with
  | none => pure none
  | some (length, c) => pure (if c.length < length then none else some ⟨c.p, length⟩)

/-- `asn1_constructed_get`, `asn1_sequence_get` and `asn1_set_get` differ in the mask and the tag
alone. -/
def maskedGet (mask tag : UInt8) (c : Asn1Context) : Reads (Option Asn1Context) := do
  let (byte, c) ← c.getByte
  match byte with
  | none => pure none
  | some b => if b &&& mask ≠ tag then pure none else c.enter

def constructedGet : Reads (Option Asn1Context) := maskedGet kMaskConstructed kTagConstructed c

def sequenceGet : Reads (Option Asn1Context) := maskedGet kMaskTag kTagSequence c

def setGet : Reads (Option Asn1Context) := maskedGet kMaskTag kTagSet c

/-- Skip the element the pointer is at. -/
def sequenceNext : Reads (Option Asn1Context) := do
  let (byte, c) ← c.getByte
  match byte with
  | none => pure none
  | some _ => do
    let len ← c.decodeLength
    match len with
    | none => pure none
    | some (length, c) => pure (c.skipBytes length)

/--
The loop of `asn1_constructed_skip_all`. Every round takes at least the tag, so that
`fuel` above the length of the context is never used up.
-/
def constructedSkipFrom : Nat → Asn1Context → Reads (Option Asn1Context)
  | 0, _ => pure none
  | fuel + 1, c => do
    let byte ← c.peekByte
    match byte with
    | none => pure none
    | some b =>
      if b &&& kMaskConstructed ≠ kTagConstructed then pure (some c)
      else do
        let len ← (c.advance 1).decodeLength
        match len with
        | none => pure none
        | some (length, c) =>
          match c.skipBytes length with
          | none => pure none
          | some c => constructedSkipFrom fuel c

def constructedSkipAll : Reads (Option Asn1Context) :=
  constructedSkipFrom (c.length + 1) c

/-- The position and the length of the string. -/
def octetStringGet : Reads (Option (Nat × Nat)) := do
  let (byte, c) ← c.getByte
  match byte with
  | none => pure none
  | some b =>
    if b ≠ kTagOctetString then pure none
    else do
      let len ← c.decodeLength
      match len with
      | none => pure none
      | some (length, c) =>
        pure (if length = 0 ∨ c.length < length then none else some (c.p, length))

/-! ## The decoder stays inside its context -/

/-- The context lies in `[lo, hi)`. -/
def Within (lo hi : Nat) (c : Asn1Context) : Prop := lo ≤ c.p ∧ c.p + c.length ≤ hi

/-- An index of `[lo, hi)`. -/
def Inside (lo hi i : Nat) : Prop := lo ≤ i ∧ i < hi

variable {lo hi : Nat} {mem : Bytes} {c : Asn1Context}

variable (h : Within lo hi c)
include h

theorem within_advance {n : Nat} (hn : n ≤ c.length) : Within lo hi (c.advance n) := by
  unfold Within advance at *
  dsimp only
  omega

theorem within_skipBytes {n : Nat} {c' : Asn1Context} (hs : c.skipBytes n = some c') :
    Within lo hi c' := by
  unfold skipBytes at hs
  split at hs
  · cases hs
  · injection hs with hs
    subst hs
    exact within_advance h (by omega)

theorem spec_peekByte : Spec mem (Inside lo hi) c.peekByte (fun r => r.isSome → 0 < c.length) := by
  refine .ite (fun _ => .pure (by simp)) (fun h0 => ?_)
  unfold Within at h
  exact .bind (.byte (Q := fun _ => True) ⟨h.1, by omega⟩ trivial)
    (fun _ _ => .pure (fun _ => by omega))

theorem spec_getByte : Spec mem (Inside lo hi) c.getByte (fun r => Within lo hi r.2) := by
  refine .ite (fun _ => .pure h) (fun h0 => ?_)
  have hin : Inside lo hi c.p := by
    unfold Within at h
    exact ⟨h.1, by omega⟩
  exact .bind (.byte (Q := fun _ => True) hin trivial)
    (fun _ _ => .pure (within_advance h (by omega)))

omit h in
theorem spec_decodeOctets : ∀ (n length : Nat) {c : Asn1Context}, Within lo hi c →
    Spec mem (Inside lo hi) (decodeOctets n length c)
      (fun r => ∀ x, r = some x → Within lo hi x.2) := by
  intro n
  induction n with
  | zero =>
    intro length c h
    exact .pure (by intro x hx; injection hx with hx; subst hx; exact h)
  | succ n ih =>
    intro length c h
    refine .bind (spec_getByte h) ?_
    rintro ⟨byte, c'⟩ hc'
    cases byte with
    | none => exact .pure (by simp)
    | some b => exact ih _ hc'

theorem spec_decodeLength : Spec mem (Inside lo hi) c.decodeLength
      (fun r => ∀ x, r = some x → Within lo hi x.2) := by
  refine .bind (spec_getByte h) ?_
  rintro ⟨byte, c'⟩ hc'
  cases byte with
  | none => exact .pure (by simp)
  | some b =>
    refine .ite (fun _ => .pure ?_) (fun _ => ?_)
    · intro x hx; injection hx with hx; subst hx; exact hc'
    · exact .ite (fun _ => .pure (by simp)) (fun _ => spec_decodeOctets _ _ hc')

theorem spec_enter :
    Spec mem (Inside lo hi) c.enter (fun r => ∀ c', r = some c' → Within lo hi c') := by
  refine .bind (spec_decodeLength h) ?_
  intro len hlen
  cases len with
  | none => exact .pure (by simp)
  | some x =>
    refine .pure ?_
    intro c'' hc''
    have hw := hlen _ rfl
    split at hc''
    · cases hc''
    · injection hc'' with hc''
      subst hc''
      unfold Within at *
      dsimp only at *
      omega

theorem spec_maskedGet (mask tag : UInt8) : Spec mem (Inside lo hi) (c.maskedGet mask tag)
      (fun r => ∀ c', r = some c' → Within lo hi c') := by
  refine .bind (spec_getByte h) ?_
  rintro ⟨byte, c'⟩ hc'
  cases byte with
  | none => exact .pure (by simp)
  | some b => exact .ite (fun _ => .pure (by simp)) (fun _ => spec_enter hc')

theorem spec_sequenceNext : Spec mem (Inside lo hi) c.sequenceNext
      (fun r => ∀ c', r = some c' → Within lo hi c') := by
  refine .bind (spec_getByte h) ?_
  rintro ⟨byte, c'⟩ hc'
  cases byte with
  | none => exact .pure (by simp)
  | some b =>
    refine .bind (spec_decodeLength hc') ?_
    intro len hlen
    cases len with
    | none => exact .pure (by simp)
    | some x => exact .pure (fun _ hs => within_skipBytes (hlen x rfl) hs)

omit h in
theorem spec_constructedSkipFrom : ∀ (fuel : Nat) {c : Asn1Context}, Within lo hi c →
    Spec mem (Inside lo hi) (constructedSkipFrom fuel c)
      (fun r => ∀ c', r = some c' → Within lo hi c') := by
  intro fuel
  induction fuel with
  | zero => intro c _; exact .pure (by simp)
  | succ fuel ih =>
    intro c h
    refine .bind (spec_peekByte h) ?_
    intro byte hbyte
    cases byte with
    | none => exact .pure (by simp)
    | some b =>
      refine .ite (fun _ => .pure ?_) (fun _ => ?_)
      · intro c' hc'; injection hc' with hc'; subst hc'; exact h
      refine .bind (spec_decodeLength (within_advance h (hbyte rfl))) ?_
      intro len hlen
      cases len with
      | none => exact .pure (by simp)
      | some x =>
        dsimp only
        split
        · exact .pure (by simp)
        · rename_i c'' hs
          exact ih (within_skipBytes (hlen _ rfl) hs)

theorem spec_octetStringGet : Spec mem (Inside lo hi) c.octetStringGet
      (fun r => ∀ x, r = some x → lo ≤ x.1 ∧ x.1 + x.2 ≤ hi) := by
  refine .bind (spec_getByte h) ?_
  rintro ⟨byte, c'⟩ hc'
  cases byte with
  | none => exact .pure (by simp)
  | some b =>
    refine .ite (fun _ => .pure (by simp)) (fun _ => ?_)
    refine .bind (spec_decodeLength hc') ?_
    intro len hlen
    cases len with
    | none => exact .pure (by simp)
    | some y =>
      refine .pure ?_
      intro x hx
      have hw := hlen _ rfl
      split at hx
      · cases hx
      · injection hx with hx
        subst hx
        unfold Within at hw
        omega

end Asn1Context

end Pterodon.Verifier
