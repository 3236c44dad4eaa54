import Mathlib.Data.Nat.Digits.Lemmas
import Pterodon.Lib.CString

/-!
# DER elements

A tag octet, the number of contents octets, the contents. A number below 128 is one octet. A larger
one is written in as few octets as it takes, most significant first, behind an octet that says how
many these are.
-/

namespace Pterodon.Lib

open List

/-- A number in as few octets as it takes, most significant first. -/
def octets (n : Nat) : Bytes := (Nat.digits 256 n).reverse.map UInt8.ofNat

/-- How the number of contents octets is written. -/
def lengthOctets (n : Nat) : Bytes :=
  if n < 0x80 then [UInt8.ofNat n] else UInt8.ofNat (0x80 + (octets n).length) :: octets n

/-- One element, of a tag that fits into one octet. -/
def element (tag : UInt8) (contents : Bytes) : Bytes :=
  tag :: (lengthOctets contents.length ++ contents)

/-- Reading octets one after the other: what was read is shifted by one octet. -/
def shiftIn (n : Nat) (b : UInt8) : Nat := n * 256 + b.toNat

theorem foldl_shiftIn {ds : List Nat} (h : ∀ d ∈ ds, d < 256) :
    (ds.reverse.map UInt8.ofNat).foldl shiftIn 0 = Nat.ofDigits 256 ds := by
  induction ds with
  | nil => rfl
  | cons d ds ih =>
    have hd : (UInt8.ofNat d).toNat = d := UInt8.toNat_ofNat_of_lt' (h d mem_cons_self)
    rw [reverse_cons, map_append, foldl_append, ih (forall_mem_cons.mp h).2, Nat.ofDigits_cons]
    simp only [map_cons, map_nil, foldl_cons, foldl_nil, shiftIn]
    omega

theorem foldl_octets (n : Nat) : (octets n).foldl shiftIn 0 = n := by
  unfold octets
  rw [foldl_shiftIn (fun d hd => Nat.digits_lt_base (by decide) hd), Nat.ofDigits_digits]

theorem octets_length_le {n k : Nat} (h : n < 256 ^ k) : (octets n).length ≤ k := by
  unfold octets
  rw [length_map, length_reverse]
  exact (Nat.digits_length_le_iff (by decide) n).mpr h

theorem lt_element_length (tag : UInt8) (contents : Bytes) :
    contents.length < (element tag contents).length := by
  unfold element
  rw [length_cons, length_append]
  omega

end Pterodon.Lib
