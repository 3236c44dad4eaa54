import Mathlib.Logic.Basic
import Mathlib.Data.List.Basic

/-!
# C strings in buffers of a fixed size

A buffer is a byte list whose length never changes. The string in it ends at its first
zero. `padded n s` is the buffer of `n` bytes that holds `s` and zeros after it, which is
what bounded copies and concatenations make of a buffer that was cleared first.
-/

namespace Pterodon.Lib

open List

/-- A file, a buffer or a string, byte by byte. -/
abbrev Bytes : Type := List UInt8

/-- Half-open ranges, or other pairs of numbers. -/
abbrev Pairs : Type := List (Nat × Nat)

variable {n : Nat} {s : Bytes}

/-- The bytes of a string of ASCII characters. -/
def ascii (cs : List Char) : Bytes := cs.map fun c => UInt8.ofNat c.toNat

def natBytes (n : Nat) : Bytes := ascii (Nat.toDigits 10 n)

def intBytes (n : Int) : Bytes := if n < 0 then 45 :: natBytes n.natAbs else natBytes n.toNat

/-- The string in a buffer. -/
def cstr (buf : Bytes) : Bytes := buf.takeWhile (· ≠ 0)

/-- `strlcpy` of a string into a buffer: what does not fit is cut off. -/
def strlcpy (dst src : Bytes) : Bytes :=
  if dst = [] then []
  else
    let s := src.take (dst.length - 1)
    s ++ 0 :: dst.drop (s.length + 1)

/-- `strlcat` of a string to a buffer: what does not fit is cut off. -/
def strlcat (dst src : Bytes) : Bytes :=
  if (cstr dst).length = dst.length then dst
  else
    let s := cstr dst ++ src.take (dst.length - (cstr dst).length - 1)
    s ++ 0 :: dst.drop (s.length + 1)

theorem cstr_length_le (buf : Bytes) : (cstr buf).length ≤ buf.length :=
  ( takeWhile_prefix _).length_le

@[simp] theorem strlcpy_length (dst src : Bytes) : (strlcpy dst src).length = dst.length := by
  rw [strlcpy]
  by_cases h : dst = []
  · rw [if_pos h, h]
  · have hpos : 0 < dst.length := length_pos_iff.mpr h
    rw [if_neg h]
    simp only [length_append, length_cons, length_drop, length_take]
    omega

@[simp] theorem strlcat_length (dst src : Bytes) : (strlcat dst src).length = dst.length := by
  rw [strlcat]
  by_cases h : (cstr dst).length = dst.length
  · rw [if_pos h]
  · have hle := cstr_length_le dst
    rw [if_neg h]
    simp only [length_append, length_cons, length_drop, length_take]
    omega

/-- A string, and zeros up to the size of its buffer. -/
def padded (n : Nat) (s : Bytes) : Bytes := s ++ List.replicate (n - s.length) 0

theorem padded_length {n : Nat} {s : Bytes} (h : s.length ≤ n) : (padded n s).length = n := by
  rw [padded, length_append, length_replicate]
  omega

theorem cstr_padded (hs : 0 ∉ s) : cstr (padded n s) = s := by
  have hall : ∀ b ∈ s, decide (b ≠ 0) = true := by
    intro b hb
    exact decide_eq_true fun h0 => hs (h0 ▸ hb)
  rw [cstr, padded, takeWhile_append_of_pos hall]
  cases n - s.length with
  | zero => exact append_nil s
  | succ k => exact append_nil s

theorem cstr_of_notMem (hs : 0 ∉ s) : cstr s = s := by
  have h := cstr_padded (n := 0) hs
  rwa [padded, Nat.zero_sub, replicate_zero, append_nil] at h

theorem drop_padded {k : Nat} (h : s.length ≤ k) :
    (padded n s).drop k = List.replicate (n - k) 0 := by
  rw [padded, drop_append, drop_eq_nil_of_le h, nil_append, drop_replicate]
  congr 1
  omega

theorem zeros_padded (h : s.length < n) :
    s ++ 0 :: List.replicate (n - (s.length + 1)) 0 = padded n s := by
  rw [← replicate_succ]
  congr 2
  omega

theorem strlcpy_padded (hn : 0 < n) (s : Bytes) :
    strlcpy (padded n []) s = padded n (s.take (n - 1)) := by
  have hlen : (padded n []).length = n := padded_length (Nat.zero_le n)
  have hne : padded n [] ≠ [] := by
    intro hnil
    rw [hnil, length_nil] at hlen
    omega
  have hs : (s.take (n - 1)).length < n := by
    rw [length_take]
    omega
  rw [strlcpy, if_neg hne, hlen]
  show s.take (n - 1) ++ 0 :: (padded n []).drop _ = _
  rw [drop_padded (Nat.zero_le _)]
  exact zeros_padded hs

theorem strlcat_padded {t : Bytes} (ht : 0 ∉ t) (hlen : t.length < n) (s : Bytes) :
    strlcat (padded n t) s = padded n ((t ++ s).take (n - 1)) := by
  have hbuf : (padded n t).length = n := padded_length (Nat.le_of_lt hlen)
  have htake : (t ++ s).take (n - 1) = t ++ s.take (n - t.length - 1) := by
    rw [take_append, take_of_length_le (by omega)]
    congr 2
    omega
  have hfit : (t ++ s.take (n - t.length - 1)).length < n := by
    rw [length_append, length_take]
    omega
  rw [strlcat, cstr_padded ht, hbuf, if_neg (by omega), htake]
  show t ++ s.take (n - t.length - 1) ++ 0 :: (padded n t).drop _ = _
  rw [drop_padded (by rw [length_append]; omega)]
  exact zeros_padded hfit

end Pterodon.Lib
