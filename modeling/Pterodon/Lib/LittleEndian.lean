import Mathlib.Algebra.Order.Ring.Int
import Pterodon.Lib.CString

/-!
# Little-endian numbers

Numbers of a fixed width in a byte string, least significant byte first.
-/

namespace Pterodon.Lib

/-- `n` in `w` bytes; what does not fit is cut off. -/
def leBytes : Nat → Nat → Bytes
  | 0, _ => []
  | w + 1, n => UInt8.ofNat n :: leBytes w (n / 256)

def leNat : Bytes → Nat
  | [] => 0
  | b :: bs => b.toNat + 256 * leNat bs

@[simp] theorem leBytes_length : ∀ w n : Nat, (leBytes w n).length = w
  | 0, _ => rfl
  | w + 1, n => by rw [leBytes, List.length_cons, leBytes_length w]

theorem leNat_leBytes : ∀ {w n : Nat}, n < 256 ^ w → leNat (leBytes w n) = n
  | 0, n, h => by
    have : n = 0 := by simpa using h
    rw [this]; rfl
  | w + 1, n, h => by
    have hdiv : n / 256 < 256 ^ w := by
      exact Nat.div_lt_of_lt_mul (by omega)
    rw [leBytes, leNat, leNat_leBytes hdiv]
    have : (UInt8.ofNat n).toNat = n % 256 := UInt8.toNat_ofNat
    omega

theorem leNat_lt : ∀ bs : Bytes, leNat bs < 256 ^ bs.length
  | [] => by decide
  | b :: bs => by
    have hb := b.toNat_lt
    have hbs := leNat_lt bs
    rw [leNat, List.length_cons]
    omega

theorem leBytes_leNat : ∀ bs : Bytes, leBytes bs.length (leNat bs) = bs
  | [] => rfl
  | b :: bs => by
    have hb := b.toNat_lt
    have hdiv : (b.toNat + 256 * leNat bs) / 256 = leNat bs := by omega
    have hmod : UInt8.ofNat (b.toNat + 256 * leNat bs) = b := by
      apply UInt8.toNat_inj.mp
      rw [UInt8.toNat_ofNat']
      omega
    rw [leNat, List.length_cons, leBytes, hdiv, hmod, leBytes_leNat bs]

/-- The signed reading of a number of `w` bytes. -/
def signed (w n : Nat) : Int := if n < 256 ^ w / 2 then n else (n : Int) - 256 ^ w

/-- The number of `w` bytes that reads as `z`. -/
def unsigned (w : Nat) (z : Int) : Nat := (z % 256 ^ w).toNat

theorem signed_of_lt {w n : Nat} (h : n < 256 ^ w / 2) : signed w n = n := if_pos h

end Pterodon.Lib
