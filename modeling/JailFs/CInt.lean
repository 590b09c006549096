import Mathlib.Algebra.Group.Int.Defs
import Mathlib.Algebra.Group.Nat.Defs

/-!
# The signed integers of C

Arithmetic on `int` and on `time_t` wraps around. The error numbers are those of Linux.
-/

namespace JailFs

def wrapInt (n : ℤ) : ℤ := Int.bmod n (2 ^ 32)

def wrapTime (n : ℤ) : ℤ := Int.bmod n (2 ^ 64)

def ENOENT : ℤ := 2

def EBADF : ℤ := 9

def EFAULT : ℤ := 14

def EROFS : ℤ := 30

def ENOSYS : ℤ := 38

theorem wrapInt_of_lt {n : ℤ} (hlo : -2 ^ 31 ≤ n) (hhi : n < 2 ^ 31) : wrapInt n = n :=
  Int.bmod_eq_of_le (by omega) (by omega)

/-- A value of the type `int`. -/
def FitsInt (n : ℤ) : Prop := -2 ^ 31 ≤ n ∧ n < 2 ^ 31

instance (n : ℤ) : Decidable (FitsInt n) := inferInstanceAs (Decidable (_ ∧ _))

theorem FitsInt.wrapInt {n : ℤ} (h : FitsInt n) : JailFs.wrapInt n = n := wrapInt_of_lt h.1 h.2

theorem wrapInt_eq_self_iff {n : ℤ} : wrapInt n = n ↔ -2 ^ 31 ≤ n ∧ n < 2 ^ 31 := by
  constructor
  · intro h
    have hlo := Int.le_bmod (x := n) (m := 2 ^ 32) (by omega)
    have hhi := Int.bmod_lt (x := n) (m := 2 ^ 32) (by omega)
    rw [wrapInt] at h
    omega
  · rintro ⟨hlo, hhi⟩
    exact wrapInt_of_lt hlo hhi

theorem wrapInt_wrapInt_add_one (n : ℤ) : wrapInt (wrapInt n + 1) = wrapInt (n + 1) :=
  Int.bmod_add_bmod

/-- A counter that is counted up changes, also where it wraps around. -/
theorem wrapInt_add_one_ne (n : ℤ) : wrapInt (n + 1) ≠ n := by
  intro h
  have hlo := Int.le_bmod (x := n + 1) (m := 2 ^ 32) (by omega)
  have hhi := Int.bmod_lt (x := n + 1) (m := 2 ^ 32) (by omega)
  have hmod := Int.bmod_emod (x := n + 1) (m := 2 ^ 32)
  rw [wrapInt] at h
  omega

end JailFs
