/-
Casts between C integer types, on integers.

A cast keeps a value modulo `2 ^ w`; a value that the target type can hold is kept
as it is.
-/
import Mathlib.Algebra.Group.Int.Defs
import Mathlib.Algebra.Group.Nat.Defs
import Mathlib.Data.Int.Order.Basic

set_option autoImplicit false

namespace MachineWords

/-- `static_cast<uint32_t>` -/
def u32 (z : ℤ) : ℕ := (z % 2 ^ 32).toNat

/-- `static_cast<uint64_t>` -/
def u64 (z : ℤ) : ℕ := (z % 2 ^ 64).toNat

/-- `static_cast<int32_t>` -/
def i32 (z : ℤ) : ℤ := Int.bmod z (2 ^ 32)

/-- `static_cast<int64_t>` -/
def i64 (z : ℤ) : ℤ := Int.bmod z (2 ^ 64)

/-- `static_cast<int16_t>` -/
def i16 (z : ℤ) : ℤ := Int.bmod z (2 ^ 16)

/-- A number that fits 32 bits is itself. -/
theorem u32_of_nonneg {z : ℤ} (h0 : 0 ≤ z) (h : z < 2 ^ 32) : u32 z = z.toNat := by
  unfold u32; rw [Int.emod_eq_of_lt h0 h]

theorem u32_lt (z : ℤ) : u32 z < 2 ^ 32 := by
  unfold u32
  omega

theorem u32_natCast {n : ℕ} (h : n < 2 ^ 32) : u32 n = n := by
  rw [u32_of_nonneg (by omega) (by omega)]; rfl

theorem u64_natCast {n : ℕ} (h : n < 2 ^ 64) : u64 n = n := by
  unfold u64; rw [Int.emod_eq_of_lt (by omega) (by omega)]; rfl

/-- A number in the range of an `int32` is itself. -/
theorem i32_of_mem {z : ℤ} (h0 : -2 ^ 31 ≤ z) (h : z < 2 ^ 31) : i32 z = z :=
  Int.bmod_eq_of_le (by omega) (by omega)

/-- So is one that is not negative and below `2 ^ 31`. -/
theorem i32_of_lt {z : ℤ} (h0 : 0 ≤ z) (h : z < 2 ^ 31) : i32 z = z :=
  i32_of_mem (by omega) h

/-- An `int32` is in its range. -/
theorem i32_range (z : ℤ) : -2 ^ 31 ≤ i32 z ∧ i32 z < 2 ^ 31 := by
  unfold i32
  rw [Int.bmod_def]
  split_ifs <;> omega

/-- A number in the range of an `int64` is itself. -/
theorem i64_of_lt {z : ℤ} (h0 : -2 ^ 63 ≤ z) (h : z < 2 ^ 63) : i64 z = z :=
  Int.bmod_eq_of_le (by omega) (by omega)

/-- A product is wrapped as a whole, whichever factors were wrapped on the way. -/
theorem i64_mul (a b : ℤ) : i64 (i64 a * b) = i64 (a * b) := Int.bmod_mul_bmod

/-- And one that fits an `int16`, without its sign. -/
theorem i16_of_lt {z : ℤ} (h0 : 0 ≤ z) (h : z < 2 ^ 15) : i16 z = z :=
  Int.bmod_eq_of_le (by omega) (by omega)

end MachineWords
