import Mathlib.Tactic.Ring

/-! Conversions between natural numbers and the fixed-width signed integers of
a machine. -/
namespace MachineInt

/-- Value of a 32-bit signed variable that is assigned `n`. -/
def int32 (n : Nat) : Int :=
  if n % 4294967296 < 2147483648 then (n % 4294967296 : Nat)
  else (n % 4294967296 : Nat) - 4294967296

def int64 (n : Nat) : Int :=
  if n % 18446744073709551616 < 9223372036854775808 then (n % 18446744073709551616 : Nat)
  else (n % 18446744073709551616 : Nat) - 18446744073709551616

def uint64 (z : Int) : Nat := (z % 18446744073709551616).toNat

def uint32 (z : Int) : Nat := (z % 4294967296).toNat

theorem int32_of_lt {n : Nat} (h : n < 2 ^ 31) : int32 n = n := by
  simp only [int32]
  split <;> omega

/-- A difference of unsigned numbers that a signed variable can hold. -/
theorem int64_uint64 {z : Int} (hLow : -2 ^ 63 ≤ z) (hHigh : z < 2 ^ 63) :
    int64 (uint64 z) = z := by
  have hWord : (uint64 z : Int) = z % 18446744073709551616 := by
    simp only [uint64]
    omega
  generalize uint64 z = n at hWord
  simp only [int64]
  split <;> omega

theorem uint64_of_lt {z : Int} (hLow : 0 ≤ z) (hHigh : z < 2 ^ 64) : (uint64 z : Int) = z := by
  simp only [uint64]
  omega

theorem uint64_lt (z : Int) : uint64 z < 2 ^ 64 := by
  simp only [uint64]
  omega

/-- Wrapping around before an addition changes nothing. -/
theorem uint64_add (a b : Int) : uint64 (uint64 a + b) = uint64 (a + b) := by
  simp only [uint64]
  omega

theorem int32_lt (n : Nat) : int32 n < 2 ^ 31 := by
  simp only [int32]
  split <;> omega

end MachineInt
