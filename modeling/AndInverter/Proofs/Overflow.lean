import AndInverter.Overflow
import AndInverter.Proofs.Except
import Mathlib.Algebra.Group.Int.Defs
import Mathlib.Algebra.Group.Nat.Defs

/-! Results in range are exact, whichever way a program is built. -/

namespace AndInverter.Overflow

variable {overflow : Overflow} {n : Nat} {i : Int}

theorem size_of_lt (h : n < 2 ^ 64) : overflow.size n = .ok n := if_pos h

theorem size_wraps (n : Nat) : wraps.size n = .ok (n % 2 ^ 64) := by
  unfold size
  split
  next h => exact congrArg Except.ok (Nat.mod_eq_of_lt h).symm
  next => rfl

/-- The numbers of 32 bits. -/
def Fits (i : Int) : Prop := -2 ^ 31 ≤ i ∧ i < 2 ^ 31

theorem fits_iff : Fits i ↔ Int32.minValue.toInt ≤ i ∧ i ≤ Int32.maxValue.toInt := by
  rw [Int32.toInt_minValue, Int32.toInt_maxValue, Int.le_sub_one_iff]
  rfl

theorem int32_of_fits (h : Fits i) : overflow.int32 i = .ok i := if_pos (fits_iff.1 h)

theorem int32_stops (h : ¬Fits i) : stops.int32 i = .error .inconsistent :=
  if_neg (mt fits_iff.2 h)

theorem bmod_of_fits (h : Fits i) : i.bmod (2 ^ 32) = i := by
  obtain ⟨low, high⟩ := h
  exact Int.bmod_eq_of_le (by omega) (by omega)

theorem neg_eq (h : i.natAbs < 2 ^ 31) : overflow.neg i = .ok (-i) :=
  int32_of_fits ⟨by omega, by omega⟩

theorem truncate_of_lt (h : n < 2 ^ 31) : truncate n = n :=
  bmod_of_fits ⟨by omega, by omega⟩

end AndInverter.Overflow
