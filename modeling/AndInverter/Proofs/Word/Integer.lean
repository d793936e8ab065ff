import AndInverter.Proofs.Word.Shape
import Mathlib.Data.Int.Bitwise

/-! Words and integers of 64 bits. A word of any size stands for an integer just where it can, its bits are
those of the two's complement, whose sign goes on for ever, and reading a word back gives the integer. No
shift on the way is by 64 or more, and no result has more than 64 bits. -/

namespace AndInverter.Word

variable {width : Nat} {value : Int64} {signed : Bool}

/-! ### Bits -/

/-- The integers that words of this size can stand for. -/
def Represents (width : Nat) (signed : Bool) (value : Int) : Prop :=
  if signed then 1 ≤ width ∧ -2 ^ (width - 1) ≤ value ∧ value < 2 ^ (width - 1)
  else 0 ≤ value ∧ value < 2 ^ width

theorem toInt_power {i : Nat} (hi : i < 63) : (power i).toInt = 2 ^ i := by
  revert i
  decide

theorem toInt_neg_power {i : Nat} (hi : i < 63) : (-power i).toInt = -2 ^ i := by
  revert i
  decide

/-- Bounds of 64 bits are checked just where they can be exceeded. -/
theorem fits_iff : ¬ (signed && width == 0) ∧ fits width value signed ↔
    Represents width signed value.toInt := by
  have above := value.toInt_lt
  have below := value.le_toInt
  have large {n : Nat} (h : 63 ≤ n) : (2 : Int) ^ 63 ≤ 2 ^ n := by
    exact_mod_cast Nat.pow_le_pow_right Nat.two_pos h
  cases signed with
  | true =>
    simp only [Represents, fits, Bool.true_and, beq_iff_eq, if_true, Bool.or_eq_true,
      Bool.and_eq_true, decide_eq_true_eq]
    rcases Nat.lt_or_ge width 64 with small | wide
    · rw [or_iff_right (by omega), Int64.le_iff_toInt_le, Int64.lt_iff_toInt_lt]
      rcases Nat.eq_zero_or_pos width with zero | pos
      · omega
      · rw [toInt_power (by omega), toInt_neg_power (by omega)]
        omega
    · have := large (n := width - 1) (by omega)
      omega
  | false =>
    simp only [Represents, fits, Bool.false_and, Bool.false_eq_true, not_false_eq_true, true_and,
      if_false, Bool.or_eq_true, Bool.and_eq_true, decide_eq_true_eq, Int64.le_iff_toInt_le,
      Int64.toInt_zero]
    rcases Nat.lt_or_ge width 63 with small | wide
    · rw [or_iff_right (by omega), Int64.lt_iff_toInt_lt, toInt_power small]
    · have := large wide
      omega

namespace Checked

/-- A result, unless it has more than 64 bits. -/
def result (value : Int) : Option Int64 :=
  if -2 ^ 63 ≤ value ∧ value < 2 ^ 63 then some (.ofInt value) else none

def neg (value : Int64) : Option Int64 := result (-value.toInt)

/-- A shift to the left, unless by 64 or more. -/
def shiftLeft (value : Int64) (amount : Nat) : Option Int64 :=
  if amount < 64 then some (value <<< Int64.ofNat amount) else none

/-- A shift to the right, unless by 64 or more. -/
def shiftRight (value : Int64) (amount : Nat) : Option Int64 :=
  if amount < 64 then some (value >>> Int64.ofNat amount) else none

def wrap (width : Nat) (value : Int64) : Option Word :=
  (List.range width).mapM fun i => do
    return (← shiftRight value (min i 63)) &&& 1 == 1

def fits (width : Nat) (value : Int64) (signed : Bool) : Option Bool :=
  if signed then
    if width ≥ 64 then
      return true
    else do
      let half ← shiftLeft 1 (width - 1)
      return (← neg half) ≤ value && value < half
  else if 0 ≤ value then
    if width ≥ 63 then return true else return value < (← shiftLeft 1 width)
  else
    return false

def encode (width : Nat) (value : Int64) (signed : Bool) :
    Option (Except WordRefusal Word) := do
  if signed && width == 0 then
    return .error .emptySigned
  else if ← fits width value signed then
    return .ok (← wrap width value)
  else
    return .error (.doesNotFit value width signed)

def magnitude (bits : Word) : Option Int64 :=
  ((bits.take 64).zipIdx.filter (·.1)).foldlM
    (fun value (_, i) => do return value ||| (← shiftLeft 1 i)) 0

def decode (bits : Word) (signed : Bool) : Option Int64 := do
  let value ← magnitude bits
  if signed && bits.length < 64 && bits.getLast? == some true then
    return value ||| (← shiftLeft (-1) bits.length)
  else
    return value

end Checked

end AndInverter.Word
