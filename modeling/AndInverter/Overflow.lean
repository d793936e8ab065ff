import AndInverter.Fault

/-! Results out of range. Numbers of a fixed size are stood for by the numbers without bounds that
they are meant to be, and an operation whose result may be out of range says so. There it stops in a
program built with checks, and wraps around in one built without. -/

namespace AndInverter

/-- What becomes of a result that is out of range. -/
inductive Overflow where
  | wraps
  | stops
deriving DecidableEq

namespace Overflow

/-- The result of an operation on lengths and positions, which are numbers of 64 bits. -/
def size (overflow : Overflow) (n : Nat) : Except Fault Nat :=
  if n < UInt64.size then
    .ok n
  else
    match overflow with
    | wraps => .ok (n % UInt64.size)
    | stops => .error .inconsistent

/-- The result of an operation on signed numbers of 32 bits. -/
def int32 (overflow : Overflow) (n : Int) : Except Fault Int :=
  if Int32.minValue.toInt ≤ n ∧ n ≤ Int32.maxValue.toInt then
    .ok n
  else
    match overflow with
    | wraps => .ok (n.bmod Int32.size)
    | stops => .error .inconsistent

/-- The negative of a signed number of 32 bits. -/
def neg (overflow : Overflow) (n : Int) : Except Fault Int :=
  overflow.int32 (-n)

/-- A length as a signed number of 32 bits. Its higher bits are lost. -/
def truncate (n : Nat) : Int :=
  (n : Int).bmod Int32.size

end Overflow

end AndInverter
