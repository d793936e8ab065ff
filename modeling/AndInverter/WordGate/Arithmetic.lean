import AndInverter.WordGate.Basic

/-! Gates that compute with words as integers, modulo two to the power of their size. Their
nodes grow with it, and only the first `2 ^ 31` have literals of 32 bits. -/

namespace AndInverter.WordGate

/-- The output word with a carry, and the carry as a word of its own if it is asked for. -/
def withCarry (width : Nat) (left right output : String) (hasCarry : Bool)
    (sum : List Literal → List Literal → Build (List Literal × Literal)) :
    Except Fault WordCircuit :=
  WordBuild.circuit do
    let xs ← WordBuild.input left width
    let ys ← WordBuild.input right width
    let (word, carry) ← WordBuild.bits (sum xs ys)
    WordBuild.output output word
    if hasCarry then
      WordBuild.output (output ++ "_carry") [carry]

/-- The sum; its carry is set if the sum of the integers does not fit. -/
def add (width : Nat) (left right output : String) (hasCarry : Bool) :
    Except Fault WordCircuit :=
  withCarry width left right output hasCarry fun xs ys =>
    Build.rippleAdd xs ys (.ofBool false)

/-- The difference; its carry is set if `left` is not less than `right`. -/
def subtract (width : Nat) (left right output : String) (hasCarry : Bool) :
    Except Fault WordCircuit :=
  withCarry width left right output hasCarry Build.rippleSub

/-- The negative in two's complement. -/
def negate (width : Nat) (input output : String) : Except Fault WordCircuit :=
  unary width input output Build.negative

/-- One more. -/
def inc (width : Nat) (input output : String) : Except Fault WordCircuit :=
  unary width input output fun xs => do
    let zeros := List.replicate xs.length (.ofBool false)
    return (← Build.rippleAdd xs zeros (.ofBool true)).1

/-- One less, as the sum with the word of ones. -/
def dec (width : Nat) (input output : String) : Except Fault WordCircuit :=
  unary width input output fun xs => do
    let ones := List.replicate xs.length (.ofBool true)
    return (← Build.rippleAdd xs ones (.ofBool false)).1

/-- The absolute value of a signed word. -/
def abs (width : Nat) (input output : String) : Except Fault WordCircuit :=
  unary width input output Build.magnitude

end AndInverter.WordGate
