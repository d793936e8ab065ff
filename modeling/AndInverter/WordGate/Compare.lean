import AndInverter.WordGate.Basic

/-! Gates that compare two words and give one bit. -/

namespace AndInverter.WordGate

/-- The gate of a comparison. -/
def test (width : Nat) (left right output : String)
    (holds : List Literal → List Literal → Build Literal) : Except Fault WordCircuit :=
  binary width left right output fun xs ys => single (holds xs ys)

/-- The gate of the opposite of a comparison. -/
def refute (width : Nat) (left right output : String)
    (holds : List Literal → List Literal → Build Literal) : Except Fault WordCircuit :=
  binary width left right output fun xs ys => single do return -(← holds xs ys)

def eq (width : Nat) (left right output : String) : Except Fault WordCircuit :=
  test width left right output Build.equal

def ne (width : Nat) (left right output : String) : Except Fault WordCircuit :=
  refute width left right output Build.equal

def unsignedLt (width : Nat) (left right output : String) : Except Fault WordCircuit :=
  test width left right output Build.lessUnsigned

def unsignedLe (width : Nat) (left right output : String) : Except Fault WordCircuit :=
  refute width left right output fun xs ys => Build.lessUnsigned ys xs

def unsignedGt (width : Nat) (left right output : String) : Except Fault WordCircuit :=
  test width left right output fun xs ys => Build.lessUnsigned ys xs

def unsignedGe (width : Nat) (left right output : String) : Except Fault WordCircuit :=
  refute width left right output Build.lessUnsigned

def signedLt (width : Nat) (left right output : String) : Except Fault WordCircuit :=
  test width left right output Build.lessSigned

def signedLe (width : Nat) (left right output : String) : Except Fault WordCircuit :=
  refute width left right output fun xs ys => Build.lessSigned ys xs

def signedGt (width : Nat) (left right output : String) : Except Fault WordCircuit :=
  test width left right output fun xs ys => Build.lessSigned ys xs

def signedGe (width : Nat) (left right output : String) : Except Fault WordCircuit :=
  refute width left right output Build.lessSigned

end AndInverter.WordGate
