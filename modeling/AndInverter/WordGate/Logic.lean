import AndInverter.WordGate.Basic

/-! Gates that apply logic to bits: bit by bit, over all bits of a word, or chosen by a test. -/

namespace AndInverter.WordGate

def bitwiseAnd (width : Nat) (left right output : String) : Except Fault WordCircuit :=
  binary width left right output (Build.bitwise Build.and)

def bitwiseOr (width : Nat) (left right output : String) : Except Fault WordCircuit :=
  binary width left right output (Build.bitwise Build.or)

def bitwiseXor (width : Nat) (left right output : String) : Except Fault WordCircuit :=
  binary width left right output (Build.bitwise Build.xor)

def bitwiseNegate (width : Nat) (input output : String) : Except Fault WordCircuit :=
  unary width input output fun xs => return xs.map (-·)

/-- Whether all bits are set. -/
def reduceAnd (width : Nat) (input output : String) : Except Fault WordCircuit :=
  unary width input output fun xs => single (Build.andAll xs)

/-- Whether a bit is set. -/
def reduceOr (width : Nat) (input output : String) : Except Fault WordCircuit :=
  unary width input output fun xs => single (Build.orAll xs)

def isNonzero (width : Nat) (input output : String) : Except Fault WordCircuit :=
  reduceOr width input output

def isZero (width : Nat) (input output : String) : Except Fault WordCircuit :=
  unary width input output fun xs => single do return -(← Build.orAll xs)

/-- Whether an odd number of bits is set. -/
def parity (width : Nat) (input output : String) : Except Fault WordCircuit :=
  unary width input output fun xs => single (Build.xorAll xs)

/-- The parity of the bitwise product. -/
def dotMod2 (width : Nat) (left right output : String) : Except Fault WordCircuit :=
  binary width left right output fun xs ys =>
    single do Build.xorAll (← Build.bitwise Build.and xs ys)

/-- The word `left` where the bit `test` is set, and `right` where it is not. -/
def mux (width : Nat) (test left right output : String) : Except Fault WordCircuit :=
  WordBuild.circuit do
    let ts ← WordBuild.input test 1
    let t ← Fault.promised ts.head?
    let xs ← WordBuild.input left width
    let ys ← WordBuild.input right width
    WordBuild.output output (← WordBuild.bits (Build.bitwise (Build.mux t) xs ys))

end AndInverter.WordGate
