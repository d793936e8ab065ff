import AndInverter.Overflow
import AndInverter.WordGate.Basic

/-! Gates that only wire bits: constants, copies, slices, concatenations and shifts. -/

namespace AndInverter.WordGate

def identity (width : Nat) (input output : String) : Except Fault WordCircuit :=
  unary width input output pure

/-- The constant word with the given bits. -/
def sourceBits (output : String) (word : Word) : Except Fault WordCircuit :=
  WordBuild.circuit (WordBuild.output output (word.map .ofBool))

/-- The constant word that stands for an integer. -/
def source (width : Nat) (value : Int64) (output : String) (signed : Bool) :
    Except Fault WordCircuit :=
  match Word.encode width value signed with
  | .ok word => sourceBits output word
  | .error cause => .error (.word cause)

/-- Takes the given words and gives none. -/
def sink (inputs : Bundle) : Except Fault WordCircuit :=
  WordBuild.circuit (inputs.toList.forM fun (name, size) =>
    discard (WordBuild.input name size))

/-- Copies the input word to every output. -/
def tee (width : Nat) (input : String) (outputs : List String) : Except Fault WordCircuit :=
  WordBuild.circuit do
    let xs ← WordBuild.input input width
    outputs.forM fun output => WordBuild.output output xs

/-- Repeats a single bit. -/
def copies (times : Nat) (input output : String) : Except Fault WordCircuit :=
  unary 1 input output fun xs => return (List.replicate times xs).flatten

/-- The bits from `start` on up to `stop`, of which there must be at least one. -/
def slice (width start stop : Nat) (input output : String) : Except Fault WordCircuit :=
  if start < stop ∧ stop ≤ width then
    unary width input output fun xs => return (xs.take stop).drop start
  else
    .error (.violated (.invalidSlice start stop width))

def index (width position : Nat) (input output : String) : Except Fault WordCircuit :=
  slice width position (position + 1) input output

/-- Concatenation: `left` has the low bits, `right` the high ones. -/
def combine (leftWidth : Nat) (left : String) (rightWidth : Nat) (right output : String) :
    Except Fault WordCircuit :=
  WordBuild.circuit do
    let xs ← WordBuild.input left leftWidth
    let ys ← WordBuild.input right rightWidth
    WordBuild.output output (xs ++ ys)

/-- The low bits of a word and the rest of it. There are no more low bits than the word has. -/
def parts (low : Nat) (xs : List Literal) : Except Fault (List Literal × List Literal) :=
  if low ≤ xs.length then .ok (xs.take low, xs.drop low) else .error .inconsistent

/-- The opposite of concatenation. -/
def splitWith (overflow : Overflow) (input : String) (leftWidth : Nat) (left : String)
    (rightWidth : Nat) (right : String) : Except Fault WordCircuit :=
  WordBuild.circuit do
    let xs ← WordBuild.input input (← overflow.size (leftWidth + rightWidth))
    let (low, high) ← parts leftWidth xs
    WordBuild.output left low
    WordBuild.output right high

def split (input : String) (leftWidth : Nat) (left : String) (rightWidth : Nat)
    (right : String) : Except Fault WordCircuit :=
  splitWith .wraps input leftWidth left rightWidth right

def reverse (width : Nat) (input output : String) : Except Fault WordCircuit :=
  unary width input output fun xs => return xs.reverse

/-- Shifts towards the most significant bit and fills with zeros. -/
def leftShift (width shift : Nat) (input output : String) : Except Fault WordCircuit :=
  unary width input output fun xs =>
    return (List.replicate (min shift xs.length) (Literal.ofBool false) ++ xs).take xs.length

/-- Bit `i` of the result is bit `i + shift`, or `fill` if there is no such bit. -/
def shiftDown {α : Type} (overflow : Overflow) (shift : Nat) (fill : α) (xs : List α) :
    Except Fault (List α) :=
  let bits := xs.toArray
  (List.range xs.length).mapM fun i => do
    return bits[← overflow.size (i + shift)]?.getD fill

/-- Shifts towards the least significant bit and fills with zeros. -/
def logicalRightShiftWith (overflow : Overflow) (width shift : Nat) (input output : String) :
    Except Fault WordCircuit :=
  unary width input output fun xs => shiftDown overflow shift (.ofBool false) xs

/-- Shifts towards the least significant bit and fills with the sign. -/
def arithmeticRightShiftWith (overflow : Overflow) (width shift : Nat) (input output : String) :
    Except Fault WordCircuit :=
  unary width input output fun xs =>
    shiftDown overflow shift (xs.getLast?.getD (.ofBool false)) xs

def logicalRightShift (width shift : Nat) (input output : String) : Except Fault WordCircuit :=
  logicalRightShiftWith .wraps width shift input output

def arithmeticRightShift (width shift : Nat) (input output : String) :
    Except Fault WordCircuit :=
  arithmeticRightShiftWith .wraps width shift input output

end AndInverter.WordGate
