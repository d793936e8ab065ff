import AndInverter.WordCircuit.Compose
import AndInverter.WordCircuit.Eval
import AndInverter.WordCircuit.Relabel
import AndInverter.WordGate.Wiring

/-! Expressions over words. An expression is a circuit without latches that gives one word, together
with a flag that says whether the word is read as a signed integer. Expressions share the input
words that have the same names. -/

namespace AndInverter

structure Expression where
  circuit : WordCircuit
  signed : Bool

/-- Building expressions. Words get new names from a counter; names drawn before a fault are used
up. -/
abbrev Draw := ExceptT Fault (StateM Nat)

/-- A new name. -/
def Draw.fresh : Draw String := do
  let n ← getModify (· + 1)
  return "__fresh_" ++ toString n

/-- What an atom reads. -/
inductive Atom where
  /-- The input word of that name. -/
  | name (name : String)
  /-- A constant. -/
  | int (value : Int64)
  /-- An input word with a new name. -/
  | fresh

namespace Expression

/-- The name of the word that the expression gives. -/
def output (e : Expression) : String := (e.circuit.outputs.keys.head?).getD ""

def size (e : Expression) : Nat := (e.circuit.outputs[e.output]?).getD 0

def inputs (e : Expression) : List String := e.circuit.inputs.keys

/-- Expressions are the same when their circuits are and are read alike. -/
def same (e f : Expression) : Bool := e.circuit.same f.circuit && e.signed == f.signed

/-- A circuit with one output word and without latches. -/
def ofCircuit (c : WordCircuit) (signed : Bool) : Except Fault Expression :=
  if c.outputs.size ≠ 1 then
    .error (.word (.outputCount c.outputs.size))
  else if !c.latches.isEmpty then
    .error (.word .hasLatches)
  else
    .ok ⟨c, signed⟩

def atom (width : Nat) (value : Atom) (signed : Bool) : Draw Expression := do
  let output ← Draw.fresh
  match value with
  | .name input => return ⟨← WordGate.identity width input output, signed⟩
  | .fresh => return ⟨← WordGate.identity width (← Draw.fresh) output, signed⟩
  | .int value =>
    match Word.encode width value signed with
    | .ok word => return ⟨← WordGate.sourceBits output word, signed⟩
    | .error cause => throw (.violated (.unfitConstant cause))

/-- Renames the output word. -/
def withOutput (e : Expression) (name : String) : Expression :=
  { e with circuit := e.circuit.rename .output (NameMap.ofPairs [(e.output, name)]) }

/-- The word that the expression gives. -/
def eval (e : Expression) (inputs : WordValuation) : Except Fault Word := do
  let step ← e.circuit.eval inputs none
  match step.outputs[e.output]? with
  | some word => return word
  | none => throw (.word (.missingOutput e.output))

/-- The word for an input value, cut or extended to its size. -/
def inputWord (e : Expression) (values : WordValuation) (input : String × Int64) :
    Except Fault WordValuation :=
  let (name, value) := input
  match e.circuit.inputs[name]? with
  | some size => .ok (values.insert name (Word.wrap size value))
  | none => .error (.circuit (.unknownInput name))

/-- The integer that the expression gives. -/
def evalInt (e : Expression) (inputs : List (String × Int64)) : Except Fault Int64 := do
  let values ← inputs.foldlM e.inputWord ∅
  return Word.decode (← e.eval values) e.signed

def render (e : Expression) : String :=
  "BvExpr(" ++ e.output ++ ", size=" ++ toString e.size ++ ", signed=" ++ toString e.signed ++ ")"

end Expression

end AndInverter
