import AndInverter.Graph.Arithmetic
import AndInverter.WordCircuit.Basic

/-! Gates over words: circuits with named input and output words. Two input words of the same name
are one word, which must then be used with one size; output words have different names. -/

namespace AndInverter

/-- A circuit over words under construction. -/
abbrev WordBuild := StateT WordCircuit (Except Fault)

namespace WordBuild

/-- Grows the graph. -/
def bits {α : Type} (build : Build α) : WordBuild α := fun c => do
  let (a, g) ← build c.graph
  return (a, { c with graph := g })

def input (name : String) (size : Nat) : WordBuild (List Literal) := do
  if let some old := (← get).inputs[name]? then
    if old ≠ size then
      throw (.violated (.inputSizes name old size))
  modify fun c => { c with inputs := c.inputs.insert name size }
  (Word.bitNames name size).mapM fun bit => WordBuild.bits (Build.input bit)

def output (name : String) (word : List Literal) : WordBuild Unit := do
  if (← get).outputs.contains name then
    throw (.violated (.duplicateWord name))
  modify fun c => { c with outputs := c.outputs.insert name word.length }
  ((Word.bitNames name word.length).zip word).forM fun (bit, l) =>
    WordBuild.bits (Build.output bit l)

def circuit (build : WordBuild Unit) : Except Fault WordCircuit :=
  return (← build.run .empty).2

end WordBuild

namespace WordGate

/-- A gate with one input word. -/
def unary (width : Nat) (input output : String) (word : List Literal → Build (List Literal)) :
    Except Fault WordCircuit :=
  WordBuild.circuit do
    let xs ← WordBuild.input input width
    WordBuild.output output (← WordBuild.bits (word xs))

/-- A gate with two input words of the same size. -/
def binary (width : Nat) (left right output : String)
    (word : List Literal → List Literal → Build (List Literal)) : Except Fault WordCircuit :=
  WordBuild.circuit do
    let xs ← WordBuild.input left width
    let ys ← WordBuild.input right width
    WordBuild.output output (← WordBuild.bits (word xs ys))

/-- A word of one bit. -/
def single (bit : Build Literal) : Build (List Literal) :=
  return [← bit]

end WordGate

end AndInverter
