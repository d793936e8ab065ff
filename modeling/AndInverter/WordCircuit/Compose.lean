import AndInverter.Graph.Compose
import AndInverter.WordCircuit.Basic

/-! Putting two circuits over words together, one after the other or side by side. -/

namespace AndInverter.WordCircuit

/-- The words that lead from `left` to `right`. -/
def interface (left right : WordCircuit) : List String :=
  left.outputs.keys.filter right.inputs.contains

/-- Output words of `left` drive the input words of `right` that have their names. -/
def chain (left right : WordCircuit) : Except Fault WordCircuit := do
  let interface := left.interface right
  return {
    graph := ← left.graph.chain right.graph
    inputs := NameMap.merge left.inputs (NameMap.without right.inputs interface)
    outputs := NameMap.merge right.outputs (NameMap.without left.outputs interface)
    latches := NameMap.merge left.latches right.latches }

/-- A word of the interface must have the same size on both sides. -/
def requireInterface (left right : WordCircuit) : Except Fault Unit :=
  (left.interface right).forM fun name =>
    let a := (left.outputs[name]?).getD 0
    let b := (right.inputs[name]?).getD 0
    if a = b then .ok () else .error (.word (.interfaceSize name a b))

/-- Sequential composition. -/
def seq (left right : WordCircuit) : Except Fault WordCircuit := do
  let interface := left.interface right
  left.requireInterface right
  if let some name := left.latches.firstShared right.latches then
    throw (.circuit (.sharedLatch name))
  let kept := NameMap.without left.outputs interface
  if let some name := kept.firstShared right.outputs then
    throw (.circuit (.sharedOutput name))
  if !left.inputs.agreesWith (NameMap.without right.inputs interface) then
    throw (.word .sharedInputSizes)
  left.chain right

/-- Both circuits over shared input words. -/
def beside (left right : WordCircuit) : Except Fault WordCircuit := do
  return {
    graph := ← left.graph.beside right.graph
    inputs := NameMap.merge left.inputs right.inputs
    outputs := NameMap.merge left.outputs right.outputs
    latches := NameMap.merge left.latches right.latches }

/-- Parallel composition. -/
def par (left right : WordCircuit) : Except Fault WordCircuit := do
  if let some name := left.outputs.firstShared right.outputs then
    throw (.circuit (.sharedOutput name))
  if let some name := left.latches.firstShared right.latches then
    throw (.circuit (.sharedLatch name))
  if !left.inputs.agreesWith right.inputs then
    throw (.word .sharedInputSizes)
  left.beside right

end AndInverter.WordCircuit
