import AndInverter.Graph.Embed

/-! Putting two graphs together, one after the other or side by side. The result may have the nodes of
both; its literals have 32 bits while it has at most `2 ^ 31`. -/

namespace AndInverter.Graph

/-- Outputs of `left` drive the inputs of `right` that have their names. Other inputs of the same
name are one input. -/
def chain (left right : Graph) : Except Fault Graph :=
  Build.graph do
    let outputs ← Build.embedDriven ∅ left
    let rightOutputs ← Build.embedDriven outputs right
    Build.outputs (outputs.filter fun name _ => !right.inputs.contains name)
    Build.outputs rightOutputs

/-- Sequential composition. Latches must have different names, and so must outputs that stay. -/
def seq (left right : Graph) : Except Fault Graph := do
  if let some name := left.latches.firstShared right.latches then
    throw (.circuit (.sharedLatch name))
  let kept := left.outputs.filter fun name _ => !right.inputs.contains name
  if let some name := NameMap.firstShared kept right.outputs then
    throw (.circuit (.sharedOutput name))
  left.chain right

/-- Both graphs over shared inputs. -/
def beside (left right : Graph) : Except Fault Graph :=
  Build.graph do
    let outputs ← Build.embedDriven ∅ left
    let rightOutputs ← Build.embedDriven ∅ right
    Build.outputs outputs
    Build.outputs rightOutputs

/-- Parallel composition. Outputs and latches must have different names. -/
def par (left right : Graph) : Except Fault Graph := do
  if let some name := left.outputs.firstShared right.outputs then
    throw (.circuit (.sharedOutput name))
  if let some name := left.latches.firstShared right.latches then
    throw (.circuit (.sharedLatch name))
  left.beside right

end AndInverter.Graph
