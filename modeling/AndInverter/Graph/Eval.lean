import AndInverter.Graph.Basic

/-! The values that a graph computes. One step reads the values of the inputs and of the latches
and gives the values of the outputs and the next values of the latches; a run threads the latches
through the steps. -/

namespace AndInverter

/-- The names of nodes, by their numbers. -/
abbrev NodeNames := Std.ExtTreeMap Nat String

def NodeNames.ofMap (names : NameMap Nat) : NodeNames :=
  Std.ExtTreeMap.ofList (names.toList.map fun (name, id) => (id, name)) compare

/-- What one step of a graph gives. -/
structure Step where
  outputs : Valuation
  latches : Valuation

namespace Literal

/-- The value of a literal, given the values of the nodes. -/
def value? (values : Array Bool) (l : Literal) : Option Bool :=
  (values[l.id]?).map l.apply

end Literal

namespace Graph

/-- The value of a node that holds the number `id`, from the values of the nodes in front of it. -/
def nodeValue (inputNames latchNames : NodeNames) (inputs state : Valuation)
    (values : Array Bool) (id : Nat) : Node → Except Fault Bool
  | .zero => .ok false
  | .input => do
    let name ← Fault.promised inputNames[id]?
    match inputs[name]? with
    | some value => return value
    | none => throw (.circuit (.missingInput name))
  | .latch _ init => do
    let name ← Fault.promised latchNames[id]?
    return (state[name]?).getD init
  | .and left right => do
    return (← Fault.promised (left.value? values)) && (← Fault.promised (right.value? values))

/-- The values of all nodes. -/
def nodeValues (g : Graph) (inputs state : Valuation) : Except Fault (Array Bool) :=
  let inputNames := NodeNames.ofMap g.inputs
  let latchNames := NodeNames.ofMap g.latches
  g.numbered.foldlM (fun values (node, id) => do
    return values.push (← nodeValue inputNames latchNames inputs state values id node)) #[]

/-- The next states of the latches, by name. -/
def nextStates (g : Graph) : Option (NameMap Literal) :=
  g.latches.traverse fun id =>
    match g.nodes[id]? with
    | some (.latch next _) => some next
    | _ => none

/-- What a step gives, once the values of the nodes are known. -/
def readStep (g : Graph) (values : Array Bool) : Option Step := do
  let outputs ← g.outputs.traverse (·.value? values)
  let latches ← (← g.nextStates).traverse (·.value? values)
  return ⟨outputs, latches⟩

/-- One step. A latch without a value in `state` has its initial value. -/
def eval (g : Graph) (inputs : Valuation) (state : Option Valuation) : Except Fault Step := do
  Fault.promised (g.readStep (← g.nodeValues inputs (state.getD ∅)))

/-- One step for each valuation of the inputs. -/
def runFrom (g : Graph) : Valuation → List Valuation → Except Fault (List Step)
  | _, [] => .ok []
  | state, inputs :: later => do
    let step ← g.eval inputs (some state)
    return step :: (← g.runFrom step.latches later)

/-- The run from the given state, or from the initial one. -/
def simulate (g : Graph) (inputs : List Valuation) (state : Option Valuation) :
    Except Fault (List Step) :=
  g.runFrom (state.getD g.initialState) inputs

end Graph

end AndInverter
