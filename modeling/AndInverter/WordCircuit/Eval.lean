import AndInverter.Graph.Eval
import AndInverter.WordCircuit.Basic

/-! The values that a circuit over words computes. Values of words are split into bits, the graph is
evaluated, and its values are put together to words. -/

namespace AndInverter

/-- What one step of a circuit over words gives. -/
structure WordStep where
  outputs : WordValuation
  latches : WordValuation

namespace WordCircuit

/-- The initial values of the latches. -/
def initialState (c : WordCircuit) : WordValuation :=
  c.latches.unblast c.graph.initialState

/-- One step. A latch without a value in `state` has its initial value. -/
def eval (c : WordCircuit) (inputs : WordValuation) (state : Option WordValuation) :
    Except Fault WordStep := do
  let inputs ← c.inputs.blast inputs
  let state ← state.mapM fun state => c.latches.blastPartial state
  let step ← c.graph.eval inputs state
  return ⟨c.outputs.unblast step.outputs, c.latches.unblast step.latches⟩

/-- One step for each valuation of the inputs. -/
def runFrom (c : WordCircuit) : WordValuation → List WordValuation → Except Fault (List WordStep)
  | _, [] => .ok []
  | state, inputs :: later => do
    let step ← c.eval inputs (some state)
    return step :: (← c.runFrom step.latches later)

/-- The run from the given state, or from the initial one. -/
def simulate (c : WordCircuit) (inputs : List WordValuation) (state : Option WordValuation) :
    Except Fault (List WordStep) :=
  c.runFrom (state.getD c.initialState) inputs

end WordCircuit

end AndInverter
