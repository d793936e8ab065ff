import AndInverter.Cnf.Basic
import AndInverter.Graph.Layers
import AndInverter.Overflow

/-! The clauses of a graph. Inputs, latches and gates get a variable each: inputs and latches in the
order of their names, then gates layer by layer, so that a gate comes after its arguments. Variables are
signed numbers of 32 bits. -/

namespace AndInverter

/-- The variables of the nodes. -/
abbrev NodeVars := Std.ExtTreeMap Nat Int

namespace NodeVars

/-- The variable of the next node that gets one. -/
def next (overflow : Overflow) (vars : NodeVars) : Except Fault Int :=
  overflow.int32 (Overflow.truncate vars.size + 1)

def add (overflow : Overflow) (vars : NodeVars) (id : Nat) : Except Fault NodeVars :=
  return vars.insert id (← vars.next overflow)

/-- The literal over variables that stands for a literal over nodes. -/
def literal (overflow : Overflow) (vars : NodeVars) (l : Literal) : Except Fault Int := do
  let var ← Fault.promised vars[l.id]?
  if l.negated then overflow.neg var else return var

end NodeVars

namespace Cnf

/-- The clause that fixes the value of a variable. -/
def unit (overflow : Overflow) (x : Int) (value : Bool) : Except Fault (List Int) := do
  if value then return [x] else return [← overflow.neg x]

/-- The clauses that make two literals equal. -/
def same (overflow : Overflow) (x y : Int) : Except Fault (List (List Int)) :=
  return [[x, ← overflow.neg y], [← overflow.neg x, y]]

/-- The clauses that make `x` the conjunction of two literals. -/
def gateClauses (overflow : Overflow) (vars : NodeVars) (x : Int) (left right : Literal) :
    Except Fault (List (List Int)) := do
  match left.const?, right.const? with
  | some l, some r => return [← unit overflow x (l && r)]
  | some l, none =>
    let r ← vars.literal overflow right
    if l then same overflow x r else return [← unit overflow x false]
  | none, some r =>
    let l ← vars.literal overflow left
    if r then same overflow x l else return [← unit overflow x false]
  | none, none =>
    let l ← vars.literal overflow left
    let r ← vars.literal overflow right
    return [[x, ← overflow.neg l, ← overflow.neg r], [← overflow.neg x, l], [← overflow.neg x, r]]

/-- Adds the clauses of a gate. -/
def addGate (overflow : Overflow) (g : Graph) (encoded : NodeVars × List (List Int)) (id : Nat) :
    Except Fault (NodeVars × List (List Int)) := do
  let (vars, clauses) := encoded
  match g.nodes[id]? with
  | some (.and left right) =>
    let x ← vars.next overflow
    let vars := vars.insert id x
    return (vars, clauses ++ (← gateClauses overflow vars x left right))
  | _ => throw .inconsistent

/-- Adds an output. A constant one gets a new variable that a clause fixes. -/
def addOutput (overflow : Overflow) (vars : NodeVars) (state : Cnf × Int)
    (output : String × Literal) : Except Fault (Cnf × Int) := do
  let (cnf, last) := state
  let (name, l) := output
  match l.const? with
  | some value =>
    let var ← overflow.int32 (last + 1)
    return ({ cnf with
      clauses := cnf.clauses ++ [← unit overflow var value]
      outputs := cnf.outputs.insert name var }, var)
  | none =>
    return ({ cnf with outputs := cnf.outputs.insert name (← vars.literal overflow l) }, last)

end Cnf

namespace Graph

/-- The clauses of one step of a graph, in a program that is built as `overflow` says. -/
def toCnfWith (overflow : Overflow) (g : Graph) : Except Fault Cnf := do
  let leaves ← (g.inputs.values ++ g.latches.values).foldlM (NodeVars.add overflow) ∅
  let gates := (g.layersFromLeaves.drop 1).flatten
  let (vars, clauses) ← gates.foldlM (Cnf.addGate overflow g) (leaves, [])
  let inputs := g.inputs.filterMap fun _ id => leaves[id]?
  let latches := g.latches.filterMap fun _ id => leaves[id]?
  let (cnf, _) ← g.outputs.toList.foldlM (Cnf.addOutput overflow vars)
    (⟨clauses, inputs, latches, ∅⟩, Overflow.truncate vars.size)
  return cnf

def toCnf (g : Graph) : Except Fault Cnf :=
  g.toCnfWith .wraps

end Graph

end AndInverter
