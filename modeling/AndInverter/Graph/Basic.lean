import AndInverter.Literal
import AndInverter.NameMap
import AndInverter.Fault

/-! Sequential and-inverter graphs: AND gates over literals, with named inputs, latches and
outputs. A node is referred to by its position in the node list, and it also holds a number, by which
its name is looked up and which it is listed under. Node `0` is the constant false, and a gate reads
only nodes in front of it. Graphs grow at the end of the node list, so a literal keeps its meaning
while its graph grows. -/

namespace AndInverter

inductive Node where
  | zero
  | input
  /-- A latch holds `init` at the start and takes the value of `next` after every step. -/
  | latch (next : Literal) (init : Bool)
  | and (left right : Literal)
deriving DecidableEq

/-- The literals that the value of a node is computed from in the same step. -/
def Node.fanins : Node → List Literal
  | .and left right => [left, right]
  | _ => []

structure Graph where
  nodes : Array Node
  /-- The numbers that the nodes hold, each at the position of its node. -/
  ids : Array Nat
  inputs : NameMap Nat
  latches : NameMap Nat
  outputs : NameMap Literal
  /-- The gates by their arguments, from which gates are shared. -/
  gateTable : Std.ExtTreeMap (Literal × Literal) Literal Literal.comparePair

structure Latch where
  id : Nat
  next : Literal
  init : Bool
deriving DecidableEq

structure Gate where
  id : Nat
  left : Literal
  right : Literal
deriving DecidableEq

namespace Graph

def empty : Graph := ⟨#[.zero], #[0], ∅, ∅, ∅, ∅⟩

/-- Graphs are the same when their nodes and names are. The gate table follows from the nodes. -/
def same (g h : Graph) : Bool :=
  g.nodes == h.nodes && g.ids == h.ids && g.inputs == h.inputs && g.latches == h.latches &&
    g.outputs == h.outputs

/-- The number that the node at this position holds. -/
def idAt (g : Graph) (position : Nat) : Nat := g.ids.getD position 0

/-- The nodes with the numbers that they hold. -/
def numbered (g : Graph) : List (Node × Nat) :=
  g.nodes.toList.zipIdx.map fun (node, position) => (node, g.idAt position)

def input? (g : Graph) (name : String) : Option Literal :=
  (g.inputs[name]?).map .positive

def output? (g : Graph) (name : String) : Option Literal :=
  g.outputs[name]?

def latch? (g : Graph) (name : String) : Option Latch :=
  (g.latches[name]?).bind fun id =>
    match g.nodes[id]? with
    | some (.latch next init) => some ⟨g.idAt id, next, init⟩
    | _ => none

/-- The initial values of the latches. -/
def initialState (g : Graph) : Valuation :=
  NameMap.ofPairs (g.latches.keys.filterMap fun name =>
    (g.latch? name).map fun latch => (name, latch.init))

/-- The gates in the order of their nodes. -/
def gates (g : Graph) : List Gate :=
  g.numbered.filterMap fun
    | (.and left right, id) => some ⟨id, left, right⟩
    | _ => none

def gateCount (g : Graph) : Nat := g.gates.length

/-- The greatest node number. -/
def maxId (g : Graph) : Nat := g.nodes.size - 1

def contains (g : Graph) (id : Nat) : Bool := id < g.nodes.size

def isInput (g : Graph) (id : Nat) : Bool := g.nodes[id]? == some .input

def isLatch (g : Graph) (id : Nat) : Bool :=
  match g.nodes[id]? with
  | some (.latch _ _) => true
  | _ => false

def isGate (g : Graph) (id : Nat) : Bool :=
  match g.nodes[id]? with
  | some (.and _ _) => true
  | _ => false

def node (g : Graph) (id : Nat) : Except Fault Node :=
  match g.nodes[id]? with
  | some node => .ok node
  | none => .error .inconsistent

def gate (g : Graph) (id : Nat) : Except Fault Gate := do
  match ← g.node id with
  | .and left right => return ⟨g.idAt id, left, right⟩
  | _ => throw (.violated (.notAGate id))

/-- The names of the objects of one kind, in order. -/
def names (g : Graph) : Kind → List String
  | .input => g.inputs.keys
  | .latch => g.latches.keys
  | .output => g.outputs.keys

/-- Whether an object of this kind has this name. -/
def hasName (g : Graph) (kind : Kind) (name : String) : Bool :=
  match kind with
  | .input => g.inputs.contains name
  | .latch => g.latches.contains name
  | .output => g.outputs.contains name

def omitOutputs (g : Graph) (names : List String) : Graph :=
  { g with outputs := g.outputs.without names }

def render (g : Graph) : String :=
  s!"Aig(inputs={g.inputs.size}, latches={g.latches.size}, outputs={g.outputs.size}, " ++
    s!"gates={g.gateCount})"

end Graph

end AndInverter
