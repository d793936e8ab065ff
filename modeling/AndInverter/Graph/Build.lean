import AndInverter.Graph.Basic

/-! Growing a graph. A step of construction takes the graph so far and gives a result and the
grown graph, or a fault; after a fault the graph is the one before the step. Gates are folded where
an argument is constant or the arguments meet, and shared with an equal gate made before.

Graphs grow without a bound here. What is proved of an operation is about a program that keeps literals
in 32 bits as long as the graph that results has at most `2 ^ 31` nodes: its literals, and so those of
the graphs on the way to it, then have 32 bits (`Graph.raw_lt`, `Graph.ofNode_eq`). -/

namespace AndInverter

namespace Graph

def addGate (g : Graph) (left right : Literal) : Literal × Graph :=
  match g.gateTable[(left, right)]? with
  | some gate => (gate, g)
  | none =>
    let gate := .positive g.nodes.size
    (gate, { g with
      nodes := g.nodes.push (.and left right)
      ids := g.ids.push g.nodes.size
      gateTable := g.gateTable.insert (left, right) gate })

/-- The conjunction of two literals. Arguments of a gate stand in ascending order. -/
def conj (g : Graph) (left right : Literal) : Literal × Graph :=
  if left = .ofBool false ∨ right = .ofBool false ∨ left = -right then
    (.ofBool false, g)
  else if left = .ofBool true ∨ left = right then
    (right, g)
  else if right = .ofBool true then
    (left, g)
  else if left.raw ≤ right.raw then
    g.addGate left right
  else
    g.addGate right left

def requireNode (g : Graph) (l : Literal) : Except Fault Unit :=
  if l.id < g.nodes.size then .ok () else .error (.violated (.missingNode l.id))

end Graph

/-- Gives a latch its next state and leaves other nodes alone. -/
def Node.setNext (next : Literal) : Node → Node
  | .latch _ init => .latch next init
  | node => node

abbrev Build := StateT Graph (Except Fault)

namespace Build

/-- The input of that name, which is new unless the graph has one already. -/
def input (name : String) : Build Literal := fun g =>
  match g.inputs[name]? with
  | some id => .ok (.positive id, g)
  | none =>
    .ok (.positive g.nodes.size, { g with
      nodes := g.nodes.push .input
      ids := g.ids.push g.nodes.size
      inputs := g.inputs.insert name g.nodes.size })

/-- A new latch. Its next state is false until it is set. -/
def latch (name : String) (init : Bool) : Build Literal := fun g =>
  if g.latches.contains name then
    .error (.violated (.duplicateLatch name))
  else
    .ok (.positive g.nodes.size, { g with
      nodes := g.nodes.push (.latch (.ofBool false) init)
      ids := g.ids.push g.nodes.size
      latches := g.latches.insert name g.nodes.size })

def setNext (name : String) (next : Literal) : Build Unit := fun g => do
  g.requireNode next
  match g.latches[name]? with
  | none => throw (.violated (.unknownLatch name))
  | some id => return ((), { g with nodes := g.nodes.modify id (Node.setNext next) })

def output (name : String) (l : Literal) : Build Unit := fun g => do
  g.requireNode l
  if g.outputs.contains name then
    throw (.violated .duplicateOutput)
  else
    return ((), { g with outputs := g.outputs.insert name l })

def and (left right : Literal) : Build Literal := fun g => do
  g.requireNode left
  g.requireNode right
  return g.conj left right

def or (left right : Literal) : Build Literal := do
  return -(← and (-left) (-right))

def xor (left right : Literal) : Build Literal := do
  let a ← and left (-right)
  let b ← and (-left) right
  or a b

def xnor (left right : Literal) : Build Literal := do
  return -(← xor left right)

/-- `thenCase` where `test` holds and `elseCase` where it does not. -/
def mux (test thenCase elseCase : Literal) : Build Literal := do
  let a ← and test thenCase
  let b ← and (-test) elseCase
  or a b

def andAll (ls : List Literal) : Build Literal :=
  ls.foldlM and (.ofBool true)

def orAll (ls : List Literal) : Build Literal :=
  ls.foldlM or (.ofBool false)

def xorAll (ls : List Literal) : Build Literal :=
  ls.foldlM xor (.ofBool false)

def outputs (ls : NameMap Literal) : Build Unit :=
  ls.toList.forM fun (name, l) => output name l

def setNexts (nexts : NameMap Literal) : Build Unit :=
  nexts.toList.forM fun (name, next) => setNext name next

/-- The graph that is built from nothing. -/
def graph (build : Build Unit) : Except Fault Graph :=
  return (← build.run .empty).2

end Build

namespace Graph

/-- The graph with these constant outputs. -/
def source (values : List (String × Bool)) : Except Fault Graph :=
  Build.graph (values.forM fun (name, value) => Build.output name (.ofBool value))

/-- The graph with these inputs and without outputs. -/
def sink (names : List String) : Except Fault Graph :=
  Build.graph (names.forM fun name => discard (Build.input name))

/-- The graph that forwards each input to the output of the same name. -/
def identity (names : List String) : Except Fault Graph :=
  Build.graph (names.forM fun name => do Build.output name (← Build.input name))

end Graph

end AndInverter
