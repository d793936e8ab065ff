import AndInverter.Graph.Build
import AndInverter.Graph.Eval

/-! Copying one graph into another. The inputs and latches of the copied graph are bound to
literals of the growing graph, and its gates are built anew over them. -/

namespace AndInverter

/-- An input or latch of a graph that is being copied. -/
inductive Leaf where
  | input (name : String)
  | latch (name : String) (init : Bool)

/-- The literals that stand for the outputs and the next states of a copied graph. -/
structure Embedding where
  outputs : NameMap Literal
  nexts : NameMap Literal

namespace Literal

/-- The image of a literal, given the images of the nodes. -/
def image? (images : Array Literal) (l : Literal) : Option Literal :=
  (images[l.id]?).map fun image => if l.negated then -image else image

end Literal

/-- The embedding of a graph, once the images of its nodes are known. -/
def Graph.readEmbedding (g : Graph) (images : Array Literal) : Option Embedding := do
  let outputs ← g.outputs.traverse (·.image? images)
  let nexts ← (← g.nextStates).traverse (·.image? images)
  return ⟨outputs, nexts⟩

namespace Build

/-- Copies a node that holds the number `id`, given the images of the nodes in front of it. -/
def copyNode (inputNames latchNames : NodeNames) (bind : Leaf → Build Literal)
    (images : Array Literal) (id : Nat) : Node → Build Literal
  | .zero => return .ofBool false
  | .input => do
    bind (.input (← Fault.promised inputNames[id]?))
  | .latch _ init => do
    bind (.latch (← Fault.promised latchNames[id]?) init)
  | .and left right => do
    and (← Fault.promised (left.image? images)) (← Fault.promised (right.image? images))

/-- The images of all nodes of `g`. -/
def copyNodes (g : Graph) (bind : Leaf → Build Literal) : Build (Array Literal) :=
  let inputNames := NodeNames.ofMap g.inputs
  let latchNames := NodeNames.ofMap g.latches
  g.numbered.foldlM (fun images (node, id) => do
    return images.push (← copyNode inputNames latchNames bind images id node)) #[]

def embed (g : Graph) (bind : Leaf → Build Literal) : Build Embedding := do
  Fault.promised (g.readEmbedding (← copyNodes g bind))

/-- Binds inputs to those literals of `drivers` that have their names, other inputs and all latches
to themselves. -/
def bindDriven (drivers : NameMap Literal) : Leaf → Build Literal
  | .input name =>
    match drivers[name]? with
    | some l => return l
    | none => input name
  | .latch name init => latch name init

/-- Copies `g` together with its latches, some of its inputs being driven. Gives the outputs. -/
def embedDriven (drivers : NameMap Literal) (g : Graph) : Build (NameMap Literal) := do
  let embedding ← embed g (bindDriven drivers)
  setNexts embedding.nexts
  return embedding.outputs

end Build

end AndInverter
