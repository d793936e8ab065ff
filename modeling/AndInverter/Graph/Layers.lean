import AndInverter.Graph.Basic
import AndInverter.Layering

/-! The layers of a graph. The next state of a latch is read only in the next step and is no
dependency. -/

namespace AndInverter.Graph

/-- Each node with the nodes that it reads. -/
def dependencies (g : Graph) : List (Nat × List Nat) :=
  g.numbered.map fun (node, id) => (id, (node.fanins.map (·.id)).eraseDups)

/-- Layers that start from the constant, the inputs and the latches. -/
def layersFromLeaves (g : Graph) : List (List Nat) :=
  (Layering.fromLeaves g.dependencies).layers

/-- Layers that start from the nodes that nothing reads. -/
def layersFromRoots (g : Graph) : List (List Nat) :=
  (Layering.fromRoots g.dependencies).layers

end AndInverter.Graph
