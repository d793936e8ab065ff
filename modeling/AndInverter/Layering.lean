/-! Layers of a dependency relation. An item goes into the first layer after those of all items it
depends on, so layer `k` holds the items whose longest chain of dependencies has `k` steps. Items on
a cycle, or depending on one, are in no layer. -/

namespace AndInverter

structure Layering (α : Type) where
  layers : List (List α)
  /-- The items in no layer, each with what it still waits for. -/
  blocked : List (α × List α)

namespace Layering

variable {α : Type} [BEq α]

/-- Peels off layer after layer, at most `fuel` of them: the items that wait for nothing form a
layer, and nothing waits for them from then on. -/
def peel : Nat → List (α × List α) → Layering α
  | 0, waiting => ⟨[], waiting⟩
  | fuel + 1, waiting =>
    let layer := (waiting.filter (·.2.isEmpty)).map (·.1)
    if layer.isEmpty then
      ⟨[], waiting⟩
    else
      let rest := (waiting.filter (!·.2.isEmpty)).map fun (item, deps) =>
        (item, deps.filter (!layer.contains ·))
      let later := peel fuel rest
      ⟨layer :: later.layers, later.blocked⟩

/-- Adds the items that are only depended on. -/
def closed (graph : List (α × List α)) : List (α × List α) :=
  let keys := graph.map (·.1)
  let leaves := (graph.flatMap (·.2)).filter (!keys.contains ·)
  graph ++ leaves.eraseDups.map fun item => (item, [])

/-- The opposite relation: each item with those that depend on it. -/
def opposite (graph : List (α × List α)) : List (α × List α) :=
  (closed graph).map fun (item, _) =>
    (item, graph.flatMap fun (user, deps) => (deps.filter (· == item)).map fun _ => user)

/-- Layers from the items without dependencies on. Each item is given once, with its dependencies,
and a layer lists its items in the order given. -/
def fromLeaves (graph : List (α × List α)) : Layering α :=
  let items := closed graph
  peel items.length items

/-- Layers from the items that nothing depends on. -/
def fromRoots (graph : List (α × List α)) : Layering α :=
  fromLeaves (opposite graph)

def isCyclic (l : Layering α) : Bool := !l.blocked.isEmpty

end Layering

end AndInverter
