import AndInverter.Graph.Embed

/-! Unrolling a graph into a combinational one. The inputs that step `t` reads are named
`x##time_t`, the outputs that it gives `y##time_(t+1)`. Every step copies the graph, so a long horizon
leads to more than the `2 ^ 31` nodes whose literals have 32 bits. -/

namespace AndInverter

def timed (name : String) (t : Nat) : String :=
  name ++ "##time_" ++ toString t

structure UnrollOptions where
  /-- Latches start at their initial values. Otherwise the latch `l` starts at the input
  `l##time_0`. -/
  fromInitial : Bool
  /-- The values of latches are not given as outputs. -/
  hideLatches : Bool
  /-- Only the last step gives outputs. -/
  lastOnly : Bool

namespace Build

/-- Binds the inputs to those of step `t`, and the latches to their values in that step. -/
def bindStep (t : Nat) (state : NameMap Literal) : Leaf → Build Literal
  | .input name => input (timed name t)
  | .latch name _ => Fault.promised state[name]?

/-- The values of the latches before the first step. -/
def startState (g : Graph) (fromInitial : Bool) : Build (NameMap Literal) := do
  let entries ← g.latches.toList.mapM fun (name, id) => do
    if fromInitial then
      return (name, .ofBool (match g.nodes[id]? with
        | some (.latch _ init) => init
        | _ => false))
    else
      return (name, ← input (timed name 0))
  return NameMap.ofPairs entries

def timedOutputs (ls : NameMap Literal) (t : Nat) : Build Unit :=
  ls.toList.forM fun (name, l) => output (timed name t) l

/-- Copies step `t`. Gives the values of the latches after it. -/
def unrollStep (g : Graph) (options : UnrollOptions) (t : Nat) (last : Bool)
    (state : NameMap Literal) : Build (NameMap Literal) := do
  let step ← embed g (bindStep t state)
  if !options.lastOnly || last then
    timedOutputs step.outputs (t + 1)
    if !options.hideLatches then
      timedOutputs step.nexts (t + 1)
  return step.nexts

/-- Copies `count` steps from step `t` on. The first step with a fault is the last one tried. -/
def unrollFrom (g : Graph) (options : UnrollOptions) :
    (count t : Nat) → NameMap Literal → Build (NameMap Literal)
  | 0, _, state => return state
  | count + 1, t, state => do
    unrollFrom g options count (t + 1) (← unrollStep g options t (count == 0) state)

end Build

namespace Graph

/-- Unrolls `horizon` steps. Latches that become outputs or inputs must not share a name with one. -/
def unroll (g : Graph) (horizon : Nat) (options : UnrollOptions) : Except Fault Graph := do
  if !options.hideLatches then
    if let some name := g.latches.firstShared g.outputs then
      throw (.circuit (.latchIsOutput name))
  if !options.fromInitial then
    if let some name := g.latches.firstShared g.inputs then
      throw (.circuit (.latchIsInput name))
  Build.graph do
    let state ← Build.startState g options.fromInitial
    discard (Build.unrollFrom g options horizon 0 state)

end Graph

end AndInverter
