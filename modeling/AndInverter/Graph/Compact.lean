import AndInverter.Graph.Embed

/-! Dropping the gates that neither an output nor a latch depends on. -/

namespace AndInverter

/-- The nodes that a node depends on, in the same step or, if it is a latch, in the step before. -/
def Node.sources : Node → List Nat
  | .latch next _ => [next.id]
  | node => node.fanins.map (·.id)

/-- Marking a node leaves fewer nodes without a mark. -/
theorem count_false_setIfInBounds_lt {used : Array Bool} {id : Nat} (h : used[id]? = some false) :
    (used.setIfInBounds id true).count false < used.count false := by
  obtain ⟨hlt, hfalse⟩ := Array.getElem?_eq_some_iff.1 h
  have pos : 0 < used.count false := Array.count_pos_iff.2 (hfalse ▸ Array.getElem_mem hlt)
  rw [Array.setIfInBounds, dif_pos hlt, Array.count_set hlt, hfalse]
  exact Nat.sub_lt pos Nat.one_pos

namespace Graph

/-- Marks the nodes on the stack and all nodes that they depend on. -/
def mark (g : Graph) (used : Array Bool) (stack : List Nat) : Except Fault (Array Bool) :=
  match stack with
  | [] => return used
  | id :: stack =>
    match _ : used[id]? with
    | none => throw .inconsistent
    | some true => g.mark used stack
    | some false => do
      let node ← g.node id
      g.mark (used.setIfInBounds id true) (node.sources ++ stack)
termination_by (used.count false, stack.length)
decreasing_by
  · exact .right _ (Nat.lt_succ_self _)
  · exact .left _ _ (count_false_setIfInBounds_lt ‹_›)

/-- The nodes that outputs and latches depend on. -/
def cone (g : Graph) : Except Fault (Array Bool) :=
  g.mark (Array.replicate g.nodes.size false)
    (g.outputs.values.map (·.id) ++ g.latches.values)

/-- Turns the gates that are not used into constants, which copying folds away. A gate that is put in
place of another holds its position as its number. -/
def prune (g : Graph) (used : Array Bool) : Graph :=
  { g with
    nodes := g.nodes.mapIdx fun id node =>
      match node with
      | .and left right =>
        if (used[id]?).getD false then .and left right else .and (.ofBool false) (.ofBool false)
      | node => node
    ids := g.ids.mapIdx fun id held =>
      if g.isGate id && !(used[id]?).getD false then id else held }

/-- The graph without gates outside the cone. -/
def compacted (g : Graph) : Except Fault Graph := do
  let pruned := g.prune (← g.cone)
  Build.graph do
    Build.outputs (← Build.embedDriven ∅ pruned)

end Graph

end AndInverter
