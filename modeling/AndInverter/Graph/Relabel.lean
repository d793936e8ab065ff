import AndInverter.Graph.Basic

/-! Renaming the inputs, latches or outputs of a graph. All names change at once, so names may be
swapped. -/

namespace AndInverter.Graph

/-- Renames without a check. Where names meet, the entry whose old name is greater stays, and a leaf
may lose its name. -/
def rename (g : Graph) (kind : Kind) (new : Renaming) : Graph :=
  match kind with
  | .input => { g with inputs := NameMap.rename g.inputs new.apply }
  | .latch => { g with latches := NameMap.rename g.latches new.apply }
  | .output => { g with outputs := NameMap.rename g.outputs new.apply }

/-- Renames unless two names would meet. -/
def relabel (g : Graph) (kind : Kind) (new : Renaming) : Except Fault Graph :=
  match firstClash [] new.apply (g.names kind) with
  | some name => throw (.circuit (.relabelClash kind name (new.apply name)))
  | none => return g.rename kind new

end AndInverter.Graph
