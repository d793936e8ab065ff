import AndInverter.WordCircuit.Basic

/-! Renaming the words of a circuit together with their bits. -/

namespace AndInverter.WordCircuit

/-- The new names of the bits of renamed words. -/
def bitRenaming (words : Bundle) (new : Renaming) : Renaming :=
  NameMap.ofPairs (words.toList.flatMap fun (name, size) =>
    match new[name]? with
    | none => []
    | some target =>
      (List.range size).map fun i => (Word.bitName name i, Word.bitName target i))

/-- Renames without a check. Where names meet, the entry whose old name is greater stays. -/
def rename (c : WordCircuit) (kind : Kind) (new : Renaming) : WordCircuit :=
  let words := NameMap.rename (c.words kind) new.apply
  let graph := c.graph.rename kind (bitRenaming (c.words kind) new)
  match kind with
  | .input => { c with graph := graph, inputs := words }
  | .latch => { c with graph := graph, latches := words }
  | .output => { c with graph := graph, outputs := words }

/-- Renames unless two words would meet. -/
def relabel (c : WordCircuit) (kind : Kind) (new : Renaming) : Except Fault WordCircuit :=
  match firstClash [] new.apply (c.words kind).keys with
  | some name => throw (.word (.relabelClash kind name (new.apply name)))
  | none => return c.rename kind new

end AndInverter.WordCircuit
