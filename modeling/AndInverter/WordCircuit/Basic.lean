import AndInverter.Graph.Relabel
import AndInverter.Word.Bundle

/-! Circuits over words: a graph whose inputs, outputs and latches are the bits of words. Bit `i` of
the word `x` is the object `x[i]` of the graph. -/

namespace AndInverter

structure WordCircuit where
  graph : Graph
  inputs : Bundle
  outputs : Bundle
  latches : Bundle

namespace WordCircuit

def empty : WordCircuit := ⟨.empty, ∅, ∅, ∅⟩

/-- Circuits are the same when their graphs and their words are. -/
def same (c d : WordCircuit) : Bool :=
  c.graph.same d.graph && c.inputs == d.inputs && c.outputs == d.outputs && c.latches == d.latches

def words (c : WordCircuit) : Kind → Bundle
  | .input => c.inputs
  | .latch => c.latches
  | .output => c.outputs

/-- Every bit of the words must be an object of the graph. -/
def requireBits (g : Graph) (kind : Kind) (words : Bundle) : Except Fault Unit :=
  match words.missingBit? (g.hasName kind) with
  | some bit => .error (.word (.missingBit kind bit))
  | none => .ok ()

/-- The circuit over the given words. Other objects of the graph belong to no word. -/
def ofGraph (g : Graph) (inputs outputs latches : Bundle) : Except Fault WordCircuit := do
  requireBits g .input inputs
  requireBits g .output outputs
  requireBits g .latch latches
  return ⟨g, inputs, outputs, latches⟩

/-- Each name with the name of its only bit. -/
def liftedNames (names : List String) : Renaming :=
  NameMap.ofPairs (names.map fun name => (name, Word.bitName name 0))

/-- Words of one bit. -/
def liftedWords (names : List String) : Bundle :=
  NameMap.ofPairs (names.map fun name => (name, 1))

/-- Makes every object of a graph a word of one bit. -/
def lift (g : Graph) : WordCircuit :=
  { graph := ((g.rename .input (liftedNames (g.names .input))).rename
      .output (liftedNames (g.names .output))).rename .latch (liftedNames (g.names .latch))
    inputs := liftedWords (g.names .input)
    outputs := liftedWords (g.names .output)
    latches := liftedWords (g.names .latch) }

/-- Adds a bit to the indices seen of its word. -/
def collectBit (groups : NameMap (List Nat)) (name : String) :
    Except Fault (NameMap (List Nat)) :=
  match Word.splitBit? name with
  | none => .error (.word (.notABit name))
  | some (root, index) => .ok (groups.insert root (index :: (groups[root]?).getD []))

/-- The size of a word whose bits have the given indices, which must be those from zero on. -/
def wordSize (entry : String × List Nat) : Except Fault (String × Nat) :=
  let (root, indices) := entry
  if indices.mergeSort == List.range indices.length then
    .ok (root, indices.length)
  else
    .error (.word (.irregularBits root indices.length))

/-- The words that bits belong to. -/
def groupBits (names : List String) : Except Fault Bundle := do
  let groups ← names.foldlM collectBit ∅
  return NameMap.ofPairs (← groups.toList.mapM wordSize)

/-- Finds the words of a graph all of whose objects are bits. -/
def rebundle (g : Graph) : Except Fault WordCircuit := do
  let inputs ← groupBits (g.names .input)
  let outputs ← groupBits (g.names .output)
  let latches ← groupBits (g.names .latch)
  return ⟨g, inputs, outputs, latches⟩

def render (c : WordCircuit) : String :=
  "AigBv(inputs=[" ++ c.inputs.render ++ "], latches=[" ++ c.latches.render ++ "], outputs=[" ++
    c.outputs.render ++ "], gates=" ++ toString c.graph.gateCount ++ ")"

end WordCircuit

end AndInverter
