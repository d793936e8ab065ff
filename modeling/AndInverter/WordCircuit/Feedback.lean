import AndInverter.Graph.Feedback
import AndInverter.WordCircuit.Basic

/-! Closing loops over words: an output word becomes the next state of a new latch word, and the
latch drives an input word. -/

namespace AndInverter

/-- A loop to close over words. The initial value is zero where none is given. -/
structure WordLoop where
  input : String
  output : String
  latch : String
  init : Option Word

/-- A loop over words with the size of its words. -/
structure SizedLoop where
  input : String
  output : String
  latch : String
  init : Word
  size : Nat

namespace WordCircuit

/-- Adds the latch of a loop to the latches so far and finds its size. The words must exist, have
the same size, and the latch must be new. -/
def addLoop (c : WordCircuit) (state : Bundle × List SizedLoop) (loop : WordLoop) :
    Except Fault (Bundle × List SizedLoop) := do
  let (latches, loops) := state
  match c.inputs[loop.input]? with
  | none => throw (.circuit (.unknownInput loop.input))
  | some size =>
    match c.outputs[loop.output]? with
    | none => throw (.circuit (.unknownOutput loop.output))
    | some outputSize =>
      if size ≠ outputSize then
        throw (.word (.feedbackSize loop.input size loop.output outputSize))
      if latches.contains loop.latch then
        throw (.circuit (.latchExists loop.latch))
      let init := loop.init.getD (List.replicate size false)
      if init.length ≠ size then
        throw (.word (.initialSize loop.latch init.length size))
      return (latches.insert loop.latch size,
        loops ++ [⟨loop.input, loop.output, loop.latch, init, size⟩])

/-- Lists of words, position by position, as loops. -/
def loops (inputs outputs : List String) (initials : Option (List Word))
    (latches : Option (List String)) : Except Fault (List WordLoop) := do
  let latches := latches.getD inputs
  let initials := initials.map (·.map some)
  let initials := initials.getD (List.replicate inputs.length none)
  if inputs.length ≠ outputs.length || inputs.length ≠ latches.length then
    throw (.word .feedbackCounts)
  if initials.length ≠ inputs.length then
    throw (.word .feedbackInitials)
  return (inputs.zip outputs).zipWith
    (fun (input, output) (latch, init) => ⟨input, output, latch, init⟩) (latches.zip initials)

/-- Drives each input word by a new latch word that follows an output word. The outputs used are
dropped unless they are to be kept. -/
def feedback (c : WordCircuit) (inputs outputs : List String) (initials : Option (List Word))
    (latches : Option (List String)) (keepOutputs : Bool) : Except Fault WordCircuit := do
  let (latchWords, sized) ← (← loops inputs outputs initials latches).foldlM c.addLoop
    (c.latches, [])
  let graph ← c.graph.feedback
    (sized.flatMap fun loop => Word.bitNames loop.input loop.size)
    (sized.flatMap fun loop => Word.bitNames loop.output loop.size)
    (some (sized.flatMap (·.init)))
    (some (sized.flatMap fun loop => Word.bitNames loop.latch loop.size))
    keepOutputs
  return {
    graph
    inputs := NameMap.without c.inputs inputs
    outputs := if keepOutputs then c.outputs else NameMap.without c.outputs outputs
    latches := latchWords }

end WordCircuit

end AndInverter
