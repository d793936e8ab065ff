import AndInverter.Graph.Embed

/-! Closing loops: an output becomes the next state of a new latch, and the latch drives an
input. -/

namespace AndInverter

/-- A loop to close. -/
structure Loop where
  input : String
  output : String
  latch : String
  init : Bool

namespace Graph

/-- Lists of names and values, position by position, as loops. Latches are named like the inputs and
start at false where nothing else is said. -/
def loops (g : Graph) (inputs outputs : List String) (initials : Option (List Bool))
    (latches : Option (List String)) : Except Fault (List Loop) := do
  let latches := latches.getD inputs
  let initials := initials.getD (List.replicate inputs.length false)
  if outputs.length ≠ inputs.length then
    throw (.circuit (.feedbackOutputs outputs.length inputs.length))
  if latches.length ≠ inputs.length then
    throw (.circuit (.feedbackLatches latches.length inputs.length))
  if initials.length ≠ inputs.length then
    throw (.circuit (.feedbackInitials initials.length inputs.length))
  if let some name := inputs.find? (!g.inputs.contains ·) then
    throw (.circuit (.unknownInput name))
  if let some name := outputs.find? (!g.outputs.contains ·) then
    throw (.circuit (.unknownOutput name))
  if let some name := firstClash g.latches.keys id latches then
    throw (.circuit (.latchExists name))
  if let some name := firstClash [] id inputs then
    throw (.circuit (.fedTwice name))
  return (inputs.zip outputs).zipWith
    (fun (input, output) (latch, init) => ⟨input, output, latch, init⟩) (latches.zip initials)

/-- Closes loops that are known to fit. -/
def closeLoops (g : Graph) (loops : List Loop) (keepOutputs : Bool) : Except Fault Graph :=
  Build.graph do
    let drivers ← loops.mapM fun loop => do
      return (loop.input, ← Build.latch loop.latch loop.init)
    let outputs ← Build.embedDriven (NameMap.ofPairs drivers) g
    loops.forM fun loop => do
      Build.setNext loop.latch (← Fault.promised outputs[loop.output]?)
    Build.outputs (if keepOutputs then outputs else outputs.without (loops.map (·.output)))

/-- Drives each input by a new latch that follows an output. The outputs used are dropped unless
they are to be kept. -/
def feedback (g : Graph) (inputs outputs : List String) (initials : Option (List Bool))
    (latches : Option (List String)) (keepOutputs : Bool) : Except Fault Graph := do
  g.closeLoops (← g.loops inputs outputs initials latches) keepOutputs

end Graph

end AndInverter
