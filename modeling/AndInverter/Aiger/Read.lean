import AndInverter.Aiger.File
import AndInverter.Graph.Build
import AndInverter.Layering

/-! The graph of a file. Every variable is defined once, as an input, a latch or a gate. Gates may be
listed in any order; they are built layer by layer, by variable within a layer, so the graph does not
depend on their order in the file. -/

namespace AndInverter

namespace Aiger

/-- The literals of the variables defined so far. -/
abbrev Definitions := Std.ExtTreeMap Nat Literal

namespace Definitions

def start : Definitions := (∅ : Definitions).insert 0 (.ofBool false)

def define (defs : Definitions) (var : Nat) (l : Literal) : Except Fault Definitions :=
  if defs.contains var then .error (.reading (.duplicateVariable var))
  else .ok (defs.insert var l)

/-- The literal of the graph for a literal of the file. -/
def resolve (defs : Definitions) (l : Literal) : Except Fault Literal :=
  match defs[l.id]? with
  | some r => .ok (if l.negated then -r else r)
  | none => .error (.reading (.undefinedVariable l.id))

end Definitions

/-- The names of the positions of one kind. -/
def File.names (f : File) (kind : Kind) (count : Nat) : List String :=
  (List.range count).map (f.symbols.name kind)

def addInput (defs : Definitions) (entry : String × Nat) : Build Definitions := do
  let (name, var) := entry
  if (← get).inputs.contains name then
    throw (.reading (.duplicateName .input name))
  defs.define var (← Build.input name)

def addLatch (defs : Definitions) (entry : String × LatchLine) : Build Definitions := do
  let (name, latch) := entry
  if (← get).latches.contains name then
    throw (.reading (.duplicateName .latch name))
  defs.define latch.var (← Build.latch name latch.init)

/-- Adds the gate that defines a variable, if there is one. -/
def addGate (gates : Std.ExtTreeMap Nat GateLine) (defs : Definitions) (var : Nat) :
    Build Definitions := do
  match gates[var]? with
  | none => return defs
  | some gate =>
    let left ← defs.resolve gate.left
    let right ← defs.resolve gate.right
    defs.define gate.var (← Build.and left right)

def addGates (lines : List GateLine) (defs : Definitions) : Build Definitions := do
  let gates := Std.ExtTreeMap.ofList (lines.map fun gate => (gate.var, gate)) compare
  if gates.size ≠ lines.length then
    throw (.reading .duplicateGate)
  let layering := Layering.fromLeaves
    (gates.toList.map fun (var, gate) => (var, [gate.left.id, gate.right.id]))
  let defs ← layering.layers.flatten.foldlM (addGate gates) defs
  if layering.isCyclic then
    throw (.reading .cyclicGates)
  return defs

def setLatch (defs : Definitions) (entry : String × LatchLine) : Build Unit := do
  let (name, latch) := entry
  Build.setNext name (← defs.resolve latch.next)

def addOutput (defs : Definitions) (entry : String × Literal) : Build Unit := do
  let (name, l) := entry
  if (← get).outputs.contains name then
    throw (.reading (.duplicateName .output name))
  Build.output name (← defs.resolve l)

/-- The graph of a file, each position under its name. -/
def File.graph (f : File) : Except Fault Graph :=
  Build.graph do
    let inputs := (f.names .input f.inputs.length).zip f.inputs
    let latches := (f.names .latch f.latches.length).zip f.latches
    let outputs := (f.names .output f.outputs.length).zip f.outputs
    let defs ← inputs.foldlM addInput Definitions.start
    let defs ← latches.foldlM addLatch defs
    let defs ← addGates f.gates defs
    latches.forM (setLatch defs)
    outputs.forM (addOutput defs)

def readLines (lines : List String) : Except Fault Graph := do
  (← File.ofLines lines).graph

def readText (text : String) : Except Fault Graph :=
  readLines (Text.lines text)

/-- The graph of a stored file with the given content, if it exists. -/
def readStored (path : String) (content : Option ByteArray) : Except Fault Graph := do
  match content with
  | none => throw (.reading (.noSuchFile path))
  | some bytes =>
    match String.fromUTF8? bytes with
    | none => throw (.reading (.notUnicode path))
    | some text => readText text

end Aiger

end AndInverter
