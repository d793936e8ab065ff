import AndInverter.Kind

/-! Why a text is not accepted as an AIGER file. -/

namespace AndInverter

/-- The parts of a file whose number of lines the header fixes. -/
inductive FilePart where
  | header
  | input
  | latch
  | output
  | gate
deriving DecidableEq

def FilePart.label : FilePart → String
  | .header => "header"
  | .input => "input"
  | .latch => "latch"
  | .output => "output"
  | .gate => "gate"

/-- The places of a file where a literal may stand. -/
inductive LiteralRole where
  | input
  | latch
  | latchNext
  | output
  | gate
  | gateArgument
deriving DecidableEq

def LiteralRole.title : LiteralRole → String
  | .input => "Input"
  | .latch => "Latch"
  | .latchNext => "Latch next"
  | .output => "Output"
  | .gate => "Gate"
  | .gateArgument => "Gate argument"

inductive ReadingRefusal where
  | missingLine (part : FilePart)
  | extraData (part : FilePart) (rest : String)
  | headerTooSmall (max inputs latches outputs gates : Nat)
  | oddInput (literal : Nat)
  | oddDefinition (role : LiteralRole) (literal : Nat)
  | constantDefinition (role : LiteralRole)
  | uninitializedLatch (literal : Nat)
  | invalidInitial (value : Nat)
  | outOfRange (role : LiteralRole) (literal max : Nat)
  | emptySymbol (line : String)
  | missingPosition (line : String) (position : Nat)
  | duplicateSymbol (kind : Kind) (position : Nat)
  | duplicateName (kind : Kind) (name : String)
  | duplicateVariable (index : Nat)
  | duplicateGate
  | undefinedVariable (index : Nat)
  | cyclicGates
  | noSuchFile (path : String)
  | notUnicode (path : String)
deriving DecidableEq

def ReadingRefusal.message : ReadingRefusal → String
  | .missingLine part => s!"Missing {part.label}"
  | .extraData part rest => s!"Extra data after {part.label}: {rest}"
  | .headerTooSmall max inputs latches outputs gates =>
    s!"Invalid header ({max}, {inputs}, {latches}, {outputs}, {gates}): M < I + L + A"
  | .oddInput literal => s!"Input must be even: {literal}"
  | .oddDefinition role literal => s!"{role.title} literal must be even: {literal}"
  | .constantDefinition role => s!"{role.title} cannot be the constant"
  | .uninitializedLatch literal => s!"Uninitialized latch {literal} is not supported"
  | .invalidInitial value => s!"Invalid latch initial value {value}"
  | .outOfRange role literal max =>
    s!"{role.title} literal {literal} is greater than max {max}"
  | .emptySymbol line => s!"Empty symbol name: {line}"
  | .missingPosition line position =>
    s!"Symbol '{line}' refers to missing position {position}"
  | .duplicateSymbol kind position => s!"Duplicate symbol for {kind.letter}{position}"
  | .duplicateName kind name => s!"Duplicate {kind.label} name '{name}'"
  | .duplicateVariable index => s!"Duplicate definition of variable {index}"
  | .duplicateGate => "Duplicate gate definition"
  | .undefinedVariable index => s!"Undefined variable {index}"
  | .cyclicGates => "Combinational cycle between gates"
  | .noSuchFile path => s!"Failed to open {path}: No such file or directory (os error 2)"
  | .notUnicode path => s!"Failed to read {path}: stream did not contain valid UTF-8"

end AndInverter
