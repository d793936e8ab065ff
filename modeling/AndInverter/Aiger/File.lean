import AndInverter.Aiger.Text
import AndInverter.Fault
import AndInverter.Literal
import Std.Data.ExtTreeMap

/-! Files of the ASCII AIGER format. The header `aag M I L O A` gives the greatest variable and the
numbers of inputs, latches, outputs and gates, whose lines follow in this order; then come symbols,
up to a line that starts a comment. Here a file is read line by line; what its literals mean
together is not looked at. -/

namespace AndInverter

namespace Aiger

open Text (Scanner)

def magic : String := "aag"

structure Header where
  max : Nat
  inputs : Nat
  latches : Nat
  outputs : Nat
  gates : Nat

/-- A latch: the variable that it defines, its next state and its initial value. -/
structure LatchLine where
  var : Nat
  next : Literal
  init : Bool

/-- A gate: the variable that it defines and its arguments. -/
structure GateLine where
  var : Nat
  left : Literal
  right : Literal

/-- The names given to positions. -/
abbrev Names := Std.ExtTreeMap Nat String

structure Symbols where
  inputs : Names
  latches : Names
  outputs : Names

namespace Symbols

def empty : Symbols := ⟨∅, ∅, ∅⟩

def names (s : Symbols) : Kind → Names
  | .input => s.inputs
  | .latch => s.latches
  | .output => s.outputs

def insert (s : Symbols) (kind : Kind) (position : Nat) (name : String) : Symbols :=
  match kind with
  | .input => { s with inputs := s.inputs.insert position name }
  | .latch => { s with latches := s.latches.insert position name }
  | .output => { s with outputs := s.outputs.insert position name }

/-- The name of a position: its symbol, or else the letter of the kind and the position. -/
def name (s : Symbols) (kind : Kind) (position : Nat) : String :=
  ((s.names kind)[position]?).getD (kind.letter.toString ++ toString position)

end Symbols

/-- The lines of a file in their order. -/
structure File where
  max : Nat
  /-- The variables of the inputs. -/
  inputs : List Nat
  latches : List LatchLine
  outputs : List Literal
  gates : List GateLine
  symbols : Symbols

/-- Reads a whole line. -/
def scanLine {α : Type} (part : FilePart) (p : Scanner α) (line : String) : Except Fault α :=
  match p line.toList with
  | none => .error .malformed
  | some (a, []) => .ok a
  | some (_, rest) => .error (.reading (.extraData part (String.ofList rest)))

def scanHeader : Scanner Header := do
  Scanner.exactly magic.toList
  let max ← Scanner.nextNumber
  let inputs ← Scanner.nextNumber
  let latches ← Scanner.nextNumber
  let outputs ← Scanner.nextNumber
  let gates ← Scanner.nextNumber
  return ⟨max, inputs, latches, outputs, gates⟩

def readHeader (line : String) : Except Fault Header := do
  let h ← scanLine .header scanHeader line
  if h.max < h.inputs + h.latches + h.gates then
    throw (.reading (.headerTooSmall h.max h.inputs h.latches h.outputs h.gates))
  return h

/-- The variable of a literal must not be greater than the greatest one. -/
def checkRange (max : Nat) (role : LiteralRole) (n : Nat) : Except Fault Unit :=
  if n / 2 ≤ max then .ok () else .error (.reading (.outOfRange role n max))

def readInput (max : Nat) (line : String) : Except Fault Nat := do
  let n ← scanLine .input Scanner.number line
  if n % 2 == 1 then
    throw (.reading (.oddInput n))
  if n == 0 then
    throw (.reading (.constantDefinition .input))
  checkRange max .input n
  return n / 2

/-- A literal that defines its variable is neither negated nor constant. -/
def checkDefinition (role : LiteralRole) (n : Nat) : Except Fault Unit := do
  if n % 2 == 1 then
    throw (.reading (.oddDefinition role n))
  if n == 0 then
    throw (.reading (.constantDefinition role))

def scanLatch : Scanner (Nat × Nat × Option Nat) := do
  let n ← Scanner.number
  let next ← Scanner.nextNumber
  let init ← Scanner.maybe Scanner.nextNumber
  return (n, next, init)

/-- An initial value is `0` or `1`, and `0` where it is left out. The literal of the latch itself in
this place, which leaves the value open, is not accepted. -/
def readInitial (n : Nat) : Option Nat → Except Fault Bool
  | none => .ok false
  | some 0 => .ok false
  | some 1 => .ok true
  | some value =>
    .error (.reading (if value = n then .uninitializedLatch n else .invalidInitial value))

def readLatch (max : Nat) (line : String) : Except Fault LatchLine := do
  let (n, next, init) ← scanLine .latch scanLatch line
  checkDefinition .latch n
  let init ← readInitial n init
  checkRange max .latch n
  checkRange max .latchNext next
  return ⟨n / 2, .ofRaw next, init⟩

def readOutput (max : Nat) (line : String) : Except Fault Literal := do
  let n ← scanLine .output Scanner.number line
  checkRange max .output n
  return .ofRaw n

def scanGate : Scanner (Nat × Nat × Nat) := do
  let n ← Scanner.number
  let left ← Scanner.nextNumber
  let right ← Scanner.nextNumber
  return (n, left, right)

def readGate (max : Nat) (line : String) : Except Fault GateLine := do
  let (n, left, right) ← scanLine .gate scanGate line
  checkDefinition .gate n
  checkRange max .gate n
  checkRange max .gateArgument left
  checkRange max .gateArgument right
  return ⟨n / 2, .ofRaw left, .ofRaw right⟩

/-- Reads `count` lines of one part. Gives what they hold and the lines after them. -/
def readPart {α : Type} (part : FilePart) (read : String → Except Fault α) :
    Nat → List String → Except Fault (List α × List String)
  | 0, lines => .ok ([], lines)
  | _ + 1, [] => .error (.reading (.missingLine part))
  | count + 1, line :: lines => do
    let a ← read line
    let (as, rest) ← readPart part read count lines
    return (a :: as, rest)

def kindOf : Char → Option Kind
  | 'i' => some .input
  | 'l' => some .latch
  | 'o' => some .output
  | _ => none

/-- A symbol: the letter of a kind, a position, a blank, and the name up to the end of the line. -/
def scanSymbol : Scanner (Kind × Nat × String) := do
  let kind ← kindOf (← Scanner.char)
  let position ← Scanner.number
  Scanner.blank
  return (kind, position, String.ofList (← getModify fun _ => []))

/-- Reads a symbol. There are `count kind` positions of a kind, and each may have one symbol. -/
def readSymbol (count : Kind → Nat) (symbols : Symbols) (line : String) :
    Except Fault Symbols := do
  match scanSymbol line.toList with
  | none => throw .malformed
  | some ((kind, position, name), _) =>
    if name.isEmpty then
      throw (.reading (.emptySymbol line))
    if position ≥ count kind then
      throw (.reading (.missingPosition line position))
    if (symbols.names kind).contains position then
      throw (.reading (.duplicateSymbol kind position))
    return symbols.insert kind position name

/-- Reads symbols up to the first line that begins with `c`. Empty lines do not count. -/
def readSymbols (count : Kind → Nat) (lines : List String) : Except Fault Symbols :=
  let entries := lines.takeWhile fun line => line.toList.head? != some 'c'
  (entries.filter (!·.isEmpty)).foldlM (readSymbol count) Symbols.empty

/-- Reads the lines of a file. -/
def File.ofLines : List String → Except Fault File
  | [] => throw (.reading (.missingLine .header))
  | first :: lines => do
    let h ← readHeader first
    let (inputs, lines) ← readPart .input (readInput h.max) h.inputs lines
    let (latches, lines) ← readPart .latch (readLatch h.max) h.latches lines
    let (outputs, lines) ← readPart .output (readOutput h.max) h.outputs lines
    let (gates, lines) ← readPart .gate (readGate h.max) h.gates lines
    let count : Kind → Nat
      | .input => inputs.length
      | .latch => latches.length
      | .output => outputs.length
    let symbols ← readSymbols count lines
    return ⟨h.max, inputs, latches, outputs, gates, symbols⟩

end Aiger

end AndInverter
