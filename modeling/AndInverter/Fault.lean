import AndInverter.Fault.Circuit
import AndInverter.Fault.Reading
import AndInverter.Fault.Violation

/-! What can go wrong. A refusal answers arguments that do not fit together, a malformed line is
text that no rule of the file format covers, a violation is a broken precondition, and a
representation is inconsistent where a table lacks an entry that it should have, or where a number is
out of the range that it has. -/

namespace AndInverter

inductive Refusal where
  | circuit (cause : CircuitRefusal)
  | reading (cause : ReadingRefusal)
  | word (cause : WordRefusal)
deriving DecidableEq

def Refusal.message : Refusal → String
  | .circuit cause => cause.message
  | .reading cause => cause.message
  | .word cause => cause.message

inductive Fault where
  | refused (cause : Refusal)
  | malformed
  | violated (cause : Violation)
  | inconsistent
deriving DecidableEq

namespace Fault

def circuit (cause : CircuitRefusal) : Fault := .refused (.circuit cause)

def reading (cause : ReadingRefusal) : Fault := .refused (.reading cause)

def word (cause : WordRefusal) : Fault := .refused (.word cause)

/-- An entry that the representation promises. -/
def promised {α : Type} : Option α → Except Fault α
  | some a => .ok a
  | none => .error .inconsistent

end Fault

end AndInverter
