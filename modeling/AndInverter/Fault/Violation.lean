import AndInverter.Fault.Word

/-! Preconditions that the caller of an operation owes. Breaking one is a mistake in the use of
the library, while a refusal is an answer to expect. -/

namespace AndInverter

inductive Violation where
  | missingNode (id : Nat)
  | duplicateLatch (name : String)
  | unknownLatch (name : String)
  | duplicateOutput
  | notAGate (id : Nat)
  | inputSizes (name : String) (old new : Nat)
  | duplicateWord (name : String)
  | invalidSlice (start stop width : Nat)
  | unfitConstant (cause : WordRefusal)
  | wideCondition
  | branchSizes
  | operandSizes
  | sharedInputSizes
  | zeroRepeat
deriving DecidableEq

def Violation.message : Violation → String
  | .missingNode id => s!"Node {id} does not exist"
  | .duplicateLatch name => s!"Duplicate latch '{name}'"
  | .unknownLatch name => s!"Latch '{name}' does not exist"
  | .duplicateOutput => "Duplicate output"
  | .notAGate id => s!"Node with id {id} is not an AND gate"
  | .inputSizes name old new => s!"Input word '{name}' is used with sizes {old} and {new}"
  | .duplicateWord name => s!"Duplicate output word '{name}'"
  | .invalidSlice start stop width => s!"Invalid slice {start}..{stop} of a {width}-bit word"
  | .unfitConstant cause => cause.message
  | .wideCondition => "Condition of ite must be a single bit"
  | .branchSizes => "Branches of ite differ in size"
  | .operandSizes => "Operands differ in size"
  | .sharedInputSizes => "Shared inputs differ in size"
  | .zeroRepeat => "Can not repeat a word zero times"

end AndInverter
