import AndInverter.Kind

/-! Why an operation on words, on circuits over words or on expressions turns its arguments
down. -/

namespace AndInverter

inductive WordRefusal where
  | missingValue (name : String)
  | wrongSize (name : String) (size expected : Nat)
  | emptySigned
  | doesNotFit (value : Int64) (width : Nat) (signed : Bool)
  | missingBit (kind : Kind) (bit : String)
  | notABit (name : String)
  | irregularBits (root : String) (count : Nat)
  | interfaceSize (name : String) (left right : Nat)
  | sharedInputSizes
  | relabelClash (kind : Kind) (old new : String)
  | feedbackCounts
  | feedbackInitials
  | feedbackSize (input : String) (inputSize : Nat) (output : String) (outputSize : Nat)
  | initialSize (latch : String) (size expected : Nat)
  | untimedName (name : String)
  | outputCount (count : Nat)
  | hasLatches
  | missingOutput (name : String)
deriving DecidableEq

def WordRefusal.message : WordRefusal → String
  | .missingValue name => s!"Missing value for '{name}'"
  | .wrongSize name size expected =>
    s!"Value for '{name}' has {size} bits, expected {expected}"
  | .emptySigned => "Signed words need at least one bit"
  | .doesNotFit value width true =>
    s!"Value {value.toInt} does not fit into {width} signed bits"
  | .doesNotFit value width false =>
    s!"Value {value.toInt} does not fit into {width} unsigned bits"
  | .missingBit kind bit => s!"Missing {kind.label} bit '{bit}'"
  | .notABit name => s!"'{name}' is not a bit name"
  | .irregularBits root count => s!"Bits of '{root}' are not numbered 0..{count}"
  | .interfaceSize name left right =>
    s!"Word '{name}' has Some({left}) bits on the left and Some({right}) on the right"
  | .sharedInputSizes => "Shared inputs have different sizes"
  | .relabelClash kind old new =>
    s!"Relabeling {kind.title} '{old}' clashes with another word '{new}'"
  | .feedbackCounts => "Feedback needs as many inputs, outputs and latches"
  | .feedbackInitials => "Feedback needs one initial value per input"
  | .feedbackSize input inputSize output outputSize =>
    s!"Input '{input}' has {inputSize} bits but output '{output}' has {outputSize}"
  | .initialSize latch size expected =>
    s!"Initial value of '{latch}' has {size} bits, expected {expected}"
  | .untimedName name => s!"Unexpected unrolled name '{name}'"
  | .outputCount count => s!"Expression needs exactly one output word, got {count}"
  | .hasLatches => "Expression can not contain latches"
  | .missingOutput name => s!"Missing output '{name}'"

end AndInverter
