/-! The three kinds of named objects of a circuit. Each kind has names of its own: an input and an
output may share a name. -/

namespace AndInverter

inductive Kind where
  | input
  | latch
  | output
deriving DecidableEq

namespace Kind

def label : Kind → String
  | .input => "input"
  | .latch => "latch"
  | .output => "output"

def title : Kind → String
  | .input => "Input"
  | .latch => "Latch"
  | .output => "Output"

/-- The letter that marks the kind in a symbol table. -/
def letter : Kind → Char
  | .input => 'i'
  | .latch => 'l'
  | .output => 'o'

end Kind

end AndInverter
