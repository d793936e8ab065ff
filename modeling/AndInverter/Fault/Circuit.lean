import AndInverter.Kind

/-! Why an operation on circuits turns its arguments down. -/

namespace AndInverter

inductive CircuitRefusal where
  | missingInput (name : String)
  | sharedLatch (name : String)
  | sharedOutput (name : String)
  | relabelClash (kind : Kind) (old new : String)
  | feedbackOutputs (outputs inputs : Nat)
  | feedbackLatches (latches inputs : Nat)
  | feedbackInitials (initials inputs : Nat)
  | unknownInput (name : String)
  | unknownOutput (name : String)
  | latchExists (name : String)
  | fedTwice (name : String)
  | latchIsOutput (name : String)
  | latchIsInput (name : String)
deriving DecidableEq

def CircuitRefusal.message : CircuitRefusal → String
  | .missingInput name => s!"Missing value for input '{name}'"
  | .sharedLatch name => s!"Latch '{name}' is present in both circuits"
  | .sharedOutput name => s!"Output '{name}' is present in both circuits"
  | .relabelClash kind old new =>
    s!"Relabeling {kind.title} '{old}' clashes with another name '{new}'"
  | .feedbackOutputs outputs inputs =>
    s!"Feedback needs as many outputs ({outputs}) as inputs ({inputs})"
  | .feedbackLatches latches inputs =>
    s!"Feedback needs as many latches ({latches}) as inputs ({inputs})"
  | .feedbackInitials initials inputs =>
    s!"Feedback needs as many initial values ({initials}) as inputs ({inputs})"
  | .unknownInput name => s!"Unknown input '{name}'"
  | .unknownOutput name => s!"Unknown output '{name}'"
  | .latchExists name => s!"Latch '{name}' already exists"
  | .fedTwice name => s!"Input '{name}' is fed back twice"
  | .latchIsOutput name => s!"Latch '{name}' clashes with an output of the same name"
  | .latchIsInput name => s!"Latch '{name}' clashes with an input of the same name"

end AndInverter
