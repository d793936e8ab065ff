import AndInverter.Expression.Basic

/-! Bringing expressions together under a gate. -/

namespace AndInverter

/-- The right-hand side of a binary operator. -/
inductive Operand where
  | expression (e : Expression)
  /-- A constant, cut or extended to the size of the left-hand side. -/
  | int (value : Int64)

namespace Expression

/-- Puts an expression beside a circuit, whose output words are `taken`. If the output of the
expression is one of them it gets a new name. Gives the name it has then. -/
def attach (c : WordCircuit) (taken : List String) (e : Expression) :
    Draw (WordCircuit × String) := do
  let e ← if taken.contains e.output then e.withOutput <$> Draw.fresh else pure e
  if !c.inputs.agreesWith e.circuit.inputs then
    throw (.violated .sharedInputSizes)
  return (← c.beside e.circuit, e.output)

/-- Two expressions side by side, with the names of their words. -/
def pair (e f : Expression) : Draw (WordCircuit × String × String) := do
  let (c, a) ← attach .empty [] e
  let (c, b) ← attach c [a] f
  return (c, a, b)

/-- Three expressions side by side, with the names of their words. -/
def triple (e f g : Expression) : Draw (WordCircuit × String × String × String) := do
  let (c, a, b) ← pair e f
  let (c, d) ← attach c [a, b] g
  return (c, a, b, d)

/-- The expression that stands for an operand of `e`. -/
def operand (e : Expression) : Operand → Draw Expression
  | .expression f => return f
  | .int value => do
    return ⟨← WordGate.sourceBits (← Draw.fresh) (Word.wrap e.size value), e.signed⟩

/-- Feeds the word of the expression to a gate whose input and output words have the names given. -/
def unary (e : Expression) (gate : (input output : String) → Except Fault WordCircuit) :
    Draw WordCircuit := do
  e.circuit.chain (← gate e.output (← Draw.fresh))

/-- A constant word that keeps the inputs of the expression. -/
def constantLike (e : Expression) (size : Nat) (value : Int64) : Draw WordCircuit := do
  let constant ← WordGate.sourceBits (← Draw.fresh) (Word.wrap size value)
  constant.beside (← WordGate.sink e.circuit.inputs)

/-- Feeds the words of two expressions of the same size to a gate. Where both have the same circuit
a simpler circuit may take its place. -/
def binary (e : Expression) (other : Operand)
    (gate : (width : Nat) → (left right output : String) → Except Fault WordCircuit)
    (ifSame : Option (Draw WordCircuit)) : Draw WordCircuit := do
  let f ← e.operand other
  if e.size ≠ f.size then
    throw (.violated .operandSizes)
  match ifSame, e.circuit.same f.circuit with
  | some simpler, true => simpler
  | _, _ =>
    let (c, a, b) ← pair e f
    c.chain (← gate e.size a b (← Draw.fresh))

end Expression

end AndInverter
