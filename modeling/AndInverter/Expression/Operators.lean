import AndInverter.Expression.Join
import AndInverter.WordGate.Arithmetic
import AndInverter.WordGate.Compare
import AndInverter.WordGate.Logic

/-! The operators of expressions. Arithmetic is modulo two to the power of the size. The left-hand
side says whether comparisons and right shifts are signed. -/

namespace AndInverter.Expression

/-- The bits from `start` on up to `stop`, unsigned. -/
def slice (e : Expression) (start stop : Nat) : Draw Expression :=
  return ⟨← e.unary (WordGate.slice e.size start stop), false⟩

def bit (e : Expression) (index : Nat) : Draw Expression := e.slice index (index + 1)

/-- Concatenation: `e` has the low bits. -/
def concat (e f : Expression) : Draw Expression := do
  let (c, a, b) ← pair e f
  return ⟨← c.chain (← WordGate.combine e.size a f.size b (← Draw.fresh)), e.signed⟩

/-- Concatenates `e` to `acc` a number of times. -/
def concatTimes (e acc : Expression) : Nat → Draw Expression
  | 0 => return acc
  | times + 1 => do e.concatTimes (← acc.concat e) times

/-- So many copies of the word, at least one, one after the other. -/
def copies (e : Expression) (times : Nat) : Draw Expression := do
  if times = 0 then
    throw (.violated .zeroRepeat)
  if e.size = 1 then
    return ⟨← e.unary (WordGate.copies times), e.signed⟩
  e.concatTimes e (times - 1)

/-- The word of `thenCase` where the bit `test` is set, and that of `elseCase` where it is not. -/
def ite (test thenCase elseCase : Expression) : Draw Expression := do
  if test.size ≠ 1 then
    throw (.violated .wideCondition)
  if thenCase.size ≠ elseCase.size then
    throw (.violated .branchSizes)
  let (c, t, a, b) ← triple test thenCase elseCase
  return ⟨← c.chain (← WordGate.mux thenCase.size t a b (← Draw.fresh)), thenCase.signed⟩

def not (e : Expression) : Draw Expression :=
  return ⟨← e.unary (WordGate.bitwiseNegate e.size), e.signed⟩

def neg (e : Expression) : Draw Expression :=
  return ⟨← e.unary (WordGate.negate e.size), e.signed⟩

/-- The absolute value. An unsigned expression is its own. -/
def abs (e : Expression) : Draw Expression := do
  if e.signed then
    return ⟨← e.unary (WordGate.abs e.size), true⟩
  return e

def shiftLeft (e : Expression) (shift : Nat) : Draw Expression :=
  return ⟨← e.unary (WordGate.leftShift e.size shift), e.signed⟩

/-- A signed word is filled with its sign, an unsigned one with zeros. -/
def shiftRight (e : Expression) (shift : Nat) : Draw Expression := do
  let gate := if e.signed then WordGate.arithmeticRightShift else WordGate.logicalRightShift
  return ⟨← e.unary (gate e.size shift), e.signed⟩

def add (e : Expression) (other : Operand) : Draw Expression := do
  let gate width left right output := WordGate.add width left right output false
  return ⟨← e.binary other gate none, e.signed⟩

def sub (e : Expression) (other : Operand) : Draw Expression := do
  let gate width left right output := WordGate.subtract width left right output false
  return ⟨← e.binary other gate (some (e.constantLike e.size 0)), e.signed⟩

def and (e : Expression) (other : Operand) : Draw Expression :=
  return ⟨← e.binary other WordGate.bitwiseAnd (some (pure e.circuit)), e.signed⟩

def or (e : Expression) (other : Operand) : Draw Expression :=
  return ⟨← e.binary other WordGate.bitwiseOr (some (pure e.circuit)), e.signed⟩

def xor (e : Expression) (other : Operand) : Draw Expression :=
  return ⟨← e.binary other WordGate.bitwiseXor (some (e.constantLike e.size 0)), e.signed⟩

/-- The parity of the bitwise product. -/
def dot (e : Expression) (other : Operand) : Draw Expression :=
  return ⟨← e.binary other WordGate.dotMod2 (some (e.unary (WordGate.parity e.size))), false⟩

def ne (e : Expression) (other : Operand) : Draw Expression :=
  return ⟨← e.binary other WordGate.ne (some (e.constantLike 1 0)), false⟩

def eq (e : Expression) (other : Operand) : Draw Expression := do
  (← e.ne other).not

def le (e : Expression) (other : Operand) : Draw Expression := do
  let gate := if e.signed then WordGate.signedLe else WordGate.unsignedLe
  return ⟨← e.binary other gate (some (e.constantLike 1 1)), false⟩

def ge (e : Expression) (other : Operand) : Draw Expression := do
  let gate := if e.signed then WordGate.signedGe else WordGate.unsignedGe
  return ⟨← e.binary other gate (some (e.constantLike 1 1)), false⟩

def lt (e : Expression) (other : Operand) : Draw Expression := do
  (← e.ge other).not

def gt (e : Expression) (other : Operand) : Draw Expression := do
  (← e.le other).not

end AndInverter.Expression
