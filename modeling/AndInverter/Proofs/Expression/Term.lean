import AndInverter.Expression.Operators
import AndInverter.Proofs.Word.Shape

/-! Terms over words of fixed size: what expressions are written down as, with the number that they
stand for. Arithmetic is modulo two to the power of the size. The left-hand side says whether
comparisons and right shifts are signed. -/

namespace AndInverter

/-- The operators on one word. -/
inductive UnaryOp where
  | bit (index : Nat)
  | slice (start stop : Nat)
  | copies (times : Nat)
  | not
  | neg
  | abs
  | shiftLeft (shift : Nat)
  | shiftRight (shift : Nat)

namespace UnaryOp

def apply (e : Expression) : UnaryOp → Draw Expression
  | bit index => e.bit index
  | slice start stop => e.slice start stop
  | copies times => e.copies times
  | not => e.not
  | neg => e.neg
  | abs => e.abs
  | shiftLeft shift => e.shiftLeft shift
  | shiftRight shift => e.shiftRight shift

def size (width : Nat) : UnaryOp → Nat
  | bit _ => 1
  | slice start stop => stop - start
  | copies times => width * times
  | not | neg | abs | shiftLeft _ | shiftRight _ => width

def signed (signed : Bool) : UnaryOp → Bool
  | bit _ | slice _ _ => false
  | copies _ | not | neg | abs | shiftLeft _ | shiftRight _ => signed

/-- Whether the operator is one on words of that size. -/
def Fits (width : Nat) : UnaryOp → Prop
  | bit index => index < width
  | slice start stop => start < stop ∧ stop ≤ width
  | copies times => times ≠ 0
  | not | neg | abs | shiftLeft _ | shiftRight _ => True

def denote {width : Nat} (signed : Bool) (x : BitVec width) : (op : UnaryOp) → BitVec (op.size width)
  | bit index => BitVec.ofBool (x.getLsbD index)
  | slice start stop => x.extractLsb' start (stop - start)
  | copies times => x.replicate times
  | not => ~~~x
  | neg => -x
  | abs => if signed then x.abs else x
  | shiftLeft shift => x <<< shift
  | shiftRight shift => if signed then x.sshiftRight shift else x >>> shift

/-- A right shift reads no position that is out of range. -/
def ShiftFits (width : Nat) : UnaryOp → Prop
  | shiftRight shift => Word.ShiftFits width shift
  | _ => True

/-- What the operator gives also where a position wraps around. -/
def compute {width : Nat} (signed : Bool) (x : BitVec width) :
    (op : UnaryOp) → BitVec (op.size width)
  | shiftRight shift => Word.shiftedRight signed shift x
  | op => op.denote signed x

theorem compute_eq {width : Nat} {op : UnaryOp} (fits : op.ShiftFits width) (signed : Bool)
    (x : BitVec width) : op.compute signed x = op.denote signed x := by
  cases op with
  | shiftRight shift => exact Word.shiftedRight_eq fits signed x
  | _ => rfl

end UnaryOp

/-- The operators on two words of the same size, of which the second one may be an integer. -/
inductive BinaryOp where
  | add
  | sub
  | and
  | or
  | xor
  | dot
  | eq
  | ne
  | lt
  | le
  | gt
  | ge

namespace BinaryOp

def apply (e : Expression) (other : Operand) : BinaryOp → Draw Expression
  | add => e.add other
  | sub => e.sub other
  | and => e.and other
  | or => e.or other
  | xor => e.xor other
  | dot => e.dot other
  | eq => e.eq other
  | ne => e.ne other
  | lt => e.lt other
  | le => e.le other
  | gt => e.gt other
  | ge => e.ge other

def size (width : Nat) : BinaryOp → Nat
  | add | sub | and | or | xor => width
  | dot | eq | ne | lt | le | gt | ge => 1

def signed (signed : Bool) : BinaryOp → Bool
  | add | sub | and | or | xor => signed
  | dot | eq | ne | lt | le | gt | ge => false

def denote {width : Nat} (signed : Bool) (x y : BitVec width) :
    (op : BinaryOp) → BitVec (op.size width)
  | add => x + y
  | sub => x - y
  | and => x &&& y
  | or => x ||| y
  | xor => x ^^^ y
  | dot => BitVec.ofBool (Word.parity (x &&& y))
  | eq => BitVec.ofBool (x == y)
  | ne => BitVec.ofBool (x != y)
  | lt => BitVec.ofBool (if signed then x.slt y else x.ult y)
  | le => BitVec.ofBool (if signed then x.sle y else x.ule y)
  | gt => BitVec.ofBool (if signed then y.slt x else y.ult x)
  | ge => BitVec.ofBool (if signed then y.sle x else y.ule x)

end BinaryOp

/-- What an expression is built from. -/
inductive Term where
  | input (name : String) (width : Nat) (signed : Bool)
  | const (width : Nat) (value : Int64) (signed : Bool)
  | unary (op : UnaryOp) (t : Term)
  | binary (op : BinaryOp) (t u : Term)
  /-- Concatenation: `t` has the low bits. -/
  | concat (t u : Term)
  | ite (test t u : Term)

namespace Term

def size : Term → Nat
  | input _ width _ => width
  | const width _ _ => width
  | unary op t => op.size t.size
  | binary op t _ => op.size t.size
  | concat t u => u.size + t.size
  | ite _ t _ => t.size

/-- Whether the term is read as a signed integer. -/
def signed : Term → Bool
  | input _ _ signed => signed
  | const _ _ signed => signed
  | unary op t => op.signed t.signed
  | binary op t _ => op.signed t.signed
  | concat t _ => t.signed
  | ite _ t _ => t.signed

/-- The input words of the term, with their sizes. -/
def inputs : Term → List (String × Nat)
  | input name width _ => [(name, width)]
  | const _ _ _ => []
  | unary _ t => t.inputs
  | binary _ t u => t.inputs ++ u.inputs
  | concat t u => t.inputs ++ u.inputs
  | ite test t u => test.inputs ++ t.inputs ++ u.inputs

/-- The number that the term stands for. Input words of the same name are one word. -/
def denote (env : String → Word) : (t : Term) → BitVec t.size
  | input name width _ => (env name).toBitVec width
  | const width value _ => BitVec.ofInt width value.toInt
  | unary op t => op.denote t.signed (t.denote env)
  | binary op t u => op.denote t.signed (t.denote env) ((u.denote env).setWidth t.size)
  | concat t u => u.denote env ++ t.denote env
  | ite test t u =>
    if (test.denote env).setWidth 1 = 1#1 then t.denote env else (u.denote env).setWidth t.size

/-- No right shift of the term reads a position that is out of range. -/
def ShiftsFit : Term → Prop
  | input _ _ _ | const _ _ _ => True
  | unary op t => op.ShiftFits t.size ∧ t.ShiftsFit
  | binary _ t u | concat t u => t.ShiftsFit ∧ u.ShiftsFit
  | ite test t u => test.ShiftsFit ∧ t.ShiftsFit ∧ u.ShiftsFit

end Term

end AndInverter
