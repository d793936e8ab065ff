import AndInverter.Graph.Build

/-! Arithmetic and comparison of words inside a graph. A word is the list of the literals of its
bits, the least significant one first. -/

namespace AndInverter.Build

/-- The sum bit and the carry of three bits. -/
def fullAdder (a b carry : Literal) : Build (Literal × Literal) := do
  let t ← xor a b
  let sum ← xor t carry
  let both ← and a b
  let either ← and t carry
  return (sum, ← or both either)

/-- The sum of two words and a carry, together with the carry out. -/
def rippleAdd : List Literal → List Literal → Literal → Build (List Literal × Literal)
  | x :: xs, y :: ys, carry => do
    let (sum, carry) ← fullAdder x y carry
    let (sums, carry) ← rippleAdd xs ys carry
    return (sum :: sums, carry)
  | _, _, carry => return ([], carry)

/-- The difference as a sum with the complement and one. The carry out says that `xs` is not less
than `ys`. -/
def rippleSub (xs ys : List Literal) : Build (List Literal × Literal) :=
  rippleAdd xs (ys.map (-·)) (.ofBool true)

/-- The negative in two's complement. -/
def negative (xs : List Literal) : Build (List Literal) :=
  return (← rippleSub (List.replicate xs.length (.ofBool false)) xs).1

def lessUnsigned (xs ys : List Literal) : Build Literal :=
  return -(← rippleSub xs ys).2

/-- Negates the most significant bit. -/
def flipSign (xs : List Literal) : List Literal :=
  xs.dropLast ++ (xs.getLast?.map (-·)).toList

/-- Words in two's complement are in the order of their words with flipped signs. -/
def lessSigned (xs ys : List Literal) : Build Literal :=
  lessUnsigned (flipSign xs) (flipSign ys)

/-- Applies a binary gate bit by bit. -/
def bitwise (gate : Literal → Literal → Build Literal) (xs ys : List Literal) :
    Build (List Literal) :=
  (xs.zip ys).mapM fun (x, y) => gate x y

def equal (xs ys : List Literal) : Build Literal := do
  andAll (← bitwise xnor xs ys)

/-- The absolute value of a word in two's complement. -/
def magnitude (xs : List Literal) : Build (List Literal) :=
  match xs.getLast? with
  | none => return []
  | some sign => do bitwise (mux sign) (← negative xs) xs

end AndInverter.Build
