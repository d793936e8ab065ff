import AndInverter.NameMap

/-! Formulas in conjunctive normal form. A literal is a variable, counted from `1`, or its negative;
a clause is a list of literals. -/

namespace AndInverter

structure Cnf where
  clauses : List (List Int)
  inputs : NameMap Int
  /-- The variables of the current values of the latches. -/
  latches : NameMap Int
  outputs : NameMap Int

/-- The number of variables: the greatest one that occurs. -/
def Cnf.varCount (c : Cnf) : Nat :=
  let literals := c.clauses.flatten ++ c.inputs.values ++ c.latches.values ++ c.outputs.values
  (literals.map Int.natAbs).foldl max 0

end AndInverter
