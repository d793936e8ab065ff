/-! Lines of a text, and numbers and blanks at the front of a line. -/

namespace AndInverter.Text

/-- Takes a carriage return off the front. -/
def dropReturn : List Char → List Char
  | '\r' :: cs => cs
  | cs => cs

/-- Lines after the characters `line` of the current one, the last of which comes first. -/
def linesFrom (line : List Char) : List Char → List (List Char)
  | [] => if line.isEmpty then [] else [line.reverse]
  | '\n' :: cs => (dropReturn line).reverse :: linesFrom [] cs
  | c :: cs => linesFrom (c :: line) cs

/-- A line ends with a line feed and a carriage return just before it, if there is one. The last
line may lack its end. -/
def lines (s : String) : List String :=
  (linesFrom [] s.toList).map String.ofList

/-- The number that decimal digits stand for. -/
def decimal (digits : List Char) : Nat :=
  digits.foldl (fun n c => 10 * n + (c.toNat - '0'.toNat)) 0

/-- Reads from the front of a line, or does not fit it. -/
abbrev Scanner := StateT (List Char) Option

namespace Scanner

/-- The given characters. -/
def exactly (expected : List Char) : Scanner Unit := fun cs =>
  if expected.isPrefixOf cs then some ((), cs.drop expected.length) else none

/-- As many digits as there are, at least one. The number has 32 bits at most. -/
def number : Scanner Nat := fun cs =>
  let digits := cs.takeWhile Char.isDigit
  if digits.isEmpty || decimal digits ≥ UInt32.size then none
  else some (decimal digits, cs.dropWhile Char.isDigit)

def isBlank (c : Char) : Bool := c == ' ' || c == '\t'

/-- As many spaces and tabs as there are, at least one. -/
def blanks : Scanner Unit := fun cs =>
  if (cs.takeWhile isBlank).isEmpty then none else some ((), cs.dropWhile isBlank)

/-- A number after blanks. -/
def nextNumber : Scanner Nat := do
  blanks
  number

/-- What `p` reads, or nothing where it does not fit. -/
def maybe {α : Type} (p : Scanner α) : Scanner (Option α) := fun cs =>
  match p cs with
  | some (a, rest) => some (some a, rest)
  | none => some (none, cs)

def char : Scanner Char
  | c :: cs => some (c, cs)
  | [] => none

/-- One space or tab. -/
def blank : Scanner Unit
  | c :: cs => if isBlank c then some ((), cs) else none
  | [] => none

end Scanner

end AndInverter.Text
