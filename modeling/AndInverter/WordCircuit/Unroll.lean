import AndInverter.Graph.Unroll
import AndInverter.WordCircuit.Basic

/-! Unrolling a circuit over words. Word `x` at step `t` is named `x##time_t`, so the time of an
unrolled bit moves in front of its index. -/

namespace AndInverter.WordCircuit

/-- Splits at the last place where `mark` stands, given the characters before it backwards. -/
def splitLast (mark : List Char) : List Char → List Char → Option (List Char × List Char)
  | [], _ => none
  | c :: before, after =>
    if mark.reverse.isPrefixOf (c :: before) then
      some ((c :: before).drop mark.length, after)
    else
      splitLast mark before (c :: after)

/-- The name `x##time_t[i]` of the bit that unrolling names `x[i]##time_t`. -/
def moveTime (name : String) : Option String := do
  let (bit, time) ← splitLast "##time_".toList name.toList.reverse []
  if time.isEmpty || !time.all Char.isDigit then
    none
  else
    let (root, index) ← Word.splitBit? (String.ofList bit.reverse)
    return Word.bitName (root ++ "##time_" ++ String.ofList time) index

/-- Moves the time of every object of one kind. -/
def moveTimes (g : Graph) (kind : Kind) : Except Fault Graph := do
  let pairs ← (g.names kind).mapM fun name =>
    match moveTime name with
    | some new => .ok (name, new)
    | none => .error (.word (.untimedName name))
  g.relabel kind (NameMap.ofPairs pairs)

/-- Unrolls `horizon` steps. -/
def unroll (c : WordCircuit) (horizon : Nat) (options : UnrollOptions) :
    Except Fault WordCircuit := do
  let g ← c.graph.unroll horizon options
  let g ← moveTimes g .input
  let g ← moveTimes g .output
  let g ← moveTimes g .latch
  rebundle g

end AndInverter.WordCircuit
