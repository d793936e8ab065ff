import AndInverter.Aiger.File
import AndInverter.Graph.Basic

/-! Writing a graph as an ASCII AIGER file. Inputs, latches and outputs are listed by name, gates by
number, and every position gets a symbol. A gate line gives the greater argument first. -/

namespace AndInverter

namespace Aiger

def numbers (ns : List Nat) : String := " ".intercalate (ns.map toString)

def headerLine (g : Graph) : String :=
  magic ++ " " ++
    numbers [g.maxId, g.inputs.size, g.latches.size, g.outputs.size, g.gateCount]

/-- A latch line leaves out the initial value false. -/
def latchLine (latch : Latch) : String :=
  numbers ([2 * latch.id, latch.next.raw] ++ if latch.init then [1] else [])

def gateLine (gate : Gate) : String :=
  numbers [2 * gate.id, gate.right.raw, gate.left.raw]

def symbolLines (kind : Kind) (names : List String) : List String :=
  names.mapIdx fun position name => kind.letter.toString ++ toString position ++ " " ++ name

/-- The lines of a graph, without their ends. -/
def writeLines (g : Graph) : List String :=
  [headerLine g] ++
    g.inputs.values.map (fun id => toString (2 * id)) ++
    (g.latches.keys.filterMap g.latch?).map latchLine ++
    g.outputs.values.map (fun l => toString l.raw) ++
    g.gates.map gateLine ++
    symbolLines .input g.inputs.keys ++
    symbolLines .latch g.latches.keys ++
    symbolLines .output g.outputs.keys

def writeText (g : Graph) : String :=
  String.join ((writeLines g).map (· ++ "\n"))

end Aiger

end AndInverter
