import AndInverter.Proofs.Aiger.Reread
import AndInverter.Proofs.Graph.Reachable

/-! The numbers that are written for a graph. The variables have no gaps, each of them is defined on
one line, and no gate stands in front of its arguments, so values can be computed line by line. -/

namespace AndInverter

namespace Aiger

/-- The numbers of a latch line. -/
structure LatchRow where
  lhs : Nat
  next : Nat
  init : Bool

/-- The numbers of a gate line. -/
structure GateRow where
  lhs : Nat
  rhs0 : Nat
  rhs1 : Nat

/-- The numbers on the lines of a file, with literals as they are written, and its symbols. -/
structure Listing where
  max : Nat
  inputs : List Nat
  latches : List LatchRow
  outputs : List Nat
  gates : List GateRow
  symbols : List (Kind × Nat × String)

namespace Listing

/-- The numbers of the lines that follow stand in the header. -/
def header (f : Listing) : String :=
  magic ++ " " ++
    numbers [f.max, f.inputs.length, f.latches.length, f.outputs.length, f.gates.length]

def lines (f : Listing) : List String :=
  f.header ::
    (f.inputs.map (fun l => numbers [l]) ++
      (f.latches.map (fun row => numbers ([row.lhs, row.next] ++ if row.init then [1] else [])) ++
        (f.outputs.map (fun l => numbers [l]) ++
          (f.gates.map (fun row => numbers [row.lhs, row.rhs0, row.rhs1]) ++
            f.symbols.map symbolLine))))

/-- The literals that lines define. -/
def definitions (f : Listing) : List Nat :=
  f.inputs ++ (f.latches.map (·.lhs) ++ f.gates.map (·.lhs))

/-- The literals that lines refer to. -/
def references (f : Listing) : List Nat :=
  f.latches.map (·.next) ++ (f.outputs ++ f.gates.flatMap fun row => [row.rhs0, row.rhs1])

/-- The number of lines of a part. -/
def count (f : Listing) : Kind → Nat
  | .input => f.inputs.length
  | .latch => f.latches.length
  | .output => f.outputs.length

/-- The positions that have names. -/
def positions (f : Listing) : List (Kind × Nat) :=
  [Kind.input, .latch, .output].flatMap fun kind => (List.range (f.count kind)).map (kind, ·)

structure Canonical (f : Listing) : Prop where
  total : f.max = f.inputs.length + f.latches.length + f.gates.length
  /-- Each variable from `1` to the greatest one is defined once, by an even literal. -/
  defines : f.definitions.Perm ((List.range' 1 f.max).map (2 * ·))
  refers : ∀ l ∈ f.references, l / 2 ≤ f.max
  ascending : (f.gates.map (·.lhs)).Pairwise (· < ·)
  descends : ∀ row ∈ f.gates, row.rhs0 < row.lhs ∧ row.rhs1 < row.rhs0 ∧ 2 ≤ row.rhs1
  /-- The symbols name each position once, and in order. -/
  names : f.symbols.map (fun entry => (entry.1, entry.2.1)) = f.positions

namespace Canonical

variable {f : Listing} (canonical : f.Canonical)
include canonical

/-- The variable of every reference but the constant has a line. -/
theorem mem_definitions {l : Nat} (two : 2 ≤ l) (max : l / 2 ≤ f.max) :
    2 * (l / 2) ∈ f.definitions := by
  refine canonical.defines.mem_iff.2 (List.mem_map.2 ⟨l / 2, ?_, rfl⟩)
  rw [List.mem_range'_1]
  omega

/-- A gate that defines a smaller variable stands in front. -/
theorem mem_front {done rest : List GateRow} {row : GateRow}
    (split : f.gates = done ++ row :: rest) {n : Nat} (less : n < row.lhs)
    (mem : n ∈ f.gates.map (·.lhs)) : n ∈ done.map (·.lhs) := by
  have ascending := canonical.ascending
  rw [split, List.map_append, List.map_cons] at ascending mem
  rcases List.mem_append.1 mem with hdone | hlater
  · exact hdone
  · have later := (List.pairwise_cons.1 (List.pairwise_append.1 ascending).2.1).1
    rcases List.mem_cons.1 hlater with rfl | hrest
    · exact absurd less (Nat.lt_irrefl _)
    · exact absurd (later n hrest) (Nat.lt_asymm less)

/-- The arguments of a gate are inputs, latches and gates in front of it. -/
theorem arguments_defined {done rest : List GateRow} {row : GateRow}
    (split : f.gates = done ++ row :: rest) : ∀ l ∈ [row.rhs0, row.rhs1],
      2 * (l / 2) ∈ f.inputs ++ (f.latches.map (·.lhs) ++ done.map (·.lhs)) := by
  intro l hl
  have hrow : row ∈ f.gates := by simp [split]
  obtain ⟨h0, h1, two⟩ := canonical.descends row hrow
  have bounds : 2 ≤ l ∧ l < row.lhs := by
    rcases List.mem_pair.1 hl with rfl | rfl <;> omega
  have refers : l ∈ f.references := by
    refine List.mem_append_right _ (List.mem_append_right _ (List.mem_flatMap.2 ⟨row, hrow, hl⟩))
  have defined := canonical.mem_definitions bounds.1 (canonical.refers l refers)
  simp only [definitions, List.mem_append] at defined ⊢
  exact defined.imp_right (Or.imp_right (canonical.mem_front split (by omega)))

end Canonical

/-- The lines of the graph: objects stand at the positions that bear their names, and gates give
their greater argument first. -/
structure Lists (f : Listing) (g : Graph) : Prop where
  max : f.max = g.maxId
  symbols : ∀ {kind position name},
    (kind, position, name) ∈ f.symbols ↔ (g.names kind)[position]? = some name
  input : ∀ {position name}, (Kind.input, position, name) ∈ f.symbols →
    ∃ id, g.inputs[name]? = some id ∧ f.inputs[position]? = some (2 * id)
  latch : ∀ {position name}, (Kind.latch, position, name) ∈ f.symbols →
    ∃ latch, g.latch? name = some latch ∧
      f.latches[position]? = some ⟨2 * latch.id, latch.next.raw, latch.init⟩
  output : ∀ {position name}, (Kind.output, position, name) ∈ f.symbols →
    ∃ l, g.outputs[name]? = some l ∧ f.outputs[position]? = some l.raw
  gate : ∀ {row}, row ∈ f.gates ↔ ∃ id left right,
    g.nodes[id]? = some (.and left right) ∧ row = ⟨2 * id, right.raw, left.raw⟩

/-- The numbers that are written for a graph. -/
def ofGraph (g : Graph) : Listing where
  max := g.maxId
  inputs := g.inputs.values.map (2 * ·)
  latches := g.latchList.map fun latch => ⟨2 * latch.id, latch.next.raw, latch.init⟩
  outputs := g.outputs.values.map (·.raw)
  gates := g.gates.map fun gate => ⟨2 * gate.id, gate.right.raw, gate.left.raw⟩
  symbols := entries g

section OfGraph
variable {g : Graph}

theorem count_ofGraph (ev : g.Evaluable) (kind : Kind) :
    (ofGraph g).count kind = (g.names kind).length := by
  rw [← File.count_ofGraph ev]
  cases kind <;> simp [count, ofGraph, File.count, File.ofGraph]

theorem lines_ofGraph (ev : g.Evaluable) : (ofGraph g).lines = writeLines g := by
  have inputs : (ofGraph g).inputs.length = g.inputs.size :=
    (count_ofGraph ev .input).trans Std.ExtTreeMap.length_keys
  have latches : (ofGraph g).latches.length = g.latches.size :=
    (count_ofGraph ev .latch).trans Std.ExtTreeMap.length_keys
  have outputs : (ofGraph g).outputs.length = g.outputs.size :=
    (count_ofGraph ev .output).trans Std.ExtTreeMap.length_keys
  have gates : (ofGraph g).gates.length = g.gateCount := List.length_map _
  rw [lines, header, inputs, latches, outputs, gates, writeLines_eq]
  simp only [ofGraph, List.map_map]
  rfl

theorem definitions_ofGraph (g : Graph) :
    (ofGraph g).definitions = (File.ofGraph g).defined.map (2 * ·) := by
  rw [File.defined, List.map_append, List.map_append]
  simp only [definitions, ofGraph, File.ofGraph, List.map_map]
  rfl

/-- What is referred to is in the graph. -/
theorem mem_references_ofGraph (wf : g.WellFormed) {n : Nat} (h : n ∈ (ofGraph g).references) :
    ∃ l, g.Has l ∧ n = l.raw := by
  simp only [references, ofGraph, List.map_map, List.flatMap_map, List.mem_append, List.mem_map,
    List.mem_flatMap, Function.comp_apply] at h
  rcases h with ⟨latch, hlatch, rfl⟩ | ⟨l, hl, rfl⟩ | ⟨gate, hgate, hn⟩
  · obtain ⟨name, -, hname⟩ := List.mem_filterMap.1 hlatch
    exact ⟨_, wf.next (wf.latch?_eq_some_iff.1 hname).2, rfl⟩
  · obtain ⟨name, hname⟩ := mem_values_iff.1 hl
    exact ⟨_, wf.output hname, rfl⟩
  · have hnode := wf.mem_gates_iff.1 hgate
    obtain ⟨left, right⟩ := wf.fanin hnode
    have hlt := Graph.lt_size hnode
    rcases List.mem_pair.1 hn with rfl | rfl
    · exact ⟨_, Nat.lt_trans right hlt, rfl⟩
    · exact ⟨_, Nat.lt_trans left hlt, rfl⟩

theorem names_ofGraph (ev : g.Evaluable) :
    (ofGraph g).symbols.map (fun entry => (entry.1, entry.2.1)) = (ofGraph g).positions := by
  have symbols : (ofGraph g).symbols = entries g := rfl
  rw [symbols, entries, positions, List.map_flatMap]
  refine List.flatMap_congr fun kind _ => ?_
  rw [count_ofGraph ev, List.map_map, List.range_eq_range', ← List.zipIdx_map_snd, List.map_map]
  rfl

theorem canonical_ofGraph (wf : g.WellFormed) : (ofGraph g).Canonical := by
  have defines : (ofGraph g).definitions.Perm ((List.range' 1 g.maxId).map (2 * ·)) := by
    rw [definitions_ofGraph]
    exact (File.defined_ofGraph_perm wf.toEvaluable).map _
  refine ⟨?_, defines, fun n hn => ?_, ?_, fun row hrow => ?_, names_ofGraph wf.toEvaluable⟩
  · have length := defines.length_eq
    simp only [definitions, List.length_append, List.length_map, List.length_range'] at length
    rw [Nat.add_assoc]
    exact length.symm
  · obtain ⟨l, has, rfl⟩ := mem_references_ofGraph wf hn
    rw [half_raw]
    exact le_maxId has
  · have ascending := List.pairwise_map.1 wf.gates_ascending
    refine List.pairwise_map.2 (List.pairwise_map.2 (ascending.imp fun h => ?_))
    exact Nat.mul_lt_mul_of_pos_left h Nat.two_pos
  · obtain ⟨gate, hgate, rfl⟩ := List.mem_map.1 hrow
    have hnode := wf.mem_gates_iff.1 hgate
    obtain ⟨pos, less⟩ := wf.ascending hnode
    obtain ⟨-, right⟩ := wf.fanin hnode
    have halfLeft := half_raw gate.left
    have halfRight := half_raw gate.right
    show gate.right.raw < 2 * gate.id ∧ gate.left.raw < gate.right.raw ∧ 2 ≤ gate.left.raw
    omega

theorem lists_ofGraph (wf : g.WellFormed) : (ofGraph g).Lists g where
  max := rfl
  symbols := mem_entries_iff
  input {position name} h := by
    have hkey : g.inputs.keys[position]? = some name := mem_entries_iff.1 h
    obtain ⟨id, hname⟩ := mem_iff_exists_getElem?.1 (Std.ExtTreeMap.mem_keys.1
      (List.mem_of_getElem? hkey))
    exact ⟨id, hname, by simp [ofGraph, getElem?_values hkey, hname]⟩
  latch {position name} h := by
    have hkey : g.latches.keys[position]? = some name := mem_entries_iff.1 h
    obtain ⟨latch, hname⟩ := wf.mem_latches_iff.1 (Std.ExtTreeMap.mem_keys.1
      (List.mem_of_getElem? hkey))
    exact ⟨latch, hname, by simp [ofGraph, wf.getElem?_latchList hkey, hname]⟩
  output {position name} h := by
    have hkey : g.outputs.keys[position]? = some name := mem_entries_iff.1 h
    obtain ⟨l, hname⟩ := mem_iff_exists_getElem?.1 (Std.ExtTreeMap.mem_keys.1
      (List.mem_of_getElem? hkey))
    exact ⟨l, hname, by simp [ofGraph, getElem?_values hkey, hname]⟩
  gate {row} := by
    rw [ofGraph, List.mem_map]
    constructor
    · rintro ⟨gate, hgate, rfl⟩
      exact ⟨_, _, _, wf.mem_gates_iff.1 hgate, rfl⟩
    · rintro ⟨id, left, right, hnode, rfl⟩
      exact ⟨⟨id, left, right⟩, wf.mem_gates_iff.2 hnode, rfl⟩

/-- Literals have 32 bits. -/
theorem fits_ofGraph (wf : g.WellFormed) (nodes : g.nodes.size < 2 ^ 31) :
    ∀ n ∈ (ofGraph g).definitions ++ (ofGraph g).references, n < UInt32.size := by
  intro n hn
  rcases List.mem_append.1 hn with hdef | href
  · rw [definitions_ofGraph, List.mem_map] at hdef
    obtain ⟨i, hi, rfl⟩ := hdef
    exact Graph.raw_lt nodes.le (l := .positive i) ((File.mem_defined_ofGraph wf.toEvaluable).1 hi).1
  · obtain ⟨l, has, rfl⟩ := mem_references_ofGraph wf href
    exact Graph.raw_lt nodes.le has

end OfGraph

end Listing

/-- The lines that are written for a graph list it canonically: the greatest variable is the number
of inputs, latches and gates; each variable up to it is defined once and there are no others; the
gates ascend, and each of them descends to its arguments, which are defined by inputs, latches and
gates in front of it; each position has one symbol. No literal has more than 32 bits. -/
theorem writeLines_canonical {g : Graph} (reachable : g.Reachable)
    (nodes : g.nodes.size < 2 ^ 31) :
    ∃ f : Listing, f.lines = writeLines g ∧ f.Lists g ∧ f.Canonical ∧
      (∀ done row rest, f.gates = done ++ row :: rest → ∀ l ∈ [row.rhs0, row.rhs1],
        2 * (l / 2) ∈ f.inputs ++ (f.latches.map (·.lhs) ++ done.map (·.lhs))) ∧
      ∀ l ∈ f.definitions ++ f.references, l < UInt32.size := by
  have wf := reachable.wellFormed
  have canonical := Listing.canonical_ofGraph wf
  exact ⟨.ofGraph g, Listing.lines_ofGraph wf.toEvaluable, Listing.lists_ofGraph wf, canonical,
    fun _ _ _ => canonical.arguments_defined, Listing.fits_ofGraph wf nodes⟩

/-- A latch and two gates, the second of which reads the first. -/
theorem writeLines_canonical_latch : ∃ g,
    Build.graph ([Growth.input "x", .latch "s" true, .and (-⟨1, false⟩) ⟨2, false⟩,
      .and ⟨1, false⟩ (-⟨3, false⟩), .setNext "s" ⟨4, false⟩, .output "y" (-⟨3, false⟩)].forM
        Growth.build) = .ok g ∧
    writeLines g =
      ["aag 4 1 1 1 2", "2", "4 8 1", "7", "6 4 3", "8 7 2", "i0 x", "l0 s", "o0 y"] ∧
    ∃ f : Listing, f.lines = writeLines g ∧ f.Canonical := by
  have facts : ∃ g,
      Build.graph ([Growth.input "x", .latch "s" true, .and (-⟨1, false⟩) ⟨2, false⟩,
        .and ⟨1, false⟩ (-⟨3, false⟩), .setNext "s" ⟨4, false⟩, .output "y" (-⟨3, false⟩)].forM
          Growth.build) = .ok g ∧
      g.nodes.size < 2 ^ 31 ∧
      writeLines g =
        ["aag 4 1 1 1 2", "2", "4 8 1", "7", "6 4 3", "8 7 2", "i0 x", "l0 s", "o0 y"] := by
    decide +kernel
  obtain ⟨g, hg, nodes, written⟩ := facts
  obtain ⟨f, lines, -, canonical, -⟩ :=
    writeLines_canonical (Graph.reachable_of_growths hg) nodes
  exact ⟨g, hg, written, f, lines, canonical⟩

end Aiger

end AndInverter
