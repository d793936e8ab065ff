import AndInverter.Proofs.Aiger.Stable

/-! Writing a graph and reading what was written. The graph that is read behaves as the graph that was
written, and is written and read as it is. -/

namespace AndInverter

namespace Aiger

theorem outputs_lt_of_readText {g b : Graph} (named : ∀ kind, ∀ name ∈ g.names kind, Nameable name)
    (h : readText (writeText g) = .ok b) : g.outputs.size < UInt32.size := by
  rw [readText, lines_writeText fun kind name hname => (named kind name hname).line] at h
  obtain ⟨f, listed, -⟩ := exists_file h
  exact headerNumbers_lt_of_isListed listed _ (by simp [headerNumbers])

section Reread
variable {g b : Graph} {defs : Definitions} (wf : g.WellFormed) (wf' : b.WellFormed)
  (isGraph : (File.ofGraph g).IsGraph defs b)
include wf isGraph

theorem outputs_size_eq : b.outputs.size = g.outputs.size := by
  rw [← Std.ExtTreeMap.length_keys, ← Std.ExtTreeMap.length_keys]
  exact congrArg List.length (names_eq wf isGraph .output)

theorem leftOut_of_reread {inputs : List Valuation} {name : String} (h : b.LeftOut inputs name) :
    g.LeftOut inputs name := by
  simpa only [Graph.LeftOut, mem_inputs_iff wf isGraph] using h

include wf'

/-- A graph that was read is written and read as it is. -/
theorem readText_of_reread (nodes : g.nodes.size < 2 ^ 31) (outputs : g.outputs.size < UInt32.size)
    (named : ∀ kind, ∀ name ∈ g.names kind, Nameable name) : readText (writeText b) = .ok b := by
  have names := names_eq wf isGraph
  obtain ⟨c, hc, wf'', _, isGraph'⟩ := exists_readText wf' (size_eq wf isGraph ▸ nodes.le)
    (outputs_size_eq wf isGraph ▸ outputs) (by simpa only [names] using named)
  rw [hc, reread_eq wf wf' isGraph isGraph' wf'']

end Reread

/-- A graph with as many outputs as wanted. -/
theorem exists_outputs (count : Nat) : ∃ g,
    Graph.source ((List.range count).map fun i => (i.repr, false)) = .ok g ∧
      g.nodes.size = 1 ∧ g.outputs.size = count ∧
      ∀ kind, ∀ name ∈ g.names kind, Nameable name := by
  obtain ⟨outputs, hg, size, named⟩ := Graph.exists_zeros count
  refine ⟨_, hg, rfl, size, fun kind name h => ?_⟩
  cases kind with
  | output =>
    obtain ⟨l, hl⟩ := mem_iff_exists_getElem?.1 (Std.ExtTreeMap.mem_keys.1 h)
    obtain ⟨-, i, rfl⟩ := named name l hl
    exact nameable_repr i
  | input => cases h
  | latch => cases h

/-- Writing a graph and reading it again. The text is read if the number of outputs has 32 bits, as
the other numbers in it have. The graph that is read has the same names, initial values and number of
gates, and takes the same steps. A run that fails does so in both, as one of the inputs that are left
out has no value; which one is said depends on the order of the nodes. Reading what is written for
the graph that was read gives this graph again. -/
theorem readText_writeText {g : Graph} (reachable : g.Reachable) (nodes : g.nodes.size < 2 ^ 31)
    (named : ∀ kind, ∀ name ∈ g.names kind, Nameable name) :
    ((∃ b, readText (writeText g) = .ok b) ↔ g.outputs.size < UInt32.size) ∧
      ∀ b, readText (writeText g) = .ok b →
        (∀ kind, b.names kind = g.names kind) ∧
        b.initialState = g.initialState ∧
        b.gateCount = g.gateCount ∧
        (∀ inputs start steps,
          b.simulate inputs start = .ok steps ↔ g.simulate inputs start = .ok steps) ∧
        (∀ inputs start fault,
          (g.simulate inputs start = .error fault ∨ b.simulate inputs start = .error fault) →
            ∃ name, g.LeftOut inputs name ∧ fault = .circuit (.missingInput name)) ∧
        readText (writeText b) = .ok b := by
  have wf := reachable.wellFormed
  refine ⟨⟨fun ⟨b, h⟩ => outputs_lt_of_readText named h, fun outputs => ?_⟩, fun b h => ?_⟩
  · obtain ⟨b, h, -⟩ := exists_readText wf nodes.le outputs named
    exact ⟨b, h⟩
  · have outputs := outputs_lt_of_readText named h
    obtain ⟨b', h', wf', defs, isGraph⟩ := exists_readText wf nodes.le outputs named
    obtain rfl := Except.ok.inj (h'.symm.trans h)
    refine ⟨names_eq wf isGraph, initialState_eq wf wf' isGraph, gateCount_eq wf wf' isGraph,
      fun inputs start steps => simulate_eq_ok_iff wf wf' isGraph, fun inputs start fault hfail => ?_,
      readText_of_reread wf wf' isGraph nodes outputs named⟩
    rcases hfail with hfail | hfail
    · exact wf.exists_leftOut hfail
    · obtain ⟨name, left, rfl⟩ := wf'.exists_leftOut hfail
      exact ⟨name, leftOut_of_reread wf isGraph left, rfl⟩

/-- A latch, a gate and two inputs, which are numbered by their names only once they are read again. -/
theorem readText_writeText_latch : ∃ g b,
    readLines ["aag 4 2 1 1 1", "2", "4", "6 8 1", "9", "8 4 2", "i0 x", "i1 w", "l0 s", "o0 y"] =
      .ok g ∧
    readText (writeText g) = .ok b ∧ g.inputs["w"]? = some 2 ∧ b.inputs["w"]? = some 1 ∧
    (∀ inputs start steps,
      b.simulate inputs start = .ok steps ↔ g.simulate inputs start = .ok steps) ∧
    readText (writeText b) = .ok b := by
  have facts : ∃ g, readLines
        ["aag 4 2 1 1 1", "2", "4", "6 8 1", "9", "8 4 2", "i0 x", "i1 w", "l0 s", "o0 y"] = .ok g ∧
      g.nodes.size < 2 ^ 31 ∧
      (∀ kind ∈ [Kind.input, .latch, .output], ∀ name ∈ g.names kind, Nameable name) ∧
      g.inputs["w"]? = some 2 ∧
      ∃ b, readText (writeText g) = .ok b ∧ b.inputs["w"]? = some 1 := by
    decide +kernel
  obtain ⟨g, hg, nodes, named, before, b, hb, after⟩ := facts
  obtain ⟨-, -, -, runs, -, again⟩ := (readText_writeText (.readLines hg) nodes
    fun kind => named kind (by cases kind <;> simp)).2 b hb
  exact ⟨g, b, hg, hb, before, after, runs, again⟩

/-- Where inputs are left out, another one may be said; and a number of outputs that has more than 32
bits is not read. -/
theorem readText_writeText_limits :
    (∃ g b, Graph.sink ["b", "a"] = .ok g ∧ g.Reachable ∧ g.nodes.size < 2 ^ 31 ∧
      (∀ kind, ∀ name ∈ g.names kind, Nameable name) ∧ readText (writeText g) = .ok b ∧
      g.simulate [∅] none = .error (.circuit (.missingInput "b")) ∧
      b.simulate [∅] none = .error (.circuit (.missingInput "a"))) ∧
    ∃ g, Graph.source ((List.range UInt32.size).map fun i => (i.repr, false)) = .ok g ∧
      g.Reachable ∧ g.nodes.size < 2 ^ 31 ∧ (∀ kind, ∀ name ∈ g.names kind, Nameable name) ∧
      ∀ b, readText (writeText g) ≠ .ok b := by
  constructor
  · have facts : ∃ g, Graph.sink ["b", "a"] = .ok g ∧ g.nodes.size < 2 ^ 31 ∧
        (∀ kind ∈ [Kind.input, .latch, .output], ∀ name ∈ g.names kind, Nameable name) ∧
        g.simulate [∅] none = .error (.circuit (.missingInput "b")) ∧
        ∃ b, readText (writeText g) = .ok b ∧
          b.simulate [∅] none = .error (.circuit (.missingInput "a")) := by
      decide +kernel
    obtain ⟨g, hg, nodes, named, before, b, hb, after⟩ := facts
    exact ⟨g, b, hg, .sink hg, nodes, fun kind => named kind (by cases kind <;> simp), hb, before,
      after⟩
  · obtain ⟨g, hg, size, outputs, named⟩ := exists_outputs UInt32.size
    refine ⟨g, hg, .source hg, by omega, named, fun b hb => ?_⟩
    exact absurd (outputs_lt_of_readText named hb) (outputs ▸ Nat.lt_irrefl _)

end Aiger

end AndInverter
