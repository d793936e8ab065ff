import AndInverter.Proofs.Aiger.Meaning
import AndInverter.Proofs.Aiger.Order
import AndInverter.Proofs.Aiger.Written

/-! Reading what was written. The graph that is read has the names, the initial state and the number
of gates of the graph that was written, and takes the same steps. -/

namespace AndInverter

namespace Aiger

/-- What is written for a graph is read as the graph of its file. -/
theorem exists_readText {g : Graph} (wf : g.WellFormed) (nodes : g.nodes.size ≤ 2 ^ 31)
    (outputs : g.outputs.size < UInt32.size) (named : ∀ kind, ∀ name ∈ g.names kind, Nameable name) :
    ∃ b, readText (writeText g) = .ok b ∧ b.WellFormed ∧ ∃ defs, (File.ofGraph g).IsGraph defs b := by
  have listed := isListed_writeLines wf.toEvaluable nodes outputs fun kind name h =>
    (named kind name h).ne_empty
  rw [readText, lines_writeText fun kind name h => (named kind name h).line, readLines_eq listed]
  rcases graph_cases listed.zero_not_mem_defined with ⟨b, hb, wf', -, isGraph⟩ | ⟨_, -, blames⟩
  · exact ⟨b, hb, wf', isGraph⟩
  · exact absurd (File.consistent_ofGraph wf.toEvaluable) blames.2

namespace File

variable {g : Graph}

/-! ### Positions in the file of a graph -/

theorem exists_input {p var : Nat} (h : (ofGraph g).inputs[p]? = some var) :
    ∃ name : String, (ofGraph g).symbols.name .input p = name ∧ g.inputs[name]? = some var := by
  obtain ⟨name, hkey, hname⟩ := exists_key h
  exact ⟨name, name_ofGraph .input hkey, hname⟩

theorem exists_latch (ev : g.Evaluable) {p : Nat} {latch : LatchLine}
    (h : (ofGraph g).latches[p]? = some latch) :
    ∃ name : String, (ofGraph g).symbols.name .latch p = name ∧
      g.latch? name = some ⟨latch.var, latch.next, latch.init⟩ := by
  rw [ofGraph, List.getElem?_map, Option.map_eq_some_iff] at h
  obtain ⟨⟨id, next, init⟩, hlatch, rfl⟩ := h
  obtain ⟨name, hkey, hname⟩ := ev.latch?_of_getElem? hlatch
  exact ⟨name, name_ofGraph .latch hkey, hname⟩

/-- Every latch has its position. -/
theorem exists_latch_position (ev : g.Evaluable) {name : String} {latch : Latch}
    (h : g.latch? name = some latch) : ∃ p : Nat,
      (ofGraph g).latches[p]? = some ⟨latch.id, latch.next, latch.init⟩ ∧
        (ofGraph g).symbols.name .latch p = name := by
  obtain ⟨p, hkey, -⟩ := exists_position (ev.latch?_eq_some_iff.1 h).1
  refine ⟨p, ?_, name_ofGraph .latch hkey⟩
  rw [ofGraph, List.getElem?_map, ev.getElem?_latchList hkey, h, Option.map_some]

theorem exists_output_position {name : String} {l : Literal} (h : g.outputs[name]? = some l) :
    ∃ p : Nat, (ofGraph g).outputs[p]? = some l ∧ (ofGraph g).symbols.name .output p = name := by
  obtain ⟨p, hkey, hvalue⟩ := exists_position h
  exact ⟨p, hvalue, name_ofGraph .output hkey⟩

/-- The values of the nodes solve the equations of the file. -/
theorem solves_ofGraph (ev : g.Evaluable) {v : Nat → Bool} (hv : g.Solution v) :
    (ofGraph g).Solves v where
  zero := hv.zero
  gate gate hgate := by
    rw [hv.gate ((mem_gates_ofGraph ev).1 hgate), Bool.and_comm]

end File

/-! ### The graph that is read -/

section Reread
variable {g b : Graph} {defs : Definitions} (wf : g.WellFormed) (wf' : b.WellFormed)
  (isGraph : (File.ofGraph g).IsGraph defs b)
include wf isGraph

theorem names_eq (kind : Kind) : b.names kind = g.names kind := by
  have names := File.names_ofGraph wf.toEvaluable kind
  cases kind
  · refine keys_eq fun name => ?_
    rw [isGraph.inputs.mem_iff, ← Std.ExtTreeMap.mem_keys]
    exact names ▸ Iff.rfl
  · refine keys_eq fun name => ?_
    rw [isGraph.latches.mem_iff, ← Std.ExtTreeMap.mem_keys]
    exact names ▸ Iff.rfl
  · refine keys_eq fun name => ?_
    rw [isGraph.outputs.mem_iff, ← Std.ExtTreeMap.mem_keys]
    exact names ▸ Iff.rfl

theorem mem_inputs_iff (name : String) : name ∈ b.inputs ↔ name ∈ g.inputs := by
  have names : b.inputs.keys = g.inputs.keys := names_eq wf isGraph .input
  rw [← Std.ExtTreeMap.mem_keys, names, Std.ExtTreeMap.mem_keys]

theorem mem_latches_iff (name : String) : name ∈ b.latches ↔ name ∈ g.latches := by
  have names : b.latches.keys = g.latches.keys := names_eq wf isGraph .latch
  rw [← Std.ExtTreeMap.mem_keys, names, Std.ExtTreeMap.mem_keys]

theorem mem_outputs_iff (name : String) : name ∈ b.outputs ↔ name ∈ g.outputs := by
  have names : b.outputs.keys = g.outputs.keys := names_eq wf isGraph .output
  rw [← Std.ExtTreeMap.mem_keys, names, Std.ExtTreeMap.mem_keys]

theorem size_eq : b.nodes.size = g.nodes.size := by
  have consistent := File.consistent_ofGraph wf.toEvaluable
  have perm := File.gateOrder_perm consistent.once_gates (File.blocked_ofGraph wf.toEvaluable)
  have gates := perm.length_eq
  have defined := File.length_defined_ofGraph wf.toEvaluable
  have pos := wf.pos
  simp only [File.defined, List.length_append, List.length_map, Graph.maxId] at gates defined
  rw [(isGraph.laid (File.reduced_ofGraph wf)).size, File.length_leaves]
  omega

include wf'

theorem latch?_eq_none {name : String} (h : g.latch? name = none) : b.latch? name = none := by
  refine wf'.latch?_eq_none ?_
  rw [mem_latches_iff wf isGraph, wf.mem_latches_iff, h]
  simp

theorem initialState_eq : b.initialState = g.initialState := by
  refine Std.ExtTreeMap.ext_getElem? fun name => ?_
  cases h : g.latch? name with
  | none =>
    rw [Graph.getElem?_initialState, Graph.getElem?_initialState, Graph.initial, Graph.initial, h,
      latch?_eq_none wf wf' isGraph h]
  | some latch =>
    obtain ⟨p, hp, rfl⟩ := File.exists_latch_position wf.toEvaluable h
    rw [isGraph.getElem?_initialState wf'.toEvaluable hp, Graph.getElem?_initialState, Graph.initial, h,
      Option.map_some]

/-- Where the graph that was written takes a step, the graph that is read takes the same one. -/
theorem eval_of_eval {inputs : Valuation} {state : Option Valuation} {step : Step}
    (h : g.eval inputs state = .ok step) : b.eval inputs state = .ok step := by
  obtain ⟨v, isStep⟩ := wf.eval_eq_ok_iff.1 h
  have supplied (p var : Nat) (hp : (File.ofGraph g).inputs[p]? = some var) :
      inputs[(File.ofGraph g).symbols.name .input p]? = some (v var) := by
    obtain ⟨name, rfl, hname⟩ := File.exists_input hp
    rw [← isStep.inputs _ (mem_iff_exists_getElem?.2 ⟨var, hname⟩), Graph.inputValue, hname,
      Option.map_some]
  have started (p : Nat) (latch : LatchLine) (hp : (File.ofGraph g).latches[p]? = some latch) :
      ((state.getD ∅)[(File.ofGraph g).symbols.name .latch p]?).getD latch.init = v latch.var := by
    obtain ⟨name, rfl, hname⟩ := File.exists_latch wf.toEvaluable hp
    have value := isStep.latches ((File.ofGraph g).symbols.name .latch p)
    rw [Graph.latchValue, Graph.initial, hname, (wf.latch?_eq_some_iff.1 hname).1] at value
    exact (Option.some.inj value).symm
  obtain ⟨step', hstep, outputs, latches⟩ := isGraph.exists_eval wf'.toEvaluable
    (File.consistent_ofGraph wf.toEvaluable)
    (File.solves_ofGraph wf.toEvaluable isStep.solution) supplied started
  obtain ⟨w, isStep'⟩ := wf'.eval_eq_ok_iff.1 hstep
  have sameOutputs : step'.outputs = step.outputs := by
    refine Std.ExtTreeMap.ext_getElem? fun name => ?_
    rw [isStep.outputs, Graph.outputValue]
    cases hname : g.outputs[name]? with
    | none =>
      have hnot := (mem_outputs_iff wf isGraph name).not.2 (not_mem_iff_getElem?.2 hname)
      rw [isStep'.outputs, Graph.outputValue_eq_none hnot, Option.map_none]
    | some l =>
      obtain ⟨p, hp, rfl⟩ := File.exists_output_position hname
      rw [outputs p l hp, Option.map_some]
  have sameLatches : step'.latches = step.latches := by
    refine Std.ExtTreeMap.ext_getElem? fun name => ?_
    rw [isStep.nexts, Graph.nextValue]
    cases hname : g.latch? name with
    | none =>
      rw [isStep'.nexts, Graph.nextValue, latch?_eq_none wf wf' isGraph hname,
        Option.map_none, Option.map_none]
    | some latch =>
      obtain ⟨p, hp, rfl⟩ := File.exists_latch_position wf.toEvaluable hname
      rw [latches p _ hp, Option.map_some]
  rw [hstep]
  cases step'
  cases step
  simp_all

theorem eval_eq_ok_iff_of_reread {inputs : Valuation} {state : Option Valuation} {step : Step} :
    b.eval inputs state = .ok step ↔ g.eval inputs state = .ok step := by
  constructor
  · intro h
    have covered : ∀ name ∈ g.inputs, name ∈ inputs := fun name hname =>
      wf'.exists_eval_ok_iff.1 ⟨step, h⟩ name ((mem_inputs_iff wf isGraph name).2 hname)
    obtain ⟨step', hstep⟩ := wf.exists_eval_ok_iff.2 covered
    have := eval_of_eval wf wf' isGraph hstep
    rw [h] at this
    rw [hstep, Except.ok.inj this]
  · exact eval_of_eval wf wf' isGraph

/-- Both graphs have the same runs. -/
theorem runFrom_eq_ok_iff {inputs : List Valuation} {state : Valuation} {steps : List Step} :
    b.runFrom state inputs = .ok steps ↔ g.runFrom state inputs = .ok steps := by
  induction inputs generalizing state steps with
  | nil => rfl
  | cons values later ih =>
    simp only [Graph.runFrom, except_bind_eq_ok_iff, eval_eq_ok_iff_of_reread wf wf' isGraph, ih]

theorem simulate_eq_ok_iff {inputs : List Valuation} {start : Option Valuation}
    {steps : List Step} :
    b.simulate inputs start = .ok steps ↔ g.simulate inputs start = .ok steps := by
  rw [Graph.simulate, Graph.simulate, initialState_eq wf wf' isGraph]
  exact runFrom_eq_ok_iff wf wf' isGraph

theorem gateCount_eq : b.gateCount = g.gateCount := by
  have inputs : b.inputs.size = g.inputs.size := by
    rw [← Std.ExtTreeMap.length_keys, ← Std.ExtTreeMap.length_keys]
    exact congrArg List.length (names_eq wf isGraph .input)
  have latches : b.latches.size = g.latches.size := by
    rw [← Std.ExtTreeMap.length_keys, ← Std.ExtTreeMap.length_keys]
    exact congrArg List.length (names_eq wf isGraph .latch)
  have sizes := sizes_eq wf.toEvaluable
  have sizes' := sizes_eq wf'.toEvaluable
  have size := size_eq wf isGraph
  simp only [Graph.maxId] at sizes sizes'
  omega

end Reread

end Aiger

end AndInverter
