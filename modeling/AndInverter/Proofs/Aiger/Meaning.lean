import AndInverter.Proofs.Aiger.Accept
import AndInverter.Proofs.Graph.Reachable
import AndInverter.Proofs.Graph.Unroll

/-! What a file means. Its gates are equations between variables, which have one solution for given
values of the inputs and latches. The graph of the file computes it. -/

namespace AndInverter

theorem exists_valuation {names : List String} (once : names.Nodup) (x : Nat → Bool) :
    ∃ m : Valuation, ∀ p name, names[p]? = some name → m[name]? = some (x p) := by
  have keys : (names.zipIdx.map fun e => (e.1, x e.2)).map Prod.fst = names := by
    rw [List.map_map]
    exact List.zipIdx_map_fst 0 names
  refine ⟨NameMap.ofPairs (names.zipIdx.map fun e => (e.1, x e.2)), fun p name hp => ?_⟩
  rw [NameMap.getElem?_ofPairs_eq_some_iff (keys.symm ▸ once)]
  exact List.mem_map.2 ⟨(name, p), List.mem_zipIdx_iff_getElem?.2 hp, rfl⟩

namespace Aiger

namespace File

/-- Values of variables that solve the equations of the gates. -/
structure Solves (f : File) (v : Nat → Bool) : Prop where
  zero : v 0 = false
  gate : ∀ gate ∈ f.gates, v gate.var = (gate.left.under v && gate.right.under v)

/-- The variables of inputs and latches have the values given for their positions. -/
structure StartsWith (f : File) (x y : Nat → Bool) (v : Nat → Bool) : Prop where
  input : ∀ p var, f.inputs[p]? = some var → v var = x p
  latch : ∀ p latch, f.latches[p]? = some latch → v latch.var = y p

/-- The valuations have, under the names of inputs and latches, the values given for their
positions. -/
structure Supplies (f : File) (x y : Nat → Bool) (inputs state : Valuation) : Prop where
  input : ∀ p < f.inputs.length, inputs[f.symbols.name .input p]? = some (x p)
  latch : ∀ p < f.latches.length, state[f.symbols.name .latch p]? = some (y p)

variable {f : File}

theorem Consistent.exists_supplies (consistent : f.Consistent) (x y : Nat → Bool) :
    ∃ inputs state, f.Supplies x y inputs state := by
  obtain ⟨inputs, hinputs⟩ := exists_valuation (consistent.names .input) x
  obtain ⟨state, hstate⟩ := exists_valuation (consistent.names .latch) y
  exact ⟨inputs, state, fun p hp => hinputs p _ (f.getElem?_names_iff.2 ⟨hp, rfl⟩),
    fun p hp => hstate p _ (f.getElem?_names_iff.2 ⟨hp, rfl⟩)⟩

/-- Each gate comes once, after the variables that it reads. -/
theorem Consistent.mem_order (consistent : f.Consistent) {gate : GateLine} (h : gate ∈ f.gates) :
    gate.var ∈ f.order := by
  have once := consistent.once_gates
  refine File.mem_order ((blocked_eq_nil_iff once).2 consistent.acyclic) ?_
  exact mem_iff_exists_getElem?.2 ⟨gate, (getElem?_gateMap once).2 ⟨h, rfl⟩⟩

/-- Solutions that agree on the leaves agree on all variables that are known. -/
theorem Consistent.solution_unique (consistent : f.Consistent) {v w : Nat → Bool} (hv : f.Solves v)
    (hw : f.Solves w) (leaves : ∀ var ∈ f.leaves, v var = w var) (l : Literal) (hl : f.Knows l) :
    v l.id = w l.id := by
  have once := consistent.once_gates
  -- Along the order of the gates, every variable in front of a gate has one value.
  have inOrder := f.order_inOrder.forall_mem (P := fun var =>
    var ∈ f.leaves ∨ var ∈ f.gates.map (·.var) → v var = w var) (by simp) ?_
  · rcases knows_iff.1 hl with h | h
    · exact leaves _ h
    · obtain ⟨gate, hgate, heq⟩ := List.mem_map.1 h
      exact inOrder l.id (heq ▸ consistent.mem_order hgate) (.inr h)
  · rintro var - before (hleaf | hvar)
    · exact leaves var hleaf
    · obtain ⟨gate, hgate, rfl⟩ := List.mem_map.1 hvar
      have argument (a : Literal) (ha : a = gate.left ∨ a = gate.right) (hknown : f.Knows a) :
          a.under v = a.under w := by
        refine Literal.under_congr (before a.id ?_ (knows_iff.1 hknown))
        refine mem_arguments_iff.2 ⟨gate, (getElem?_gateMap once).2 ⟨hgate, rfl⟩, ?_⟩
        exact ha.imp (congrArg _) (congrArg _)
      obtain ⟨hleft, hright⟩ := consistent.gates gate hgate
      rw [hv.gate gate hgate, hw.gate gate hgate, argument _ (.inl rfl) hleft,
        argument _ (.inr rfl) hright]

theorem eq_on_leaves {v w : Nat → Bool} (hv : f.Solves v) (hw : f.Solves w)
    (inputs : ∀ (p var : Nat), f.inputs[p]? = some var → v var = w var)
    (latches : ∀ (p : Nat) latch, f.latches[p]? = some latch → v latch.var = w latch.var) :
    ∀ var ∈ f.leaves, v var = w var := by
  intro var hvar
  simp only [leaves, List.mem_cons, List.mem_append, List.mem_map] at hvar
  rcases hvar with rfl | hvar | ⟨latch, hlatch, rfl⟩
  · rw [hv.zero, hw.zero]
  · obtain ⟨p, hp⟩ := List.mem_iff_getElem?.1 hvar
    exact inputs p var hp
  · obtain ⟨p, hp⟩ := List.mem_iff_getElem?.1 hlatch
    exact latches p latch hp

/-! ### The graph computes the solution -/

namespace IsGraph

variable {defs : Definitions} {g : Graph} (isGraph : f.IsGraph defs g)
include isGraph

/-- The values of variables that a solution of the graph says. -/
theorem solves {w : Nat → Bool} (hw : g.Solution w) :
    f.Solves fun var => (defs.literal (.positive var)).under w where
  zero := by
    rw [isGraph.leaf 0 0 rfl, Literal.under_positive]
    exact hw.zero
  gate gate hgate := by
    rw [(isGraph.gate gate hgate).2 w hw]
    exact congrArg₂ _ (Definitions.under_literal _) (Definitions.under_literal _)

theorem input_eq {p var : Nat} (h : f.inputs[p]? = some var) (w : Nat → Bool) :
    g.inputValue w (f.symbols.name .input p) =
      some ((defs.literal (.positive var)).under w) := by
  have hp := (List.getElem?_eq_some_iff.1 h).1
  have hleaf : f.leaves[1 + p]? = some var := by
    rw [leaves, Nat.add_comm, List.getElem?_cons_succ, List.getElem?_append_left hp, h]
  rw [isGraph.leaf _ _ hleaf, Literal.under_positive, Graph.inputValue,
    isGraph.inputs.getElem? (f.getElem?_names_iff.2 ⟨hp, rfl⟩), Option.map_some]

theorem latch_eq {p : Nat} {latch : LatchLine} (h : f.latches[p]? = some latch) (w : Nat → Bool) :
    g.latchValue w (f.symbols.name .latch p) =
      some ((defs.literal (.positive latch.var)).under w) := by
  have hp := (List.getElem?_eq_some_iff.1 h).1
  have hleaf : f.leaves[1 + f.inputs.length + p]? = some latch.var := by
    rw [leaves, show 1 + f.inputs.length + p = f.inputs.length + p + 1 by omega,
      List.getElem?_cons_succ, List.getElem?_append_right (by omega)]
    simp [h]
  rw [isGraph.leaf _ _ hleaf, Literal.under_positive, Graph.latchValue,
    isGraph.latches.getElem? (f.getElem?_names_iff.2 ⟨hp, rfl⟩), Option.map_some]

theorem latch?_eq (ev : g.Evaluable) {p : Nat} {latch : LatchLine} (h : f.latches[p]? = some latch) :
    g.latch? (f.symbols.name .latch p) =
      some ⟨1 + f.inputs.length + p, defs.literal latch.next, latch.init⟩ := by
  have hp := (List.getElem?_eq_some_iff.1 h).1
  exact ev.latch?_eq_some_iff.2
    ⟨isGraph.latches.getElem? (f.getElem?_names_iff.2 ⟨hp, rfl⟩), isGraph.latch p latch h⟩

theorem output_eq {p : Nat} {l : Literal} (h : f.outputs[p]? = some l) :
    g.outputs[f.symbols.name .output p]? = some (defs.literal l) := by
  have hp := (List.getElem?_eq_some_iff.1 h).1
  rw [isGraph.outputs.getElem? (f.getElem?_names_iff.2 ⟨hp, rfl⟩), h, Option.getD_some]

/-- A step of the graph gives the values that a solution of the file says. -/
theorem exists_eval (ev : g.Evaluable) (consistent : f.Consistent) {v : Nat → Bool}
    (hv : f.Solves v) {inputs : Valuation} {state : Option Valuation}
    (hin : ∀ p var, f.inputs[p]? = some var →
      inputs[f.symbols.name .input p]? = some (v var))
    (hst : ∀ p latch, f.latches[p]? = some latch →
      ((state.getD ∅)[f.symbols.name .latch p]?).getD latch.init = v latch.var) :
    ∃ step, g.eval inputs state = .ok step ∧
      (∀ p l, f.outputs[p]? = some l →
        step.outputs[f.symbols.name .output p]? = some (l.under v)) ∧
      ∀ p latch, f.latches[p]? = some latch →
        step.latches[f.symbols.name .latch p]? = some (latch.next.under v) := by
  obtain ⟨w, hw, win, wlatch⟩ := ev.exists_leaves inputs (state.getD ∅)
  have atInput (p var : Nat) (h : f.inputs[p]? = some var) :
      (defs.literal (.positive var)).under w = v var := by
    obtain ⟨i, hi, hvalue⟩ := Option.map_eq_some_iff.1 (isGraph.input_eq h w)
    rw [← hvalue, win _ i hi, hin p var h, Option.getD_some]
  have atLatch (p : Nat) (latch : LatchLine) (h : f.latches[p]? = some latch) :
      (defs.literal (.positive latch.var)).under w = v latch.var := by
    have value := (isGraph.latch_eq h w).symm.trans (wlatch _)
    rw [Graph.initial, isGraph.latch?_eq ev h] at value
    rw [Option.some.inj value]
    exact hst p latch h
  have solves := isGraph.solves hw
  have same (l : Literal) (hl : f.Knows l) : (defs.literal l).under w = l.under v := by
    rw [Definitions.under_literal]
    exact Literal.under_congr
      (consistent.solution_unique solves hv (eq_on_leaves solves hv atInput atLatch) l hl)
  have covered : ∀ name ∈ g.inputs, g.inputValue w name = inputs[name]? := by
    intro name hname
    obtain ⟨p, hp⟩ := List.mem_iff_getElem?.1 (isGraph.inputs.mem_iff.1 hname)
    obtain ⟨hlt, rfl⟩ := f.getElem?_names_iff.1 hp
    have hvar := List.getElem?_eq_getElem hlt
    rw [isGraph.input_eq hvar, atInput p _ hvar, hin p _ hvar]
  obtain ⟨step, hstep, isStep⟩ := ev.exists_eval_of_solution hw covered wlatch
  refine ⟨step, hstep, fun p l h => ?_, fun p latch h => ?_⟩
  · rw [isStep.outputs, Graph.outputValue, isGraph.output_eq h, Option.map_some,
      same l (consistent.outputs l (List.mem_of_getElem? h))]
  · rw [isStep.nexts, Graph.nextValue, isGraph.latch?_eq ev h, Option.map_some,
      same latch.next (consistent.latches latch (List.mem_of_getElem? h))]

/-- The named objects of the graph are the positions of the file. -/
theorem hasName_iff (kind : Kind) (name : String) :
    g.hasName kind name ↔ name ∈ f.names kind (f.count kind) := by
  cases kind
  · exact Std.ExtTreeMap.mem_iff_contains.symm.trans isGraph.inputs.mem_iff
  · exact Std.ExtTreeMap.mem_iff_contains.symm.trans isGraph.latches.mem_iff
  · exact Std.ExtTreeMap.mem_iff_contains.symm.trans isGraph.outputs.mem_iff

theorem getElem?_initialState (ev : g.Evaluable) {p : Nat} {latch : LatchLine}
    (h : f.latches[p]? = some latch) :
    g.initialState[f.symbols.name .latch p]? = some latch.init := by
  rw [Graph.getElem?_initialState, Graph.initial, isGraph.latch?_eq ev h, Option.map_some]

end IsGraph

end File

/-- What accepted lines mean. The lines list a file `f`; gates are built in an order in which each of
them comes once, after all that it reads; the graph has the names of the positions and the initial
values of the latches. For all values of the inputs and latches the equations of the gates have one
solution, and a step of the graph from these values gives every output and every next state the value
of its literal in the solution. -/
theorem readLines_solves {lines : List String} {g : Graph} (h : readLines lines = .ok g) :
    ∃ f : File, f.IsListed lines ∧
      (f.order.Nodup ∧ (∀ gate ∈ f.gates, gate.var ∈ f.order) ∧
        Layering.InOrder f.arguments [] f.order) ∧
      (∀ kind, (f.names kind (f.count kind)).Nodup ∧
        ∀ name, g.hasName kind name ↔ name ∈ f.names kind (f.count kind)) ∧
      (∀ p latch, f.latches[p]? = some latch →
        g.initialState[f.symbols.name .latch p]? = some latch.init) ∧
      ∀ x y : Nat → Bool, ∃ v, f.Solves v ∧ f.StartsWith x y v ∧
        (∀ w, f.Solves w → f.StartsWith x y w → ∀ var ∈ f.defined, w var = v var) ∧
        (∃ inputs state, f.Supplies x y inputs state) ∧
        ∀ inputs state, f.Supplies x y inputs state →
          ∃ step, g.eval inputs (some state) = .ok step ∧
            (∀ p l, f.outputs[p]? = some l →
              step.outputs[f.symbols.name .output p]? = some (l.under v)) ∧
            ∀ p latch, f.latches[p]? = some latch →
              step.latches[f.symbols.name .latch p]? = some (latch.next.under v) := by
  obtain ⟨f, listed, hgraph⟩ := exists_file h
  obtain ⟨wf, consistent, defs, isGraph⟩ : g.WellFormed ∧ f.Consistent ∧ ∃ defs, f.IsGraph defs g := by
    rcases graph_cases listed.zero_not_mem_defined with ⟨g', hgraph', rest⟩ | ⟨fault, herr, -⟩
    · exact Except.ok.inj (hgraph'.symm.trans hgraph) ▸ rest
    · rw [hgraph] at herr
      cases herr
  have ev := wf.toEvaluable
  refine ⟨f, listed, ⟨f.order_nodup, fun gate => consistent.mem_order, f.order_inOrder⟩,
    fun kind => ⟨consistent.names kind, isGraph.hasName_iff kind⟩,
    fun p latch => isGraph.getElem?_initialState ev, fun x y => ?_⟩
  obtain ⟨inputs, state, supplies⟩ := consistent.exists_supplies x y
  obtain ⟨w, hw, win, wlatch⟩ := ev.exists_leaves inputs state
  have starts : f.StartsWith x y fun var => (defs.literal (.positive var)).under w := by
    constructor
    · intro p var hp
      obtain ⟨i, hi, hvalue⟩ := Option.map_eq_some_iff.1 (isGraph.input_eq hp w)
      rw [← hvalue, win _ i hi, supplies.input p (List.getElem?_eq_some_iff.1 hp).1,
        Option.getD_some]
    · intro p latch hp
      have value := (isGraph.latch_eq hp w).symm.trans (wlatch _)
      rw [Graph.initial, isGraph.latch?_eq ev hp,
        supplies.latch p (List.getElem?_eq_some_iff.1 hp).1] at value
      exact Option.some.inj value
  have solves := isGraph.solves hw
  refine ⟨_, solves, starts, fun u hu startU var hvar => ?_, ⟨inputs, state, supplies⟩,
    fun inputs' state' supplies' => ?_⟩
  · refine consistent.solution_unique hu solves ?_ (.positive var) (.inr hvar)
    refine File.eq_on_leaves hu solves (fun p var hp => ?_) fun p latch hp => ?_
    · rw [startU.input p var hp, starts.input p var hp]
    · rw [startU.latch p latch hp, starts.latch p latch hp]
  · refine isGraph.exists_eval ev consistent solves (fun p var hp => ?_) fun p latch hp => ?_
    · rw [starts.input p var hp, supplies'.input p (List.getElem?_eq_some_iff.1 hp).1]
    · rw [starts.latch p latch hp, Option.getD_some,
        supplies'.latch p (List.getElem?_eq_some_iff.1 hp).1, Option.getD_some]

/-- Two gates, listed against their order. -/
theorem readLines_solves_unordered :
    ∃ g, readLines ["aag 4 2 0 1 2", "2", "4", "9", "8 6 2", "6 5 2"] = .ok g ∧
      ∃ f : File, f.IsListed ["aag 4 2 0 1 2", "2", "4", "9", "8 6 2", "6 5 2"] ∧
        ∀ x y : Nat → Bool, ∃ v, f.Solves v ∧ f.StartsWith x y v := by
  have accepted : (readLines ["aag 4 2 0 1 2", "2", "4", "9", "8 6 2", "6 5 2"]).toBool = true := by
    decide +kernel
  cases hread : readLines ["aag 4 2 0 1 2", "2", "4", "9", "8 6 2", "6 5 2"] with
  | error fault =>
    rw [hread] at accepted
    cases accepted
  | ok g =>
    obtain ⟨f, listed, -, -, -, solutions⟩ := readLines_solves hread
    refine ⟨g, rfl, f, listed, fun x y => ?_⟩
    obtain ⟨v, solves, starts, -⟩ := solutions x y
    exact ⟨v, solves, starts⟩

end Aiger

end AndInverter
