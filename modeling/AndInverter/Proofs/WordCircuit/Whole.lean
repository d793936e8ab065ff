import AndInverter.Proofs.Expression.Built
import AndInverter.Proofs.WordCircuit.Sound
import AndInverter.Proofs.WordCircuit.Unroll
import AndInverter.Proofs.WordGate.Component

/-! Circuits that are made so that no object of a graph is left without a word. No operation on them
breaks a precondition, and what it gives is well-formed and can be evaluated. -/

namespace AndInverter

namespace WordCircuit

variable {c d : WordCircuit}

/-- The circuits that any operations lead to. Where words are laid over a graph they must have all of
its objects, and names that words are read off must be as bits are named. -/
inductive Whole : WordCircuit → Prop where
  | ofGraph {g : Graph} {inputs outputs latches : Bundle} {c : WordCircuit} : g.WellFormed →
      ofGraph g inputs outputs latches = .ok c →
      (∀ kind, ∀ n ∈ g.names kind, (c.words kind).HasBit n) → Whole c
  | lift {g : Graph} : g.WellFormed → Whole (lift g)
  | rebundle {g : Graph} {c : WordCircuit} : g.WellFormed → rebundle g = .ok c →
      (∀ kind, ∀ n ∈ g.names kind, Word.IsBitName n) → Whole c
  | gate (component : Component) {c : WordCircuit} : component.build = .ok c → Whole c
  | seq {c d e : WordCircuit} : Whole c → Whole d → c.seq d = .ok e → Whole e
  | par {c d e : WordCircuit} : Whole c → Whole d → c.par d = .ok e → Whole e
  | relabel {kind : Kind} {new : Renaming} {c d : WordCircuit} : Whole c →
      c.relabel kind new = .ok d → Whole d
  | feedback {inputs outputs : List String} {initials : Option (List Word)}
      {latches : Option (List String)} {keepOutputs : Bool} {c d : WordCircuit} : Whole c →
      c.feedback inputs outputs initials latches keepOutputs = .ok d → Whole d
  | unroll {horizon : Nat} {options : UnrollOptions} {c d : WordCircuit} : Whole c →
      c.unroll horizon options = .ok d → Whole d

theorem Whole.exact (whole : c.Whole) : c.Exact := by
  induction whole with
  | ofGraph wf run all => exact ofGraph_exact wf run all
  | lift wf => exact lift_exact wf
  | rebundle wf run printed => exact (rebundle_safe wf printed).elim run
  | gate component run => exact component.exact run
  | seq _ _ run hc hd => exact (hc.seq_safe hd).elim run
  | par _ _ run hc hd => exact (hc.par_safe hd).elim run
  | relabel _ run hc => exact (hc.relabel_safe _ _).elim run
  | feedback _ run hc => exact (hc.feedback_safe _ _ _ _ _).elim run
  | unroll _ run => exact exact_of_unroll run

/-- Whatever else has made it, a circuit that has just the bits of its words is whole. -/
theorem whole_iff_exact : c.Whole ↔ c.Exact := by
  refine ⟨Whole.exact, fun exact => ?_⟩
  obtain ⟨wf, bits⟩ := exact_iff.1 exact
  have again : WordCircuit.ofGraph c.graph c.inputs c.outputs c.latches = .ok c :=
    ofGraph_eq_ok_iff.2 ⟨rfl, fun kind n => (bits kind n).2⟩
  exact .ofGraph wf again fun kind n => (bits kind n).1

/-- Word arithmetic makes whole circuits. -/
theorem whole_of_built {n : Nat} {t : Term} {e : Expression} (built : Expression.Built n t e) :
    e.circuit.Whole := by
  obtain ⟨_, r, -⟩ := built.exists_realizes
  exact whole_iff_exact.2 (Expression.gives_output r).2.exact

/-- What a circuit must be like: the graph satisfies the representation invariant and has every bit of
the words, and no evaluation breaks a precondition. -/
structure Sound (c : WordCircuit) : Prop where
  wf : c.graph.WellFormed
  bits : ∀ kind n, (c.words kind).HasBit n → n ∈ c.graph.names kind
  eval : ∀ inputs state, Safe (c.eval inputs state) fun _ => True
  simulate : ∀ inputs state, Safe (c.simulate inputs state) fun _ => True

theorem Exact.sound (exact : c.Exact) : c.Sound where
  wf := exact.wf
  bits kind n := ((exact_iff.1 exact).2 kind n).2
  eval := exact.eval_safe
  simulate := exact.simulate_safe

/-- Every operation on whole circuits gives a sound circuit or refuses its arguments. -/
theorem Whole.operations_safe (hc : c.Whole) (hd : d.Whole) :
    Safe (c.seq d) Sound ∧ Safe (c.par d) Sound ∧
    (∀ kind new, Safe (c.relabel kind new) Sound) ∧
    ∀ inputs outputs initials latches keepOutputs,
      Safe (c.feedback inputs outputs initials latches keepOutputs) Sound := by
  have sound (e : WordCircuit) (exact : e.Exact) : e.Sound := exact.sound
  refine ⟨?_, ?_, fun kind new => ?_, fun inputs outputs initials latches keepOutputs => ?_⟩
  · exact (hc.exact.seq_safe hd.exact).imp sound
  · exact (hc.exact.par_safe hd.exact).imp sound
  · exact (hc.exact.relabel_safe kind new).imp sound
  · exact (hc.exact.feedback_safe inputs outputs initials latches keepOutputs).imp sound

/-- A counter is sound, and it is refused where it would stand beside itself. -/
theorem Whole.operations_safe_counter : ∃ c d, WordGate.inc 2 "x" "y" = .ok c ∧
    c.feedback ["x"] ["y"] none (some ["l"]) true = .ok d ∧ d.Sound ∧
    d.par d = .error (.circuit (.sharedOutput "y")) := by
  obtain ⟨c, hc, d, hd, twice⟩ : ∃ c, WordGate.inc 2 "x" "y" = .ok c ∧ ∃ d,
      c.feedback ["x"] ["y"] none (some ["l"]) true = .ok d ∧
      d.par d = .error (.circuit (.sharedOutput "y")) := by
    decide +kernel
  have whole : c.Whole := .gate (.unary .inc 2 "x" "y") hc
  obtain ⟨-, -, -, feedback⟩ := whole.operations_safe whole
  exact ⟨c, d, hc, hd, (feedback ["x"] ["y"] none (some ["l"]) true).elim hd, twice⟩

/-- Objects without a word are not seen by the checks of words. A latch meets itself where a circuit
stands beside itself, and an input loses its name to a renamed word. -/
theorem wordless_objects_break_operations :
    (∃ g, g.Reachable ∧ ∃ c, ofGraph g ∅ ∅ ∅ = .ok c ∧
      c.par c = .error (.violated (.duplicateLatch "l"))) ∧
    ∃ g, g.Reachable ∧ ∃ c, ofGraph g (NameMap.ofPairs [("a", 1)]) ∅ ∅ = .ok c ∧ ∃ d,
      c.relabel .input (NameMap.ofPairs [("a", "b")]) = .ok d ∧
      d.eval (NameMap.ofPairs [("b", [true])]) none = .error .inconsistent := by
  constructor
  · obtain ⟨g, hg, run⟩ : ∃ g, Build.graph ([.latch "l" false].forM Growth.build) = .ok g ∧ ∃ c,
        ofGraph g ∅ ∅ ∅ = .ok c ∧ c.par c = .error (.violated (.duplicateLatch "l")) := by
      decide +kernel
    exact ⟨g, Graph.reachable_of_growths hg, run⟩
  · obtain ⟨g, hg, run⟩ : ∃ g, Graph.sink ["a[0]", "b[0]"] = .ok g ∧ ∃ c,
        ofGraph g (NameMap.ofPairs [("a", 1)]) ∅ ∅ = .ok c ∧ ∃ d,
        c.relabel .input (NameMap.ofPairs [("a", "b")]) = .ok d ∧
        d.eval (NameMap.ofPairs [("b", [true])]) none = .error .inconsistent := by
      decide +kernel
    exact ⟨g, .sink hg, run⟩

end WordCircuit

end AndInverter
