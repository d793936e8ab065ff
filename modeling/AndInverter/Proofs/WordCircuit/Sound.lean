import AndInverter.Proofs.WordCircuit.Blast

/-! Circuits whose objects are the bits of their words are safe to work with. Evaluation and operations
give what they should, or say what is wrong. -/

namespace AndInverter

namespace WordCircuit

variable {c d : WordCircuit}

/-- A step of an exact circuit gives values or says what is wrong with those given. -/
theorem Exact.eval_safe (exact : c.Exact) (inputs : WordValuation) (state : Option WordValuation) :
    Safe (c.eval inputs state) fun _ => True := by
  rw [eval]
  apply (Bundle.blast_safe c.inputs inputs).bind
  intro bits _
  have start : Safe (state.mapM fun state => c.latches.blastPartial state) fun _ => True := by
    cases state with
    | none => exact .pure trivial
    | some words => exact (Bundle.blast_safe _ _).bind fun _ _ => .pure trivial
  apply start.bind
  intro bits' _
  rcases exact.wf.eval_cases bits bits' with ⟨_, step, hstep, -, -⟩ | ⟨name, -, -, herr⟩
  · rw [hstep]
    exact .pure trivial
  · rw [herr]
    exact .circuit _

theorem Exact.simulate_safe (exact : c.Exact) (inputs : List WordValuation)
    (state : Option WordValuation) : Safe (c.simulate inputs state) fun _ => True := by
  have run (state : WordValuation) : Safe (c.runFrom state inputs) fun _ => True := by
    induction inputs generalizing state with
    | nil => exact .pure trivial
    | cons first later ih =>
      apply (exact.eval_safe first (some state)).bind
      intro step _
      exact (ih step.latches).bind fun _ _ => .pure trivial
  exact run _

theorem Exact.seq_safe (hc : c.Exact) (hd : d.Exact) : Safe (c.seq d) Exact :=
  (hc.seq_blast hd).imp fun _ h => h.exact

theorem Exact.par_safe (hc : c.Exact) (hd : d.Exact) : Safe (c.par d) Exact :=
  (hc.par_blast hd).imp fun _ h => h.exact

theorem Exact.relabel_safe (hc : c.Exact) (kind : Kind) (new : Renaming) :
    Safe (c.relabel kind new) Exact :=
  (hc.relabel_blast kind new).imp fun _ h => h.exact

theorem Exact.feedback_safe (hc : c.Exact) (ins outs : List String) (inits : Option (List Word))
    (latchNames : Option (List String)) (keepOutputs : Bool) :
    Safe (c.feedback ins outs inits latchNames keepOutputs) Exact :=
  (hc.feedback_blast ins outs inits latchNames keepOutputs).imp fun _ h => h.exact

end WordCircuit

end AndInverter
