import AndInverter.Proofs.Except
import AndInverter.Proofs.Graph.Solution

/-! One step of a graph is the reading of its solution: `eval` succeeds exactly where every input has
a value, and then gives what the one solution over the given leaves says. -/

namespace AndInverter

namespace Graph

/-- The first `k` nodes have the values that `v` says, and the inputs among them have a value. -/
structure ValuedTo (g : Graph) (v : Nat → Bool) (inputs : Valuation) (k : Nat)
    (values : Array Bool) : Prop where
  size : values.size = k
  value : ∀ i < k, values[i]? = some (v i)
  covered : ∀ (name : String) i, g.inputs[name]? = some i → i < k → name ∈ inputs

/-- `name` is the input with the lowest node among those without a value. -/
def FirstMissing (g : Graph) (inputs : Valuation) (name : String) : Prop :=
  ∃ i, g.inputs[name]? = some i ∧ name ∉ inputs ∧
    ∀ (other : String) j, g.inputs[other]? = some j → j < i → other ∈ inputs

/-- The step that the solution `v` says, where the leaves have the given values. -/
structure IsStep (g : Graph) (v : Nat → Bool) (inputs state : Valuation) (step : Step) : Prop where
  solution : g.Solution v
  inputs : ∀ name ∈ g.inputs, g.inputValue v name = inputs[name]?
  latches : ∀ name, g.latchValue v name =
    (g.initial name).map fun init => (state[name]?).getD init
  outputs : ∀ name : String, step.outputs[name]? = g.outputValue v name
  nexts : ∀ name : String, step.latches[name]? = g.nextValue v name

theorem ValuedTo.push {g : Graph} {inputs : Valuation} {v : Nat → Bool} {k : Nat} {values : Array Bool}
    (valued : g.ValuedTo v inputs k values)
    (hk : ∀ name : String, g.inputs[name]? = some k → name ∈ inputs) :
    g.ValuedTo v inputs (k + 1) (values.push (v k)) := by
  obtain ⟨rfl, value, covered⟩ := valued
  refine ⟨Array.size_push _, fun i hi => ?_, fun name i hn hi => ?_⟩
  · rw [Array.getElem?_push]
    by_cases hik : i = values.size
    · simp [hik]
    · simp [hik, value i (by omega)]
  · by_cases hik : i = values.size
    · exact hk name (hik ▸ hn)
    · exact covered name i hn (by omega)

/-- The solution determines the step. -/
theorem IsStep.unique {g : Graph} {v : Nat → Bool} {inputs state : Valuation} {a b : Step}
    (ha : g.IsStep v inputs state a) (hb : g.IsStep v inputs state b) : a = b := by
  rcases a with ⟨outputs, latches⟩
  rcases b with ⟨outputs', latches'⟩
  obtain rfl : outputs = outputs' :=
    Std.ExtTreeMap.ext_getElem? fun name => (ha.outputs name).trans (hb.outputs name).symm
  obtain rfl : latches = latches' :=
    Std.ExtTreeMap.ext_getElem? fun name => (ha.nexts name).trans (hb.nexts name).symm
  rfl

/-- A step shows the outputs of the graph, and leaves values in its latches. -/
theorem IsStep.mem_outputs_iff {g : Graph} {v : Nat → Bool} {inputs state : Valuation} {step : Step}
    (h : g.IsStep v inputs state step) (n : String) : n ∈ step.outputs ↔ n ∈ g.outputs := by
  simp only [Std.ExtTreeMap.mem_iff_isSome_getElem?, h.outputs, outputValue, Option.isSome_map]

theorem IsStep.mem_latches_iff {g : Graph} {v : Nat → Bool} {inputs state : Valuation} {step : Step}
    (h : g.IsStep v inputs state step) (ev : g.Evaluable) (n : String) :
    n ∈ step.latches ↔ n ∈ g.latches := by
  rw [Std.ExtTreeMap.mem_iff_isSome_getElem?, h.nexts, nextValue, Option.isSome_map,
    Option.isSome_iff_exists, ev.mem_latches_iff]

theorem outputValue_eq_none {g : Graph} {v : Nat → Bool} {n : String} (hn : n ∉ g.outputs) :
    g.outputValue v n = none := by
  rw [outputValue, not_mem_iff_getElem?.1 hn, Option.map_none]

theorem Evaluable.nextValue_eq_none {g : Graph} (ev : g.Evaluable) {v : Nat → Bool} {n : String}
    (hn : n ∉ g.latches) : g.nextValue v n = none := by
  rw [nextValue, ev.latch?_eq_none hn, Option.map_none]

/-- The value that a leaf is given by its name. -/
def leafValue (g : Graph) (inputs state : Valuation) (i : Nat) : Bool :=
  match g.nodes[i]? with
  | some .input => ((NodeNames.ofMap g.inputs)[i]?.bind (inputs[·]?)).getD false
  | some (.latch _ init) => ((NodeNames.ofMap g.latches)[i]?.bind (state[·]?)).getD init
  | _ => false

namespace Evaluable

variable {g : Graph} (ev : g.Evaluable)
include ev

theorem outputValue_congr {v w : Nat → Bool} (same : ∀ i < g.nodes.size, v i = w i)
    (name : String) : g.outputValue v name = g.outputValue w name :=
  Option.map_congr fun _ hl => Literal.under_congr (same _ (ev.output hl))

theorem nextValue_congr {v w : Nat → Bool} (same : ∀ i < g.nodes.size, v i = w i)
    (name : String) : g.nextValue v name = g.nextValue w name :=
  Option.map_congr fun _ hl =>
    Literal.under_congr (same _ (ev.next (ev.latch?_eq_some_iff.1 hl).2))

/-- Every valuation of the leaves has its solution. -/
theorem exists_leaves (inputs state : Valuation) :
    ∃ v, g.Solution v ∧
      (∀ (name : String) i, g.inputs[name]? = some i → v i = (inputs[name]?).getD false) ∧
      ∀ name, g.latchValue v name = (g.initial name).map fun init => (state[name]?).getD init := by
  obtain ⟨v, hv, hleaf⟩ := ev.exists_solution (g.leafValue inputs state)
  refine ⟨v, hv, fun name i h => ?_, fun name => ?_⟩
  · have hi := ev.input.2 ⟨name, h⟩
    have h0 : i ≠ 0 := by
      rintro rfl
      rw [ev.zero] at hi
      cases hi
    rw [hleaf i (by simp [hi]) h0]
    simp [leafValue, hi, (NodeNames.getElem?_ofMap ev.input_inj).2 h]
  · cases h : g.latch? name with
    | none =>
      have : g.latches[name]? = none := by
        rw [← not_mem_iff_getElem?, ev.mem_latches_iff, h]
        simp
      simp [latchValue, initial, h, this]
    | some l =>
      obtain ⟨hn, hi⟩ := ev.latch?_eq_some_iff.1 h
      have h0 : l.id ≠ 0 := by
        intro h0
        rw [h0, ev.zero] at hi
        cases hi
      have := hleaf l.id (by simp [hi]) h0
      simp [leafValue, hi, (NodeNames.getElem?_ofMap ev.latch_inj).2 hn] at this
      simp [latchValue, initial, h, hn, this]

/-- The value of the next node is that of the solution, unless the node is an input without one. -/
theorem nodeValue_cases {inputs state : Valuation} {v : Nat → Bool} (hv : g.Solution v)
    (hin : ∀ (name : String) i, g.inputs[name]? = some i → v i = (inputs[name]?).getD false)
    (hst : ∀ name, g.latchValue v name =
      (g.initial name).map fun init => (state[name]?).getD init)
    {k : Nat} {values : Array Bool} (valued : g.ValuedTo v inputs k values) {node : Node}
    (hk : g.nodes[k]? = some node) :
    (nodeValue (NodeNames.ofMap g.inputs) (NodeNames.ofMap g.latches) inputs state values k node =
        .ok (v k) ∧ ∀ name : String, g.inputs[name]? = some k → name ∈ inputs) ∨
      ∃ name, g.FirstMissing inputs name ∧
        nodeValue (NodeNames.ofMap g.inputs) (NodeNames.ofMap g.latches) inputs state values k node =
          .error (.circuit (.missingInput name)) := by
  have value {l : Literal} (hl : l.id < k) : l.value? values = some (l.under v) := by
    simp [Literal.value?, valued.value _ hl, Literal.under]
  -- No other node is an input, so nothing is added to the inputs seen.
  have other (h : node ≠ .input) (name : String) (hn : g.inputs[name]? = some k) :
      name ∈ inputs := by
    have := ev.input.2 ⟨name, hn⟩
    rw [hk] at this
    exact absurd (Option.some.inj this) h
  cases node with
  | zero =>
    have hk0 := ev.zero_unique hk
    exact .inl ⟨by simp [nodeValue, hk0, hv.zero], other (by simp)⟩
  | input =>
    obtain ⟨name, hn⟩ := ev.input.1 hk
    have hname := (NodeNames.getElem?_ofMap ev.input_inj).2 hn
    cases hval : inputs[name]? with
    | none =>
      refine .inr ⟨name, ⟨k, hn, not_mem_iff_getElem?.2 hval, valued.covered⟩, ?_⟩
      simp [nodeValue, hname, hval]
    | some value =>
      refine .inl ⟨?_, fun a ha => ?_⟩
      · simp [nodeValue, hname, hval, hin name k hn]
      · rw [ev.input_inj ha hn]
        exact mem_iff_exists_getElem?.2 ⟨value, hval⟩
  | latch next init =>
    obtain ⟨name, hn⟩ := ev.latch.1 ⟨next, init, hk⟩
    have hname := (NodeNames.getElem?_ofMap ev.latch_inj).2 hn
    have hl : g.latch? name = some ⟨k, next, init⟩ := ev.latch?_eq_some_iff.2 ⟨hn, hk⟩
    have := hst name
    simp [latchValue, initial, hl, hn] at this
    exact .inl ⟨by simp [nodeValue, hname, this], other (by simp)⟩
  | and left right =>
    obtain ⟨ha, hb⟩ := ev.fanin hk
    exact .inl ⟨by simp [nodeValue, value ha, value hb, hv.gate hk], other (by simp)⟩

/-- The values of the nodes are those of the solution, unless an input has no value. -/
theorem nodeValues_cases {inputs state : Valuation} {v : Nat → Bool} (hv : g.Solution v)
    (hin : ∀ (name : String) i, g.inputs[name]? = some i → v i = (inputs[name]?).getD false)
    (hst : ∀ name, g.latchValue v name =
      (g.initial name).map fun init => (state[name]?).getD init) :
    (∃ values, g.nodeValues inputs state = .ok values ∧
      g.ValuedTo v inputs g.nodes.size values) ∨
    ∃ e, g.nodeValues inputs state = .error e ∧
      ∃ name, g.FirstMissing inputs name ∧ e = .circuit (.missingInput name) := by
  refine g.length_numbered ▸ foldlM_except_cases (g.ValuedTo v inputs) _
    (fun k values ⟨node, id⟩ hentry valued => ?_) ⟨rfl, by simp, by simp⟩
  obtain ⟨hk, rfl⟩ := ev.getElem?_numbered_iff.1 hentry
  rcases ev.nodeValue_cases hv hin hst valued hk with ⟨hok, covered⟩ | ⟨name, missing, he⟩
  · exact .inl ⟨_, by simp [hok], valued.push covered⟩
  · exact .inr ⟨_, by simp [he], name, missing, rfl⟩

/-- Where values are missing, one input is the first without a value. -/
theorem firstMissing_unique {inputs : Valuation} {a b : String} (ha : g.FirstMissing inputs a)
    (hb : g.FirstMissing inputs b) : a = b := by
  obtain ⟨i, hi, absent, before⟩ := ha
  obtain ⟨j, hj, absent', before'⟩ := hb
  rcases Nat.lt_trichotomy i j with lt | rfl | lt
  · exact absurd (before' a i hi lt) absent
  · exact ev.input_inj hi hj
  · exact absurd (before b j hj lt) absent'

/-- The values of nodes are found but for the first input without a value. -/
theorem nodeValues_eq_error_iff {inputs state : Valuation} {fault : Fault} :
    g.nodeValues inputs state = .error fault ↔
      ∃ name, g.FirstMissing inputs name ∧ fault = .circuit (.missingInput name) := by
  obtain ⟨v, hv, hin, hst⟩ := ev.exists_leaves inputs state
  rcases ev.nodeValues_cases hv hin hst with ⟨values, hok, valued⟩ | ⟨e, he, name, missing, rfl⟩
  · have none (name : String) : ¬ g.FirstMissing inputs name := fun ⟨i, hi, absent, _⟩ =>
      absent (valued.covered name i hi (lt_size (ev.input.2 ⟨name, hi⟩)))
    simp [hok, none]
  · rw [he]
    constructor
    · rintro ⟨⟩
      exact ⟨name, missing, rfl⟩
    · rintro ⟨other, missing', rfl⟩
      rw [ev.firstMissing_unique missing missing']

theorem nextStates_eq : ∃ nexts : NameMap Literal, g.nextStates = some nexts ∧
    ∀ name : String, nexts[name]? = (g.latch? name).map (·.next) := by
  refine NameMap.exists_traverse (fun name i hi => ?_) fun name hn => ?_
  · obtain ⟨next, init, hnode⟩ := ev.latch.2 ⟨name, hi⟩
    exact ⟨next, by simp [hnode], by
      simp [ev.latch?_eq_some_iff (l := ⟨i, next, init⟩).2 ⟨hi, hnode⟩]⟩
  · simp [ev.latch?_eq_none hn]

theorem readStep_eq {values : Array Bool} {v : Nat → Bool}
    (hval : ∀ i < g.nodes.size, values[i]? = some (v i)) :
    ∃ step, g.readStep values = some step ∧
      (∀ name : String, step.outputs[name]? = g.outputValue v name) ∧
      ∀ name : String, step.latches[name]? = g.nextValue v name := by
  have value {l : Literal} (hl : g.Has l) : l.value? values = some (l.under v) := by
    simp [Literal.value?, hval _ hl, Literal.under]
  obtain ⟨outputs, ho, hout⟩ := NameMap.exists_traverse (m := g.outputs) (f := (·.value? values))
    (g := g.outputValue v)
    (fun name l h => ⟨_, value (ev.output h), by simp [outputValue, h]⟩)
    (fun name h => by simp [outputValue, not_mem_iff_getElem?.1 h])
  obtain ⟨nexts, hn, hnext⟩ := ev.nextStates_eq
  obtain ⟨latches, hl, hlat⟩ := NameMap.exists_traverse (m := nexts) (f := (·.value? values))
    (g := g.nextValue v)
    (fun name l h => by
      rw [hnext] at h
      obtain ⟨x, hx, rfl⟩ := Option.map_eq_some_iff.1 h
      exact ⟨_, value (ev.next (ev.latch?_eq_some_iff.1 hx).2), by simp [nextValue, hx]⟩)
    (fun name h => by
      rw [not_mem_iff_getElem?, hnext, Option.map_eq_none_iff] at h
      simp [nextValue, h])
  exact ⟨⟨outputs, latches⟩, by simp [readStep, ho, hn, hl], hout, hlat⟩

/-- Either every input has a value and there is a step, or a missing value is reported. -/
theorem eval_cases (inputs : Valuation) (state : Option Valuation) :
    (∃ v step, g.eval inputs state = .ok step ∧ g.IsStep v inputs (state.getD ∅) step ∧
      ∀ name ∈ g.inputs, name ∈ inputs) ∨
    ∃ name ∈ g.inputs, name ∉ inputs ∧
      g.eval inputs state = .error (.circuit (.missingInput name)) := by
  obtain ⟨v, hv, hin, hst⟩ := ev.exists_leaves inputs (state.getD ∅)
  rcases ev.nodeValues_cases hv hin hst with ⟨values, hok, valued⟩ |
    ⟨e, he, name, ⟨i, hi, absent, -⟩, rfl⟩
  · obtain ⟨step, hstep, hout, hnext⟩ := ev.readStep_eq valued.value
    have hcov (name : String) (hn : name ∈ g.inputs) : name ∈ inputs := by
      obtain ⟨i, hi⟩ := mem_iff_exists_getElem?.1 hn
      exact valued.covered name i hi (lt_size (ev.input.2 ⟨name, hi⟩))
    refine .inl ⟨v, step, ?_, ⟨hv, fun name hn => ?_, hst, hout, hnext⟩, hcov⟩
    · simp [eval, hok, hstep]
    · obtain ⟨i, hi⟩ := mem_iff_exists_getElem?.1 hn
      obtain ⟨value, hvalue⟩ := mem_iff_exists_getElem?.1 (hcov name hn)
      simp [inputValue, hi, hin name i hi, hvalue]
  · exact .inr ⟨name, mem_iff_exists_getElem?.2 ⟨i, hi⟩, absent, by simp [eval, he]⟩

/-- A step is found where the values of the nodes are. -/
theorem eval_eq_error_iff {inputs : Valuation} {state : Option Valuation} {fault : Fault} :
    g.eval inputs state = .error fault ↔
      ∃ name, g.FirstMissing inputs name ∧ fault = .circuit (.missingInput name) := by
  suffices g.eval inputs state = .error fault ↔ g.nodeValues inputs (state.getD ∅) = .error fault
    from this.trans ev.nodeValues_eq_error_iff
  obtain ⟨v, hv, hin, hst⟩ := ev.exists_leaves inputs (state.getD ∅)
  rcases ev.nodeValues_cases hv hin hst with ⟨values, hok, valued⟩ | ⟨e, he, -⟩
  · obtain ⟨step, hstep, -⟩ := ev.readStep_eq valued.value
    simp [eval, hok, hstep]
  · simp [eval, he]

/-- Graphs that miss the same inputs and take the same steps are evaluated alike. -/
theorem eval_eq_eval {h : Graph} (evh : h.Evaluable) {inputs : Valuation} {state : Option Valuation}
    (missing : ∀ name, g.FirstMissing inputs name ↔ h.FirstMissing inputs name)
    (steps : ∀ step, g.eval inputs state = .ok step → h.eval inputs state = .ok step) :
    h.eval inputs state = g.eval inputs state := by
  cases run : g.eval inputs state with
  | ok step => exact steps step run
  | error fault =>
    obtain ⟨name, first, rfl⟩ := ev.eval_eq_error_iff.1 run
    exact evh.eval_eq_error_iff.2 ⟨name, (missing name).1 first, rfl⟩

/-- A solution over the given leaves says what the step gives. -/
theorem exists_eval_of_solution {inputs : Valuation} {state : Option Valuation} {v : Nat → Bool}
    (hv : g.Solution v) (hin : ∀ name ∈ g.inputs, g.inputValue v name = inputs[name]?)
    (hst : ∀ name, g.latchValue v name =
      (g.initial name).map fun init => ((state.getD ∅)[name]?).getD init) :
    ∃ step, g.eval inputs state = .ok step ∧ g.IsStep v inputs (state.getD ∅) step := by
  rcases ev.eval_cases inputs state with ⟨w, step, hok, hw, -⟩ | ⟨name, hn, hi, -⟩
  · have same := ev.solution_unique hw.solution hv
      (fun name => by
        by_cases h : name ∈ g.inputs
        · rw [hw.inputs name h, hin name h]
        · simp [inputValue, not_mem_iff_getElem?.1 h])
      (fun name => by rw [hw.latches, hst])
    exact ⟨step, hok, hv, hin, hst,
      fun name => (hw.outputs name).trans (ev.outputValue_congr same name),
      fun name => (hw.nexts name).trans (ev.nextValue_congr same name)⟩
  · obtain ⟨i, hname⟩ := mem_iff_exists_getElem?.1 hn
    have := hin name hn
    simp [inputValue, hname, not_mem_iff_getElem?.1 hi] at this

theorem eval_eq_ok_iff {inputs : Valuation} {state : Option Valuation} {step : Step} :
    g.eval inputs state = .ok step ↔ ∃ v, g.IsStep v inputs (state.getD ∅) step := by
  constructor
  · intro h
    rcases ev.eval_cases inputs state with ⟨v, step', hok, his, -⟩ | ⟨name, -, -, he⟩
    · rw [hok] at h
      exact ⟨v, Except.ok.inj h ▸ his⟩
    · rw [he] at h
      cases h
  · rintro ⟨v, hv⟩
    obtain ⟨step', hok, hstep⟩ := ev.exists_eval_of_solution hv.solution hv.inputs hv.latches
    rw [hok, hv.unique hstep]

theorem exists_eval_ok_iff {inputs : Valuation} {state : Option Valuation} :
    (∃ step, g.eval inputs state = .ok step) ↔ ∀ name ∈ g.inputs, name ∈ inputs := by
  rcases ev.eval_cases inputs state with ⟨v, step, hok, -, hcov⟩ | ⟨name, hn, hi, he⟩
  · exact ⟨fun _ => hcov, fun _ => ⟨step, hok⟩⟩
  · exact ⟨fun ⟨step, hok⟩ => (by rw [he] at hok; cases hok), fun h => absurd (h name hn) hi⟩

end Evaluable

/-- One step reads no more of a state than the values of the latches. -/
theorem eval_congr {g : Graph} {inputs state state' : Valuation}
    (same : ∀ n ∈ g.latches, state[n]? = state'[n]?) :
    g.eval inputs (some state) = g.eval inputs (some state') := by
  have nodes : g.nodeValues inputs state = g.nodeValues inputs state' := by
    apply congrArg (fun f => g.numbered.foldlM f #[])
    funext values ⟨node, id⟩
    cases node with
    | latch next init =>
      cases h : (NodeNames.ofMap g.latches)[id]? with
      | none => simp [nodeValue, h]
      | some name =>
        have known := same name (mem_iff_exists_getElem?.2 ⟨_, NodeNames.getElem?_of_ofMap h⟩)
        simp [nodeValue, h, known]
    | _ => rfl
  rw [eval, eval, Option.getD_some, Option.getD_some, nodes]

/-- `name` is an input without a value in the first of the valuations that leave one out. -/
def LeftOut (g : Graph) (inputs : List Valuation) (name : String) : Prop :=
  ∃ done values later, inputs = done ++ values :: later ∧
    (∀ before ∈ done, ∀ n ∈ g.inputs, n ∈ before) ∧ name ∈ g.inputs ∧ name ∉ values

theorem LeftOut.cons {g : Graph} {inputs : List Valuation} {name : String} {values : Valuation}
    (covered : ∀ n ∈ g.inputs, n ∈ values) (left : g.LeftOut inputs name) :
    g.LeftOut (values :: inputs) name := by
  obtain ⟨done, values', later, rfl, before, hname⟩ := left
  exact ⟨values :: done, values', later, rfl, List.forall_mem_cons.2 ⟨covered, before⟩, hname⟩

/-- A run stops where an input has no value, and says so. -/
theorem Evaluable.exists_leftOut {g : Graph} (ev : g.Evaluable) {inputs : List Valuation}
    {state : Valuation} {fault : Fault} (h : g.runFrom state inputs = .error fault) :
    ∃ name, g.LeftOut inputs name ∧ fault = .circuit (.missingInput name) := by
  induction inputs generalizing state with
  | nil => cases h
  | cons values later ih =>
    rw [runFrom] at h
    rcases ev.eval_cases values (some state) with ⟨_, step, hstep, -, covered⟩ | ⟨name, hn, hi, herr⟩
    · rw [hstep, except_ok_bind] at h
      cases hlater : g.runFrom step.latches later with
      | ok steps =>
        rw [hlater] at h
        cases h
      | error fault' =>
        rw [hlater] at h
        cases h
        obtain ⟨name, left, rfl⟩ := ih hlater
        exact ⟨name, left.cons covered, rfl⟩
    · rw [herr] at h
      cases h
      exact ⟨name, ⟨[], values, later, rfl, by simp, hn, hi⟩, rfl⟩

/-- A run that ends well has found all its inputs. -/
theorem Evaluable.mem_of_runFrom {g : Graph} (ev : g.Evaluable) {inputs : List Valuation} {σ : Valuation}
    {steps : List Step} (hrun : g.runFrom σ inputs = .ok steps) :
    ∀ values ∈ inputs, ∀ x ∈ g.inputs, x ∈ values := by
  induction inputs generalizing σ steps with
  | nil => simp
  | cons values later ih =>
    obtain ⟨step, hok, hrest⟩ := except_bind_eq_ok_iff.1 hrun
    obtain ⟨rest, hlater, -⟩ := except_bind_eq_ok_iff.1 hrest
    intro values' hv
    rcases List.mem_cons.1 hv with rfl | hv
    · exact ev.exists_eval_ok_iff.1 ⟨step, hok⟩
    · exact ih hlater values' hv

theorem length_of_runFrom {g : Graph} {inputs : List Valuation} {σ : Valuation} {steps : List Step}
    (hrun : g.runFrom σ inputs = .ok steps) : steps.length = inputs.length := by
  induction inputs generalizing σ steps with
  | nil => cases hrun; rfl
  | cons values later ih =>
    obtain ⟨step, -, hrest⟩ := except_bind_eq_ok_iff.1 hrun
    obtain ⟨rest, hlater, heq⟩ := except_bind_eq_ok_iff.1 hrest
    cases heq
    rw [List.length_cons, List.length_cons, ih hlater]

/-- A run ends well exactly where every step finds its inputs. -/
theorem Evaluable.exists_runFrom_iff {g : Graph} (ev : g.Evaluable) {inputs : List Valuation}
    {state : Valuation} : (∃ steps, g.runFrom state inputs = .ok steps) ↔
      ∀ values ∈ inputs, ∀ name ∈ g.inputs, name ∈ values := by
  constructor
  · rintro ⟨steps, hrun⟩
    exact ev.mem_of_runFrom hrun
  · intro covered
    cases hrun : g.runFrom state inputs with
    | ok steps => exact ⟨steps, rfl⟩
    | error fault =>
      obtain ⟨name, ⟨done, values, later, rfl, -, hname, missing⟩, -⟩ := ev.exists_leftOut hrun
      exact absurd (covered values (by simp) name hname) missing

/-- The values of latches in a solution, where those of its latches are known. -/
theorem Evaluable.latchValue_eq {g : Graph} (ev : g.Evaluable) {u : Nat → Bool} {state : Valuation}
    (known : ∀ n ∈ g.latches,
      g.latchValue u n = (g.initial n).map fun init => (state[n]?).getD init) (n : String) :
    g.latchValue u n = (g.initial n).map fun init => (state[n]?).getD init := by
  by_cases hn : n ∈ g.latches
  · exact known n hn
  · simp [latchValue, initial, not_mem_iff_getElem?.1 hn, ev.latch?_eq_none hn]

theorem getElem?_initialState (g : Graph) (name : String) :
    g.initialState[name]? = g.initial name := by
  have distinct : ((g.latches.keys.filterMap fun name =>
      (g.latch? name).map fun latch => (name, latch.init)).map Prod.fst).Nodup := by
    rw [List.Nodup, List.pairwise_map, List.pairwise_filterMap]
    refine g.latches.nodup_keys.imp fun hne b hb b' hb' heq => ?_
    obtain ⟨_, -, rfl⟩ := Option.map_eq_some_iff.1 hb
    obtain ⟨_, -, rfl⟩ := Option.map_eq_some_iff.1 hb'
    exact hne heq
  refine Option.ext fun init => ?_
  rw [initialState, NameMap.getElem?_ofPairs_eq_some_iff distinct]
  simp only [List.mem_filterMap, Option.map_eq_some_iff, Prod.mk.injEq, initial]
  constructor
  · rintro ⟨name, -, latch, hl, rfl, rfl⟩
    exact ⟨latch, hl, rfl⟩
  · rintro ⟨latch, hl, rfl⟩
    obtain ⟨id, hid, -⟩ := Option.bind_eq_some_iff.1 hl
    exact ⟨name, Std.ExtTreeMap.mem_keys.2 (mem_iff_exists_getElem?.2 ⟨id, hid⟩), latch, hl, rfl, rfl⟩

theorem Evaluable.mem_initialState_iff {g : Graph} (ev : g.Evaluable) {name : String} :
    name ∈ g.initialState ↔ name ∈ g.latches := by
  rw [mem_iff_exists_getElem?, getElem?_initialState, initial, ← Option.isSome_iff_exists,
    Option.isSome_map, ev.mem_latches_iff, Option.isSome_iff_exists]

/-- A step leaves values in the latches and in nothing else, and every latch has its node. -/
theorem latches_of_eval {g : Graph} {inputs : Valuation} {state : Option Valuation} {step : Step}
    (h : g.eval inputs state = .ok step) (n : String) :
    (n ∈ step.latches ↔ n ∈ g.latches) ∧ (n ∈ g.latches → n ∈ g.initialState) := by
  obtain ⟨values, -, hread⟩ := except_bind_eq_ok_iff.1 h
  obtain ⟨step', hstep⟩ : ∃ step', g.readStep values = some step' := by
    cases hr : g.readStep values with
    | none => simp [hr] at hread
    | some step' => exact ⟨step', rfl⟩
  obtain rfl : step' = step := by simpa [hstep] using hread
  simp only [readStep, bind, Option.bind_eq_some_iff] at hstep
  obtain ⟨outputs, -, nexts, hnexts, latches, hlatches, heq⟩ := hstep
  obtain rfl := Option.some.inj heq
  constructor
  · show n ∈ latches ↔ n ∈ g.latches
    rw [NameMap.mem_traverse_iff hlatches, NameMap.mem_traverse_iff hnexts]
  · intro hn
    obtain ⟨id, hid⟩ := mem_iff_exists_getElem?.1 hn
    have isLatch := NameMap.isSome_of_traverse hnexts hid
    rw [mem_iff_exists_getElem?, getElem?_initialState]
    split at isLatch
    next next init hnode => exact ⟨init, by simp [initial, latch?, hid, hnode]⟩
    next => cases isLatch

end Graph

end AndInverter
