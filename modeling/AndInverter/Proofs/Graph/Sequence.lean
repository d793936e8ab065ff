import AndInverter.Proofs.Graph.Join
import AndInverter.Proofs.Graph.Reachable

/-! Runs of sequential compositions. A run of the composed graph is a run of both parts, where in
every step the second part reads the outputs of the first one. -/

namespace AndInverter

theorem NameMap.getElem?_filter_not_contains {α β : Type} {m : NameMap α} {other : NameMap β}
    {name : String} : (m.filter fun name _ => !other.contains name)[name]? =
      if name ∈ other then none else m[name]? := by
  rw [NameMap.getElem?_filter_key]
  by_cases h : other.contains name
  · simp [h, Std.ExtTreeMap.mem_iff_contains.2 h]
  · simp [h, mt Std.ExtTreeMap.mem_iff_contains.1 h]

namespace Graph

/-- One step of both parts, from a state of each. An input of `right` with the name of an output of
`left` takes its value, and other inputs are those of the step. -/
def stepBoth (left right : Graph) (inputs : Valuation) (states : Valuation × Valuation) :
    Except Fault (Step × Step) := do
  let first ← left.eval inputs (some states.1)
  let second ← right.eval (NameMap.merge inputs first.outputs) (some states.2)
  return (first, second)

/-- What both parts show: outputs of `first` that drive no input of `right`, and all of `second`. -/
def joinStep (right : Graph) (first second : Step) : Step where
  outputs := NameMap.merge (first.outputs.filter fun name _ => !right.inputs.contains name)
    second.outputs
  latches := NameMap.merge first.latches second.latches

/-- One step of both parts for each valuation of the inputs, each part going on with its own next
state. -/
def runBoth (left right : Graph) :
    Valuation × Valuation → List Valuation → Except Fault (List Step)
  | _, [] => .ok []
  | states, inputs :: later => do
    let (first, second) ← left.stepBoth right inputs states
    return right.joinStep first second ::
      (← left.runBoth right (first.latches, second.latches) later)

section Parts
variable {left right c : Graph}

/-- A step of the whole is a step of both parts, and leads to a state of both. -/
theorem IsJoin.exists_stepBoth
    (join : left.IsJoin right (fun _ => True) (fun n => n ∉ right.inputs) c)
    (evl : left.Evaluable) (evr : right.Evaluable) (ev : c.Evaluable)
    (apart : ∀ n ∈ left.latches, n ∉ right.latches) {inputs state : Valuation}
    {states : Valuation × Valuation} (split : SplitsState left right state states)
    (covered : ∀ n ∈ c.inputs, n ∈ inputs) :
    ∃ first second, left.stepBoth right inputs states = .ok (first, second) ∧
      c.eval inputs (some state) = .ok (right.joinStep first second) ∧
      SplitsState left right (right.joinStep first second).latches
        (first.latches, second.latches) := by
  obtain ⟨first, second, hfirst, hsecond, hwhole, next⟩ := join.exists_steps evl evr ev apart split
    covered (fun first => NameMap.merge inputs first.outputs)
    (fun first second => (right.joinStep first second).outputs)
    (fun first n _ => NameMap.getElem?_merge _ _ n) (fun _ _ h => absurd trivial h)
    (fun first second n hn => by
      rw [joinStep, NameMap.getElem?_merge, NameMap.getElem?_filter_not_contains, if_neg hn])
    (fun first second n hn => by
      rw [joinStep, NameMap.getElem?_merge, NameMap.getElem?_filter_not_contains,
        if_pos (not_not.1 hn), Option.or_none])
  exact ⟨first, second, by simp [stepBoth, hfirst, hsecond], hwhole, next⟩

/-- A run of the whole is a run of both parts. -/
theorem IsJoin.exists_runBoth
    (join : left.IsJoin right (fun _ => True) (fun n => n ∉ right.inputs) c)
    (evl : left.Evaluable) (evr : right.Evaluable) (ev : c.Evaluable)
    (apart : ∀ n ∈ left.latches, n ∉ right.latches) {inputs : List Valuation} {state : Valuation}
    {states : Valuation × Valuation} (split : SplitsState left right state states)
    (covered : ∀ values ∈ inputs, ∀ n ∈ c.inputs, n ∈ values) :
    ∃ steps, left.runBoth right states inputs = .ok steps ∧ c.runFrom state inputs = .ok steps := by
  induction inputs generalizing state states with
  | nil => exact ⟨[], rfl, rfl⟩
  | cons values later ih =>
    obtain ⟨first, second, hboth, hwhole, split'⟩ := join.exists_stepBoth evl evr ev apart split
      (covered values List.mem_cons_self)
    obtain ⟨steps, hparts, hrun⟩ :=
      ih split' fun values' hv => covered values' (List.mem_cons_of_mem _ hv)
    refine ⟨right.joinStep first second :: steps, ?_, ?_⟩
    · simp [runBoth, hboth, hparts]
    · simp [runFrom, hwhole, hrun]

end Parts

/-- The name that stands in the way of a sequential composition. -/
def seqObstacle (left right : Graph) : Option CircuitRefusal :=
  ((left.latches.firstShared right.latches).map .sharedLatch).or
    ((NameMap.firstShared (left.outputs.filter fun name _ => !right.inputs.contains name)
      right.outputs).map .sharedOutput)

theorem seq_eq (left right : Graph) : left.seq right = match left.seqObstacle right with
    | some cause => .error (.circuit cause)
    | none => left.chain right := by
  cases hlatch : left.latches.firstShared right.latches <;>
    cases hout : NameMap.firstShared
      (left.outputs.filter fun name _ => !right.inputs.contains name) right.outputs <;>
    simp [seq, seqObstacle, hlatch, hout]

theorem seqObstacle_eq_none_iff {left right : Graph} : left.seqObstacle right = none ↔
    (∀ n ∈ left.latches, n ∉ right.latches) ∧
      ∀ n ∈ left.outputs, n ∉ right.inputs → n ∉ right.outputs := by
  rw [seqObstacle, Option.or_eq_none_iff, Option.map_eq_none_iff, Option.map_eq_none_iff,
    NameMap.firstShared_eq_none_iff, NameMap.firstShared_eq_none_iff]
  refine and_congr_right fun _ => forall_congr' fun n => ?_
  have kept : n ∈ left.outputs.filter (fun name _ => !right.inputs.contains name) ↔
      n ∈ left.outputs ∧ n ∉ right.inputs := by
    rw [mem_iff_exists_getElem?, NameMap.getElem?_filter_not_contains,
      mem_iff_exists_getElem? (m := left.outputs)]
    by_cases hn : n ∈ right.inputs <;> simp [hn]
  rw [kept]
  exact ⟨fun h hn hin => h ⟨hn, hin⟩, fun h hn => h hn.1 hn.2⟩

/-- Sequential composition is composition of runs. It fails exactly where the parts share a latch, or
an output that drives nothing is an output of the second part as well. Otherwise the composed graph
has the inputs that are not driven, the outputs that drive nothing and those of the second part, and
the latches of both; and from every state its steps are steps of the first part and then of the
second one. -/
theorem seq_composes_runs {left right : Graph} (hl : left.Reachable) (hr : right.Reachable) :
    ((∃ fault, left.seq right = .error fault) ↔
      (∃ n ∈ left.latches, n ∈ right.latches) ∨
      ∃ n ∈ left.outputs, n ∉ right.inputs ∧ n ∈ right.outputs) ∧
    (∀ fault, left.seq right = .error fault → ∃ cause, fault = .circuit cause) ∧
    ∀ c, left.seq right = .ok c →
      (∀ n, n ∈ c.inputs ↔ n ∈ left.inputs ∨ n ∈ right.inputs ∧ n ∉ left.outputs) ∧
      (∀ n, n ∈ c.outputs ↔ n ∈ left.outputs ∧ n ∉ right.inputs ∨ n ∈ right.outputs) ∧
      (∀ n, n ∈ c.latches ↔ n ∈ left.latches ∨ n ∈ right.latches) ∧
      (∀ n ∈ left.latches, n ∉ right.latches) ∧
      (∀ n : String, c.initialState[n]? = (left.initialState[n]?).or right.initialState[n]?) ∧
      ∀ (inputs : List Valuation) (start : Option Valuation),
        (∀ values ∈ inputs, ∀ n ∈ c.inputs, n ∈ values) →
        ∃ steps, c.simulate inputs start = .ok steps ∧
          left.runBoth right (start.getD left.initialState, start.getD right.initialState) inputs =
            .ok steps := by
  have evl := hl.wellFormed.toEvaluable
  have evr := hr.wellFormed.toEvaluable
  have refused : left.seqObstacle right = none ↔
      ¬ ((∃ n ∈ left.latches, n ∈ right.latches) ∨
        ∃ n ∈ left.outputs, n ∉ right.inputs ∧ n ∈ right.outputs) := by
    simp only [seqObstacle_eq_none_iff, not_or, not_exists, not_and]
  cases hob : left.seqObstacle right with
  | some cause =>
    have herr : left.seq right = .error (.circuit cause) := by rw [seq_eq, hob]
    have shared := Classical.byContradiction fun h => by simpa [hob] using refused.2 h
    rw [herr]
    exact ⟨⟨fun _ => shared, fun _ => ⟨_, rfl⟩⟩,
      fun fault h => ⟨cause, (Except.error.inj h).symm⟩, nofun⟩
  | none =>
    obtain ⟨apart, outputs⟩ := seqObstacle_eq_none_iff.1 hob
    obtain ⟨c, hc, wf, join⟩ := exists_chain evl evr apart outputs
    have hseq : left.seq right = .ok c := by rw [seq_eq, hob, hc]
    have ev := wf.toEvaluable
    rw [hseq]
    refine ⟨by simpa using refused.1 hob, nofun, fun c' hc' => ?_⟩
    obtain rfl := Except.ok.inj hc'
    refine ⟨fun n => ?_, fun n => ?_, join.latches, apart,
      join.getElem?_initialState evl evr ev, fun inputs start covered => ?_⟩
    · rw [join.inputs]
      simp only [true_and, and_comm]
    · rw [join.outputs]
      simp only [and_comm]
    · obtain ⟨steps, hparts, hrun⟩ := join.exists_runBoth evl evr ev apart
        (join.splitsState_start start) covered
      exact ⟨steps, hrun, hparts⟩

/-- Two wires in sequence forward the input through both. -/
theorem seq_composes_runs_wires : ∃ g c steps, identity ["x"] = .ok g ∧ g.seq g = .ok c ∧
    c.simulate [(∅ : Valuation).insert "x" true] none = .ok steps ∧
    g.runBoth g (g.initialState, g.initialState) [(∅ : Valuation).insert "x" true] = .ok steps := by
  obtain ⟨g, hg, hin, hout, hlatch⟩ : ∃ g, identity ["x"] = .ok g ∧
      (∀ n, n ∈ g.inputs ↔ n = "x") ∧ (∀ n, n ∈ g.outputs ↔ n = "x") ∧ g.latches = ∅ :=
    ⟨_, rfl, fun n => NameMap.mem_insert_iff.trans (by simp [empty]),
      fun n => NameMap.mem_insert_iff.trans (by simp [empty]), rfl⟩
  obtain ⟨fails, -, composed⟩ := seq_composes_runs (.identity hg) (.identity hg)
  cases hc : g.seq g with
  | error fault => simpa [hin, hout, hlatch] using fails.1 ⟨fault, hc⟩
  | ok c =>
    obtain ⟨inputs, -, -, -, -, runs⟩ := composed c hc
    obtain ⟨steps, hrun, hparts⟩ := runs [(∅ : Valuation).insert "x" true] none (by
      simp only [List.mem_singleton, forall_eq, inputs, hin]
      rintro n (rfl | ⟨rfl, -⟩) <;> simp)
    exact ⟨g, c, steps, hg, hc, hrun, hparts⟩

end Graph

end AndInverter
