import AndInverter.Proofs.Graph.Join
import AndInverter.Proofs.Graph.Reachable

/-! Runs of parallel compositions. A run of the composed graph is a run of each part on the same inputs,
and the order of the parts does not matter. -/

namespace AndInverter

theorem NameMap.merge_comm {α : Type} {left right : NameMap α} (apart : ∀ n ∈ left, n ∉ right) :
    left.merge right = right.merge left := by
  apply Std.ExtTreeMap.ext_getElem?
  intro n
  rw [getElem?_merge, getElem?_merge]
  by_cases hn : n ∈ left
  · rw [not_mem_iff_getElem?.1 (apart n hn), Option.none_or, Option.or_none]
  · rw [not_mem_iff_getElem?.1 hn, Option.none_or, Option.or_none]

/-- What two steps give together. -/
def Step.beside (first second : Step) : Step where
  outputs := first.outputs.merge second.outputs
  latches := first.latches.merge second.latches

namespace Graph

section Parts
variable {left right c : Graph}

/-- A step of the whole is a step of both parts. -/
theorem IsJoin.exists_beside_step (join : left.IsJoin right (fun _ => False) (fun _ => True) c)
    (evl : left.Evaluable) (evr : right.Evaluable) (ev : c.Evaluable)
    (apart : ∀ n ∈ left.latches, n ∉ right.latches) {inputs state : Valuation}
    {states : Valuation × Valuation} (split : SplitsState left right state states)
    (covered : ∀ n ∈ c.inputs, n ∈ inputs) :
    ∃ first second, left.eval inputs (some states.1) = .ok first ∧
      right.eval inputs (some states.2) = .ok second ∧
      c.eval inputs (some state) = .ok (first.beside second) ∧
      SplitsState left right (first.beside second).latches (first.latches, second.latches) := by
  apply join.exists_steps evl evr ev apart split covered (fun _ => inputs)
    (fun first second => first.outputs.merge second.outputs)
  · exact fun _ _ h => h.elim
  · exact fun _ _ _ => rfl
  · exact fun first second n _ => NameMap.getElem?_merge _ _ n
  · exact fun _ _ _ h => absurd trivial h

/-- Each part finds its own latches in the start state. -/
theorem IsJoin.splitsState_restrict (join : left.IsJoin right (fun _ => False) (fun _ => True) c)
    (start : Option Valuation) : SplitsState left right (start.getD c.initialState)
      ((start.map (·.restrict left.latches.keys)).getD left.initialState,
        (start.map (·.restrict right.latches.keys)).getD right.initialState) := by
  cases start with
  | none => exact join.splitsState_start none
  | some state =>
    constructor
    · intro n hn
      exact ((NameMap.getElem?_restrict _ _ n).trans (if_pos (Std.ExtTreeMap.mem_keys.2 hn))).symm
    · intro n hn
      exact ((NameMap.getElem?_restrict _ _ n).trans (if_pos (Std.ExtTreeMap.mem_keys.2 hn))).symm

/-- A run of the whole is a run of both parts. -/
theorem IsJoin.exists_beside_run (join : left.IsJoin right (fun _ => False) (fun _ => True) c)
    (evl : left.Evaluable) (evr : right.Evaluable) (ev : c.Evaluable)
    (apart : ∀ n ∈ left.latches, n ∉ right.latches) {inputs : List Valuation} {state : Valuation}
    {states : Valuation × Valuation} (split : SplitsState left right state states)
    (covered : ∀ values ∈ inputs, ∀ n ∈ c.inputs, n ∈ values) :
    ∃ first second, left.runFrom states.1 inputs = .ok first ∧
      right.runFrom states.2 inputs = .ok second ∧
      c.runFrom state inputs = .ok (first.zipWith Step.beside second) := by
  induction inputs generalizing state states with
  | nil => exact ⟨[], [], rfl, rfl, rfl⟩
  | cons values later ih =>
    obtain ⟨first, second, hfirst, hsecond, hwhole, split'⟩ := join.exists_beside_step evl evr ev
      apart split (covered values List.mem_cons_self)
    obtain ⟨firsts, seconds, hfirsts, hseconds, hrun⟩ :=
      ih split' fun values' hv => covered values' (List.mem_cons_of_mem _ hv)
    refine ⟨first :: firsts, second :: seconds, ?_, ?_, ?_⟩
    · simp [runFrom, hfirst, hfirsts]
    · simp [runFrom, hsecond, hseconds]
    · simp [runFrom, hwhole, hrun]

theorem IsJoin.initialState_comm {c' : Graph}
    (join : left.IsJoin right (fun _ => False) (fun _ => True) c)
    (join' : right.IsJoin left (fun _ => False) (fun _ => True) c')
    (evl : left.Evaluable) (evr : right.Evaluable) (ev : c.Evaluable) (ev' : c'.Evaluable)
    (latches : ∀ n ∈ left.latches, n ∉ right.latches) : c'.initialState = c.initialState := by
  apply Std.ExtTreeMap.ext_getElem?
  intro n
  rw [join'.getElem?_initialState evr evl ev', join.getElem?_initialState evl evr ev,
    Graph.getElem?_initialState, Graph.getElem?_initialState]
  by_cases hn : n ∈ left.latches
  · rw [initial, evr.latch?_eq_none (latches n hn), Option.map_none, Option.none_or, Option.or_none]
  · rw [initial, initial, evl.latch?_eq_none hn, Option.map_none, Option.none_or, Option.or_none]

/-- Steps of two parts without a name in common make the same step in both orders. -/
theorem Step.beside_comm (evl : left.Evaluable) (evr : right.Evaluable)
    (latches : ∀ n ∈ left.latches, n ∉ right.latches)
    (outputs : ∀ n ∈ left.outputs, n ∉ right.outputs) {inputs : Valuation}
    {state state' : Option Valuation} {first second : Step}
    (hfirst : left.eval inputs state = .ok first)
    (hsecond : right.eval inputs state' = .ok second) :
    first.beside second = second.beside first := by
  obtain ⟨u, isFirst⟩ := evl.eval_eq_ok_iff.1 hfirst
  obtain ⟨w, isSecond⟩ := evr.eval_eq_ok_iff.1 hsecond
  have outputsApart (n : String) (hn : n ∈ first.outputs) : n ∉ second.outputs := by
    rw [isFirst.mem_outputs_iff] at hn
    rw [isSecond.mem_outputs_iff]
    exact outputs n hn
  have latchesApart (n : String) (hn : n ∈ first.latches) : n ∉ second.latches := by
    rw [isFirst.mem_latches_iff evl] at hn
    rw [isSecond.mem_latches_iff evr]
    exact latches n hn
  rw [Step.beside, Step.beside, NameMap.merge_comm outputsApart, NameMap.merge_comm latchesApart]

/-- The same parts in the other order make the same runs. -/
theorem IsJoin.runFrom_comm {c' : Graph} (join : left.IsJoin right (fun _ => False) (fun _ => True) c)
    (join' : right.IsJoin left (fun _ => False) (fun _ => True) c')
    (evl : left.Evaluable) (evr : right.Evaluable) (ev : c.Evaluable) (ev' : c'.Evaluable)
    (latches : ∀ n ∈ left.latches, n ∉ right.latches)
    (outputs : ∀ n ∈ left.outputs, n ∉ right.outputs) {inputs : List Valuation} {state : Valuation}
    {steps : List Step} : c'.runFrom state inputs = .ok steps ↔ c.runFrom state inputs = .ok steps := by
  have names (n : String) : n ∈ c'.inputs ↔ n ∈ c.inputs := by
    rw [join.inputs, join'.inputs]
    simp [or_comm]
  have step (values state : Valuation) (one : Step) :
      c'.eval values (some state) = .ok one ↔ c.eval values (some state) = .ok one := by
    by_cases covered : ∀ n ∈ c.inputs, n ∈ values
    · have split : SplitsState left right state (state, state) :=
        ⟨fun _ _ => rfl, fun _ _ => rfl⟩
      have split' : SplitsState right left state (state, state) :=
        ⟨fun _ _ => rfl, fun _ _ => rfl⟩
      obtain ⟨first, second, hfirst, hsecond, hc, -⟩ :=
        join.exists_beside_step evl evr ev latches split covered
      obtain ⟨second', first', hsecond', hfirst', hc', -⟩ := join'.exists_beside_step evr evl ev'
        (fun n hr hl => latches n hl hr) split' fun n hn => covered n ((names n).1 hn)
      obtain rfl := Except.ok.inj (hfirst.symm.trans hfirst')
      obtain rfl := Except.ok.inj (hsecond.symm.trans hsecond')
      rw [hc, hc', Step.beside_comm evl evr latches outputs hfirst hsecond]
    · constructor
      · intro h
        have covered' := ev'.exists_eval_ok_iff.1 ⟨one, h⟩
        exact absurd (fun n hn => covered' n ((names n).2 hn)) covered
      · intro h
        exact absurd (ev.exists_eval_ok_iff.1 ⟨one, h⟩) covered
  induction inputs generalizing state steps with
  | nil => rfl
  | cons values later ih => simp only [runFrom, except_bind_eq_ok_iff, step, ih]

end Parts

/-- The name that stands in the way of a parallel composition. -/
def parObstacle (left right : Graph) : Option CircuitRefusal :=
  ((left.outputs.firstShared right.outputs).map .sharedOutput).or
    ((left.latches.firstShared right.latches).map .sharedLatch)

theorem par_eq (left right : Graph) : left.par right = match left.parObstacle right with
    | some cause => .error (.circuit cause)
    | none => left.beside right := by
  cases hout : left.outputs.firstShared right.outputs <;>
    cases hlatch : left.latches.firstShared right.latches <;>
    simp [par, parObstacle, hout, hlatch]

theorem parObstacle_eq_none_iff {left right : Graph} : left.parObstacle right = none ↔
    (∀ n ∈ left.outputs, n ∉ right.outputs) ∧ ∀ n ∈ left.latches, n ∉ right.latches := by
  rw [parObstacle, Option.or_eq_none_iff, Option.map_eq_none_iff, Option.map_eq_none_iff,
    NameMap.firstShared_eq_none_iff, NameMap.firstShared_eq_none_iff]

theorem exists_par {left right : Graph} (evl : left.Evaluable) (evr : right.Evaluable)
    (outputs : ∀ n ∈ left.outputs, n ∉ right.outputs)
    (latches : ∀ n ∈ left.latches, n ∉ right.latches) :
    ∃ c, left.par right = .ok c ∧ c.WellFormed ∧
      left.IsJoin right (fun _ => False) (fun _ => True) c := by
  rw [par_eq, parObstacle_eq_none_iff.2 ⟨outputs, latches⟩]
  exact exists_beside evl evr latches outputs

/-- Parallel composition is the union of runs. It fails exactly where the parts share an output or a
latch. Otherwise the composed graph has the inputs of both, and the outputs and latches of both without
one in common; every step of a run is the union of a step of each part, on the same inputs and each from
its own part of the start state; and the parts in the other order make the same names and runs. -/
theorem par_unites_runs {left right : Graph} (hl : left.Reachable) (hr : right.Reachable) :
    ((∃ fault, left.par right = .error fault) ↔
      (∃ n ∈ left.outputs, n ∈ right.outputs) ∨ ∃ n ∈ left.latches, n ∈ right.latches) ∧
    (∀ fault, left.par right = .error fault → ∃ cause, fault = .circuit cause) ∧
    ∀ c, left.par right = .ok c →
      (∀ n, n ∈ c.inputs ↔ n ∈ left.inputs ∨ n ∈ right.inputs) ∧
      (∀ n, n ∈ c.outputs ↔ n ∈ left.outputs ∨ n ∈ right.outputs) ∧
      (∀ n ∈ left.outputs, n ∉ right.outputs) ∧
      (∀ n, n ∈ c.latches ↔ n ∈ left.latches ∨ n ∈ right.latches) ∧
      (∀ n ∈ left.latches, n ∉ right.latches) ∧
      (∀ n : String, c.initialState[n]? = (left.initialState[n]?).or right.initialState[n]?) ∧
      (∀ (inputs : List Valuation) (start : Option Valuation),
        (∀ values ∈ inputs, ∀ n ∈ c.inputs, n ∈ values) →
        ∃ first second,
          left.simulate inputs (start.map (·.restrict left.latches.keys)) = .ok first ∧
          right.simulate inputs (start.map (·.restrict right.latches.keys)) = .ok second ∧
          first.length = inputs.length ∧ second.length = inputs.length ∧
          c.simulate inputs start = .ok (first.zipWith Step.beside second)) ∧
      ∃ c', right.par left = .ok c' ∧
        (∀ n, n ∈ c'.inputs ↔ n ∈ c.inputs) ∧ (∀ n, n ∈ c'.outputs ↔ n ∈ c.outputs) ∧
        (∀ n, n ∈ c'.latches ↔ n ∈ c.latches) ∧ c'.initialState = c.initialState ∧
        ∀ (inputs : List Valuation) (start : Option Valuation) (steps : List Step),
          c'.simulate inputs start = .ok steps ↔ c.simulate inputs start = .ok steps := by
  have evl := hl.wellFormed.toEvaluable
  have evr := hr.wellFormed.toEvaluable
  have refused : left.parObstacle right = none ↔
      ¬ ((∃ n ∈ left.outputs, n ∈ right.outputs) ∨ ∃ n ∈ left.latches, n ∈ right.latches) := by
    simp only [parObstacle_eq_none_iff, not_or, not_exists, not_and]
  cases hob : left.parObstacle right with
  | some cause =>
    have herr : left.par right = .error (.circuit cause) := by rw [par_eq, hob]
    have shared := Classical.byContradiction fun h => by simpa [hob] using refused.2 h
    rw [herr]
    exact ⟨⟨fun _ => shared, fun _ => ⟨_, rfl⟩⟩,
      fun fault h => ⟨cause, (Except.error.inj h).symm⟩, nofun⟩
  | none =>
    obtain ⟨outputs, latches⟩ := parObstacle_eq_none_iff.1 hob
    obtain ⟨c, hc, wf, join⟩ := exists_par evl evr outputs latches
    obtain ⟨c', hc', wf', join'⟩ := exists_par evr evl (fun n hn h => outputs n h hn)
      (fun n hn h => latches n h hn)
    have ev := wf.toEvaluable
    have ev' := wf'.toEvaluable
    rw [hc]
    refine ⟨by simpa using refused.1 hob, nofun, fun d hd => ?_⟩
    obtain rfl := Except.ok.inj hd
    refine ⟨fun n => ?_, fun n => ?_, outputs, join.latches, latches,
      join.getElem?_initialState evl evr ev,
      fun inputs start covered => ?_, c', hc', fun n => ?_, fun n => ?_, fun n => ?_, ?_,
      fun inputs start steps => ?_⟩
    · simp [join.inputs]
    · simp [join.outputs]
    · obtain ⟨first, second, hfirst, hsecond, hrun⟩ := join.exists_beside_run evl evr ev latches
        (join.splitsState_restrict start) covered
      exact ⟨first, second, hfirst, hsecond, length_of_runFrom hfirst, length_of_runFrom hsecond,
        hrun⟩
    · simp [join.inputs, join'.inputs, or_comm]
    · simp [join.outputs, join'.outputs, or_comm]
    · rw [join.latches, join'.latches, or_comm]
    · exact join.initialState_comm join' evl evr ev ev' latches
    · rw [simulate, simulate, join.initialState_comm join' evl evr ev ev' latches]
      exact join.runFrom_comm join' evl evr ev ev' latches outputs

/-- A wire and a constant beside each other run in both orders. -/
theorem par_unites_runs_wire : ∃ g h c c' steps, identity ["x"] = .ok g ∧
    source [("y", true)] = .ok h ∧ g.par h = .ok c ∧ h.par g = .ok c' ∧
    c.simulate [(∅ : Valuation).insert "x" true] none = .ok steps ∧
    c'.simulate [(∅ : Valuation).insert "x" true] none = .ok steps := by
  obtain ⟨g, hg, hin, hout, hlatch⟩ : ∃ g, identity ["x"] = .ok g ∧
      (∀ n, n ∈ g.inputs ↔ n = "x") ∧ (∀ n, n ∈ g.outputs ↔ n = "x") ∧ g.latches = ∅ :=
    ⟨_, rfl, fun n => NameMap.mem_insert_iff.trans (by simp [empty]),
      fun n => NameMap.mem_insert_iff.trans (by simp [empty]), rfl⟩
  obtain ⟨h, hh, hin', hout'⟩ : ∃ h, source [("y", true)] = .ok h ∧ h.inputs = ∅ ∧
      ∀ n, n ∈ h.outputs ↔ n = "y" :=
    ⟨_, rfl, rfl, fun n => NameMap.mem_insert_iff.trans (by simp [empty])⟩
  obtain ⟨fails, -, united⟩ := par_unites_runs (.identity hg) (.source hh)
  cases hc : g.par h with
  | error fault => simpa [hout, hout', hlatch] using fails.1 ⟨fault, hc⟩
  | ok c =>
    obtain ⟨inputs, -, -, -, -, -, runs, c', hc', -, -, -, -, same⟩ := united c hc
    obtain ⟨first, second, -, -, -, -, hrun⟩ := runs [(∅ : Valuation).insert "x" true] none (by
      simp [inputs, hin, hin'])
    exact ⟨g, h, c, c', _, hg, hh, hc, hc', hrun, (same _ _ _).2 hrun⟩

end Graph

end AndInverter
