import AndInverter.Proofs.Graph.Compose

/-! Steps of two graphs in one. A step of the whole is a step of both parts, and its next state splits
into theirs. -/

namespace AndInverter

namespace Graph

variable {left right c : Graph} {feeds keeps : String → Prop}

/-- Each part has its own latches in the state of the whole. -/
structure SplitsState (left right : Graph) (state : Valuation) (states : Valuation × Valuation) :
    Prop where
  left : ∀ n ∈ left.latches, state[n]? = states.1[n]?
  right : ∀ n ∈ right.latches, state[n]? = states.2[n]?

theorem IsJoin.getElem?_initialState (join : left.IsJoin right feeds keeps c)
    (evl : left.Evaluable) (evr : right.Evaluable) (ev : c.Evaluable) (n : String) :
    c.initialState[n]? = (left.initialState[n]?).or right.initialState[n]? := by
  rw [Graph.getElem?_initialState, Graph.getElem?_initialState, Graph.getElem?_initialState]
  by_cases hl : n ∈ left.latches
  · obtain ⟨latch, hlatch⟩ := evl.mem_latches_iff.1 hl
    rw [join.initialLeft n hl]
    simp [initial, hlatch]
  · have none : left.initial n = none := by simp [initial, evl.latch?_eq_none hl]
    rw [none, Option.none_or]
    by_cases hr : n ∈ right.latches
    · exact join.initialRight n hr
    · have hc : n ∉ c.latches := by
        rw [join.latches]
        exact not_or.2 ⟨hl, hr⟩
      simp [initial, evr.latch?_eq_none hr, ev.latch?_eq_none hc]

/-- The state before the first step, where none or one for all latches is given. -/
theorem IsJoin.splitsState_start (join : left.IsJoin right feeds keeps c) (start : Option Valuation) :
    SplitsState left right (start.getD c.initialState)
      (start.getD left.initialState, start.getD right.initialState) := by
  cases start with
  | some state => exact ⟨fun _ _ => rfl, fun _ _ => rfl⟩
  | none =>
    constructor
    · intro n hn
      simp only [Option.getD_none]
      rw [Graph.getElem?_initialState, Graph.getElem?_initialState, join.initialLeft n hn]
    · intro n hn
      simp only [Option.getD_none]
      rw [Graph.getElem?_initialState, Graph.getElem?_initialState, join.initialRight n hn]

/-- The next states of both parts are those of what they leave together. -/
theorem splitsState_merge (apart : ∀ n ∈ left.latches, n ∉ right.latches) {first second : Valuation}
    (names : ∀ n, n ∈ second ↔ n ∈ right.latches) :
    SplitsState left right (first.merge second) (first, second) := by
  constructor
  · intro n hn
    have absent : n ∉ second := fun h => apart n hn ((names n).1 h)
    rw [NameMap.getElem?_merge, not_mem_iff_getElem?.1 absent, Option.none_or]
  · intro n hn
    obtain ⟨value, hvalue⟩ := mem_iff_exists_getElem?.1 ((names n).2 hn)
    rw [NameMap.getElem?_merge, hvalue, Option.some_or]

section Parts
variable {v u w : Nat → Bool} {inputs state fed outputs : Valuation}
  {states : Valuation × Valuation} {step first second : Step}

/-- The second part reads the outputs of the first one that drive its inputs, and the inputs of the
whole. -/
theorem IsJoin.inputValue_right (join : left.IsJoin right feeds keeps c)
    (hv : c.IsStep v inputs state step) (isFirst : left.IsStep u inputs states.1 first)
    (win : ∀ n ∈ right.inputs, (feeds n ∧ n ∈ left.outputs →
        right.inputValue w n = left.outputValue u n) ∧
      (¬ (feeds n ∧ n ∈ left.outputs) → right.inputValue w n = c.inputValue v n))
    (hfeeds : ∀ n, feeds n → fed[n]? = first.outputs[n]?.or inputs[n]?)
    (free : ∀ n, ¬ feeds n → fed[n]? = inputs[n]?) {n : String} (hn : n ∈ right.inputs) :
    right.inputValue w n = fed[n]? := by
  by_cases driven : feeds n ∧ n ∈ left.outputs
  · obtain ⟨l, hl⟩ := mem_iff_exists_getElem?.1 driven.2
    rw [(win n hn).1 driven, hfeeds n driven.1, isFirst.outputs]
    simp [outputValue, hl]
  · have own : c.inputValue v n = inputs[n]? :=
      hv.inputs n ((join.inputs n).2 (.inr ⟨driven, hn⟩))
    rw [(win n hn).2 driven, own]
    by_cases hfeed : feeds n
    · have absent : n ∉ left.outputs := fun h => driven ⟨hfeed, h⟩
      rw [hfeeds n hfeed, isFirst.outputs, outputValue_eq_none absent, Option.none_or]
    · exact (free n hfeed).symm

/-- The whole shows the outputs of the second part, and those of the first one that are kept. -/
theorem IsJoin.outputValue (join : left.IsJoin right feeds keeps c)
    (isFirst : left.IsStep u inputs states.1 first) (isSecond : right.IsStep w fed states.2 second)
    (wout : ∀ n ∈ right.outputs, c.outputValue v n = right.outputValue w n)
    (uout : ∀ n ∈ left.outputs, keeps n → c.outputValue v n = left.outputValue u n)
    (kept : ∀ n, keeps n → outputs[n]? = second.outputs[n]?.or first.outputs[n]?)
    (dropped : ∀ n, ¬ keeps n → outputs[n]? = second.outputs[n]?) (n : String) :
    outputs[n]? = c.outputValue v n := by
  by_cases hr : n ∈ right.outputs
  · obtain ⟨l, hl⟩ := mem_iff_exists_getElem?.1 hr
    have some : second.outputs[n]? = some (l.under w) := by
      rw [isSecond.outputs, Graph.outputValue, hl, Option.map_some]
    rw [wout n hr, ← isSecond.outputs]
    by_cases hkeep : keeps n
    · rw [kept n hkeep, some, Option.some_or]
    · rw [dropped n hkeep]
  · have none : second.outputs[n]? = none := by
      rw [isSecond.outputs, outputValue_eq_none hr]
    by_cases hl : keeps n ∧ n ∈ left.outputs
    · rw [kept n hl.1, none, Option.none_or, isFirst.outputs, uout n hl.2 hl.1]
    · have hc : n ∉ c.outputs := by
        rw [join.outputs]
        exact not_or.2 ⟨hl, hr⟩
      rw [outputValue_eq_none hc]
      by_cases hkeep : keeps n
      · have absent : n ∉ left.outputs := fun h => hl ⟨hkeep, h⟩
        rw [kept n hkeep, none, Option.none_or, isFirst.outputs, outputValue_eq_none absent]
      · rw [dropped n hkeep, none]

/-- The whole goes on to the next states of both parts. -/
theorem IsJoin.nextValue (join : left.IsJoin right feeds keeps c) (evl : left.Evaluable)
    (evr : right.Evaluable) (ev : c.Evaluable) (apart : ∀ n ∈ left.latches, n ∉ right.latches)
    (isFirst : left.IsStep u inputs states.1 first) (isSecond : right.IsStep w fed states.2 second)
    (ulatch : ∀ n ∈ left.latches, left.nextValue u n = c.nextValue v n)
    (wlatch : ∀ n ∈ right.latches, right.nextValue w n = c.nextValue v n) (n : String) :
    (first.latches.merge second.latches)[n]? = c.nextValue v n := by
  have next : SplitsState left right (first.latches.merge second.latches)
      (first.latches, second.latches) :=
    splitsState_merge apart (isSecond.mem_latches_iff evr)
  by_cases hl : n ∈ left.latches
  · rw [next.left n hl, isFirst.nexts, ulatch n hl]
  · by_cases hr : n ∈ right.latches
    · rw [next.right n hr, isSecond.nexts, wlatch n hr]
    · have hc : n ∉ c.latches := by
        rw [join.latches]
        exact not_or.2 ⟨hl, hr⟩
      rw [NameMap.getElem?_merge, isFirst.nexts, isSecond.nexts, evl.nextValue_eq_none hl,
        evr.nextValue_eq_none hr, ev.nextValue_eq_none hc, Option.none_or]

end Parts

/-- A step of the whole is a step of both parts. The second part reads what `feed` makes of the step of
the first one, and the whole shows what `shown` makes of both. -/
theorem IsJoin.exists_steps (join : left.IsJoin right feeds keeps c) (evl : left.Evaluable)
    (evr : right.Evaluable) (ev : c.Evaluable) (apart : ∀ n ∈ left.latches, n ∉ right.latches)
    {inputs state : Valuation} {states : Valuation × Valuation}
    (split : SplitsState left right state states) (covered : ∀ n ∈ c.inputs, n ∈ inputs)
    (feed : Step → Valuation) (shown : Step → Step → Valuation)
    (fed : ∀ first n, feeds n → (feed first)[n]? = first.outputs[n]?.or inputs[n]?)
    (free : ∀ first n, ¬ feeds n → (feed first)[n]? = inputs[n]?)
    (kept : ∀ first second n, keeps n →
      (shown first second)[n]? = second.outputs[n]?.or first.outputs[n]?)
    (dropped : ∀ first second n, ¬ keeps n → (shown first second)[n]? = second.outputs[n]?) :
    ∃ first second, left.eval inputs (some states.1) = .ok first ∧
      right.eval (feed first) (some states.2) = .ok second ∧
      c.eval inputs (some state) =
        .ok ⟨shown first second, first.latches.merge second.latches⟩ ∧
      SplitsState left right (first.latches.merge second.latches)
        (first.latches, second.latches) := by
  obtain ⟨step, hok⟩ : ∃ step, c.eval inputs (some state) = .ok step :=
    ev.exists_eval_ok_iff.2 covered
  obtain ⟨v, hv⟩ := ev.eval_eq_ok_iff.1 hok
  obtain ⟨u, w, hu, hw, uin, win, ulatch, wlatch, wout, uout⟩ := join.solution v hv.solution
  have leftInputs (n : String) (hn : n ∈ left.inputs) : left.inputValue u n = inputs[n]? := by
    rw [uin n hn]
    exact hv.inputs n ((join.inputs n).2 (.inl hn))
  have leftLatches (n : String) (hn : n ∈ left.latches) : left.latchValue u n =
      (left.initial n).map fun init => (states.1[n]?).getD init := by
    rw [(ulatch n hn).1, hv.latches, join.initialLeft n hn, Option.getD_some, split.left n hn]
  have rightLatches (n : String) (hn : n ∈ right.latches) : right.latchValue w n =
      (right.initial n).map fun init => (states.2[n]?).getD init := by
    rw [(wlatch n hn).1, hv.latches, join.initialRight n hn, Option.getD_some, split.right n hn]
  obtain ⟨first, hfirst, isFirst⟩ : ∃ first, left.eval inputs (some states.1) = .ok first ∧
      left.IsStep u inputs states.1 first :=
    evl.exists_eval_of_solution hu leftInputs (evl.latchValue_eq leftLatches)
  have rightInputs (n : String) (hn : n ∈ right.inputs) :
      right.inputValue w n = (feed first)[n]? :=
    join.inputValue_right hv isFirst win (fed first) (free first) hn
  obtain ⟨second, hsecond, isSecond⟩ : ∃ second,
      right.eval (feed first) (some states.2) = .ok second ∧
        right.IsStep w (feed first) states.2 second :=
    evr.exists_eval_of_solution hw rightInputs (evr.latchValue_eq rightLatches)
  have whole : c.IsStep v inputs state
      ⟨shown first second, first.latches.merge second.latches⟩ := by
    refine ⟨hv.solution, hv.inputs, hv.latches, ?_, ?_⟩
    · exact join.outputValue isFirst isSecond wout uout (kept first second) (dropped first second)
    · exact join.nextValue evl evr ev apart isFirst isSecond (fun n hn => (ulatch n hn).2)
        fun n hn => (wlatch n hn).2
  exact ⟨first, second, hfirst, hsecond, by rw [hok, hv.unique whole],
    splitsState_merge apart (isSecond.mem_latches_iff evr)⟩

end Graph

end AndInverter
