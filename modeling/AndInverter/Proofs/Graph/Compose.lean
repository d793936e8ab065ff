import AndInverter.Graph.Compose
import AndInverter.Proofs.Graph.Embed

/-! Graphs put together, one after the other or side by side. What solves the whole solves both
parts, where an input that is driven has the value of the output that drives it. -/

namespace AndInverter

namespace Graph

/-- A copy of `source`, some inputs of which are driven, has grown `g` to `h` and given the literals
of the outputs. -/
structure IsDriven (source g h : Graph) (drivers outs : NameMap Literal) : Prop where
  inputs : ∀ n, n ∈ h.inputs ↔ n ∈ g.inputs ∨ n ∉ drivers ∧ n ∈ source.inputs
  outputs : h.outputs = g.outputs
  latches : ∀ n ∉ source.latches, h.latch? n = g.latch? n
  initial : ∀ n ∈ source.latches, h.initial n = source.initial n
  mem_outs : ∀ n, n ∈ outs ↔ n ∈ source.outputs
  has : ∀ (n : String) l, outs[n]? = some l → h.Has l
  solution : ∀ v, h.Solution v → ∃ u, source.Solution u ∧
    (∀ n ∈ source.inputs, source.inputValue u n =
      match drivers[n]? with
      | some l => some (l.under v)
      | none => h.inputValue v n) ∧
    (∀ n ∈ source.latches, source.latchValue u n = h.latchValue v n) ∧
    (∀ n : String, source.outputValue u n = (outs[n]?).map (·.under v)) ∧
    ∀ n ∈ source.latches, source.nextValue u n = h.nextValue v n

/-- The latches of both graphs. -/
theorem IsDriven.mem_latches_iff {source g h : Graph} {drivers outs : NameMap Literal}
    (driven : source.IsDriven g h drivers outs) (evs : source.Evaluable) (evg : g.Evaluable)
    (evh : h.Evaluable) {n : String} : n ∈ h.latches ↔ n ∈ g.latches ∨ n ∈ source.latches := by
  by_cases hn : n ∈ source.latches
  · have hinit := driven.initial n hn
    obtain ⟨latch, hl⟩ := evs.mem_latches_iff.1 hn
    rw [Graph.initial, Graph.initial, hl] at hinit
    obtain ⟨latch', hl', -⟩ := Option.map_eq_some_iff.1 hinit
    exact ⟨fun _ => .inr hn, fun _ => evh.mem_latches_iff.2 ⟨latch', hl'⟩⟩
  · rw [evh.mem_latches_iff, driven.latches n hn, ← evg.mem_latches_iff]
    exact ⟨.inl, fun h => h.resolve_right hn⟩

end Graph

namespace Build

variable {source g h : Graph} {drivers : NameMap Literal} {k : Nat}

/-- The leaves among the first `k` nodes are bound. -/
structure DrivenTo (source g : Graph) (drivers : NameMap Literal) (k : Nat) (h : Graph) : Prop where
  outputs : h.outputs = g.outputs
  inputs : ∀ n, n ∈ h.inputs ↔ n ∈ g.inputs ∨ n ∉ drivers ∧ source.InputBelow k n
  done : ∀ n latch, source.latch? n = some latch → latch.id < k → h.initial n = some latch.init
  rest : ∀ n, (∀ latch, source.latch? n = some latch → k ≤ latch.id) → h.latch? n = g.latch? n

/-- What the leaves of a driven copy stand for. -/
def BoundDriven (drivers : NameMap Literal) (leaf : Leaf) (l : Literal) (h : Graph) : Prop :=
  match leaf with
  | .input n => drivers[n]? = some l ∨
    drivers[n]? = none ∧ ∃ id, l = .positive id ∧ h.inputs[n]? = some id
  | .latch n _ => ∃ id, l = .positive id ∧ h.latches[n]? = some id

theorem DrivenTo.other {h' : Graph} (driven : DrivenTo source g drivers k h)
    (hk : ∀ leaf, ¬ source.IsLeaf k leaf) (same : h.SameNames h') :
    DrivenTo source g drivers (k + 1) h' := by
  have notInput (n : String) : source.inputs[n]? ≠ some k := hk (.input n)
  have notLatch (n : String) (latch : Latch) (hl : source.latch? n = some latch) :
      latch.id ≠ k := by
    rintro rfl
    exact hk (.latch n latch.init) ⟨latch.next, hl⟩
  refine ⟨same.outputs.trans driven.outputs, fun n => ?_, fun n latch hl hlt => ?_, fun n hn => ?_⟩
  · rw [same.inputs, driven.inputs, Graph.inputBelow_succ_iff, or_iff_right (notInput n)]
  · have := notLatch n latch hl
    rw [Graph.initial, same.latch?]
    exact driven.done n latch hl (by omega)
  · rw [same.latch?]
    refine driven.rest n fun latch hl => ?_
    have := hn latch hl
    omega

theorem DrivenTo.input (ev : source.Evaluable) (driven : DrivenTo source g drivers k h)
    {n : String} (hk : source.inputs[n]? = some k) (wf : h.WellFormed)
    (has : ∀ (n : String) l, drivers[n]? = some l → h.Has l) :
    (bindDriven drivers (.input n)).Runs h fun l h' => h'.Has l ∧
      BoundDriven drivers (.input n) l h' ∧ DrivenTo source g drivers (k + 1) h' := by
  have notLatch (m : String) (latch : Latch) (hl : source.latch? m = some latch) :
      latch.id ≠ k := by
    rintro rfl
    have leaf : source.IsLeaf latch.id (.latch m latch.init) := ⟨latch.next, hl⟩
    cases isLeaf_input ev hk leaf
  have done (m : String) (latch : Latch) (hl : source.latch? m = some latch)
      (hlt : latch.id < k + 1) : h.initial m = some latch.init := by
    have := notLatch m latch hl
    exact driven.done m latch hl (by omega)
  have rest (m : String) (hm : ∀ latch, source.latch? m = some latch → k + 1 ≤ latch.id) :
      h.latch? m = g.latch? m := by
    refine driven.rest m fun latch hl => ?_
    have := hm latch hl
    omega
  have only (m : String) : source.inputs[m]? = some k ↔ m = n :=
    ⟨fun hi => ev.input_inj hi hk, fun hm => hm ▸ hk⟩
  cases hd : drivers[n]? with
  | some l =>
    refine .of_eq (by rw [bindDriven, hd]; rfl) wf (.refl h)
      ⟨has n l hd, .inl hd, driven.outputs, fun m => ?_, done, rest⟩
    rw [driven.inputs, Graph.inputBelow_succ_iff, only]
    refine or_congr_right (and_congr_right fun hm => (or_iff_right ?_).symm)
    rintro rfl
    exact hm (mem_iff_exists_getElem?.2 ⟨l, hd⟩)
  | none =>
    have bind_eq : bindDriven drivers (.input n) = Build.input n := by rw [bindDriven, hd]
    rw [bind_eq]
    refine (input_runs wf n).imp fun l h' wf' _ ⟨⟨id, hl, hid⟩, hin, hlatch, hout⟩ =>
      ⟨?_, .inr ⟨hd, id, hl, hid⟩, hout.trans driven.outputs, fun m => ?_, fun m latch hm hlt => ?_,
        fun m hm => ?_⟩
    · rw [hl]
      exact Graph.lt_size (wf'.input.2 ⟨n, hid⟩)
    · rw [hin, driven.inputs, Graph.inputBelow_succ_iff, only]
      constructor
      · rintro (rfl | hm | ⟨hm, hi⟩)
        · exact .inr ⟨not_mem_iff_getElem?.2 hd, .inl rfl⟩
        · exact .inl hm
        · exact .inr ⟨hm, .inr hi⟩
      · rintro (hm | ⟨hm, rfl | hi⟩)
        · exact .inr (.inl hm)
        · exact .inl rfl
        · exact .inr (.inr ⟨hm, hi⟩)
    · rw [Graph.initial, hlatch]
      exact done m latch hm hlt
    · rw [hlatch]
      exact rest m hm

theorem DrivenTo.latch (ev : source.Evaluable) (driven : DrivenTo source g drivers k h)
    {n : String} {next : Literal} {init : Bool} (hk : source.latch? n = some ⟨k, next, init⟩)
    (wf : h.WellFormed) (new : g.latch? n = none) :
    (bindDriven drivers (.latch n init)).Runs h fun l h' => h'.Has l ∧
      BoundDriven drivers (.latch n init) l h' ∧ DrivenTo source g drivers (k + 1) h' := by
  have hn : n ∉ h.latches := by
    rw [wf.mem_latches_iff, driven.rest n fun latch hl => ?_, new]
    · simp
    · rw [hk] at hl
      cases hl
      exact Nat.le_refl k
  refine (latch_runs wf hn init).imp fun l h' wf' _ ⟨⟨id, hl, hlatch⟩, hin, hout⟩ =>
    ⟨?_, ⟨id, hl, ?_⟩, hout.trans driven.outputs, fun m => ?_, fun m latch hm hlt => ?_,
      fun m hm => ?_⟩
  · have := wf'.latch?_eq_some_iff.1 (show h'.latch? n = some ⟨id, .ofBool false, init⟩ by
      simp [hlatch])
    rw [hl]
    exact Graph.lt_size this.2
  · exact (wf'.latch?_eq_some_iff.1 (show h'.latch? n = some ⟨id, .ofBool false, init⟩ by
      simp [hlatch])).1
  · have notInput : source.inputs[m]? ≠ some k := fun hi => by
      have leaf : source.IsLeaf k (.input m) := hi
      cases isLeaf_latch ev hk leaf
    rw [hin, driven.inputs, Graph.inputBelow_succ_iff, or_iff_right notInput]
  · by_cases hmn : m = n
    · subst hmn
      rw [hk] at hm
      cases hm
      simp [Graph.initial, hlatch]
    · have : latch.id ≠ k := fun heq => hmn (ev.latch_inj
        (ev.latch?_eq_some_iff.1 hm).1 (heq ▸ (ev.latch?_eq_some_iff.1 hk).1))
      have old := driven.done m latch hm (by omega)
      rw [Graph.initial] at old ⊢
      simp only [hlatch, if_neg hmn]
      exact old
  · have hmn : m ≠ n := by
      rintro rfl
      have := hm _ hk
      exact absurd this (by simp)
    simp only [hlatch, if_neg hmn]
    refine driven.rest m fun latch hl => ?_
    have := hm latch hl
    omega

theorem bindDriven_binds (ev : source.Evaluable) (wf : g.WellFormed)
    (has : ∀ (n : String) l, drivers[n]? = some l → g.Has l)
    (apart : ∀ n ∈ source.latches, n ∉ g.latches) :
    Binds source g (bindDriven drivers) (DrivenTo source g drivers) (BoundDriven drivers) where
  mono leaf l h h' bound ext := by
    cases leaf with
    | input n =>
      rcases bound with bound | ⟨hn, id, hl, hid⟩
      · exact .inl bound
      · exact .inr ⟨hn, id, hl, ext.input hid⟩
    | latch n init =>
      obtain ⟨id, hl, hid⟩ := bound
      exact ⟨id, hl, ext.latch hid⟩
  other k h h' hk driven same := driven.other hk same
  leaf k h leaf hleaf wf' ext driven := by
    cases leaf with
    | input n => exact driven.input ev hleaf wf' fun m l hl => ext.has (has m l hl)
    | latch n init =>
      obtain ⟨next, hl⟩ := hleaf
      have new := wf.latch?_eq_none (apart n (ev.mem_latches_iff.2 ⟨_, hl⟩))
      exact driven.latch ev hl wf' new

/-- A driven copy. -/
theorem embedDriven_runs (ev : source.Evaluable) (wf : g.WellFormed)
    (has : ∀ (n : String) l, drivers[n]? = some l → g.Has l)
    (apart : ∀ n ∈ source.latches, n ∉ g.latches) :
    (embedDriven drivers source).Runs g fun outs h => source.IsDriven g h drivers outs := by
  have start : DrivenTo source g drivers 0 g := ⟨rfl, by simp, by simp, by simp⟩
  refine (embed_runs ev wf (bindDriven_binds ev wf has apart) start).bind
    fun e h wf' ext post => ?_
  obtain ⟨driven, images, embedded, leaf⟩ := post
  have initial (n : String) (hn : n ∈ source.latches) : h.initial n = source.initial n := by
    obtain ⟨latch, hl⟩ := ev.mem_latches_iff.1 hn
    have := Graph.lt_size (ev.latch?_eq_some_iff.1 hl).2
    rw [driven.done n latch hl this, Graph.initial, hl, Option.map_some]
  have known (n : String) (hn : n ∈ e.nexts) : n ∈ h.latches := by
    obtain ⟨latch, hl⟩ := ev.mem_latches_iff.1 ((embedded.mem_nexts_iff ev).1 hn)
    have := initial n (ev.mem_latches_iff.2 ⟨latch, hl⟩)
    rw [Graph.initial, Graph.initial, hl] at this
    obtain ⟨latch', hl', -⟩ := Option.map_eq_some_iff.1 this
    exact wf'.mem_latches_iff.2 ⟨latch', hl'⟩
  refine (setNexts_runs wf' known fun _ _ => embedded.has_next ev).bind
    fun _ H wf'' ext' post => ?_
  obtain ⟨hin, hout, hlatch⟩ := post
  have nextOf (n : String) (hn : n ∈ source.latches) : ∃ latch latch', source.latch? n = some latch ∧
      H.latch? n = some latch' ∧ latch'.init = latch.init ∧
      latch'.next = latch.next.image images := by
    obtain ⟨latch, hl⟩ := ev.mem_latches_iff.1 hn
    have hinit := initial n hn
    rw [Graph.initial, Graph.initial, hl] at hinit
    obtain ⟨old, hold, heq⟩ := Option.map_eq_some_iff.1 hinit
    refine ⟨latch, { old with next := (e.nexts[n]?).getD old.next }, hl,
      by rw [hlatch, hold]; rfl, heq, ?_⟩
    simp [embedded.nexts, hl]
  refine .pure wf'' ⟨fun n => ?_, hout.trans driven.outputs, fun n hn => ?_, fun n hn => ?_,
    fun n => embedded.mem_outputs_iff, fun n l hl => ext'.has (embedded.has_output ev hl),
    fun v hv => ?_⟩
  · rw [hin, driven.inputs, Graph.inputBelow_size_iff ev]
  · have hnone := ev.latch?_eq_none hn
    have hsame : h.latch? n = g.latch? n := driven.rest n (by simp [hnone])
    rw [hlatch, hsame, embedded.nexts, hnone]
    cases g.latch? n <;> rfl
  · obtain ⟨latch, latch', hl, hl', heq, -⟩ := nextOf n hn
    rw [Graph.initial, Graph.initial, hl, hl', Option.map_some, Option.map_some, heq]
  · refine ⟨fun i => (images i).under v, embedded.solution v (ext'.solution hv), fun n hn => ?_,
      fun n hn => ?_, embedded.outputValue v, fun n hn => ?_⟩
    · obtain ⟨i, hi⟩ := mem_iff_exists_getElem?.1 hn
      rcases leaf i (.input n) hi with hd | ⟨hd, id, himage, hid⟩
      · rw [Graph.inputValue, hi, hd, Option.map_some]
      · rw [Graph.inputValue, hi, hd, Option.map_some, himage, Graph.inputValue, ext'.input hid,
          Option.map_some, Literal.under_positive]
    · obtain ⟨latch, hl⟩ := ev.mem_latches_iff.1 hn
      obtain ⟨id, himage, hid⟩ := leaf latch.id (.latch n latch.init) ⟨latch.next, hl⟩
      rw [Graph.latchValue, (ev.latch?_eq_some_iff.1 hl).1, Option.map_some, himage,
        Graph.latchValue, ext'.latch hid, Option.map_some, Literal.under_positive]
    · obtain ⟨latch, latch', hl, hl', -, heq⟩ := nextOf n hn
      rw [Graph.nextValue, Graph.nextValue, hl, hl', Option.map_some, Option.map_some, heq,
        Literal.under_image]

end Build

namespace Graph

/-- A graph made of two. The inputs of `right` that `feeds` says are driven by the outputs of `left`
with their names, and those outputs of `left` stay that `keeps` says. -/
structure IsJoin (left right : Graph) (feeds keeps : String → Prop) (c : Graph) : Prop where
  inputs : ∀ n, n ∈ c.inputs ↔
    n ∈ left.inputs ∨ ¬ (feeds n ∧ n ∈ left.outputs) ∧ n ∈ right.inputs
  outputs : ∀ n, n ∈ c.outputs ↔ keeps n ∧ n ∈ left.outputs ∨ n ∈ right.outputs
  latches : ∀ n, n ∈ c.latches ↔ n ∈ left.latches ∨ n ∈ right.latches
  initialLeft : ∀ n ∈ left.latches, c.initial n = left.initial n
  initialRight : ∀ n ∈ right.latches, c.initial n = right.initial n
  solution : ∀ v, c.Solution v → ∃ u w, left.Solution u ∧ right.Solution w ∧
    (∀ n ∈ left.inputs, left.inputValue u n = c.inputValue v n) ∧
    (∀ n ∈ right.inputs, (feeds n ∧ n ∈ left.outputs →
        right.inputValue w n = left.outputValue u n) ∧
      (¬ (feeds n ∧ n ∈ left.outputs) → right.inputValue w n = c.inputValue v n)) ∧
    (∀ n ∈ left.latches, left.latchValue u n = c.latchValue v n ∧
      left.nextValue u n = c.nextValue v n) ∧
    (∀ n ∈ right.latches, right.latchValue w n = c.latchValue v n ∧
      right.nextValue w n = c.nextValue v n) ∧
    (∀ n ∈ right.outputs, c.outputValue v n = right.outputValue w n) ∧
    ∀ n ∈ left.outputs, keeps n → c.outputValue v n = left.outputValue u n

variable {left right : Graph} {feeds keeps : String → Prop}

/-- Two driven copies in one graph, with outputs of both. -/
theorem IsDriven.join {g h : Graph} {drivers outs outs' outputs : NameMap Literal}
    (first : left.IsDriven .empty g ∅ outs) (second : right.IsDriven g h drivers outs')
    (evl : left.Evaluable) (evr : right.Evaluable) (wfg : g.WellFormed) (wfh : h.WellFormed)
    (ext : g.Extends h) (apart : ∀ n ∈ left.latches, n ∉ right.latches)
    (hdrivers : ∀ (n : String) l, drivers[n]? = some l ↔ feeds n ∧ outs[n]? = some l)
    (houtputs : ∀ (n : String) l, outputs[n]? = some l ↔
      keeps n ∧ outs[n]? = some l ∨ outs'[n]? = some l) :
    left.IsJoin right feeds keeps { h with outputs := outputs } := by
  have memFirst (n : String) : n ∈ g.latches ↔ n ∈ left.latches := by
    rw [first.mem_latches_iff evl wellFormed_empty.toEvaluable wfg.toEvaluable]
    simp [Graph.empty]
  have memSecond (n : String) : n ∈ h.latches ↔ n ∈ left.latches ∨ n ∈ right.latches := by
    rw [second.mem_latches_iff evr wfg.toEvaluable wfh.toEvaluable, memFirst]
  have memDrivers (n : String) : n ∈ drivers ↔ feeds n ∧ n ∈ left.outputs := by
    rw [mem_iff_exists_getElem?, ← first.mem_outs, mem_iff_exists_getElem?]
    simp only [hdrivers, exists_and_left]
  refine ⟨fun n => ?_, fun n => ?_, memSecond, fun n hn => ?_, second.initial, fun v hv => ?_⟩
  · show n ∈ h.inputs ↔ _
    rw [second.inputs, first.inputs, memDrivers]
    simp [Graph.empty]
  · show n ∈ outputs ↔ _
    rw [← first.mem_outs, ← second.mem_outs, mem_iff_exists_getElem?, mem_iff_exists_getElem?,
      mem_iff_exists_getElem?]
    simp only [houtputs, exists_or, exists_and_left]
  · have hlatch := second.latches n (apart n hn)
    rw [← first.initial n hn]
    exact congrArg (Option.map (·.init)) hlatch
  · replace hv : h.Solution v := ⟨hv.zero, hv.gate⟩
    obtain ⟨w, hw, win, wlatch, wout, wnext⟩ := second.solution v hv
    obtain ⟨u, hu, uin, ulatch, uout, unext⟩ := first.solution v (ext.solution hv)
    refine ⟨u, w, hu, hw, fun n hn => ?_, fun n hn => ⟨fun hd => ?_, fun hd => ?_⟩,
      fun n hn => ⟨?_, ?_⟩, fun n hn => ⟨wlatch n hn, wnext n hn⟩, fun n hn => ?_,
      fun n hn hkeep => ?_⟩
    · rw [uin n hn, Std.ExtTreeMap.getElem?_empty]
      exact (ext.inputValue v ((first.inputs n).2 (.inr ⟨by simp, hn⟩))).symm
    · obtain ⟨l, hl⟩ := mem_iff_exists_getElem?.1 ((memDrivers n).2 hd)
      have hout := ((hdrivers n l).1 hl).2
      rw [win n hn, hl, uout, hout]
      rfl
    · rw [win n hn, not_mem_iff_getElem?.1 (mt (memDrivers n).1 hd)]
      rfl
    · rw [ulatch n hn]
      exact (ext.latchValue v ((memFirst n).2 hn)).symm
    · rw [unext n hn]
      exact congrArg (Option.map (·.next.under v)) (second.latches n (apart n hn)).symm
    · obtain ⟨l, hl⟩ := mem_iff_exists_getElem?.1 ((second.mem_outs n).2 hn)
      rw [wout, hl]
      exact congrArg (Option.map (·.under v)) ((houtputs n l).2 (.inr hl))
    · obtain ⟨l, hl⟩ := mem_iff_exists_getElem?.1 ((first.mem_outs n).2 hn)
      rw [uout, hl]
      exact congrArg (Option.map (·.under v)) ((houtputs n l).2 (.inl ⟨hkeep, hl⟩))

end Graph

namespace Build

variable {left right : Graph} {feeds keeps : String → Prop}

/-- The second copy is driven by, and placed beside, outputs of the first. -/
theorem embedBoth_runs (drivers kept : NameMap Literal → NameMap Literal)
    (evl : left.Evaluable) (evr : right.Evaluable)
    (hdrivers : ∀ outs (n : String) l, (drivers outs)[n]? = some l ↔ feeds n ∧ outs[n]? = some l)
    (hkept : ∀ outs (n : String) l, (kept outs)[n]? = some l ↔ keeps n ∧ outs[n]? = some l)
    (latches : ∀ n ∈ left.latches, n ∉ right.latches)
    (outputs : ∀ n ∈ left.outputs, keeps n → n ∉ right.outputs) :
    Runs (do
      let outs ← embedDriven ∅ left
      let rightOuts ← embedDriven (drivers outs) right
      Build.outputs (kept outs)
      Build.outputs rightOuts) .empty fun _ c => left.IsJoin right feeds keeps c := by
  have wf := Graph.wellFormed_empty
  refine (embedDriven_runs evl wf (by simp) (by simp [Graph.empty])).bind
    fun outs g wfg _ first => ?_
  have hasDriver (n : String) (l : Literal) (hl : (drivers outs)[n]? = some l) : g.Has l :=
    first.has n l ((hdrivers outs n l).1 hl).2
  have apart (n : String) (hn : n ∈ right.latches) (h : n ∈ g.latches) : False := by
    rw [first.mem_latches_iff evl wf.toEvaluable wfg.toEvaluable] at h
    exact latches n (h.resolve_left (by simp [Graph.empty])) hn
  refine (embedDriven_runs evr wfg hasDriver apart).bind fun outs' h wfh ext second => ?_
  have none : h.outputs = ∅ := second.outputs.trans first.outputs
  refine (outputs_runs wfh (by simp [none]) fun n l hl =>
    ext.has (first.has n l ((hkept outs n l).1 hl).2)).bind fun _ h₁ wf₁ _ post => ?_
  obtain ⟨ls, rfl, hls⟩ := post
  have memLs (n : String) : n ∈ ls ↔ keeps n ∧ n ∈ left.outputs := by
    rw [← first.mem_outs, mem_iff_exists_getElem?, mem_iff_exists_getElem?]
    simp [hls, none, hkept]
  refine (outputs_runs wf₁ (fun n hn hmem => ?_) second.has).imp
    fun _ c _ _ post => ?_
  · obtain ⟨hkeep, hleft⟩ := (memLs n).1 hmem
    exact outputs n hleft hkeep ((second.mem_outs n).1 hn)
  obtain ⟨ls', rfl, hls'⟩ := post
  have joined : left.IsJoin right feeds keeps { h with outputs := ls' } := by
    refine first.join second evl evr wfg wfh ext latches (hdrivers outs) fun n l => ?_
    rw [← hkept, hls']
    simp [hls, none]
  exact joined

end Build

namespace Graph

variable {left right : Graph}

/-- One graph after the other. -/
theorem exists_chain (evl : left.Evaluable) (evr : right.Evaluable)
    (latches : ∀ n ∈ left.latches, n ∉ right.latches)
    (outputs : ∀ n ∈ left.outputs, n ∉ right.inputs → n ∉ right.outputs) :
    ∃ c, left.chain right = .ok c ∧ c.WellFormed ∧
      left.IsJoin right (fun _ => True) (fun n => n ∉ right.inputs) c := by
  refine Build.Runs.exists_graph (Build.embedBoth_runs id
    (fun outs => outs.filter fun name _ => !right.inputs.contains name) evl evr
    (by simp) (fun outs n l => ?_) latches outputs)
  rw [NameMap.getElem?_filter_key]
  simp [contains_eq_false_iff]

/-- Graphs side by side. -/
theorem exists_beside (evl : left.Evaluable) (evr : right.Evaluable)
    (latches : ∀ n ∈ left.latches, n ∉ right.latches)
    (outputs : ∀ n ∈ left.outputs, n ∉ right.outputs) :
    ∃ c, left.beside right = .ok c ∧ c.WellFormed ∧
      left.IsJoin right (fun _ => False) (fun _ => True) c :=
  Build.Runs.exists_graph (Build.embedBoth_runs (fun _ => ∅) id evl evr
    (by simp) (by simp) latches fun n hn _ => outputs n hn)

end Graph

end AndInverter
