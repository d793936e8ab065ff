import AndInverter.Proofs.Graph.Connective
import AndInverter.Proofs.Graph.Course

/-! Copying is a homomorphism: what a graph computes from its leaves, its copy computes from the literals
that they are bound to. -/

namespace AndInverter

namespace Graph

/-! ### Values -/

/-- Under the name stands the value of the literal. -/
def Shows (g : Graph) (inputs : Valuation) (state : Option Valuation) (l : Literal) (values : Valuation)
    (name : String) : Prop :=
  ∃ value, values[name]? = some value ∧ g.literalValue inputs state l = .ok value

/-- The leaves of `source` are given the values of their images. -/
structure LeavesShow (source h : Graph) (images : Nat → Literal) (inputs : Valuation)
    (state : Option Valuation) (inputs' state' : Valuation) : Prop where
  input : ∀ (name : String) i, source.inputs[name]? = some i →
    h.Shows inputs state (images i) inputs' name
  latch : ∀ (name : String) i, source.latches[name]? = some i →
    h.Shows inputs state (images i) state' name

section Values
variable {source g h : Graph} {e : Embedding} {images : Nat → Literal}
  {inputs inputs' state' : Valuation} {state : Option Valuation} {l : Literal} {v : Nat → Bool}
  {step : Step}

theorem Evaluable.shows_iff (ev : g.Evaluable) (his : g.IsStep v inputs (state.getD ∅) step)
    (hl : g.Has l) {values : Valuation} {name : String} :
    g.Shows inputs state l values name ↔ values[name]? = some (l.under v) := by
  simp [Shows, ev.literalValue_eq his hl, eq_comm]

/-- A literal keeps its value while its graph grows. -/
theorem Extends.exists_literalValue (ext : g.Extends h) (evg : g.Evaluable) (evh : h.Evaluable)
    (hl : g.Has l) (covered : ∀ name ∈ h.inputs, name ∈ inputs) :
    ∃ value, h.literalValue inputs state l = .ok value ∧ g.literalValue inputs state l = .ok value := by
  obtain ⟨step, run⟩ : ∃ step, h.eval inputs state = .ok step := evh.exists_eval_ok_iff.2 covered
  obtain ⟨v, his⟩ := evh.eval_eq_ok_iff.1 run
  -- What solves the larger graph solves the smaller one, and it has the leaves' values there too.
  have given (name : String) (hn : name ∈ g.inputs) : g.inputValue v name = inputs[name]? := by
    obtain ⟨i, hi⟩ := mem_iff_exists_getElem?.1 hn
    rw [← ext.inputValue v hn]
    exact his.inputs name (mem_iff_exists_getElem?.2 ⟨i, ext.input hi⟩)
  have known (name : String) (hn : name ∈ g.latches) : g.latchValue v name =
      (g.initial name).map fun init => ((state.getD ∅)[name]?).getD init := by
    obtain ⟨latch, hlatch⟩ := evg.mem_latches_iff.1 hn
    have init : g.initial name = some latch.init := by
      rw [Graph.initial, hlatch, Option.map_some]
    rw [← ext.latchValue v hn, his.latches, ext.initial init, init]
  obtain ⟨step', -, his'⟩ :=
    evg.exists_eval_of_solution (ext.solution his.solution) given (evg.latchValue_eq known)
  exact ⟨l.under v, evh.literalValue_eq his (ext.has hl), evg.literalValue_eq his' hl⟩

variable (embedded : source.IsEmbedded h e images) (evs : source.Evaluable) (evh : h.Evaluable)
  (his : h.IsStep v inputs (state.getD ∅) step)
include embedded evs evh his

/-- Every step of the larger graph gives the leaves of the copied one their values. -/
theorem IsEmbedded.exists_leavesShow :
    ∃ inputs' state', source.LeavesShow h images inputs state inputs' state' := by
  refine ⟨source.inputs.map fun _ i => (images i).under v,
    source.latches.map fun _ i => (images i).under v, fun name i hi => ?_, fun name i hi => ?_⟩
  · rw [evh.shows_iff his (embedded.has i (lt_size (evs.input.2 ⟨name, hi⟩)))]
    simp [hi]
  · obtain ⟨next, init, hnode⟩ := evs.latch.2 ⟨name, hi⟩
    rw [evh.shows_iff his (embedded.has i (lt_size hnode))]
    simp [hi]

/-- With these values the copied graph takes a step, which shows the values of its images. -/
theorem IsEmbedded.exists_eval (leaves : source.LeavesShow h images inputs state inputs' state') :
    ∃ step', source.eval inputs' (some state') = .ok step' ∧
      (∀ (name : String) l, e.outputs[name]? = some l → h.Shows inputs state l step'.outputs name) ∧
      ∀ (name : String) l, e.nexts[name]? = some l → h.Shows inputs state l step'.latches name := by
  -- The values of the images solve the copied graph, so that only its leaves are to be compared.
  have given (name : String) (hn : name ∈ source.inputs) :
      source.inputValue (fun i => (images i).under v) name = inputs'[name]? := by
    obtain ⟨i, hi⟩ := mem_iff_exists_getElem?.1 hn
    have shown := leaves.input name i hi
    rw [evh.shows_iff his (embedded.has i (lt_size (evs.input.2 ⟨name, hi⟩)))] at shown
    rw [inputValue, hi, Option.map_some, shown]
  have known (name : String) (hn : name ∈ source.latches) :
      source.latchValue (fun i => (images i).under v) name =
        (source.initial name).map fun init => (state'[name]?).getD init := by
    obtain ⟨latch, hlatch⟩ := evs.mem_latches_iff.1 hn
    obtain ⟨hi, hnode⟩ := evs.latch?_eq_some_iff.1 hlatch
    have shown := leaves.latch name latch.id hi
    rw [evh.shows_iff his (embedded.has latch.id (lt_size hnode))] at shown
    rw [latchValue, hi, Option.map_some, initial, hlatch, Option.map_some, Option.map_some, shown,
      Option.getD_some]
  obtain ⟨step', run, his'⟩ : ∃ step', source.eval inputs' (some state') = .ok step' ∧
      source.IsStep (fun i => (images i).under v) inputs' state' step' :=
    evs.exists_eval_of_solution (embedded.solution v his.solution) given (evs.latchValue_eq known)
  refine ⟨step', run, fun name l hl => ?_, fun name l hl => ?_⟩
  · rw [evh.shows_iff his (embedded.has_output evs hl), his'.outputs, embedded.outputValue, hl,
      Option.map_some]
  · rw [evh.shows_iff his (embedded.has_next evs hl), his'.nexts, embedded.nextValue, hl,
      Option.map_some]

end Values

/-- `h` is `target` with a copy of `source`, whose nodes have the images `images` and whose outputs and
next states the literals of `e`. -/
structure HasCopy (source target h : Graph) (e : Embedding) (images : Nat → Literal) : Prop where
  wellFormed : h.WellFormed
  gateCount_le : h.gateCount ≤ target.gateCount + source.gateCount
  kept : ∀ l, target.Has l → h.Has l ∧ ∀ (inputs : Valuation) state,
    (∀ name ∈ h.inputs, name ∈ inputs) → ∃ value, h.literalValue inputs state l = .ok value ∧
      target.literalValue inputs state l = .ok value
  outputs : ∀ name, name ∈ e.outputs ↔ name ∈ source.outputs
  nexts : ∀ name, name ∈ e.nexts ↔ name ∈ source.latches
  has_output : ∀ (name : String) l, e.outputs[name]? = some l → h.Has l
  has_next : ∀ (name : String) l, e.nexts[name]? = some l → h.Has l
  value : ∀ (inputs : Valuation) state, (∀ name ∈ h.inputs, name ∈ inputs) →
    (∃ inputs' state', source.LeavesShow h images inputs state inputs' state') ∧
    ∀ inputs' state', source.LeavesShow h images inputs state inputs' state' →
      ∃ step, source.eval inputs' (some state') = .ok step ∧
        (∀ (name : String) l, e.outputs[name]? = some l → h.Shows inputs state l step.outputs name) ∧
        ∀ (name : String) l, e.nexts[name]? = some l → h.Shows inputs state l step.latches name

end Graph

namespace Build

section Copy
variable {source target h : Graph} {bind : Leaf → Build Literal} {images : Nat → Literal}
  {e : Embedding}

theorem Carried.isEmbedded (carried : Carried source target images source.nodes.size h)
    (ev : source.Evaluable)
    (outputs : ∀ name : String, e.outputs[name]? = (source.outputs[name]?).map (·.image images))
    (nexts : ∀ name : String, e.nexts[name]? = (source.latch? name).map (·.next.image images)) :
    source.IsEmbedded h e images := by
  refine ⟨carried.has, fun v hv => ⟨?_, fun {i left right} hi => ?_⟩, outputs, nexts⟩
  · rw [carried.zero 0 ev.pos ev.zero, hv.under_ofBool]
  · rw [carried.gate i (Graph.lt_size hi) left right hi v hv, Literal.under_image,
      Literal.under_image]

theorem Carried.hasCopy (carried : Carried source target images source.nodes.size h)
    (evs : source.Evaluable) (evt : target.Evaluable) (embedded : source.IsEmbedded h e images) :
    source.HasCopy target h e images := by
  obtain ⟨wf, grows, -, -, -, count⟩ := carried
  refine ⟨wf, source.gatesBelow_size ▸ count, fun l hl => ⟨grows.has hl, fun inputs state covered =>
      grows.exists_literalValue evt wf.toEvaluable hl covered⟩,
    fun name => embedded.mem_outputs_iff, fun name => embedded.mem_nexts_iff evs,
    fun name l hl => embedded.has_output evs hl, fun name l hl => embedded.has_next evs hl,
    fun inputs state covered => ?_⟩
  obtain ⟨step, run⟩ : ∃ step, h.eval inputs state = .ok step := wf.exists_eval_ok_iff.2 covered
  obtain ⟨v, his⟩ := wf.eval_eq_ok_iff.1 run
  exact ⟨embedded.exists_leavesShow evs wf.toEvaluable his,
    fun inputs' state' => embedded.exists_eval evs wf.toEvaluable his⟩

/-- Copying a graph that can be evaluated into a well-formed one goes through, unless the binding fails
on one of the leaves. The copy then went its course, in which every leaf was bound to its image; the
larger graph is well-formed, with no more further gates than the copied graph has; every literal that was
there keeps its value, and outputs and next states have literals with the values that the copied graph
computes where its leaves have those of the literals that they were bound to. -/
theorem embed_homomorphic (ev : source.Evaluable) (wf : target.WellFormed)
    (adds : OnlyAddsLeaves source target bind) :
    (∃ images e h, embed source bind target = .ok (e, h) ∧
      Course source target bind images source.nodes.size h ∧ source.HasCopy target h e images) ∨
    ∃ fault, embed source bind target = .error fault ∧ Stops source target bind fault := by
  have spec : (embed source bind).Spec target (fun e h => ∃ images,
      Course source target bind images source.nodes.size h ∧ source.HasCopy target h e images)
      (Stops source target bind) := by
    refine (copyNodes_spec ev wf adds).bind fun images h wfh _ ⟨size, course⟩ => ?_
    obtain ⟨e, he, outputs, nexts⟩ := readEmbedding_eq ev size
    have carried := course.carried ev wf adds
    exact .of_eq (promised_eq he) wfh (.refl h)
      ⟨_, course, carried.hasCopy ev wf.toEvaluable (carried.isEmbedded ev outputs nexts)⟩
  cases run : embed source bind target with
  | ok result =>
    obtain ⟨-, -, images, course, copy⟩ := spec.elim run
    exact .inl ⟨images, result.1, result.2, rfl, course, copy⟩
  | error fault => exact .inr ⟨fault, rfl, by rwa [Spec, run] at spec⟩

end Copy

/-! ### The bindings of the operations -/

section Bindings
variable {source target g h : Graph} {l : Literal} {name : String} {init : Bool}

theorem has_of_input (wf : g.WellFormed) (run : input name g = .ok (l, h)) : h.Has l := by
  obtain ⟨wfh, -, ⟨id, rfl, hid⟩, -⟩ := (input_runs wf name).elim run
  exact Graph.lt_size (wfh.input.2 ⟨name, hid⟩)

theorem has_of_latch (run : latch name init g = .ok (l, h)) : h.Has l := by
  rw [latch] at run
  split at run <;> cases run
  simp [Graph.Has, Literal.positive]

/-- Composition, feedback and compaction bind to drivers, to inputs and to latches. -/
theorem bindDriven_onlyAddsLeaves {drivers : NameMap Literal}
    (has : ∀ (name : String) l, drivers[name]? = some l → target.Has l) :
    OnlyAddsLeaves source target (bindDriven drivers) := by
  intro i leaf g h l _ wf grows run
  cases leaf with
  | input name =>
    cases driven : drivers[name]? with
    | none =>
      simp only [bindDriven, driven] at run
      exact ⟨.input .refl run, has_of_input wf run⟩
    | some m =>
      simp only [bindDriven, driven] at run
      cases run
      exact ⟨.refl, grows.has (has name l driven)⟩
  | latch name init => exact ⟨.latch .refl run, has_of_latch run⟩

end Bindings

/-- A gate over driven inputs is one that was there, and one over a latch is new. -/
theorem embed_homomorphic_driven : ∃ target source,
    Build.graph ([.input "a", .input "b", .and ⟨1, false⟩ ⟨2, true⟩].forM Growth.build) =
      .ok target ∧
    Build.graph ([.input "x", .input "z", .latch "q" true, .and ⟨1, false⟩ ⟨2, false⟩,
      .and ⟨3, false⟩ ⟨4, false⟩, .setNext "q" ⟨5, true⟩, .output "y" ⟨4, true⟩].forM
        Growth.build) = .ok source ∧
    ∃ images e h, embed source (bindDriven (.ofPairs [("x", ⟨2, true⟩), ("z", ⟨1, false⟩)])) target =
        .ok (e, h) ∧
      e.outputs["y"]? = some ⟨3, true⟩ ∧ e.nexts["q"]? = some ⟨5, true⟩ ∧
      source.HasCopy target h e images := by
  obtain ⟨target, ht, size, source, hs, ⟨e, h⟩, run, output, next⟩ : ∃ target,
      Build.graph ([.input "a", .input "b", .and ⟨1, false⟩ ⟨2, true⟩].forM Growth.build) =
        .ok target ∧ target.nodes.size = 4 ∧
      ∃ source, Build.graph ([.input "x", .input "z", .latch "q" true, .and ⟨1, false⟩ ⟨2, false⟩,
        .and ⟨3, false⟩ ⟨4, false⟩, .setNext "q" ⟨5, true⟩, .output "y" ⟨4, true⟩].forM
          Growth.build) = .ok source ∧
      ∃ r, embed source (bindDriven (.ofPairs [("x", ⟨2, true⟩), ("z", ⟨1, false⟩)])) target =
          .ok r ∧
        r.1.outputs["y"]? = some ⟨3, true⟩ ∧ r.1.nexts["q"]? = some ⟨5, true⟩ := by
    decide +kernel
  have wfs := (Graph.reachable_of_growths hs).wellFormed
  have wft := (Graph.reachable_of_growths ht).wellFormed
  have known (name : String) (l : Literal) (hl : (NameMap.ofPairs
      [("x", (⟨2, true⟩ : Literal)), ("z", ⟨1, false⟩)])[name]? = some l) : target.Has l := by
    rw [NameMap.getElem?_ofPairs_eq_some_iff (by decide)] at hl
    rcases List.mem_pair.1 hl with h | h <;> cases h <;> simp [Graph.Has, size]
  rcases embed_homomorphic wfs.toEvaluable wft (bindDriven_onlyAddsLeaves known) with
    ⟨images, e', h', run', -, copy⟩ | ⟨fault, run', -⟩
  · cases run.symm.trans run'
    exact ⟨target, source, ht, hs, images, e, h, run, output, next, copy⟩
  · cases run.symm.trans run'

end Build

end AndInverter
