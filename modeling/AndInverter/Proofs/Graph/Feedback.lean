import AndInverter.Graph.Feedback
import AndInverter.Proofs.Graph.Compose
import AndInverter.Proofs.Graph.Reachable

/-! Runs of a graph with closed loops. In every step a fed input has the value that the output of its
loop had one step before. -/

namespace AndInverter

/-- The values that the latches of loops give to the inputs of the loops. -/
def Loop.fed (loops : List Loop) (state : Valuation) : Valuation :=
  NameMap.ofPairs (loops.map fun loop => (loop.input, (state[loop.latch]?).getD loop.init))

/-- The values that the outputs of loops give to the latches of the loops. -/
def Loop.followed (loops : List Loop) (outputs : Valuation) : Valuation :=
  NameMap.ofPairs (loops.filterMap fun loop =>
    (outputs[loop.output]?).map fun value => (loop.latch, value))

namespace Graph

/-- One step of `g` from a state of its own latches and those of the loops. -/
def stepLooped (g : Graph) (loops : List Loop) (keepOutputs : Bool) (inputs state : Valuation) :
    Except Fault Step := do
  let step ← g.eval (inputs.merge (Loop.fed loops state)) (some state)
  return {
    outputs := if keepOutputs then step.outputs else step.outputs.without (loops.map (·.output))
    latches := step.latches.merge (Loop.followed loops step.outputs) }

/-- One such step for each valuation of the inputs, from the state that the last one left. -/
def runLooped (g : Graph) (loops : List Loop) (keepOutputs : Bool) :
    Valuation → List Valuation → Except Fault (List Step)
  | _, [] => .ok []
  | state, inputs :: later => do
    let step ← g.stepLooped loops keepOutputs inputs state
    return step :: (← g.runLooped loops keepOutputs step.latches later)

/-- What lists of names and values must satisfy to be loops of `g`. -/
structure LoopsFit (g : Graph) (ins outs : List String) (inits : List Bool)
    (latches : List String) : Prop where
  outs_length : outs.length = ins.length
  latches_length : latches.length = ins.length
  inits_length : inits.length = ins.length
  inputs : ∀ n ∈ ins, n ∈ g.inputs
  outputs : ∀ n ∈ outs, n ∈ g.outputs
  ins_nodup : ins.Nodup
  latches_nodup : latches.Nodup
  latches_new : ∀ n ∈ latches, n ∉ g.latches

section Loops
variable {g : Graph} {ins outs latches : List String} {inits : List Bool}

/-- The lists fit where every check finds nothing. -/
theorem loopsFit_iff : g.LoopsFit ins outs inits latches ↔
    outs.length = ins.length ∧ latches.length = ins.length ∧ inits.length = ins.length ∧
    ins.find? (!g.inputs.contains ·) = none ∧ outs.find? (!g.outputs.contains ·) = none ∧
    firstClash g.latches.keys id latches = none ∧ firstClash [] id ins = none := by
  simp only [firstClash_eq_none_iff, List.map_id, List.find?_eq_none]
  constructor
  · intro fit
    exact ⟨fit.outs_length, fit.latches_length, fit.inits_length, by simpa using fit.inputs,
      by simpa using fit.outputs, by simpa using ⟨fit.latches_new, fit.latches_nodup⟩,
      by simpa using fit.ins_nodup⟩
  · rintro ⟨outsLength, latchesLength, initsLength, known, known', ⟨new, distinct⟩, -, distinct'⟩
    exact ⟨outsLength, latchesLength, initsLength, by simpa using known, by simpa using known',
      distinct', distinct, by simpa using new⟩

/-- The columns of the loops that lists of one length make. -/
theorem LoopsFit.columns (fit : g.LoopsFit ins outs inits latches) {loops : List Loop}
    (hloops : loops = (ins.zip outs).zipWith
      (fun (input, output) (latch, init) => ⟨input, output, latch, init⟩) (latches.zip inits)) :
    loops.map (·.input) = ins ∧ loops.map (·.output) = outs ∧ loops.map (·.latch) = latches ∧
      loops.map (·.init) = inits := by
  have outsLength := fit.outs_length
  have latchesLength := fit.latches_length
  have initsLength := fit.inits_length
  subst hloops
  refine ⟨?_, ?_, ?_, ?_⟩
  all_goals
    rw [List.map_zipWith]
    apply List.ext_getElem
    · simp [outsLength, latchesLength, initsLength]
    · intro i _ _
      simp

/-- Lists that fit are the columns of the loops, and of other lists one thing is said against them. -/
theorem loops_cases (g : Graph) (ins outs : List String) (inits : Option (List Bool))
    (latches : Option (List String)) :
    (g.LoopsFit ins outs (inits.getD (List.replicate ins.length false)) (latches.getD ins) ∧
      g.loops ins outs inits latches = .ok ((ins.zip outs).zipWith
        (fun (input, output) (latch, init) => ⟨input, output, latch, init⟩)
        ((latches.getD ins).zip (inits.getD (List.replicate ins.length false))))) ∨
    ¬ g.LoopsFit ins outs (inits.getD (List.replicate ins.length false)) (latches.getD ins) ∧
      ∃ cause, g.loops ins outs inits latches = .error (.circuit cause) := by
  rw [loopsFit_iff]
  by_cases outsLength : outs.length = ins.length
  case neg => exact .inr ⟨fun fit => outsLength fit.1, by simp [loops, *]⟩
  by_cases latchesLength : (latches.getD ins).length = ins.length
  case neg => exact .inr ⟨fun fit => latchesLength fit.2.1, by simp [loops, *]⟩
  by_cases initsLength : (inits.getD (List.replicate ins.length false)).length = ins.length
  case neg => exact .inr ⟨fun fit => initsLength fit.2.2.1, by simp [loops, *]⟩
  cases unknownInput : ins.find? (!g.inputs.contains ·) with
  | some n => exact .inr ⟨by simp, by simp [loops, *]⟩
  | none =>
    cases unknownOutput : outs.find? (!g.outputs.contains ·) with
    | some n => exact .inr ⟨by simp, by simp [loops, *]⟩
    | none =>
      cases latchClash : firstClash g.latches.keys id (latches.getD ins) with
      | some n => exact .inr ⟨by simp, by simp [loops, *]⟩
      | none =>
        cases inputClash : firstClash [] id ins with
        | some n => exact .inr ⟨by simp, by simp [loops, *]⟩
        | none => exact .inl ⟨by simp [*], by simp [loops, *]⟩

end Loops

/-- What closing loops makes of `g`. The latch of a loop drives its input and follows its output. -/
structure IsLooped (g : Graph) (loops : List Loop) (keepOutputs : Bool) (c : Graph) : Prop where
  inputs : ∀ n, n ∈ c.inputs ↔ n ∈ g.inputs ∧ n ∉ loops.map (·.input)
  outputs : ∀ n, n ∈ c.outputs ↔ n ∈ g.outputs ∧ (keepOutputs = true ∨ n ∉ loops.map (·.output))
  latches : ∀ n, n ∈ c.latches ↔ n ∈ g.latches ∨ n ∈ loops.map (·.latch)
  initialOwn : ∀ n ∈ g.latches, c.initial n = g.initial n
  initialLoop : ∀ loop ∈ loops, c.initial loop.latch = some loop.init
  solution : ∀ v, c.Solution v → ∃ u, g.Solution u ∧
    (∀ n ∈ c.inputs, g.inputValue u n = c.inputValue v n) ∧
    (∀ loop ∈ loops, g.inputValue u loop.input = c.latchValue v loop.latch) ∧
    (∀ n ∈ g.latches, g.latchValue u n = c.latchValue v n ∧ g.nextValue u n = c.nextValue v n) ∧
    (∀ loop ∈ loops, g.outputValue u loop.output = c.nextValue v loop.latch) ∧
    ∀ n ∈ c.outputs, g.outputValue u n = c.outputValue v n

theorem Evaluable.mem_latches_iff_initial {g : Graph} (ev : g.Evaluable) {n : String} :
    n ∈ g.latches ↔ ∃ init, g.initial n = some init := by
  rw [ev.mem_latches_iff]
  constructor
  · rintro ⟨latch, hl⟩
    exact ⟨latch.init, by rw [initial, hl, Option.map_some]⟩
  · rintro ⟨init, h⟩
    obtain ⟨latch, hl, -⟩ := Option.map_eq_some_iff.1 h
    exact ⟨latch, hl⟩

end Graph

/-- The driver is the input of the loop with the literal of the latch of the loop. -/
structure Loop.IsDriver (loop : Loop) (driver : String × Literal) (h : Graph) : Prop where
  name : driver.1 = loop.input
  latch : ∃ id, driver.2 = .positive id ∧ h.latches[loop.latch]? = some id
  initial : h.initial loop.latch = some loop.init

section Drivers
variable {h : Graph} {loops : List Loop} {drivers : List (String × Literal)}

theorem map_fst_drivers (made : List.Forall₂ (fun loop driver => loop.IsDriver driver h) loops drivers) :
    drivers.map Prod.fst = loops.map (·.input) := by
  induction made with
  | nil => rfl
  | cons first _ ih => rw [List.map_cons, List.map_cons, first.name, ih]

/-- Each input of a loop is driven by the latch of the loop. -/
theorem getElem?_drivers (made : List.Forall₂ (fun loop driver => loop.IsDriver driver h) loops drivers)
    (distinct : (loops.map (·.input)).Nodup) {loop : Loop} (hloop : loop ∈ loops) :
    ∃ id, (NameMap.ofPairs drivers)[loop.input]? = some (.positive id) ∧
      h.latches[loop.latch]? = some id := by
  obtain ⟨⟨name, l⟩, hdriver, hname, ⟨id, rfl, hid⟩, -⟩ := forall₂_exists_of_mem made hloop
  obtain rfl : name = loop.input := hname
  rw [← map_fst_drivers made] at distinct
  exact ⟨id, (NameMap.getElem?_ofPairs_eq_some_iff distinct).2 hdriver, hid⟩

theorem mem_drivers_iff (made : List.Forall₂ (fun loop driver => loop.IsDriver driver h) loops drivers)
    (distinct : (loops.map (·.input)).Nodup) {n : String} :
    n ∈ NameMap.ofPairs drivers ↔ n ∈ loops.map (·.input) := by
  rw [← map_fst_drivers made] at distinct ⊢
  rw [mem_iff_exists_getElem?]
  simp [NameMap.getElem?_ofPairs_eq_some_iff distinct]

end Drivers

namespace Build

theorem loopLatches_runs {g : Graph} (wf : g.WellFormed) {loops : List Loop}
    (distinct : (loops.map (·.latch)).Nodup) (new : ∀ n ∈ loops.map (·.latch), n ∉ g.latches) :
    Runs (loops.mapM fun loop => do
      return (loop.input, ← Build.latch loop.latch loop.init)) g fun drivers h =>
      (h.inputs = g.inputs ∧ h.outputs = g.outputs ∧
        ∀ n ∉ loops.map (·.latch), h.latch? n = g.latch? n) ∧
      List.Forall₂ (fun loop driver => loop.IsDriver driver h) loops drivers := by
  apply Spec.mapM
    (fun (done : List Loop) h => h.inputs = g.inputs ∧ h.outputs = g.outputs ∧
      ∀ n ∉ done.map (·.latch), h.latch? n = g.latch? n)
    (fun (loop : Loop) driver h => loop.IsDriver driver h)
  · rintro loop driver h h' ⟨name, ⟨id, hid, hlatch⟩, initial⟩ ext
    exact ⟨name, ⟨id, hid, ext.latch hlatch⟩, (ext.initial initial)⟩
  · rintro done loop rest h hloops wf' ext ⟨hin, hout, hrest⟩
    have hmem : loop.latch ∈ loops.map (·.latch) := by simp [hloops]
    have once : loop.latch ∉ done.map (·.latch) := by
      rw [hloops, List.map_append, List.map_cons, List.nodup_append] at distinct
      exact fun hmem => distinct.2.2 _ hmem _ (by simp) rfl
    have absent : loop.latch ∉ h.latches := by
      rw [wf'.mem_latches_iff, hrest _ once, wf.latch?_eq_none (new _ hmem)]
      simp
    apply (latch_runs wf' absent loop.init).bind
    rintro l h' wf'' ext' ⟨⟨id, hl, hlatch⟩, hin', hout'⟩
    have made : h'.latch? loop.latch = some ⟨id, .ofBool false, loop.init⟩ := by simp [hlatch]
    apply Spec.pure wf''
    refine ⟨⟨hin'.trans hin, hout'.trans hout, fun n hn => ?_⟩, rfl,
      ⟨id, hl, (wf''.latch?_eq_some_iff.1 made).1⟩, by rw [Graph.initial, made, Option.map_some]⟩
    simp only [List.map_append, List.map_cons, List.map_nil, List.mem_append, List.mem_singleton,
      not_or] at hn
    simp only [hlatch, if_neg hn.2]
    exact hrest n hn.1
  · exact wf
  · exact ⟨rfl, rfl, fun _ _ => rfl⟩

/-- Next states that are looked up first. -/
theorem forM_setNext_eq {loops : List Loop} {outs : NameMap Literal} {next : Loop → Literal}
    (known : ∀ loop ∈ loops, outs[loop.output]? = some (next loop)) :
    (loops.forM fun loop => do
      setNext loop.latch (← Fault.promised outs[loop.output]?)) =
      (loops.map fun loop => (loop.latch, next loop)).forM fun (name, l) => setNext name l := by
  induction loops with
  | nil => rfl
  | cons loop loops ih =>
    have first := known loop List.mem_cons_self
    have later := ih fun loop' hloop => known loop' (List.mem_cons_of_mem _ hloop)
    rw [List.map_cons, List.forM, List.forM, later, first]
    rfl

end Build

namespace Graph

variable {g : Graph} {loops : List Loop} {keepOutputs : Bool}

/-- What solves a copy over the latches of loops gives the copied graph its values: the latch of a loop
those of the fed input, and the output of a loop the next state of the latch. -/
theorem IsDriven.solution_looped {h k H : Graph} {drivers : List (String × Literal)}
    {outs : NameMap Literal} (driven : g.IsDriven h k (NameMap.ofPairs drivers) outs)
    (ev : g.Evaluable)
    (made : List.Forall₂ (fun loop driver => loop.IsDriver driver h) loops drivers)
    (distinct : (loops.map (·.input)).Nodup) (new : ∀ n ∈ loops.map (·.latch), n ∉ g.latches)
    (known : ∀ loop ∈ loops, loop.input ∈ g.inputs)
    (wfh : h.WellFormed) (wfk : k.WellFormed) (hk : h.Extends k) (kH : k.Extends H)
    (inputs' : H.inputs = k.inputs)
    (next : ∀ loop ∈ loops, ∃ l, outs[loop.output]? = some l ∧
      H.latch? loop.latch = (k.latch? loop.latch).map fun latch => { latch with next := l })
    (rest' : ∀ n ∉ loops.map (·.latch), H.latch? n = k.latch? n) {v : Nat → Bool}
    (hv : H.Solution v) :
    ∃ u, g.Solution u ∧
      (∀ n ∈ g.inputs, n ∉ loops.map (·.input) → g.inputValue u n = H.inputValue v n) ∧
      (∀ loop ∈ loops, g.inputValue u loop.input = H.latchValue v loop.latch) ∧
      (∀ n ∈ g.latches, g.latchValue u n = H.latchValue v n ∧ g.nextValue u n = H.nextValue v n) ∧
      (∀ loop ∈ loops, g.outputValue u loop.output = H.nextValue v loop.latch) ∧
      ∀ n, g.outputValue u n = (outs[n]?).map (·.under v) := by
  obtain ⟨u, hu, uin, ulatch, uout, unext⟩ := driven.solution v (kH.solution hv)
  refine ⟨u, hu, ?_, ?_, ?_, ?_, uout⟩
  · intro n hn hno
    have free : n ∉ NameMap.ofPairs drivers := fun h => hno ((mem_drivers_iff made distinct).1 h)
    rw [uin n hn, not_mem_iff_getElem?.1 free, Graph.inputValue, Graph.inputValue, inputs']
  · intro loop hloop
    obtain ⟨id, hdriver, hid⟩ := getElem?_drivers made distinct hloop
    rw [uin _ (known loop hloop), hdriver, Graph.latchValue, kH.latch (hk.latch hid)]
    simp
  · intro n hn
    have hmem : n ∈ k.latches :=
      (driven.mem_latches_iff ev wfh.toEvaluable wfk.toEvaluable).2 (.inr hn)
    have own : n ∉ loops.map (·.latch) := fun h => new n h hn
    rw [ulatch n hn, unext n hn, kH.latchValue v hmem, Graph.nextValue, Graph.nextValue, rest' n own]
    exact ⟨rfl, rfl⟩
  · intro loop hloop
    obtain ⟨l, hl, hnext⟩ := next loop hloop
    obtain ⟨id, -, hid⟩ := getElem?_drivers made distinct hloop
    obtain ⟨latch, hlatch⟩ := wfk.mem_latches_iff.1 (mem_iff_exists_getElem?.2 ⟨id, hk.latch hid⟩)
    rw [uout, hl, Graph.nextValue, hnext, hlatch]
    rfl

/-- The next states of the loops are set in a copy over their latches. -/
theorem IsDriven.looped {h k H : Graph} {drivers : List (String × Literal)} {outs outputs : NameMap Literal}
    (driven : g.IsDriven h k (NameMap.ofPairs drivers) outs) (ev : g.Evaluable)
    (made : List.Forall₂ (fun loop driver => loop.IsDriver driver h) loops drivers)
    (distinct : (loops.map (·.input)).Nodup) (new : ∀ n ∈ loops.map (·.latch), n ∉ g.latches)
    (known : ∀ loop ∈ loops, loop.input ∈ g.inputs)
    (inputs : h.inputs = ∅) (rest : ∀ n ∉ loops.map (·.latch), h.latch? n = none)
    (wfh : h.WellFormed) (wfk : k.WellFormed) (wfH : H.WellFormed) (hk : h.Extends k) (kH : k.Extends H)
    (inputs' : H.inputs = k.inputs)
    (next : ∀ loop ∈ loops, ∃ l, outs[loop.output]? = some l ∧
      H.latch? loop.latch = (k.latch? loop.latch).map fun latch => { latch with next := l })
    (rest' : ∀ n ∉ loops.map (·.latch), H.latch? n = k.latch? n)
    (houtputs : ∀ (n : String) l, outputs[n]? = some l ↔
      outs[n]? = some l ∧ (keepOutputs = true ∨ n ∉ loops.map (·.output))) :
    g.IsLooped loops keepOutputs { H with outputs := outputs } := by
  have own (n : String) (hn : n ∈ g.latches) : n ∉ loops.map (·.latch) := fun h => new n h hn
  have initialLoop (loop : Loop) (hloop : loop ∈ loops) : H.initial loop.latch = some loop.init := by
    obtain ⟨_, -, hdriver⟩ := forall₂_exists_of_mem made hloop
    exact kH.initial (hk.initial hdriver.initial)
  have initialOwn (n : String) (hn : n ∈ g.latches) : H.initial n = g.initial n := by
    rw [← driven.initial n hn, Graph.initial, Graph.initial, rest' n (own n hn)]
  have hinputs (n : String) : n ∈ H.inputs ↔ n ∈ g.inputs ∧ n ∉ loops.map (·.input) := by
    rw [inputs', driven.inputs, mem_drivers_iff made distinct, inputs]
    simp [and_comm]
  constructor
  case inputs => exact hinputs
  case outputs =>
    intro n
    show n ∈ outputs ↔ _
    rw [mem_iff_exists_getElem?, ← driven.mem_outs, mem_iff_exists_getElem?]
    simp only [houtputs, exists_and_right]
  case latches =>
    intro n
    show n ∈ H.latches ↔ _
    constructor
    · intro hn
      by_contra hno
      obtain ⟨noOwn, noLoop⟩ := not_or.1 hno
      rw [wfH.mem_latches_iff, rest' n noLoop, driven.latches n noOwn, rest n noLoop] at hn
      simp at hn
    · rintro (hn | hn)
      · obtain ⟨init, hinit⟩ := ev.mem_latches_iff_initial.1 hn
        exact wfH.mem_latches_iff_initial.2 ⟨init, (initialOwn n hn).trans hinit⟩
      · obtain ⟨loop, hloop, rfl⟩ := List.mem_map.1 hn
        exact wfH.mem_latches_iff_initial.2 ⟨loop.init, initialLoop loop hloop⟩
  case initialOwn => exact initialOwn
  case initialLoop => exact initialLoop
  case solution =>
    intro v hv
    replace hv : H.Solution v := ⟨hv.zero, hv.gate⟩
    obtain ⟨u, hu, uin, ufed, ulatch, unext, uout⟩ := driven.solution_looped ev made distinct new
      known wfh wfk hk kH inputs' next rest' hv
    refine ⟨u, hu, fun n hn => ?_, ufed, ulatch, unext, fun n hn => ?_⟩
    · obtain ⟨own, free⟩ := (hinputs n).1 hn
      exact uin n own free
    · obtain ⟨l, hl⟩ := mem_iff_exists_getElem?.1 hn
      have hout : outs[n]? = some l := ((houtputs n l).1 hl).1
      rw [uout, hout, Graph.outputValue, hl]

/-- Closing loops succeeds where their names are new, known and different. -/
theorem exists_closeLoops (ev : g.Evaluable) (keepOutputs : Bool)
    (distinct : (loops.map (·.input)).Nodup) (distinct' : (loops.map (·.latch)).Nodup)
    (new : ∀ n ∈ loops.map (·.latch), n ∉ g.latches) (inputs : ∀ loop ∈ loops, loop.input ∈ g.inputs)
    (outputs : ∀ loop ∈ loops, loop.output ∈ g.outputs) :
    ∃ c, g.closeLoops loops keepOutputs = .ok c ∧ c.WellFormed ∧ g.IsLooped loops keepOutputs c := by
  have wf := wellFormed_empty
  apply Build.Runs.exists_graph
  apply (Build.loopLatches_runs wf distinct' (by simp [empty])).bind
  rintro drivers h wfh _ ⟨⟨hin, hout, hrest⟩, made⟩
  have fed (n : String) (l : Literal) (hl : (NameMap.ofPairs drivers)[n]? = some l) : h.Has l := by
    obtain ⟨loop, hloop, rfl⟩ := List.mem_map.1
      ((mem_drivers_iff made distinct).1 (mem_iff_exists_getElem?.2 ⟨l, hl⟩))
    obtain ⟨id, hdriver, hid⟩ := getElem?_drivers made distinct hloop
    obtain ⟨next, init, hnode⟩ := wfh.latch.2 ⟨_, hid⟩
    obtain rfl := Option.some.inj (hdriver.symm.trans hl)
    exact lt_size hnode
  have apart (n : String) (hn : n ∈ g.latches) : n ∉ h.latches := by
    rw [wfh.mem_latches_iff, hrest n fun hmem => new n hmem hn]
    simp [latch?, empty]
  apply (Build.embedDriven_runs ev wfh fed apart).bind
  intro outs k wfk hk driven
  have found (loop : Loop) (hloop : loop ∈ loops) : ∃ l, outs[loop.output]? = some l :=
    mem_iff_exists_getElem?.1 ((driven.mem_outs _).2 (outputs loop hloop))
  let next (loop : Loop) : Literal := (outs[loop.output]?).getD (.ofBool false)
  have hnext (loop : Loop) (hloop : loop ∈ loops) : outs[loop.output]? = some (next loop) := by
    obtain ⟨l, hl⟩ := found loop hloop
    simp [next, hl]
  rw [Build.forM_setNext_eq hnext]
  let entries := loops.map fun loop => (loop.latch, next loop)
  have names : entries.map Prod.fst = loops.map (·.latch) := by
    rw [List.map_map]
    rfl
  have latchKnown : ∀ e ∈ entries, e.1 ∈ k.latches := by
    intro e he
    obtain ⟨loop, hloop, rfl⟩ := List.mem_map.1 he
    obtain ⟨id, -, hid⟩ := getElem?_drivers made distinct hloop
    exact mem_iff_exists_getElem?.2 ⟨id, hk.latch hid⟩
  have has : ∀ e ∈ entries, k.Has e.2 := by
    intro e he
    obtain ⟨loop, hloop, rfl⟩ := List.mem_map.1 he
    exact driven.has _ _ (hnext loop hloop)
  apply (Build.setNextList_runs wfk (names ▸ distinct') latchKnown has).bind
  rintro _ H wfH kH ⟨inputs', outputs', set, rest'⟩
  have none : H.outputs = ∅ := outputs'.trans (driven.outputs.trans hout)
  let kept := if keepOutputs then outs else outs.without (loops.map (·.output))
  have hkept (n : String) (l : Literal) : kept[n]? = some l ↔
      outs[n]? = some l ∧ (keepOutputs = true ∨ n ∉ loops.map (·.output)) := by
    cases keepOutputs with
    | true => simp [kept]
    | false =>
      simp only [kept, Bool.false_eq_true, if_false, false_or, NameMap.getElem?_without]
      split <;> simp_all
  have absent : ∀ n ∈ kept, n ∉ H.outputs := by simp [none]
  apply (Build.outputs_runs wfH absent
    fun n l hl => kH.has (driven.has n l ((hkept n l).1 hl).1)).imp
  rintro _ c wfc - ⟨ls, rfl, hls⟩
  apply driven.looped ev made distinct new inputs hin hrest wfh wfk wfH hk kH inputs'
  · intro loop hloop
    exact ⟨next loop, hnext loop hloop, set _ _ (List.mem_map.2 ⟨loop, hloop, rfl⟩)⟩
  · rwa [names] at rest'
  · intro n l
    simp [hls, none, hkept]

/-- Either feedback closes loops whose columns are the lists, or says what stands in the way. -/
theorem feedback_cases (ev : g.Evaluable) (ins outs : List String) (inits : Option (List Bool))
    (latches : Option (List String)) (keepOutputs : Bool) :
    (g.LoopsFit ins outs (inits.getD (List.replicate ins.length false)) (latches.getD ins) ∧
      ∃ loops c, g.feedback ins outs inits latches keepOutputs = .ok c ∧ c.WellFormed ∧
        g.IsLooped loops keepOutputs c ∧ loops.map (·.input) = ins ∧ loops.map (·.output) = outs ∧
        loops.map (·.latch) = latches.getD ins ∧
        loops.map (·.init) = inits.getD (List.replicate ins.length false)) ∨
    ¬ g.LoopsFit ins outs (inits.getD (List.replicate ins.length false)) (latches.getD ins) ∧
      ∃ cause, g.feedback ins outs inits latches keepOutputs = .error (.circuit cause) := by
  rcases loops_cases g ins outs inits latches with ⟨fit, hloops⟩ | ⟨misfit, cause, hloops⟩
  · obtain ⟨hins, houts, hlatches, hinits⟩ := fit.columns rfl
    generalize (ins.zip outs).zipWith _ _ = loops at hloops hins houts hlatches hinits
    have inputsKnown (loop : Loop) (hloop : loop ∈ loops) : loop.input ∈ g.inputs :=
      fit.inputs _ (hins ▸ List.mem_map.2 ⟨loop, hloop, rfl⟩)
    have outputsKnown (loop : Loop) (hloop : loop ∈ loops) : loop.output ∈ g.outputs :=
      fit.outputs _ (houts ▸ List.mem_map.2 ⟨loop, hloop, rfl⟩)
    obtain ⟨c, hc, wfc, looped⟩ := exists_closeLoops ev keepOutputs (hins ▸ fit.ins_nodup)
      (hlatches ▸ fit.latches_nodup) (hlatches ▸ fit.latches_new) inputsKnown outputsKnown
    refine .inl ⟨fit, loops, c, ?_, wfc, looped, hins, houts, hlatches, hinits⟩
    rw [feedback, hloops]
    exact hc
  · refine .inr ⟨misfit, cause, ?_⟩
    rw [feedback, hloops]
    rfl

section Run
variable {c : Graph}

theorem getElem?_fed (distinct : (loops.map (·.input)).Nodup) (state : Valuation) :
    (∀ loop ∈ loops, (Loop.fed loops state)[loop.input]? =
      some ((state[loop.latch]?).getD loop.init)) ∧
    ∀ n ∉ loops.map (·.input), (Loop.fed loops state)[n]? = none := by
  have names : (loops.map fun loop =>
      (loop.input, (state[loop.latch]?).getD loop.init)).map Prod.fst = loops.map (·.input) := by
    rw [List.map_map]
    rfl
  constructor
  · intro loop hloop
    rw [Loop.fed, NameMap.getElem?_ofPairs_eq_some_iff (names ▸ distinct)]
    exact List.mem_map.2 ⟨loop, hloop, rfl⟩
  · intro n hn
    apply Option.eq_none_iff_forall_ne_some.2
    intro value hvalue
    rw [Loop.fed, NameMap.getElem?_ofPairs_eq_some_iff (names ▸ distinct)] at hvalue
    exact hn (names ▸ List.mem_map.2 ⟨_, hvalue, rfl⟩)

theorem getElem?_followed (distinct : (loops.map (·.latch)).Nodup) (outputs : Valuation) :
    (∀ loop ∈ loops, (Loop.followed loops outputs)[loop.latch]? = outputs[loop.output]?) ∧
    ∀ n ∉ loops.map (·.latch), (Loop.followed loops outputs)[n]? = none := by
  have distinct' : ((loops.filterMap fun loop =>
      (outputs[loop.output]?).map fun value => (loop.latch, value)).map Prod.fst).Nodup := by
    rw [List.Nodup, List.pairwise_map, List.pairwise_filterMap]
    apply (List.pairwise_map.1 distinct).imp
    intro a b hab x hx y hy heq
    obtain ⟨_, -, rfl⟩ := Option.map_eq_some_iff.1 hx
    obtain ⟨_, -, rfl⟩ := Option.map_eq_some_iff.1 hy
    exact hab heq
  have entry (n : String) (value : Bool) : (Loop.followed loops outputs)[n]? = some value ↔
      ∃ loop ∈ loops, outputs[loop.output]? = some value ∧ loop.latch = n := by
    rw [Loop.followed, NameMap.getElem?_ofPairs_eq_some_iff distinct', List.mem_filterMap]
    simp [Option.map_eq_some_iff]
  constructor
  · intro loop hloop
    ext value
    rw [entry]
    constructor
    · rintro ⟨loop', hloop', hvalue, hlatch⟩
      rwa [List.inj_on_of_nodup_map distinct hloop' hloop hlatch] at hvalue
    · exact fun hvalue => ⟨loop, hloop, hvalue, rfl⟩
  · intro n hn
    apply Option.eq_none_iff_forall_ne_some.2
    intro value hvalue
    obtain ⟨loop, hloop, -, rfl⟩ := (entry n value).1 hvalue
    exact hn (List.mem_map.2 ⟨loop, hloop, rfl⟩)

/-- The looped graph shows the outputs of `g` that are not fed back, or all of them. -/
theorem IsLooped.outputValue (looped : g.IsLooped loops keepOutputs c) {u v : Nat → Bool}
    {inputs state : Valuation} {own : Step} (isOwn : g.IsStep u inputs state own)
    (uout : ∀ n ∈ c.outputs, g.outputValue u n = c.outputValue v n) (n : String) :
    (if keepOutputs then own.outputs else own.outputs.without (loops.map (·.output)))[n]? =
      c.outputValue v n := by
  have own_eq : own.outputs[n]? = g.outputValue u n := isOwn.outputs n
  by_cases hn : n ∈ c.outputs
  · rw [← uout n hn, ← own_eq]
    have shown := ((looped.outputs n).1 hn).2
    cases keepOutputs with
    | true => rfl
    | false =>
      have hno := shown.resolve_left Bool.false_ne_true
      simp only [Bool.false_eq_true, if_false, NameMap.getElem?_without, if_neg hno]
  · rw [outputValue_eq_none hn]
    rw [looped.outputs, not_and, not_or] at hn
    by_cases hg : n ∈ g.outputs
    · obtain ⟨hkeep, hmem⟩ := hn hg
      simp only [if_neg hkeep, NameMap.getElem?_without, if_pos (not_not.1 hmem)]
    · rw [outputValue_eq_none hg] at own_eq
      cases keepOutputs <;> simp [NameMap.getElem?_without, own_eq]

/-- The latches of loops go on to the outputs of the loops, the others as they do in `g`. -/
theorem IsLooped.nextValue (looped : g.IsLooped loops keepOutputs c) (evg : g.Evaluable)
    (evc : c.Evaluable) (distinct : (loops.map (·.latch)).Nodup) {u v : Nat → Bool}
    {inputs state : Valuation} {own : Step} (isOwn : g.IsStep u inputs state own)
    (ulatch : ∀ n ∈ g.latches, g.nextValue u n = c.nextValue v n)
    (ufollow : ∀ loop ∈ loops, g.outputValue u loop.output = c.nextValue v loop.latch)
    (n : String) :
    (own.latches.merge (Loop.followed loops own.outputs))[n]? = c.nextValue v n := by
  obtain ⟨followed, other⟩ := getElem?_followed distinct own.outputs
  rw [NameMap.getElem?_merge]
  by_cases h : n ∈ loops.map (·.latch)
  · obtain ⟨loop, hloop, rfl⟩ := List.mem_map.1 h
    obtain ⟨latch, hlatch⟩ := evc.mem_latches_iff.1 ((looped.latches _).2 (.inr h))
    rw [followed loop hloop, isOwn.outputs, ufollow loop hloop, Graph.nextValue, hlatch]
    rfl
  · rw [other n h, Option.none_or, isOwn.nexts]
    by_cases hn : n ∈ g.latches
    · exact ulatch n hn
    · have hc : n ∉ c.latches := by
        rw [looped.latches]
        exact not_or.2 ⟨hn, h⟩
      rw [evg.nextValue_eq_none hn, evc.nextValue_eq_none hc]

section Looped
variable (looped : g.IsLooped loops keepOutputs c) (evg : g.Evaluable) (evc : c.Evaluable)
  (inputsDistinct : (loops.map (·.input)).Nodup) (latchesDistinct : (loops.map (·.latch)).Nodup)
include looped evg evc inputsDistinct latchesDistinct

/-- A step of `g` in which a solution of the looped graph gives the values makes a step of that graph. -/
theorem IsLooped.exists_stepLooped {inputs : Valuation} (state : Valuation)
    (covered : ∀ n ∈ c.inputs, n ∈ inputs) : ∃ step, c.eval inputs (some state) = .ok step ∧
      g.stepLooped loops keepOutputs inputs state = .ok step := by
  obtain ⟨step, hok⟩ : ∃ step, c.eval inputs (some state) = .ok step :=
    evc.exists_eval_ok_iff.2 covered
  obtain ⟨v, hv⟩ := evc.eval_eq_ok_iff.1 hok
  obtain ⟨u, hu, uin, ufed, ulatch, ufollow, uout⟩ := looped.solution v hv.solution
  obtain ⟨fed, free⟩ := getElem?_fed inputsDistinct state
  have inputValue (n : String) (hn : n ∈ g.inputs) :
      g.inputValue u n = (inputs.merge (Loop.fed loops state))[n]? := by
    rw [NameMap.getElem?_merge]
    by_cases h : n ∈ loops.map (·.input)
    · obtain ⟨loop, hloop, rfl⟩ := List.mem_map.1 h
      rw [ufed loop hloop, hv.latches, looped.initialLoop loop hloop, fed loop hloop]
      rfl
    · have hc : n ∈ c.inputs := (looped.inputs n).2 ⟨hn, h⟩
      rw [free n h, Option.none_or, uin n hc]
      exact hv.inputs n hc
  have latchValue (n : String) (hn : n ∈ g.latches) : g.latchValue u n =
      (g.initial n).map fun init => (state[n]?).getD init := by
    rw [(ulatch n hn).1, hv.latches, looped.initialOwn n hn, Option.getD_some]
  obtain ⟨own, hown, isOwn⟩ : ∃ own, g.eval (inputs.merge (Loop.fed loops state)) (some state) =
      .ok own ∧ g.IsStep u (inputs.merge (Loop.fed loops state)) state own :=
    evg.exists_eval_of_solution hu inputValue (evg.latchValue_eq latchValue)
  refine ⟨_, ?_, by rw [stepLooped, hown]; rfl⟩
  rw [hok]
  apply congrArg
  apply hv.unique
  refine ⟨hv.solution, hv.inputs, hv.latches, ?_, ?_⟩
  · exact looped.outputValue isOwn uout
  · exact looped.nextValue evg evc latchesDistinct isOwn (fun n hn => (ulatch n hn).2) ufollow

/-- The looped graph steps where `g` does, and with the same result. -/
theorem IsLooped.eval_eq_ok_iff {inputs state : Valuation} {step : Step} :
    c.eval inputs (some state) = .ok step ↔
      g.stepLooped loops keepOutputs inputs state = .ok step := by
  by_cases covered : ∀ n ∈ c.inputs, n ∈ inputs
  · obtain ⟨step', hc, hg⟩ := looped.exists_stepLooped evg evc inputsDistinct latchesDistinct
      state covered
    rw [hc, hg]
  · constructor
    · intro hc
      exact absurd (evc.exists_eval_ok_iff.1 ⟨step, hc⟩) covered
    · intro hg
      obtain ⟨own, hown, -⟩ := except_bind_eq_ok_iff.1 hg
      obtain ⟨-, free⟩ := getElem?_fed inputsDistinct state
      refine absurd (fun n hn => ?_) covered
      obtain ⟨hn, h⟩ := (looped.inputs n).1 hn
      obtain ⟨value, hvalue⟩ := mem_iff_exists_getElem?.1
        (evg.exists_eval_ok_iff.1 ⟨own, hown⟩ n hn)
      rw [NameMap.getElem?_merge, free n h, Option.none_or] at hvalue
      exact mem_iff_exists_getElem?.2 ⟨value, hvalue⟩

/-- A run of the looped graph is a run of `g` whose fed inputs follow. -/
theorem IsLooped.runFrom_eq_ok_iff {inputs : List Valuation} {state : Valuation}
    {steps : List Step} : c.runFrom state inputs = .ok steps ↔
      g.runLooped loops keepOutputs state inputs = .ok steps := by
  induction inputs generalizing state steps with
  | nil => rfl
  | cons values later ih =>
    simp only [runFrom, runLooped, except_bind_eq_ok_iff]
    simp only [looped.eval_eq_ok_iff evg evc inputsDistinct latchesDistinct, ih]

end Looped

end Run

/-- Feedback succeeds exactly where the lists fit. The fed inputs are gone, and the outputs that feed
them unless they are kept; the latches of the loops stand beside those of `g` with their initial
values. A run from any state is a run of `g` in which each fed input has the value of the latch of its
loop, and that latch takes the value of the output of its loop. -/
theorem feedback_closes_loops {g : Graph} (reachable : g.Reachable) (ins outs : List String)
    (inits : Option (List Bool)) (latches : Option (List String)) (keepOutputs : Bool) :
    ((∃ c, g.feedback ins outs inits latches keepOutputs = .ok c) ↔
      g.LoopsFit ins outs (inits.getD (List.replicate ins.length false)) (latches.getD ins)) ∧
    (∀ fault, g.feedback ins outs inits latches keepOutputs = .error fault →
      ∃ cause, fault = .circuit cause) ∧
    ∀ c, g.feedback ins outs inits latches keepOutputs = .ok c →
      (∀ n, n ∈ c.inputs ↔ n ∈ g.inputs ∧ n ∉ ins) ∧
      (∀ n, n ∈ c.latches ↔ n ∈ g.latches ∨ n ∈ latches.getD ins) ∧
      (∀ n, n ∈ c.outputs ↔ n ∈ g.outputs ∧ (keepOutputs = true ∨ n ∉ outs)) ∧
      (∀ n ∈ g.latches, c.initialState[n]? = g.initialState[n]?) ∧
      ∃ loops : List Loop, loops.map (·.input) = ins ∧ loops.map (·.output) = outs ∧
        loops.map (·.latch) = latches.getD ins ∧
        loops.map (·.init) = inits.getD (List.replicate ins.length false) ∧
        (∀ loop ∈ loops, c.initialState[loop.latch]? = some loop.init) ∧
        ∀ (inputs : List Valuation) (start : Option Valuation),
          ((∃ steps, c.simulate inputs start = .ok steps) ↔
            ∀ values ∈ inputs, ∀ n ∈ c.inputs, n ∈ values) ∧
          ∀ steps, c.simulate inputs start = .ok steps ↔
            g.runLooped loops keepOutputs (start.getD c.initialState) inputs = .ok steps := by
  have evg := reachable.wellFormed.toEvaluable
  rcases feedback_cases evg ins outs inits latches keepOutputs with
    ⟨fit, loops, c, hc, wfc, looped, hins, houts, hlatches, hinits⟩ | ⟨misfit, cause, herr⟩
  · have evc := wfc.toEvaluable
    have inputsDistinct : (loops.map (·.input)).Nodup := hins ▸ fit.ins_nodup
    have latchesDistinct : (loops.map (·.latch)).Nodup := hlatches ▸ fit.latches_nodup
    rw [hc]
    refine ⟨⟨fun _ => fit, fun _ => ⟨c, rfl⟩⟩, nofun, fun c' hc' => ?_⟩
    obtain rfl := Except.ok.inj hc'
    refine ⟨hins ▸ looped.inputs, hlatches ▸ looped.latches, houts ▸ looped.outputs, fun n hn => ?_,
      loops, hins, houts, hlatches, hinits, fun loop hloop => ?_,
      fun inputs start => ⟨evc.exists_runFrom_iff, fun steps => ?_⟩⟩
    · rw [getElem?_initialState, getElem?_initialState, looped.initialOwn n hn]
    · rw [getElem?_initialState, looped.initialLoop loop hloop]
    · exact looped.runFrom_eq_ok_iff evg evc inputsDistinct latchesDistinct
  · rw [herr]
    exact ⟨⟨nofun, fun fit => absurd fit misfit⟩,
      fun fault h => ⟨cause, (Except.error.inj h).symm⟩, nofun⟩

/-- A wire that follows itself through a latch runs without inputs. -/
theorem feedback_closes_loops_wire : ∃ g c steps, identity ["x"] = .ok g ∧
    g.feedback ["x"] ["x"] (some [true]) (some ["l"]) true = .ok c ∧
    c.initialState["l"]? = some true ∧ c.simulate [∅, ∅] none = .ok steps := by
  obtain ⟨g, hg, hin, hout, hlatch⟩ : ∃ g, identity ["x"] = .ok g ∧
      (∀ n, n ∈ g.inputs ↔ n = "x") ∧ (∀ n, n ∈ g.outputs ↔ n = "x") ∧ g.latches = ∅ :=
    ⟨_, rfl, fun n => NameMap.mem_insert_iff.trans (by simp [empty]),
      fun n => NameMap.mem_insert_iff.trans (by simp [empty]), rfl⟩
  obtain ⟨succeeds, -, closed⟩ :=
    feedback_closes_loops (.identity hg) ["x"] ["x"] (some [true]) (some ["l"]) true
  obtain ⟨c, hc⟩ := succeeds.2
    ⟨rfl, rfl, rfl, by simp [hin], by simp [hout], by simp, by simp, by simp [hlatch]⟩
  obtain ⟨inputs, -, -, -, loops, -, -, hlatches, hinits, initial, runs⟩ := closed c hc
  obtain ⟨steps, hrun⟩ := (runs [∅, ∅] none).1.2 (by simp [inputs, hin])
  cases loops with
  | nil => cases hlatches
  | cons loop loops =>
    obtain ⟨hl, -⟩ := List.cons.inj hlatches
    obtain ⟨hi, -⟩ := List.cons.inj hinits
    have := initial loop List.mem_cons_self
    exact ⟨g, c, steps, hg, hc, hl ▸ hi ▸ this, hrun⟩

end Graph

end AndInverter
