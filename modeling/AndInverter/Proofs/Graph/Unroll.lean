import AndInverter.Graph.Unroll
import AndInverter.Proofs.Graph.Embed
import AndInverter.Proofs.Graph.Reachable
import AndInverter.Proofs.Name

/-! Unrolling refines simulation. The copies of the graph are the steps of a run, each of which reads
the latches as the one before it left them. -/

namespace AndInverter

namespace Graph

/-- Every latch of `g` has a literal in `h`. -/
def Holds (g : Graph) (state : NameMap Literal) (h : Graph) : Prop :=
  ∀ name ∈ g.latches, ∃ l, state[name]? = some l ∧ h.Has l

/-- The names of the outputs of a step: those of the graph, and those of the latches if these are
not hidden. -/
def Exposes (g : Graph) (options : UnrollOptions) (name : String) : Prop :=
  name ∈ g.outputs ∨ options.hideLatches = false ∧ name ∈ g.latches

/-- The values `u` are step `t` of the run that the values `w` of `h` describe. -/
structure Frame (g h : Graph) (options : UnrollOptions) (last : Bool) (t : Nat) (w : Nat → Bool)
    (state : String → Option Bool) (u : Nat → Bool) : Prop where
  solution : g.Solution u
  inputs : ∀ x ∈ g.inputs, g.inputValue u x = h.inputValue w (timed x t)
  latches : ∀ l ∈ g.latches, g.latchValue u l = state l
  outputs : (options.lastOnly → last) → ∀ y ∈ g.outputs,
    h.outputValue w (timed y (t + 1)) = g.outputValue u y
  nexts : (options.lastOnly → last) → options.hideLatches = false → ∀ l ∈ g.latches,
    h.outputValue w (timed l (t + 1)) = g.nextValue u l

/-- The values `w` of `h` describe a run of `count` steps from step `t` on. -/
def Trace (g h : Graph) (options : UnrollOptions) (w : Nat → Bool) :
    (count t : Nat) → (String → Option Bool) → Prop
  | 0, _, _ => True
  | count + 1, t, state => ∃ u, g.Frame h options (count == 0) t w state u ∧
    g.Trace h options w count (t + 1) (g.nextValue u)

/-- `h` keeps the outputs of `g`. -/
def KeepsOutputs (g h : Graph) : Prop :=
  ∀ {name : String} {l : Literal}, g.outputs[name]? = some l → h.outputs[name]? = some l

theorem KeepsOutputs.outputValue {g h : Graph} (keeps : g.KeepsOutputs h) {w : Nat → Bool}
    {name : String} {value : Bool} (hv : g.outputValue w name = some value) :
    h.outputValue w name = some value := by
  obtain ⟨l, hl, rfl⟩ := Option.map_eq_some_iff.1 hv
  simp [Graph.outputValue, keeps hl]

section Frame
variable {g h k : Graph} {options : UnrollOptions} {last : Bool} {t : Nat} {w u : Nat → Bool}
  {state : String → Option Bool}

theorem Frame.mono (frame : g.Frame h options last t w state u) (ext : h.Extends k)
    (keeps : h.KeepsOutputs k) (ev : g.Evaluable) : g.Frame k options last t w state u := by
  refine ⟨frame.solution, fun x hx => ?_, frame.latches, fun hkept y hy => ?_,
    fun hkept hshow l hl => ?_⟩
  · obtain ⟨i, hi⟩ := mem_iff_exists_getElem?.1 hx
    have hin := frame.inputs x hx
    rw [hin]
    cases hn : h.inputs[timed x t]? with
    | none => simp [inputValue, hi, hn] at hin
    | some j => rw [ext.inputValue w (mem_iff_exists_getElem?.2 ⟨j, hn⟩)]
  · obtain ⟨m, hm⟩ := mem_iff_exists_getElem?.1 hy
    have hout := frame.outputs hkept y hy
    have hval : g.outputValue u y = some (m.under u) := by simp [outputValue, hm]
    rw [hval] at hout ⊢
    exact keeps.outputValue hout
  · obtain ⟨m, hm⟩ := ev.mem_latches_iff.1 hl
    have hout := frame.nexts hkept hshow l hl
    have hval : g.nextValue u l = some (m.next.under u) := by simp [nextValue, hm]
    rw [hval] at hout ⊢
    exact keeps.outputValue hout

/-- Only the values of the latches matter. -/
theorem Frame.congr {state' : String → Option Bool} (frame : g.Frame h options last t w state u)
    (same : ∀ l ∈ g.latches, state l = state' l) : g.Frame h options last t w state' u :=
  { frame with latches := fun l hl => (frame.latches l hl).trans (same l hl) }

theorem Trace.congr {count : Nat} {state' : String → Option Bool}
    (trace : g.Trace h options w count t state) (same : ∀ l ∈ g.latches, state l = state' l) :
    g.Trace h options w count t state' := by
  cases count with
  | zero => trivial
  | succ count =>
    obtain ⟨u, frame, later⟩ := trace
    exact ⟨u, frame.congr same, later⟩

end Frame

/-- The latch starts at the literal: its initial value, or an input of step `0`. -/
def StartsAt (g h : Graph) (fromInitial : Bool) (name : String) (l : Literal) : Prop :=
  if fromInitial then ∃ init, g.initial name = some init ∧ l = .ofBool init
  else ∃ id, h.inputs[timed name 0]? = some id ∧ l = .positive id

section StartsAt
variable {g h h' : Graph} {fromInitial : Bool} {name : String} {l : Literal}

theorem StartsAt.mono (starts : g.StartsAt h fromInitial name l) (ext : h.Extends h') :
    g.StartsAt h' fromInitial name l := by
  cases fromInitial with
  | true => exact starts
  | false =>
    obtain ⟨id, hid, hl⟩ := starts
    exact ⟨id, ext.input hid, hl⟩

theorem StartsAt.has (starts : g.StartsAt h fromInitial name l) (wf : h.WellFormed) : h.Has l := by
  cases fromInitial with
  | true =>
    obtain ⟨init, -, rfl⟩ := starts
    exact wf.pos
  | false =>
    obtain ⟨id, hid, rfl⟩ := starts
    exact lt_size (wf.input.2 ⟨_, hid⟩)

theorem StartsAt.under (starts : g.StartsAt h fromInitial name l) {w : Nat → Bool}
    (hw : h.Solution w) : some (l.under w) =
      if fromInitial then g.initial name else h.inputValue w (timed name 0) := by
  cases fromInitial with
  | true =>
    obtain ⟨init, hinit, rfl⟩ := starts
    simp [hinit, hw.under_ofBool]
  | false =>
    obtain ⟨id, hid, rfl⟩ := starts
    simp [inputValue, hid]

end StartsAt

end Graph

namespace Build

variable {g G : Graph} {options : UnrollOptions} {last : Bool} {t : Nat} {state : NameMap Literal}

theorem timedOutputs_runs (wf : G.WellFormed) {ls : NameMap Literal}
    (new : ∀ name ∈ ls, timed name t ∉ G.outputs)
    (has : ∀ (name : String) l, ls[name]? = some l → G.Has l) :
    (timedOutputs ls t).Runs G fun _ H => ∃ outputs : NameMap Literal,
      H = { G with outputs := outputs } ∧ ∀ (name : String) l, outputs[name]? = some l ↔
        G.outputs[name]? = some l ∨ ∃ x, name = timed x t ∧ ls[x]? = some l := by
  have entry {e : String × Literal} (he : e ∈ ls.toList) : ls[e.1]? = some e.2 :=
    Std.ExtTreeMap.mem_toList_iff_getElem?_eq_some.1 he
  have distinct : ((ls.toList.map fun e => (timed e.1 t, e.2)).map Prod.fst).Nodup := by
    rw [List.map_map]
    refine List.pairwise_map.2 ((List.pairwise_map.1 (nodup_map_fst_toList ls)).imp ?_)
    exact fun hne heq => hne (timed_inj.1 heq).1
  have absent : ∀ e ∈ ls.toList.map fun e => (timed e.1 t, e.2), e.1 ∉ G.outputs := by
    intro e he
    obtain ⟨e', he', rfl⟩ := List.mem_map.1 he
    exact new e'.1 (mem_iff_exists_getElem?.2 ⟨e'.2, entry he'⟩)
  have known : ∀ e ∈ ls.toList.map fun e => (timed e.1 t, e.2), G.Has e.2 := by
    intro e he
    obtain ⟨e', he', rfl⟩ := List.mem_map.1 he
    exact has e'.1 e'.2 (entry he')
  have runs := outputList_runs wf distinct absent known
  rw [List.forM_eq_forM, List.forM_map] at runs
  refine runs.imp fun _ H _ _ post => ?_
  obtain ⟨outputs, heq, houtputs⟩ := post
  refine ⟨outputs, heq, fun name l => ?_⟩
  rw [houtputs]
  simp only [List.mem_map, Prod.exists, Prod.mk.injEq, eq_comm (a := name),
    Std.ExtTreeMap.mem_toList_iff_getElem?_eq_some]
  constructor
  · rintro (h | ⟨x, _, hx, rfl, rfl⟩)
    · exact .inl h
    · exact .inr ⟨x, rfl, hx⟩
  · rintro (h | ⟨x, rfl, hx⟩)
    · exact .inl h
    · exact .inr ⟨x, l, hx, rfl, rfl⟩

/-- What a copy of step `t` binds the leaves to. -/
theorem bindStep_binds (ev : g.Evaluable) (holds : g.Holds state G) :
    Binds g G (bindStep t state)
      (fun k h => h.latch? = G.latch? ∧ h.outputs = G.outputs ∧
        ∀ n, n ∈ h.inputs ↔ n ∈ G.inputs ∨ ∃ x, g.InputBelow k x ∧ n = timed x t)
      (fun leaf l h => match leaf with
        | .input x => ∃ id, l = .positive id ∧ h.inputs[timed x t]? = some id
        | .latch name _ => state[name]? = some l) where
  mono leaf l h h' bound ext := by
    cases leaf with
    | input x =>
      obtain ⟨id, hl, hid⟩ := bound
      exact ⟨id, hl, ext.input hid⟩
    | latch name init => exact bound
  other k h h' hk inv same := by
    obtain ⟨hlatch, hout, hin⟩ := inv
    refine ⟨same.latch?.trans hlatch, same.outputs.trans hout, fun n => ?_⟩
    have notInput (x : String) : g.inputs[x]? ≠ some k := hk (.input x)
    simp only [same.inputs, hin, Graph.inputBelow_succ_iff, notInput, false_or]
  leaf k h leaf hleaf wf ext inv := by
    obtain ⟨hlatch, hout, hin⟩ := inv
    cases leaf with
    | input x =>
      refine (input_runs wf (timed x t)).imp fun l h' wf' _ ⟨⟨id, hl, hid⟩, hin', hlatch', hout'⟩ =>
        ⟨?_, ⟨id, hl, hid⟩, hlatch'.trans hlatch, hout'.trans hout, fun n => ?_⟩
      · rw [hl]
        exact Graph.lt_size (wf'.input.2 ⟨_, hid⟩)
      · have only (y : String) : g.inputs[y]? = some k ↔ y = x :=
          ⟨fun hy => ev.input_inj hy hleaf, fun hy => hy ▸ hleaf⟩
        simp only [hin', hin, Graph.inputBelow_succ_iff, only, or_and_right, exists_or,
          exists_eq_left]
        exact or_left_comm
    | latch name init =>
      obtain ⟨next, hl⟩ := hleaf
      obtain ⟨l, hstate, hhas⟩ := holds name (ev.mem_latches_iff.2 ⟨_, hl⟩)
      refine .of_eq (promised_eq hstate) wf (.refl h) ⟨ext.has hhas, hstate, hlatch, hout,
        fun n => ?_⟩
      have notInput (x : String) : g.inputs[x]? ≠ some k := fun hx => by
        have leaf : g.IsLeaf k (.input x) := hx
        cases isLeaf_latch ev hl leaf
      simp only [hin, Graph.inputBelow_succ_iff, notInput, false_or]

/-- The outputs of a step are given if they are to be kept, and the latches with them unless they are
hidden. -/
theorem exposeStep_runs (wf : G.WellFormed) (e : Embedding)
    (new : ∀ name, timed name (t + 1) ∉ G.outputs)
    (apart : options.hideLatches = false → ∀ name ∈ e.nexts, name ∉ e.outputs)
    (hasOutput : ∀ (name : String) l, e.outputs[name]? = some l → G.Has l)
    (hasNext : ∀ (name : String) l, e.nexts[name]? = some l → G.Has l) :
    Runs (do
      if !options.lastOnly || last then
        timedOutputs e.outputs (t + 1)
        if !options.hideLatches then
          timedOutputs e.nexts (t + 1)
      return e.nexts) G fun next H => next = e.nexts ∧ ∃ outputs : NameMap Literal,
        H = { G with outputs := outputs } ∧ ∀ (name : String) l, outputs[name]? = some l ↔
          G.outputs[name]? = some l ∨ (options.lastOnly → last) ∧ ∃ x, name = timed x (t + 1) ∧
            (e.outputs[x]? = some l ∨ options.hideLatches = false ∧ e.nexts[x]? = some l) := by
  split
  next hkept =>
    have kept : options.lastOnly → last := by
      cases h : options.lastOnly <;> simp_all
    refine (timedOutputs_runs wf (fun name _ => new name) hasOutput).bind
      fun _ h₁ wf₁ _ ⟨outputs, heq, houtputs⟩ => ?_
    split
    next hshow =>
      simp only [Bool.not_eq_eq_eq_not, Bool.not_true] at hshow
      have new' (name : String) (hname : name ∈ e.nexts) : timed name (t + 1) ∉ h₁.outputs := by
        rw [heq, mem_iff_exists_getElem?]
        rintro ⟨l, hl⟩
        rcases (houtputs _ _).1 hl with hold | ⟨x, hx, hl⟩
        · exact new name (mem_iff_exists_getElem?.2 ⟨l, hold⟩)
        · obtain ⟨rfl, -⟩ := timed_inj.1 hx
          exact apart hshow name hname (mem_iff_exists_getElem?.2 ⟨l, hl⟩)
      refine (timedOutputs_runs wf₁ new' fun name l hl => heq ▸ hasNext name l hl).bind
        fun _ h₂ wf₂ _ ⟨outputs', heq', houtputs'⟩ => ?_
      refine .pure wf₂ ⟨rfl, outputs', by rw [heq', heq], fun name l => ?_⟩
      rw [houtputs', heq, houtputs]
      simp only [eq_true kept, eq_true hshow, true_and, or_assoc, exists_or, and_or_left]
    next hhide =>
      refine .pure wf₁ ⟨rfl, outputs, heq, fun name l => ?_⟩
      simp only [Bool.not_eq_eq_eq_not, Bool.not_true, Bool.not_eq_false] at hhide
      rw [houtputs]
      simp only [eq_true kept, hhide, true_and, Bool.true_eq_false, false_and, or_false]
  next hdrop =>
    have drop : ¬ (options.lastOnly → last) := by
      cases h : options.lastOnly <;> cases hl : last <;> simp_all
    exact .pure wf ⟨rfl, G.outputs, rfl, fun name l => by simp [drop]⟩

/-- Copying one step adds its inputs and outputs, and what solves the larger graph describes the step
and what it leaves in the latches. -/
theorem unrollStep_runs (ev : g.Evaluable) (wf : G.WellFormed) (holds : g.Holds state G)
    (new : ∀ name, timed name (t + 1) ∉ G.outputs)
    (apart : options.hideLatches = false → ∀ name ∈ g.latches, name ∉ g.outputs) :
    (unrollStep g options t last state).Runs G fun next H => g.Holds next H ∧
      H.latch? = G.latch? ∧ G.KeepsOutputs H ∧
      (∀ n, n ∈ H.inputs ↔ n ∈ G.inputs ∨ ∃ x ∈ g.inputs, n = timed x t) ∧
      (∀ n, n ∈ H.outputs ↔ n ∈ G.outputs ∨
        (options.lastOnly → last) ∧ ∃ y, g.Exposes options y ∧ n = timed y (t + 1)) ∧
      ∀ w, H.Solution w → ∃ u,
        g.Frame H options last t w (fun l => (state[l]?).map (·.under w)) u ∧
        ∀ l : String, (next[l]?).map (·.under w) = g.nextValue u l := by
  refine (embed_runs ev wf (bindStep_binds ev holds) ⟨rfl, rfl, by simp⟩).bind
    fun e h wf' ext ⟨⟨hlatch, hout, hin⟩, images, embedded, leaf⟩ => ?_
  refine (exposeStep_runs wf' e (fun name => hout ▸ new name) (fun hshow name hn => ?_)
    (fun _ _ => embedded.has_output ev) fun _ _ => embedded.has_next ev).imp
    fun next H _ ext' ⟨hnext, outputs, heq, houtputs⟩ => ?_
  · rw [embedded.mem_outputs_iff]
    exact apart hshow name ((embedded.mem_nexts_iff ev).1 hn)
  subst hnext heq
  rw [hout] at houtputs
  have hasState (name : String) (hn : name ∈ g.latches) :
      ∃ l, e.nexts[name]? = some l ∧ h.Has l := by
    obtain ⟨l, hl⟩ := mem_iff_exists_getElem?.1 ((embedded.mem_nexts_iff ev).2 hn)
    exact ⟨l, hl, embedded.has_next ev hl⟩
  have hin' (n : String) : n ∈ h.inputs ↔ n ∈ G.inputs ∨ ∃ x ∈ g.inputs, n = timed x t := by
    simp only [hin, Graph.inputBelow_size_iff ev]
  refine ⟨hasState, hlatch, fun hl => (houtputs _ _).2 (.inl hl), hin', fun n => ?_,
    fun w hw => ?_⟩
  · simp only [mem_iff_exists_getElem?, houtputs, exists_or]
    refine or_congr_right ⟨?_, ?_⟩
    · rintro ⟨l, hkept, x, rfl, hl | ⟨hshow, hl⟩⟩
      · have hx := embedded.mem_outputs_iff.1 (mem_iff_exists_getElem?.2 ⟨l, hl⟩)
        exact ⟨hkept, x, .inl hx, rfl⟩
      · have hx := (embedded.mem_nexts_iff ev).1 (mem_iff_exists_getElem?.2 ⟨l, hl⟩)
        exact ⟨hkept, x, .inr ⟨hshow, hx⟩, rfl⟩
    · rintro ⟨hkept, y, hy | ⟨hshow, hy⟩, rfl⟩
      · obtain ⟨l, hl⟩ := mem_iff_exists_getElem?.1 (embedded.mem_outputs_iff.2 hy)
        exact ⟨l, hkept, y, rfl, .inl hl⟩
      · obtain ⟨l, hl⟩ := mem_iff_exists_getElem?.1 ((embedded.mem_nexts_iff ev).2 hy)
        exact ⟨l, hkept, y, rfl, .inr ⟨hshow, hl⟩⟩
  · refine ⟨fun i => (images i).under w, ⟨embedded.solution w (ext'.solution hw), fun x hx => ?_,
      fun l hl => ?_, fun hkept y hy => ?_, fun hkept hshow l hl => ?_⟩,
      fun l => (embedded.nextValue w l).symm⟩
    · obtain ⟨i, hi⟩ := mem_iff_exists_getElem?.1 hx
      obtain ⟨id, himage, hid⟩ := leaf i (.input x) hi
      simp [Graph.inputValue, hi, hid, himage]
    · obtain ⟨latch, hlatch⟩ := ev.mem_latches_iff.1 hl
      have hstate := leaf latch.id (.latch l latch.init) ⟨latch.next, hlatch⟩
      simp [Graph.latchValue, (ev.latch?_eq_some_iff.1 hlatch).1, hstate]
    · obtain ⟨m, hm⟩ := mem_iff_exists_getElem?.1 (embedded.mem_outputs_iff.2 hy)
      have hy' := (houtputs (timed y (t + 1)) m).2 (.inr ⟨hkept, y, rfl, .inl hm⟩)
      rw [embedded.outputValue, Graph.outputValue, hy', hm]
    · obtain ⟨m, hm⟩ := mem_iff_exists_getElem?.1 ((embedded.mem_nexts_iff ev).2 hl)
      have hl' := (houtputs (timed l (t + 1)) m).2 (.inr ⟨hkept, l, rfl, .inr ⟨hshow, hm⟩⟩)
      rw [embedded.nextValue, Graph.outputValue, hl', hm]

/-- Copying steps one after the other describes a run. -/
theorem unrollFrom_runs (ev : g.Evaluable)
    (apart : options.hideLatches = false → ∀ name ∈ g.latches, name ∉ g.outputs) (count : Nat) :
    ∀ {G : Graph} {t : Nat} {state : NameMap Literal}, G.WellFormed → g.Holds state G →
      (∀ name, ∀ s > t, timed name s ∉ G.outputs) →
      (unrollFrom g options count t state).Runs G fun _ H => H.latch? = G.latch? ∧
        G.KeepsOutputs H ∧
        (∀ n, n ∈ H.inputs ↔ n ∈ G.inputs ∨ ∃ s < count, ∃ x ∈ g.inputs, n = timed x (t + s)) ∧
        (∀ n, n ∈ H.outputs ↔ n ∈ G.outputs ∨ ∃ s < count, (options.lastOnly → s + 1 = count) ∧
          ∃ y, g.Exposes options y ∧ n = timed y (t + s + 1)) ∧
        ∀ w, H.Solution w → g.Trace H options w count t fun l => (state[l]?).map (·.under w) := by
  induction count with
  | zero =>
    intro G t state wf _ _
    exact .pure wf ⟨rfl, id, by simp, by simp, fun w _ => trivial⟩
  | succ count ih =>
    intro G t state wf holds new
    refine (unrollStep_runs ev wf holds (fun name => new name (t + 1) (by omega)) apart).bind
      fun next h wf' _ ⟨holds', hlatch, keeps, hin, hout, values⟩ => ?_
    have new' (name : String) (s : Nat) (hs : s > t + 1) : timed name s ∉ h.outputs := by
      rw [hout]
      rintro (hold | ⟨-, y, -, heq⟩)
      · exact new name s (by omega) hold
      · have := (timed_inj.1 heq).2
        omega
    refine (ih wf' holds' new').imp
      fun _ H wf'' ext ⟨hlatch', keeps', hin', hout', values'⟩ =>
      ⟨hlatch'.trans hlatch, fun hl => keeps' (keeps hl), fun n => ?_, fun n => ?_, fun w hw => ?_⟩
    · rw [hin', hin, or_assoc, Nat.exists_lt_succ_left]
      simp only [Nat.add_zero, ← Nat.add_assoc, Nat.add_right_comm t 1]
    · rw [hout', hout, or_assoc, Nat.exists_lt_succ_left]
      simp only [Nat.add_zero, Nat.zero_add, ← Nat.add_assoc, Nat.add_right_comm t 1, beq_iff_eq,
        Nat.add_right_cancel_iff, Nat.right_eq_add]
    · obtain ⟨u, frame, hnext⟩ := values w (ext.solution hw)
      exact ⟨u, frame.mono ext keeps' ev, (values' w hw).congr fun l _ => hnext l⟩

/-- The latches start at their initial values or at inputs of step `0`. -/
theorem startState_runs (ev : g.Evaluable) (wf : G.WellFormed) (fromInitial : Bool) :
    (startState g fromInitial).Runs G fun state H => g.Holds state H ∧ H.latch? = G.latch? ∧
      H.outputs = G.outputs ∧
      (∀ n, n ∈ H.inputs ↔ n ∈ G.inputs ∨
        fromInitial = false ∧ ∃ l ∈ g.latches, n = timed l 0) ∧
      ∀ w, H.Solution w → ∀ l ∈ g.latches, (state[l]?).map (·.under w) =
        if fromInitial then g.initial l else H.inputValue w (timed l 0) := by
  refine (Spec.mapM (fun done h => h.latch? = G.latch? ∧ h.outputs = G.outputs ∧
      ∀ n, n ∈ h.inputs ↔ n ∈ G.inputs ∨
        fromInitial = false ∧ ∃ x ∈ done, n = timed x.1 0)
    (fun x b h => b.1 = x.1 ∧ g.StartsAt h fromInitial x.1 b.2)
    (fun x b h h' post ext => ?_)
    (fun done x rest h hx wf' ext inv => ?_) wf ⟨rfl, rfl, by simp⟩).bind
    fun entries H wf' ext inv => ?_
  · exact ⟨post.1, post.2.mono ext⟩
  · obtain ⟨hlatch, hout, hin⟩ := inv
    have hname : g.latches[x.1]? = some x.2 :=
      Std.ExtTreeMap.mem_toList_iff_getElem?_eq_some.1 (by simp [hx])
    cases fromInitial with
    | true =>
      obtain ⟨next, init, hnode⟩ := ev.latch.2 ⟨x.1, hname⟩
      have hinit : g.initial x.1 = some init := by
        have hl := ev.latch?_eq_some_iff (l := ⟨x.2, next, init⟩).2 ⟨hname, hnode⟩
        simp [Graph.initial, hl]
      exact .pure wf' ⟨⟨hlatch, hout, by simpa using hin⟩, rfl, init, hinit, by simp [hnode]⟩
    | false =>
      refine (input_runs wf' (timed x.1 0)).bind
        fun l h' wf'' _ post => ?_
      obtain ⟨⟨id, hl, hid⟩, hin', hlatch', hout'⟩ := post
      refine .pure wf'' ⟨⟨hlatch'.trans hlatch, hout'.trans hout, fun n => ?_⟩, rfl, id, hid, hl⟩
      rw [hin', hin]
      simp only [true_and, List.mem_append, List.mem_singleton, or_and_right, exists_or,
        exists_eq_left]
      exact or_rotate
  · obtain ⟨⟨hlatch, hout, hin⟩, posts⟩ := inv
    have lookup (l : String) (hl : l ∈ g.latches) : ∃ m, (NameMap.ofPairs entries)[l]? = some m ∧
        g.StartsAt H fromInitial l m := by
      obtain ⟨i, hi⟩ := mem_iff_exists_getElem?.1 hl
      obtain ⟨m, hm, -, starts⟩ :=
        NameMap.exists_getElem?_ofPairs posts (fun _ _ post => post.1) hi
      exact ⟨m, hm, starts⟩
    refine .pure wf' ⟨fun l hl => ?_, hlatch, hout, fun n => ?_, fun w hw l hl => ?_⟩
    · obtain ⟨m, hm, starts⟩ := lookup l hl
      exact ⟨m, hm, starts.has wf'⟩
    · rw [hin]
      simp only [Prod.exists, Std.ExtTreeMap.mem_toList_iff_getElem?_eq_some,
        mem_iff_exists_getElem? (m := g.latches), exists_and_right]
    · obtain ⟨m, hm, starts⟩ := lookup l hl
      rw [hm, Option.map_some, starts.under hw]

end Build

namespace Graph

/-! ### Runs -/

/-- The valuation `ρ` gives the inputs of each step and the start of each latch their values, under
names with the time. A latch without a value in `start` has its initial value. -/
structure Stamped (g : Graph) (fromInitial : Bool) (inputs : List Valuation) (start ρ : Valuation) :
    Prop where
  inputs : ∀ (t : Nat) values, inputs[t]? = some values → ∀ x ∈ g.inputs,
    ρ[timed x t]? = values[x]?
  start : fromInitial = false → ∀ l ∈ g.latches,
    ρ[timed l 0]? = (g.initial l).map fun init => (start[l]?).getD init

variable {g h : Graph} {options : UnrollOptions} {w : Nat → Bool}

/-- A trace is a run of the graph, and its outputs are those of the steps. -/
theorem Trace.exists_runFrom (ev : g.Evaluable) {inputs : List Valuation} {t : Nat}
    {state : String → Option Bool} {σ : Valuation}
    (trace : g.Trace h options w inputs.length t state)
    (hin : ∀ s values, inputs[s]? = some values → ∀ x ∈ g.inputs,
      h.inputValue w (timed x (t + s)) = values[x]?)
    (hstate : ∀ l ∈ g.latches, state l = (g.initial l).map fun init => (σ[l]?).getD init) :
    ∃ steps, g.runFrom σ inputs = .ok steps ∧ ∀ s step, steps[s]? = some step →
      (options.lastOnly → s + 1 = inputs.length) →
      (∀ y ∈ g.outputs, h.outputValue w (timed y (t + s + 1)) = step.outputs[y]?) ∧
      (options.hideLatches = false → ∀ l ∈ g.latches,
        h.outputValue w (timed l (t + s + 1)) = step.latches[l]?) := by
  induction inputs generalizing t state σ with
  | nil => exact ⟨[], rfl, by simp⟩
  | cons values later ih =>
    obtain ⟨u, frame, rest⟩ := trace
    have hlatch (name : String) : g.latchValue u name =
        (g.initial name).map fun init => (σ[name]?).getD init := by
      by_cases hn : name ∈ g.latches
      · rw [frame.latches name hn, hstate name hn]
      · simp [latchValue, initial, not_mem_iff_getElem?.1 hn, ev.latch?_eq_none hn]
    obtain ⟨step, hok, hstep⟩ : ∃ step, g.eval values (some σ) = .ok step ∧
        g.IsStep u values σ step :=
      ev.exists_eval_of_solution frame.solution
        (fun x hx => (frame.inputs x hx).trans (hin 0 values rfl x hx)) hlatch
    obtain ⟨steps, hrun, hsteps⟩ := ih rest
      (fun s values' hs x hx => by
        rw [Nat.add_right_comm]
        exact hin (s + 1) values' (by simpa using hs) x hx)
      (fun l hl => by
        rw [hstep.nexts]
        obtain ⟨latch, hlatch⟩ := ev.mem_latches_iff.1 hl
        simp [nextValue, initial, hlatch])
    refine ⟨step :: steps, by simp [runFrom, hok, hrun], fun s step' hs hkept => ?_⟩
    cases s with
    | zero =>
      obtain rfl : step = step' := by simpa using hs
      have last : options.lastOnly → (later.length == 0) = true := fun ho => by
        have := hkept ho
        rw [List.length_cons] at this
        simp only [beq_iff_eq]
        omega
      exact ⟨fun y hy => (frame.outputs last y hy).trans (hstep.outputs y).symm,
        fun hshow l hl => (frame.nexts last hshow l hl).trans (hstep.nexts l).symm⟩
    | succ s =>
      have := hsteps s step' (by simpa using hs) fun ho => by simpa using hkept ho
      rwa [Nat.add_right_comm t 1 s] at this

/-- The latch that stands in the way of unrolling: as an output of the same name where latches are
shown, or as an input where they start there. -/
def obstacle (g : Graph) (options : UnrollOptions) : Option CircuitRefusal :=
  ((if options.hideLatches then none else g.latches.firstShared g.outputs).map .latchIsOutput).or
    ((if options.fromInitial then none else g.latches.firstShared g.inputs).map .latchIsInput)

theorem unroll_eq (g : Graph) (horizon : Nat) (options : UnrollOptions) :
    g.unroll horizon options = match g.obstacle options with
      | some cause => .error (.circuit cause)
      | none => Build.graph (do
        let state ← Build.startState g options.fromInitial
        discard (Build.unrollFrom g options horizon 0 state)) := by
  cases hshow : options.hideLatches <;> cases hfrom : options.fromInitial <;>
    cases hout : g.latches.firstShared g.outputs <;>
    cases hin : g.latches.firstShared g.inputs <;>
    simp [unroll, obstacle, hshow, hfrom, hout, hin]

theorem obstacle_of_unroll {g U : Graph} {horizon : Nat} {options : UnrollOptions}
    (h : g.unroll horizon options = .ok U) : g.obstacle options = none := by
  cases hob : g.obstacle options with
  | none => rfl
  | some cause => simp [unroll_eq, hob] at h

theorem obstacle_eq_none_iff {g : Graph} {options : UnrollOptions} :
    g.obstacle options = none ↔
      (options.hideLatches = false → ∀ name ∈ g.latches, name ∉ g.outputs) ∧
      (options.fromInitial = false → ∀ name ∈ g.latches, name ∉ g.inputs) := by
  rw [← NameMap.firstShared_eq_none_iff, ← NameMap.firstShared_eq_none_iff]
  cases hshow : options.hideLatches <;> cases hfrom : options.fromInitial <;>
    simp [obstacle, hshow, hfrom, Option.or_eq_none_iff]

/-- `U` has the names of all steps, and its solutions describe runs. -/
structure IsUnrolling (g : Graph) (options : UnrollOptions) (horizon : Nat) (U : Graph) : Prop where
  latches : ∀ name, name ∉ U.latches
  inputs : ∀ n, n ∈ U.inputs ↔ (∃ t < horizon, ∃ x ∈ g.inputs, n = timed x t) ∨
    options.fromInitial = false ∧ ∃ l ∈ g.latches, n = timed l 0
  outputs : ∀ n, n ∈ U.outputs ↔ ∃ t < horizon, (options.lastOnly → t + 1 = horizon) ∧
    ∃ y, g.Exposes options y ∧ n = timed y (t + 1)
  trace : ∀ w, U.Solution w → g.Trace U options w horizon 0 fun l =>
    if options.fromInitial then g.initial l else U.inputValue w (timed l 0)

theorem Evaluable.exists_unroll (ev : g.Evaluable) (free : g.obstacle options = none)
    (horizon : Nat) : ∃ U, g.unroll horizon options = .ok U ∧ U.WellFormed ∧
      g.IsUnrolling options horizon U := by
  have run : Build.Runs (do
      let state ← Build.startState g options.fromInitial
      discard (Build.unrollFrom g options horizon 0 state)) .empty fun _ U =>
      g.IsUnrolling options horizon U := by
    refine (Build.startState_runs ev wellFormed_empty options.fromInitial).bind
      fun state h wf _ ⟨holds, hlatch, hout, hin, hstart⟩ => ?_
    refine ((Build.unrollFrom_runs ev (obstacle_eq_none_iff.1 free).1 horizon (t := 0) wf holds
      (fun name s _ => by simp [hout, Graph.empty])).imp
      fun _ U wf' ext ⟨hlatch', _, hin', hout', trace⟩ => ?_).discard
    refine ⟨fun name hname => ?_, fun n => ?_, fun n => ?_, fun w hw => ?_⟩
    · obtain ⟨l, hl⟩ := wf'.mem_latches_iff.1 hname
      rw [hlatch', hlatch] at hl
      simp [Graph.latch?, Graph.empty] at hl
    · rw [hin', hin, or_comm]
      simp [Graph.empty]
    · rw [hout', hout]
      simp [Graph.empty]
    · refine (trace w hw).congr fun l hl => ?_
      rw [hstart w (ext.solution hw) l hl]
      cases hfrom : options.fromInitial with
      | true => rfl
      | false =>
        have hmem : timed l 0 ∈ h.inputs := (hin _).2 (.inr ⟨hfrom, l, hl, rfl⟩)
        simp [ext.inputValue w hmem]
  obtain ⟨U, hrun, wf, unrolling⟩ := run.exists_graph
  exact ⟨U, by simp [unroll_eq, free, hrun], wf, unrolling⟩

/-- Values for all steps can be put together, as no two names with a time are the same. -/
theorem IsUnrolling.exists_stamped {U : Graph} {inputs : List Valuation}
    (unrolling : g.IsUnrolling options inputs.length U)
    (apart : options.fromInitial = false → ∀ l ∈ g.latches, l ∉ g.inputs) (start : Valuation) :
    ∃ ρ, g.Stamped options.fromInitial inputs start ρ := by
  classical
  -- An input of `U` is an input of one step, unless it is the start of a latch.
  let value (n : String) : Option Bool :=
    if h : ∃ p : String × Nat, p.1 ∈ g.inputs ∧ n = timed p.1 p.2 then
      inputs[h.choose.2]?.bind (·[h.choose.1]?)
    else if h : ∃ l, n = timed l 0 then
      (g.initial h.choose).map fun init => (start[h.choose]?).getD init
    else none
  have hρ {n : String} (hn : n ∈ U.inputs) :
      (U.inputs.filterMap fun n _ => value n)[n]? = value n := by
    obtain ⟨i, hi⟩ := mem_iff_exists_getElem?.1 hn
    simp [hi]
  refine ⟨U.inputs.filterMap fun n _ => value n, fun t values ht x hx => ?_, fun hfrom l hl => ?_⟩
  · have lt : t < inputs.length := (List.getElem?_eq_some_iff.1 ht).1
    rw [hρ ((unrolling.inputs _).2 (.inl ⟨t, lt, x, hx, rfl⟩))]
    have h : ∃ p : String × Nat, p.1 ∈ g.inputs ∧ timed x t = timed p.1 p.2 := ⟨(x, t), hx, rfl⟩
    have hp : h.choose = (x, t) := by
      obtain ⟨hx', ht'⟩ := timed_inj.1 h.choose_spec.2
      exact Prod.ext hx'.symm ht'.symm
    simp only [value, dif_pos h, hp, ht, Option.bind_some]
  · rw [hρ ((unrolling.inputs _).2 (.inr ⟨hfrom, l, hl, rfl⟩))]
    have no : ¬ ∃ p : String × Nat, p.1 ∈ g.inputs ∧ timed l 0 = timed p.1 p.2 := by
      rintro ⟨⟨x, t⟩, hx, heq⟩
      exact apart hfrom l hl ((timed_inj.1 heq).1 ▸ hx)
    have h : ∃ l', timed l 0 = timed l' 0 := ⟨l, rfl⟩
    have hl' := (timed_inj.1 h.choose_spec).1
    simp only [value, dif_neg no, dif_pos h, ← hl']

section Refine
variable {U : Graph} {inputs : List Valuation} {start ρ : Valuation}

/-- The unrolled graph has all its inputs exactly where every step has. -/
theorem IsUnrolling.exists_eval_iff (unrolling : g.IsUnrolling options inputs.length U)
    (evU : U.Evaluable) (ev : g.Evaluable) (stamped : g.Stamped options.fromInitial inputs start ρ) :
    (∃ step, U.eval ρ none = .ok step) ↔ ∀ values ∈ inputs, ∀ x ∈ g.inputs, x ∈ values := by
  rw [evU.exists_eval_ok_iff]
  constructor
  · intro h values hv x hx
    obtain ⟨t, ht⟩ := List.mem_iff_getElem?.1 hv
    have hmem := h _ ((unrolling.inputs _).2
      (.inl ⟨t, (List.getElem?_eq_some_iff.1 ht).1, x, hx, rfl⟩))
    rwa [Std.ExtTreeMap.mem_iff_isSome_getElem?, stamped.inputs t values ht x hx,
      ← Std.ExtTreeMap.mem_iff_isSome_getElem?] at hmem
  · intro h n hn
    rcases (unrolling.inputs n).1 hn with ⟨t, lt, x, hx, rfl⟩ | ⟨hfrom, l, hl, rfl⟩
    · have ht := List.getElem?_eq_getElem lt
      rw [Std.ExtTreeMap.mem_iff_isSome_getElem?, stamped.inputs t _ ht x hx,
        ← Std.ExtTreeMap.mem_iff_isSome_getElem?]
      exact h _ (List.getElem_mem lt) x hx
    · obtain ⟨latch, hlatch⟩ := ev.mem_latches_iff.1 hl
      rw [Std.ExtTreeMap.mem_iff_isSome_getElem?, stamped.start hfrom l hl]
      simp [initial, hlatch]

/-- A step of the unrolled graph is a run of the graph. -/
theorem IsUnrolling.exists_simulate (unrolling : g.IsUnrolling options inputs.length U)
    (evU : U.Evaluable) (ev : g.Evaluable) (stamped : g.Stamped options.fromInitial inputs start ρ)
    {step : Step} (hstep : U.eval ρ none = .ok step) :
    ∃ steps, g.simulate inputs (if options.fromInitial then none else some start) = .ok steps ∧
      ∀ t s, steps[t]? = some s → (options.lastOnly → t + 1 = inputs.length) →
        (∀ y ∈ g.outputs, step.outputs[timed y (t + 1)]? = s.outputs[y]?) ∧
        (options.hideLatches = false → ∀ l ∈ g.latches,
          step.outputs[timed l (t + 1)]? = s.latches[l]?) := by
  obtain ⟨w, hw⟩ := evU.eval_eq_ok_iff.1 hstep
  have hin (n : String) (hn : n ∈ U.inputs) : U.inputValue w n = ρ[n]? := hw.inputs n hn
  obtain ⟨steps, hrun, hsteps⟩ := (unrolling.trace w hw.solution).exists_runFrom ev
    (σ := (if options.fromInitial then none else some start).getD g.initialState)
    (fun t values ht x hx => by
      have lt := (List.getElem?_eq_some_iff.1 ht).1
      rw [Nat.zero_add, hin _ ((unrolling.inputs _).2 (.inl ⟨t, lt, x, hx, rfl⟩)),
        stamped.inputs t values ht x hx])
    (fun l hl => by
      cases hfrom : options.fromInitial with
      | true => cases hinit : g.initial l <;> simp [getElem?_initialState, hinit]
      | false =>
        have hmem := (unrolling.inputs _).2 (.inr ⟨hfrom, l, hl, rfl⟩)
        simp [hin _ hmem, stamped.start hfrom l hl])
  refine ⟨steps, hrun, fun t s ht hkept => ?_⟩
  have := hsteps t s ht hkept
  simpa only [hw.outputs, Nat.zero_add] using this

/-- Unrolling refines simulation. It fails exactly where a latch to be shown has the name of an
output, or a latch to be started from an input the name of an input. Otherwise the unrolled graph has
no latches and just the inputs and outputs of the steps. Given values for all steps, one step of it
gives what the steps of the run give. -/
theorem unroll_refines_simulate {g : Graph} (reachable : g.Reachable) (horizon : Nat)
    (options : UnrollOptions) :
    ((∃ fault, g.unroll horizon options = .error fault) ↔
      (options.hideLatches = false ∧ ∃ name ∈ g.latches, name ∈ g.outputs) ∨
      (options.fromInitial = false ∧ ∃ name ∈ g.latches, name ∈ g.inputs)) ∧
    (∀ fault, g.unroll horizon options = .error fault → ∃ cause, fault = .circuit cause) ∧
    ∀ U, g.unroll horizon options = .ok U →
      (∀ name, name ∉ U.latches) ∧
      (∀ n, n ∈ U.inputs ↔ (∃ t < horizon, ∃ x ∈ g.inputs, n = timed x t) ∨
        options.fromInitial = false ∧ ∃ l ∈ g.latches, n = timed l 0) ∧
      (∀ n, n ∈ U.outputs ↔ ∃ t < horizon, (options.lastOnly → t + 1 = horizon) ∧
        ∃ y, (y ∈ g.outputs ∨ options.hideLatches = false ∧ y ∈ g.latches) ∧
          n = timed y (t + 1)) ∧
      ∀ (inputs : List Valuation) (start : Valuation), inputs.length = horizon →
        (∃ ρ, g.Stamped options.fromInitial inputs start ρ) ∧
        ∀ ρ, g.Stamped options.fromInitial inputs start ρ →
          ((∃ step, U.eval ρ none = .ok step) ↔ ∀ values ∈ inputs, ∀ x ∈ g.inputs, x ∈ values) ∧
          ((∃ steps, g.simulate inputs (if options.fromInitial then none else some start) =
            .ok steps) ↔ ∀ values ∈ inputs, ∀ x ∈ g.inputs, x ∈ values) ∧
          ∀ step steps, U.eval ρ none = .ok step →
            g.simulate inputs (if options.fromInitial then none else some start) = .ok steps →
            steps.length = horizon ∧
            ∀ t s, steps[t]? = some s → (options.lastOnly → t + 1 = horizon) →
              (∀ y ∈ g.outputs, step.outputs[timed y (t + 1)]? = s.outputs[y]?) ∧
              (options.hideLatches = false → ∀ l ∈ g.latches,
                step.outputs[timed l (t + 1)]? = s.latches[l]?) := by
  have ev := reachable.wellFormed.toEvaluable
  have refused : g.obstacle options = none ↔
      ¬ ((options.hideLatches = false ∧ ∃ name ∈ g.latches, name ∈ g.outputs) ∨
        (options.fromInitial = false ∧ ∃ name ∈ g.latches, name ∈ g.inputs)) := by
    simp only [obstacle_eq_none_iff, not_or, not_and, not_exists]
  cases hob : g.obstacle options with
  | some cause =>
    have herr : g.unroll horizon options = .error (.circuit cause) := by rw [unroll_eq, hob]
    have shared := Classical.byContradiction fun h => by simpa [hob] using refused.2 h
    rw [herr]
    exact ⟨⟨fun _ => shared, fun _ => ⟨_, rfl⟩⟩,
      fun fault h => ⟨cause, (Except.error.inj h).symm⟩, nofun⟩
  | none =>
    obtain ⟨U, hU, wfU, unrolling⟩ := ev.exists_unroll hob horizon
    rw [hU]
    refine ⟨by simpa using refused.1 hob, nofun, fun U' hU' => ?_⟩
    obtain rfl := Except.ok.inj hU'
    refine ⟨unrolling.latches, unrolling.inputs, unrolling.outputs, fun inputs start hlen => ?_⟩
    subst hlen
    refine ⟨unrolling.exists_stamped (obstacle_eq_none_iff.1 hob).2 start, fun ρ stamped => ?_⟩
    have complete := unrolling.exists_eval_iff wfU.toEvaluable ev stamped
    refine ⟨complete, ⟨fun ⟨steps, hrun⟩ => ev.mem_of_runFrom hrun, fun h => ?_⟩,
      fun step steps hstep hrun => ?_⟩
    · obtain ⟨step, hstep⟩ := complete.2 h
      obtain ⟨steps, hrun, -⟩ := unrolling.exists_simulate wfU.toEvaluable ev stamped hstep
      exact ⟨steps, hrun⟩
    · obtain ⟨steps', hrun', hsteps⟩ := unrolling.exists_simulate wfU.toEvaluable ev stamped hstep
      obtain rfl := Except.ok.inj (hrun.symm.trans hrun')
      exact ⟨length_of_runFrom hrun, hsteps⟩

end Refine

/-- Two steps of a latch that toggles through a gate, from a start that is given. -/
theorem unroll_refines_simulate_toggle : ∃ g U ρ step,
    Build.graph ([.input "a", .latch "l" false, .and (.positive 1) (.positive 2),
      .setNext "l" (-.positive 3), .output "y" (.positive 3)].forM Growth.build) = .ok g ∧
    g.unroll 2 ⟨false, false, false⟩ = .ok U ∧
    g.Stamped false [.ofPairs [("a", true)], .ofPairs [("a", true)]] (.ofPairs [("l", true)]) ρ ∧
    U.eval ρ none = .ok step ∧
    step.outputs[timed "y" 1]? = some true ∧ step.outputs[timed "l" 1]? = some false ∧
    step.outputs[timed "y" 2]? = some false ∧ step.outputs[timed "l" 2]? = some true := by
  let inputs : List Valuation := [.ofPairs [("a", true)], .ofPairs [("a", true)]]
  let start : Valuation := .ofPairs [("l", true)]
  obtain ⟨g, hg, hin, hlatch, hout, steps, run, outs, nexts⟩ : ∃ g,
      Build.graph ([.input "a", .latch "l" false, .and (.positive 1) (.positive 2),
        .setNext "l" (-.positive 3), .output "y" (.positive 3)].forM Growth.build) = .ok g ∧
      g.inputs.keys = ["a"] ∧ g.latches.keys = ["l"] ∧ g.outputs.keys = ["y"] ∧
      ∃ steps, g.simulate inputs (some start) = .ok steps ∧
        steps.map (·.outputs["y"]?) = [some true, some false] ∧
        steps.map (·.latches["l"]?) = [some false, some true] := by
    decide +kernel
  have input (n : String) : n ∈ g.inputs ↔ n = "a" := by
    rw [← Std.ExtTreeMap.mem_keys, hin, List.mem_singleton]
  have latch (n : String) : n ∈ g.latches ↔ n = "l" := by
    rw [← Std.ExtTreeMap.mem_keys, hlatch, List.mem_singleton]
  have output (n : String) : n ∈ g.outputs ↔ n = "y" := by
    rw [← Std.ExtTreeMap.mem_keys, hout, List.mem_singleton]
  obtain ⟨fails, -, unrolled⟩ :=
    unroll_refines_simulate (reachable_of_growths hg) 2 ⟨false, false, false⟩
  cases hU : g.unroll 2 ⟨false, false, false⟩ with
  | error fault => simpa [input, latch, output] using fails.1 ⟨fault, hU⟩
  | ok U =>
    obtain ⟨-, -, -, refines⟩ := unrolled U hU
    obtain ⟨⟨ρ, stamped⟩, refines⟩ := refines inputs start rfl
    obtain ⟨complete, simulates, shows⟩ := refines ρ stamped
    obtain ⟨step, hstep⟩ := complete.2 (simulates.1 ⟨steps, run⟩)
    obtain ⟨-, shown⟩ := shows step steps hstep run
    -- What the unrolled graph shows for a step is what the run gives in it.
    have y {t : Nat} {value : Option Bool} (h : (steps.map (·.outputs["y"]?))[t]? = some value) :
        step.outputs[timed "y" (t + 1)]? = value := by
      rw [List.getElem?_map, Option.map_eq_some_iff] at h
      obtain ⟨s, hs, rfl⟩ := h
      exact (shown t s hs nofun).1 "y" ((output _).2 rfl)
    have l {t : Nat} {value : Option Bool} (h : (steps.map (·.latches["l"]?))[t]? = some value) :
        step.outputs[timed "l" (t + 1)]? = value := by
      rw [List.getElem?_map, Option.map_eq_some_iff] at h
      obtain ⟨s, hs, rfl⟩ := h
      exact (shown t s hs nofun).2 rfl "l" ((latch _).2 rfl)
    rw [outs] at y
    rw [nexts] at l
    exact ⟨g, U, ρ, step, hg, hU, stamped, hstep, y (t := 0) rfl, l (t := 0) rfl, y (t := 1) rfl,
      l (t := 1) rfl⟩

end Graph

end AndInverter
