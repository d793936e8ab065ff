import AndInverter.Proofs.Graph.Cone
import AndInverter.Proofs.Graph.Pack
import AndInverter.Proofs.Graph.Reachable
import Mathlib.Data.Nat.Nth
import Mathlib.Data.Set.Function

/-! Compaction. The graph without the gates outside the cone takes the same steps, has no further gate
that could be left out, and is left as it is by another compaction. -/

namespace AndInverter

theorem Node.renumber_self (node : Node) : node.renumber (fun i => i) = node := by cases node <;> rfl

theorem Node.mem_sources_renumber {node : Node} {j : Nat} (number : Nat → Nat) (hj : j ∈ node.sources) :
    number j ∈ (node.renumber number).sources := by
  cases node with
  | zero => cases hj
  | input => cases hj
  | latch next init => simp_all [renumber, Literal.renumber]
  | and left right =>
    rcases List.mem_pair.1 hj with rfl | rfl <;> simp [renumber, Literal.renumber]

namespace Graph

variable {g h : Graph} {used : Array Bool} {i j : Nat} {node : Node}

theorem isGate_iff : g.isGate i ↔ ∃ a b, g.nodes[i]? = some (.and a b) := by
  rw [isGate]
  split
  next a b h => simp [h]
  next h => simpa using h

/-! ### The cone stays -/

theorem stays_of_used (hi : used[i]? = some true) : g.stays used i := by simp [stays, hi]

theorem used_of_stays {a b : Literal} (stay : g.stays used i) (hi : g.nodes[i]? = some (.and a b)) :
    used[i]? = some true := by
  simp only [stays, isGate, hi, Bool.not_true, Bool.false_or] at stay
  cases h : used[i]? with
  | none => simp [h] at stay
  | some value => simpa [h] using stay

section Cone
variable (marks : ∀ i : Nat, used[i]? = some true ↔ g.InCone i)
include marks

theorem stays_of_inCone (hi : g.InCone i) : g.stays used i := stays_of_used ((marks i).2 hi)

theorem Evaluable.closed (ev : g.Evaluable) : g.Closed used where
  gate i a b stay hi := by
    have cone := (marks i).1 (used_of_stays stay hi)
    exact ⟨stays_of_inCone marks (cone.source hi (by simp)),
      stays_of_inCone marks (cone.source hi (by simp))⟩
  next i next init hi := by
    obtain ⟨name, hname⟩ := ev.latch.1 ⟨next, init, hi⟩
    exact stays_of_inCone marks ((InCone.latch hname).source hi (by simp))
  output name l hl := stays_of_inCone marks (.output hl)

end Cone

/-! ### Steps -/

section Packed
variable (packed : g.IsPacked used h)
include packed

theorem IsPacked.names_eq (kind : Kind) : h.names kind = g.names kind := by
  have keys {α β : Type} {m : NameMap α} {n : NameMap β} {f : β → α}
      (image : ∀ name : String, m[name]? = (n[name]?).map f) : m.keys = n.keys := by
    refine keys_eq fun name => ?_
    rw [Std.ExtTreeMap.mem_iff_isSome_getElem?, Std.ExtTreeMap.mem_iff_isSome_getElem?, image,
      Option.isSome_map]
  cases kind with
  | input => exact keys packed.inputs
  | latch => exact keys packed.latches
  | output => exact keys packed.outputs

variable (evg : g.Evaluable) (evh : h.Evaluable)
include evg evh

theorem IsPacked.latch?_eq (name : String) : h.latch? name = (g.latch? name).map fun latch =>
    ⟨g.place used latch.id, latch.next.renumber (g.place used), latch.init⟩ := by
  cases hl : g.latch? name with
  | none =>
    have none := evg.getElem?_latches name
    rw [hl, Option.map_none] at none
    refine evh.latch?_eq_none ?_
    rw [not_mem_iff_getElem?, packed.latches, none]
    rfl
  | some latch =>
    obtain ⟨hname, hnode⟩ := evg.latch?_eq_some_iff.1 hl
    refine evh.latch?_eq_some_iff.2 ⟨by rw [packed.latches, hname]; rfl, ?_⟩
    exact packed.node latch.id _ (stays_of_not_gate hnode (by simp)) hnode

theorem IsPacked.initial_eq (name : String) : h.initial name = g.initial name := by
  rw [initial, initial, packed.latch?_eq evg evh, Option.map_map]
  rfl

theorem IsPacked.initialState_eq : h.initialState = g.initialState :=
  Std.ExtTreeMap.ext_getElem? fun name => by
    rw [getElem?_initialState, getElem?_initialState, packed.initial_eq evg evh]

omit evg evh in
/-- A node of the copy is the copy of one that stays. -/
theorem IsPacked.exists_node (hj : h.nodes[j]? = some node) : ∃ i old, g.stays used i ∧
    g.nodes[i]? = some old ∧ g.place used i = j ∧ old.renumber (g.place used) = node := by
  have hlt := packed.size ▸ lt_size hj
  obtain ⟨i, hi, stay, rfl⟩ := exists_place hlt
  have hold := Array.getElem?_eq_getElem hi
  refine ⟨i, _, stay, hold, rfl, ?_⟩
  exact Option.some.inj ((packed.node i _ stay hold).symm.trans hj)

omit evh in
/-- The same input is the first without a value, as inputs stand in the same order. -/
theorem IsPacked.firstMissing_iff (inputs : Valuation) (name : String) :
    g.FirstMissing inputs name ↔ h.FirstMissing inputs name := by
  have stays {n : String} {i : Nat} (hn : g.inputs[n]? = some i) : g.stays used i :=
    stays_of_not_gate (evg.input.2 ⟨n, hn⟩) (by simp)
  constructor
  · rintro ⟨i, hi, absent, before⟩
    refine ⟨g.place used i, by rw [packed.inputs, hi, Option.map_some], absent,
      fun other j hj hlt => ?_⟩
    rw [packed.inputs, Option.map_eq_some_iff] at hj
    obtain ⟨i', hi', rfl⟩ := hj
    exact before other i' hi' ((Nat.count_monotone _).reflect_lt hlt)
  · rintro ⟨j, hj, absent, before⟩
    rw [packed.inputs, Option.map_eq_some_iff] at hj
    obtain ⟨i, hi, rfl⟩ := hj
    refine ⟨i, hi, absent, fun other i' hi' hlt => before other (g.place used i') ?_ ?_⟩
    · rw [packed.inputs, hi', Option.map_some]
    · exact place_lt_place (stays hi') hlt

/-- Values of the nodes that stay are values of the copy. -/
theorem IsPacked.exists_isStep (closed : g.Closed used) {u : Nat → Bool} {inputs state : Valuation}
    {step : Step} (his : g.IsStep u inputs state step) : ∃ v, h.IsStep v inputs state step := by
  obtain ⟨v, hv⟩ : ∃ v : Nat → Bool, ∀ i, g.stays used i → v (g.place used i) = u i :=
    ⟨fun j => u (Nat.nth (fun i => g.stays used i = true) j),
      fun i stay => congrArg u (Nat.nth_count stay)⟩
  have under {l : Literal} (hl : g.stays used l.id) : (l.renumber (g.place used)).under v = l.under u :=
    congrArg l.apply (hv l.id hl)
  refine ⟨v, ⟨?_, fun {j left right} hj => ?_⟩, fun name hn => ?_, fun name => ?_, fun name => ?_,
    fun name => ?_⟩
  · have start : g.place used 0 = 0 := Nat.count_zero _
    exact (start ▸ hv 0 (stays_of_not_gate evg.zero (by simp))).trans his.solution.zero
  · obtain ⟨i, old, stay, hi, rfl, heq⟩ := packed.exists_node hj
    cases old with
    | and a b =>
      obtain ⟨rfl, rfl⟩ := Node.and.inj heq
      obtain ⟨stayA, stayB⟩ := closed.gate i a b stay hi
      rw [hv i stay, under stayA, under stayB, his.solution.gate hi]
    | _ => cases heq
  · rw [← his.inputs name (by rwa [Std.ExtTreeMap.mem_iff_isSome_getElem?, packed.inputs,
      Option.isSome_map, ← Std.ExtTreeMap.mem_iff_isSome_getElem?] at hn), inputValue, inputValue,
      packed.inputs, Option.map_map]
    exact Option.map_congr fun i hi => hv i (stays_of_not_gate (evg.input.2 ⟨name, hi⟩) (by simp))
  · rw [packed.initial_eq evg evh, ← his.latches, latchValue, latchValue, packed.latches,
      Option.map_map]
    refine Option.map_congr fun i hi => hv i ?_
    obtain ⟨next, init, hnode⟩ := evg.latch.2 ⟨name, hi⟩
    exact stays_of_not_gate hnode (by simp)
  · rw [his.outputs, outputValue, outputValue, packed.outputs, Option.map_map]
    exact Option.map_congr fun l hl => (under (closed.output name l hl)).symm
  · rw [his.nexts, nextValue, nextValue, packed.latch?_eq evg evh, Option.map_map]
    exact Option.map_congr fun latch hl =>
      (under (closed.next _ _ _ (evg.latch?_eq_some_iff.1 hl).2)).symm

theorem IsPacked.eval_eq (closed : g.Closed used) (inputs : Valuation) (state : Option Valuation) :
    h.eval inputs state = g.eval inputs state := by
  refine evg.eval_eq_eval evh (packed.firstMissing_iff evg inputs) fun step run => ?_
  obtain ⟨u, his⟩ := evg.eval_eq_ok_iff.1 run
  obtain ⟨v, his'⟩ := packed.exists_isStep evg evh closed his
  exact evh.eval_eq_ok_iff.2 ⟨v, his'⟩

end Packed

/-- Graphs that take the same steps have the same runs. -/
theorem runFrom_eq_runFrom (steps : ∀ inputs state, h.eval inputs state = g.eval inputs state)
    (state : Valuation) (inputs : List Valuation) :
    h.runFrom state inputs = g.runFrom state inputs := by
  induction inputs generalizing state with
  | nil => rfl
  | cons values later ih => simp only [runFrom, steps, ih]

/-! ### Compaction -/

section Compacted
variable (packed : g.IsPacked used h) (marks : ∀ i : Nat, used[i]? = some true ↔ g.InCone i)
include packed marks

/-- The cone of the copy is the copy of the cone. -/
theorem IsPacked.inCone (hi : g.InCone i) : h.InCone (g.place used i) := by
  induction hi with
  | @output name l hl =>
    exact InCone.output (l := l.renumber (g.place used)) (by rw [packed.outputs, hl, Option.map_some])
  | @latch name i hn =>
    have hat : h.latches[name]? = some (g.place used i) := by rw [packed.latches, hn, Option.map_some]
    exact .latch hat
  | source cone hi hj ih =>
    exact ih.source (packed.node _ _ (stays_of_inCone marks cone) hi) (Node.mem_sources_renumber _ hj)

/-- Every gate of the copy is in its cone. -/
theorem IsPacked.inCone_of_gate {a b : Literal} (hj : h.nodes[j]? = some (.and a b)) : h.InCone j := by
  obtain ⟨i, old, stay, hi, rfl, heq⟩ := packed.exists_node hj
  cases old with
  | and c d => exact packed.inCone marks ((marks i).1 (used_of_stays stay hi))
  | _ => cases heq

/-- The gates of the copy are the gates of the cone. -/
theorem IsPacked.bijOn_gates :
    Set.BijOn (g.place used) {i | g.isGate i ∧ g.InCone i} {j | h.isGate j} := by
  refine ⟨fun i ⟨gate, cone⟩ => ?_, fun i hi j hj => ?_, fun j hj => ?_⟩
  · obtain ⟨a, b, hi⟩ := isGate_iff.1 gate
    exact isGate_iff.2 ⟨_, _, packed.node i _ (stays_of_inCone marks cone) hi⟩
  · exact place_inj (stays_of_inCone marks hi.2) (stays_of_inCone marks hj.2)
  · obtain ⟨a, b, hgate⟩ := isGate_iff.1 hj
    obtain ⟨i, old, stay, hi, rfl, heq⟩ := packed.exists_node hgate
    cases old with
    | and c d =>
      exact ⟨i, ⟨isGate_iff.2 ⟨c, d, hi⟩, (marks i).1 (used_of_stays stay hi)⟩, rfl⟩
    | _ => cases heq

end Compacted

/-- Where every node stays the copy is the graph itself. -/
theorem IsPacked.eq_of_stays (packed : g.IsPacked used h) (wfg : g.WellFormed) (wfh : h.WellFormed)
    (all : ∀ i, g.stays used i) : h = g := by
  have same : g.place used = fun i => i := funext fun i => Nat.count_of_forall fun j _ => all j
  obtain ⟨size, node, inputs, latches, outputs⟩ := packed
  simp only [same] at size node inputs latches outputs
  refine wfh.eq_of_nodes wfg (Array.ext_getElem? fun i => ?_)
    (Std.ExtTreeMap.ext_getElem? fun name => (inputs name).trans Option.map_id')
    (Std.ExtTreeMap.ext_getElem? fun name => (latches name).trans Option.map_id')
    (Std.ExtTreeMap.ext_getElem? fun name => (outputs name).trans Option.map_id')
  cases hi : g.nodes[i]? with
  | none => rwa [Array.getElem?_eq_none_iff, size, ← Array.getElem?_eq_none_iff]
  | some old => rw [node i old (all i) hi, Node.renumber_self]

theorem WellFormed.exists_compacted (wf : g.WellFormed) :
    ∃ used h, (∀ i : Nat, used[i]? = some true ↔ g.InCone i) ∧ g.compacted = .ok h ∧ h.WellFormed ∧
      g.IsPacked used h := by
  obtain ⟨used, run, marks⟩ := wf.exists_cone
  obtain ⟨h, built, wfh, packed⟩ := exists_isPacked wf (wf.closed marks)
  exact ⟨used, h, marks, except_bind_eq_ok_iff.2 ⟨used, run, built⟩, wfh, packed⟩

/-- A graph all of whose gates are in the cone is compact. -/
theorem WellFormed.compacted_eq_self (wf : g.WellFormed)
    (all : ∀ (i : Nat) a b, g.nodes[i]? = some (.and a b) → g.InCone i) : g.compacted = .ok g := by
  obtain ⟨used, h, marks, run, wfh, packed⟩ := wf.exists_compacted
  have stays (i : Nat) : g.stays used i := by
    by_contra gone
    obtain ⟨a, b, hi⟩ := exists_gate_of_not_stays gone
    exact gone (stays_of_inCone marks (all i a b hi))
  rw [run, packed.eq_of_stays wf wfh stays]

/-- Compaction ends well. Names, initial values and runs are those of the graph, whatever the inputs
and the state at the start; the gates are those of the cone, one for each with its arguments, and all
of them are in the cone of the result; so compacting once more changes nothing. -/
theorem compacted_exact (reachable : g.Reachable) : ∃ h, g.compacted = .ok h ∧ h.Reachable ∧
    (∀ kind, h.names kind = g.names kind) ∧ h.initialState = g.initialState ∧
    (∀ inputs state, h.simulate inputs state = g.simulate inputs state) ∧
    (∀ i, h.isGate i → h.InCone i) ∧
    (∃ number : Nat → Nat, Set.BijOn number {i | g.isGate i ∧ g.InCone i} {j | h.isGate j} ∧
      ∀ (i : Nat) node, g.InCone i → g.nodes[i]? = some node →
        h.nodes[number i]? = some (node.renumber number)) ∧
    h.compacted = .ok h := by
  have wf := reachable.wellFormed
  obtain ⟨used, h, marks, run, wfh, packed⟩ := wf.exists_compacted
  have gates (i : Nat) (a b : Literal) (hi : h.nodes[i]? = some (.and a b)) : h.InCone i :=
    packed.inCone_of_gate marks hi
  have start := packed.initialState_eq wf.toEvaluable wfh.toEvaluable
  have steps := packed.eval_eq wf.toEvaluable wfh.toEvaluable (wf.closed marks)
  refine ⟨h, run, .compacted reachable run, packed.names_eq, start, fun inputs state => ?_,
    fun i gate => ?_, ⟨g.place used, packed.bijOn_gates marks, fun i node cone hi => ?_⟩,
    wfh.compacted_eq_self gates⟩
  · rw [simulate, simulate, start, runFrom_eq_runFrom steps]
  · obtain ⟨a, b, hi⟩ := isGate_iff.1 gate
    exact gates i a b hi
  · exact packed.node i node (stays_of_inCone marks cone) hi

/-- A graph with two gates, one of which no output depends on, takes the same steps without it. -/
theorem compacted_exact_unused : ∃ g, Build.graph ([.input "a", .input "b", .and ⟨1, false⟩ ⟨2, false⟩,
      .and ⟨1, false⟩ ⟨2, true⟩, .output "y" ⟨4, false⟩].forM Growth.build) = .ok g ∧ g.gateCount = 2 ∧
    ∃ h, g.compacted = .ok h ∧ (∀ kind, h.names kind = g.names kind) ∧
      (∀ inputs, h.simulate inputs none = g.simulate inputs none) ∧ h.compacted = .ok h := by
  obtain ⟨g, hg, gates⟩ : ∃ g, Build.graph ([.input "a", .input "b", .and ⟨1, false⟩ ⟨2, false⟩,
      .and ⟨1, false⟩ ⟨2, true⟩, .output "y" ⟨4, false⟩].forM Growth.build) = .ok g ∧
      g.gateCount = 2 := by
    decide +kernel
  obtain ⟨h, run, -, names, -, runs, -, -, again⟩ := compacted_exact (reachable_of_growths hg)
  exact ⟨g, hg, gates, h, run, names, fun inputs => runs inputs none, again⟩

end Graph

end AndInverter
