import AndInverter.Proofs.Aiger.Reread

/-! Reading what was written for a graph that was read. The order of the gates is stable: the nodes of
a graph that was read stand by level, and gates of one level in the order in which they were. So each
node gets its own number again. -/

namespace AndInverter.Aiger

/-- The node of a variable. -/
def Definitions.place (defs : Definitions) (var : Nat) : Nat := (defs.literal (.positive var)).id

theorem Definitions.literal_id (defs : Definitions) (l : Literal) :
    (defs.literal l).id = defs.place l.id := by
  rcases l with ⟨id, _ | _⟩ <;> rfl

/-! ### Places -/

namespace Laid

variable {f : File} {defs : Definitions} {b : Graph} (laid : Laid f f.gateOrder defs b)
include laid

/-- Gates are placed after the leaves, in their order. -/
theorem map_place :
    f.gateOrder.map defs.place = List.range' f.leaves.length f.gateOrder.length := by
  refine List.ext_getElem (by simp) fun k hk _ => ?_
  rw [List.length_map] at hk
  have hat : (f.leaves ++ f.gateOrder)[f.leaves.length + k]? = some f.gateOrder[k] := by
    rw [List.getElem?_append_right (Nat.le_add_right _ _), Nat.add_sub_cancel_left,
      List.getElem?_eq_getElem hk]
  have place := Definitions.literal_eq laid.places (l := .positive f.gateOrder[k]) hat
  simp [Definitions.place, place]

/-- The gate of a variable is that of its place, with the places of the arguments. -/
theorem exists_gate_place {var : Nat} {gate : GateLine} (hvar : var ∈ f.gateOrder)
    (hgate : f.gateMap[var]? = some gate) :
    ∃ left right, b.nodes[defs.place var]? = some (.and left right) ∧
      (left.id = defs.place gate.left.id ∧ right.id = defs.place gate.right.id ∨
        left.id = defs.place gate.right.id ∧ right.id = defs.place gate.left.id) := by
  obtain ⟨k, hk⟩ := List.mem_iff_getElem?.1 hvar
  obtain ⟨hlt, rfl⟩ := List.getElem?_eq_some_iff.1 hk
  have place : defs.place f.gateOrder[k] = f.leaves.length + k := by
    have := congrArg (·[k]?) laid.map_place
    simpa [hlt] using this
  obtain ⟨left, right, hand, cases⟩ :=
    Node.ordered_cases (defs.literal gate.left) (defs.literal gate.right)
  refine ⟨left, right, ?_, ?_⟩
  · rw [place, laid.gate k _ gate hk hgate, hand]
  · rw [← Definitions.literal_id, ← Definitions.literal_id]
    rcases cases with ⟨rfl, rfl⟩ | ⟨rfl, rfl⟩
    · exact .inl ⟨rfl, rfl⟩
    · exact .inr ⟨rfl, rfl⟩

/-- Only gates are placed after the leaves. -/
theorem mem_gateOrder {var : Nat} (h : f.leaves.length ≤ defs.place var) : var ∈ f.gateOrder := by
  have pos : 0 < f.leaves.length := Nat.succ_pos _
  cases hvar : defs[var]? with
  | none =>
    have : defs.place var = 0 := by
      simp [Definitions.place, Definitions.literal, Literal.positive, Literal.ofBool, hvar]
    omega
  | some l =>
    obtain ⟨i, hi, rfl⟩ := laid.places.entry.1 hvar
    have : defs.place var = i := by
      simp [Definitions.place, Definitions.literal, Literal.positive, hvar]
    rw [List.getElem?_append_right (this ▸ h)] at hi
    exact List.mem_of_getElem? hi

end Laid

namespace File

theorem getElem?_gateMap_ofGraph {b : Graph} (ev : b.Evaluable) {i : Nat} {gate : GateLine} :
    (ofGraph b).gateMap[i]? = some gate ↔
      b.nodes[i]? = some (.and gate.right gate.left) ∧ gate.var = i := by
  have once : ((ofGraph b).gates.map (·.var)).Nodup := map_var_gates_ofGraph b ▸ ev.gates_nodup
  rw [getElem?_gateMap once, mem_gates_ofGraph ev]
  constructor
  · rintro ⟨h, rfl⟩
    exact ⟨h, rfl⟩
  · rintro ⟨h, rfl⟩
    exact ⟨h, rfl⟩

theorem mem_gateMap_ofGraph {b : Graph} (ev : b.Evaluable) {i : Nat} :
    i ∈ (ofGraph b).gateMap ↔ ∃ left right, b.nodes[i]? = some (.and left right) := by
  rw [mem_iff_exists_getElem?]
  constructor
  · rintro ⟨gate, h⟩
    exact ⟨_, _, ((getElem?_gateMap_ofGraph ev).1 h).1⟩
  · rintro ⟨left, right, h⟩
    exact ⟨⟨i, right, left⟩, (getElem?_gateMap_ofGraph ev).2 ⟨h, rfl⟩⟩

/-! ### The order is stable -/

section Stable
variable {f : File} {b : Graph} {defs : Definitions} (blocked : f.layering.blocked = [])
  (laid : Laid f f.gateOrder defs b) (wf : b.WellFormed)
include blocked laid wf

/-- The gates of a graph that was read are built in the order of the nodes. -/
theorem gateOrder_ofGraph :
    (ofGraph b).gateOrder = List.range' f.leaves.length f.gateOrder.length := by
  have leveled := isLeveled blocked
  have blocked' := blocked_ofGraph wf.toEvaluable
  have leveled' := isLeveled blocked'
  have same : ∀ var, (ofGraph b).level (defs.place var) = f.level var := by
    refine leveled.renamed leveled' blocked (fun var gate hgate => ?_) fun var hnot => ?_
    · have hvar := (File.mem_gateOrder blocked).2 (mem_iff_exists_getElem?.2 ⟨gate, hgate⟩)
      obtain ⟨left, right, hand, args⟩ := laid.exists_gate_place hvar hgate
      exact ⟨⟨_, right, left⟩, (getElem?_gateMap_ofGraph wf.toEvaluable).2 ⟨hand, rfl⟩,
        args.symm.imp And.symm And.symm⟩
    · intro h
      obtain ⟨left, right, hand⟩ := (mem_gateMap_ofGraph wf.toEvaluable).1 h
      exact hnot ((File.mem_gateOrder blocked).1 (laid.mem_gateOrder (laid.after _ _ _ hand)))
  have up : f.gateOrder.Pairwise fun v w => defs.place v < defs.place w := by
    refine List.pairwise_map.1 ?_
    rw [laid.map_place]
    exact List.pairwise_lt_range'
  rw [← laid.map_place]
  refine leveled'.gateOrder_eq blocked' ?_ (fun var => ?_) ?_
  · rw [laid.map_place]
    exact List.nodup_range'
  · rw [mem_gateMap_ofGraph wf.toEvaluable]
    constructor
    · intro hplace
      obtain ⟨v, hv, rfl⟩ := List.mem_map.1 hplace
      obtain ⟨gate, hgate⟩ := mem_iff_exists_getElem?.1 ((File.mem_gateOrder blocked).1 hv)
      obtain ⟨left, right, hand, -⟩ := laid.exists_gate_place hv hgate
      exact ⟨left, right, hand⟩
    · rintro ⟨left, right, hand⟩
      have after := laid.after _ _ _ hand
      have before := Graph.lt_size hand
      rw [laid.size] at before
      rw [laid.map_place, List.mem_range'_1]
      exact ⟨after, before⟩
  · refine List.pairwise_map.2 ((leveled.order.and up).imp ?_)
    rintro v w ⟨h | ⟨h, -⟩, hlt⟩
    · exact .inl (by rwa [same, same])
    · exact .inr ⟨by rw [same, same, h], hlt⟩

end Stable

end File

/-! ### Every node keeps its number -/

section Fixed
variable {g b c : Graph} {defs defs' : Definitions} (wf : g.WellFormed) (wf' : b.WellFormed)
  (isGraph : (File.ofGraph g).IsGraph defs b) (isGraph' : (File.ofGraph b).IsGraph defs' c)
include wf isGraph

theorem names_eq_keys (kind : Kind) :
    (File.ofGraph g).names kind ((File.ofGraph g).count kind) = b.names kind :=
  (File.names_ofGraph wf.toEvaluable kind).trans (names_eq wf isGraph kind).symm

theorem count_eq (kind : Kind) : (File.ofGraph g).count kind = (b.names kind).length := by
  rw [← names_eq_keys wf isGraph, File.length_names]

theorem inputs_enumerated : Enumerates b.inputs.keys (1 + ·) b.inputs := by
  have names : _ = b.inputs.keys := names_eq_keys wf isGraph .input
  exact names ▸ isGraph.inputs

theorem latches_enumerated :
    Enumerates b.latches.keys (1 + b.inputs.keys.length + ·) b.latches := by
  have names : _ = b.latches.keys := names_eq_keys wf isGraph .latch
  have inputs : (File.ofGraph g).inputs.length = b.inputs.keys.length := count_eq wf isGraph .input
  exact inputs ▸ names ▸ isGraph.latches

/-- The leaves of a graph that was read come first. -/
theorem leaves_ofGraph (ev : b.Evaluable) :
    (File.ofGraph b).leaves = List.range (File.ofGraph g).leaves.length := by
  have inputs : (File.ofGraph b).inputs = (List.range b.inputs.keys.length).map (1 + ·) :=
    (inputs_enumerated wf isGraph).values_eq
  have inputCount : (File.ofGraph g).inputs.length = b.inputs.keys.length :=
    count_eq wf isGraph .input
  have latchCount : (File.ofGraph g).latches.length = b.latches.keys.length :=
    count_eq wf isGraph .latch
  rw [File.leaves, inputs, File.map_var_latches_ofGraph ev,
    (latches_enumerated wf isGraph).values_eq, File.length_leaves, inputCount, latchCount,
    List.range_add, List.range_add]
  rfl

/-- The variables of a graph that was read are in the order of its nodes. -/
theorem variables_eq (wf' : b.WellFormed) :
    (File.ofGraph b).leaves ++ (File.ofGraph b).gateOrder = List.range b.nodes.size := by
  have laid := isGraph.laid (File.reduced_ofGraph wf)
  rw [leaves_ofGraph wf isGraph wf'.toEvaluable,
    File.gateOrder_ofGraph (File.blocked_ofGraph wf.toEvaluable) laid wf', laid.size,
    List.range_add, List.range'_eq_map_range]

include wf' isGraph'

/-- Reading again leaves every literal as it is. -/
theorem literal_eq_self {l : Literal} (h : b.Has l) : defs'.literal l = l := by
  have laid := isGraph'.laid (File.reduced_ofGraph wf')
  refine (Definitions.literal_eq laid.places (i := l.id) ?_).trans rfl
  rw [variables_eq wf isGraph wf', List.getElem?_range h]

theorem inputs_eq : c.inputs = b.inputs := by
  have names : c.inputs.keys = b.inputs.keys := names_eq wf' isGraph' .input
  exact (names ▸ inputs_enumerated wf' isGraph').unique (inputs_enumerated wf isGraph)

theorem latches_eq : c.latches = b.latches := by
  have names : c.latches.keys = b.latches.keys := names_eq wf' isGraph' .latch
  have inputs : c.inputs.keys = b.inputs.keys := names_eq wf' isGraph' .input
  exact (names ▸ inputs ▸ latches_enumerated wf' isGraph').unique (latches_enumerated wf isGraph)

theorem outputs_eq : c.outputs = b.outputs := by
  have names : (File.ofGraph b).names .output (File.ofGraph b).outputs.length = b.outputs.keys :=
    File.names_ofGraph wf'.toEvaluable .output
  refine Enumerates.unique ?_ (.of_map b.outputs (.ofBool false))
  refine (names ▸ isGraph'.outputs).congr fun p hp => literal_eq_self wf wf' isGraph isGraph' ?_
  have hlt : p < b.outputs.values.length := length_values b.outputs ▸ hp
  obtain ⟨name, -, hname⟩ := exists_key (List.getElem?_eq_getElem hlt)
  show b.Has ((b.outputs.values[p]?).getD _)
  rw [List.getElem?_eq_getElem hlt, Option.getD_some]
  exact wf'.output hname

/-- Every node has the number that it had. -/
theorem getElem?_nodes (wf'' : c.WellFormed) {i : Nat} {node : Node} (h : b.nodes[i]? = some node) :
    c.nodes[i]? = some node := by
  have same {l : Literal} (h : b.Has l) := literal_eq_self wf wf' isGraph isGraph' h
  cases node with
  | zero =>
    rw [wf'.zero_unique h]
    exact wf''.zero
  | input =>
    obtain ⟨name, hname⟩ := wf'.input.1 h
    exact wf''.input.2 ⟨name, inputs_eq wf wf' isGraph isGraph' ▸ hname⟩
  | latch next init =>
    obtain ⟨name, hname⟩ := wf'.latch.1 ⟨next, init, h⟩
    obtain ⟨p, hp, rfl⟩ := File.exists_latch_position wf'.toEvaluable
      (wf'.latch?_eq_some_iff (l := ⟨i, next, init⟩).2 ⟨hname, h⟩)
    have hplace := isGraph'.latches.getElem? ((File.ofGraph b).getElem?_names_iff.2
      ⟨(List.getElem?_eq_some_iff.1 hp).1, rfl⟩)
    rw [latches_eq wf wf' isGraph isGraph', hname] at hplace
    rw [Option.some.inj hplace, isGraph'.latch p _ hp, same (wf'.next h)]
  | and left right =>
    have laid := isGraph.laid (File.reduced_ofGraph wf)
    have laid' := isGraph'.laid (File.reduced_ofGraph wf')
    have hlt := Graph.lt_size h
    have after : (File.ofGraph b).leaves.length ≤ i := by
      rw [leaves_ofGraph wf isGraph wf'.toEvaluable, List.length_range]
      exact laid.after i left right h
    obtain ⟨k, rfl⟩ := Nat.exists_eq_add_of_le after
    have hat := List.getElem?_range hlt
    rw [← variables_eq wf isGraph wf', List.getElem?_append_right after,
      Nat.add_sub_cancel_left] at hat
    have hgate := laid'.gate k _ ⟨_, right, left⟩ hat
      ((File.getElem?_gateMap_ofGraph wf'.toEvaluable).2 ⟨h, rfl⟩)
    obtain ⟨hleft, hright⟩ := wf'.fanin h
    rw [hgate, same (Nat.lt_trans hright hlt), same (Nat.lt_trans hleft hlt),
      Node.ordered_of_lt (wf'.ascending h).2]

/-- A graph that was read is read again as it is. -/
theorem reread_eq (wf'' : c.WellFormed) : c = b := by
  have size := size_eq wf' isGraph'
  have nodes : c.nodes = b.nodes := by
    refine Array.ext_getElem? fun i => ?_
    by_cases hi : i < b.nodes.size
    · have hnode := Array.getElem?_eq_getElem hi
      rw [getElem?_nodes wf wf' isGraph isGraph' wf'' hnode, hnode]
    · rw [Array.getElem?_eq_none (Nat.le_of_not_lt hi),
        Array.getElem?_eq_none (size ▸ Nat.le_of_not_lt hi)]
  exact wf''.eq_of_nodes wf' nodes (inputs_eq wf wf' isGraph isGraph')
    (latches_eq wf wf' isGraph isGraph') (outputs_eq wf wf' isGraph isGraph')

end Fixed

end AndInverter.Aiger
