import AndInverter.Aiger.Write
import AndInverter.Proofs.Aiger.Leaves
import AndInverter.Proofs.Aiger.Layout
import AndInverter.Proofs.Graph.Solution

/-! The file of a graph: the lines that are written for it. Nodes are its variables, in the order of
their kinds. Such a file has no contradictions, and none of its gates can be folded or shared. -/

namespace AndInverter

/-- Where a function is defined on all entries, the entries keep their positions. -/
theorem map_some_filterMap {α β : Type} {f : α → Option β} {xs : List α}
    (all : ∀ x ∈ xs, (f x).isSome) : (xs.filterMap f).map some = xs.map f := by
  induction xs with
  | nil => rfl
  | cons x xs ih =>
    obtain ⟨y, hy⟩ := Option.isSome_iff_exists.1 (all x List.mem_cons_self)
    rw [List.filterMap_cons_some hy, List.map_cons, List.map_cons, hy,
      ih fun x hx => all x (List.mem_cons_of_mem _ hx)]

namespace Graph

variable {g : Graph}

theorem Evaluable.mem_gates_iff (ev : g.Evaluable) {gate : Gate} :
    gate ∈ g.gates ↔ g.nodes[gate.id]? = some (.and gate.left gate.right) := by
  rcases gate with ⟨id, left, right⟩
  simp only [gates, ev.numbered_eq, List.mem_filterMap, Prod.exists, List.mem_zipIdx_iff_getElem?,
    Array.getElem?_toList]
  constructor
  · rintro ⟨node, i, hi, h⟩
    cases node with
    | and l r =>
      obtain ⟨rfl, rfl, rfl⟩ : i = id ∧ l = left ∧ r = right := by simpa using h
      exact hi
    | _ => cases h
  · intro h
    exact ⟨_, id, h, rfl⟩

/-- Gates stand in the order of their nodes. -/
theorem Evaluable.gates_ascending (ev : g.Evaluable) : (g.gates.map (·.id)).Pairwise (· < ·) := by
  have ascending : (g.nodes.toList.zipIdx.map Prod.snd).Pairwise (· < ·) := by
    rw [List.zipIdx_map_snd]
    exact List.pairwise_lt_range'
  rw [gates, ev.numbered_eq, List.pairwise_map, List.pairwise_filterMap]
  refine (List.pairwise_map.1 ascending).imp fun {x y} h a ha b hb => ?_
  rcases x with ⟨_ | _ | _ | _, i⟩ <;> cases ha
  rcases y with ⟨_ | _ | _ | _, j⟩ <;> cases hb
  exact h

theorem Evaluable.gates_nodup (ev : g.Evaluable) : (g.gates.map (·.id)).Nodup :=
  ev.gates_ascending.imp Nat.ne_of_lt

/-- The latches by name. -/
def latchList (g : Graph) : List Latch := g.latches.keys.filterMap g.latch?

namespace Evaluable

variable (ev : g.Evaluable)
include ev

theorem map_some_latchList : g.latchList.map some = g.latches.keys.map g.latch? := by
  refine map_some_filterMap fun name hname => ?_
  rw [Std.ExtTreeMap.mem_keys, ev.mem_latches_iff] at hname
  exact Option.isSome_iff_exists.2 hname

theorem length_latchList : g.latchList.length = g.latches.keys.length := by
  simpa using congrArg List.length ev.map_some_latchList

theorem latch?_of_getElem? {p : Nat} {latch : Latch} (h : g.latchList[p]? = some latch) :
    ∃ name, g.latches.keys[p]? = some name ∧ g.latch? name = some latch := by
  have entry := congrArg (·[p]?) ev.map_some_latchList
  simp only [List.getElem?_map, h, Option.map_some] at entry
  simpa [eq_comm] using entry

theorem getElem?_latchList {p : Nat} {name : String} (h : g.latches.keys[p]? = some name) :
    g.latchList[p]? = g.latch? name := by
  have entry := congrArg (·[p]?) ev.map_some_latchList
  simp only [List.getElem?_map, h, Option.map_some] at entry
  obtain ⟨latch, hp, heq⟩ := Option.map_eq_some_iff.1 entry
  rw [hp, heq]

theorem map_id_latchList : g.latchList.map (·.id) = g.latches.values := by
  rw [values_eq_map_snd, latchList, ← Std.ExtTreeMap.map_fst_toList_eq_keys, List.filterMap_map,
    List.map_filterMap, ← List.filterMap_eq_map]
  refine List.filterMap_congr fun (name, id) h => ?_
  rw [Std.ExtTreeMap.mem_toList_iff_getElem?_eq_some] at h
  obtain ⟨next, init, hnode⟩ := ev.latch.2 ⟨name, h⟩
  have := ev.latch?_eq_some_iff (l := ⟨id, next, init⟩).2 ⟨h, hnode⟩
  simp [this]

end Evaluable

end Graph

namespace Aiger

/-- The names by their positions. -/
def Names.ofList (names : List String) : Names :=
  Std.ExtTreeMap.ofList (names.zipIdx.map fun (name, position) => (position, name)) compare

theorem Names.getElem?_ofList (names : List String) (position : Nat) :
    (ofList names)[position]? = names[position]? := by
  have once : ((names.zipIdx.map fun (name, position) => (position, name)).map Prod.fst).Nodup := by
    rw [List.map_map]
    show (names.zipIdx.map Prod.snd).Nodup
    rw [List.zipIdx_map_snd]
    exact List.nodup_range'
  refine Option.ext fun name => ?_
  rw [ofList, getElem?_ofList_eq_some_iff once]
  simp [List.mem_zipIdx_iff_getElem?]

namespace File

/-- The lines of a graph. -/
def ofGraph (g : Graph) : File where
  max := g.maxId
  inputs := g.inputs.values
  latches := g.latchList.map fun latch => ⟨latch.id, latch.next, latch.init⟩
  outputs := g.outputs.values
  gates := g.gates.map fun gate => ⟨gate.id, gate.right, gate.left⟩
  symbols := ⟨.ofList g.inputs.keys, .ofList g.latches.keys, .ofList g.outputs.keys⟩

variable {g : Graph}

theorem getElem?_names_ofGraph (g : Graph) (kind : Kind) (position : Nat) :
    ((ofGraph g).symbols.names kind)[position]? = (g.names kind)[position]? := by
  cases kind <;> exact Names.getElem?_ofList _ _

theorem count_ofGraph (ev : g.Evaluable) (kind : Kind) :
    (ofGraph g).count kind = (g.names kind).length := by
  cases kind
  · exact length_values g.inputs
  · exact (List.length_map _).trans ev.length_latchList
  · exact length_values g.outputs

theorem name_ofGraph (kind : Kind) {position : Nat} {name : String}
    (h : (g.names kind)[position]? = some name) :
    (ofGraph g).symbols.name kind position = name := by
  rw [Symbols.name, getElem?_names_ofGraph, h, Option.getD_some]

theorem names_ofGraph (ev : g.Evaluable) (kind : Kind) :
    (ofGraph g).names kind ((ofGraph g).count kind) = g.names kind := by
  rw [count_ofGraph ev]
  refine List.ext_getElem? fun position => Option.ext fun name => ?_
  rw [getElem?_names_iff]
  constructor
  · rintro ⟨hlt, rfl⟩
    rw [name_ofGraph kind (List.getElem?_eq_getElem hlt), List.getElem?_eq_getElem hlt]
  · intro h
    exact ⟨(List.getElem?_eq_some_iff.1 h).1, (name_ofGraph kind h).symm⟩

theorem map_var_latches_ofGraph (ev : g.Evaluable) :
    (ofGraph g).latches.map (·.var) = g.latches.values := by
  rw [← ev.map_id_latchList, ofGraph, List.map_map]
  rfl

theorem map_var_gates_ofGraph (g : Graph) : (ofGraph g).gates.map (·.var) = g.gates.map (·.id) := by
  rw [ofGraph, List.map_map]
  rfl

theorem mem_gates_ofGraph (ev : g.Evaluable) {gate : GateLine} : gate ∈ (ofGraph g).gates ↔
    g.nodes[gate.var]? = some (.and gate.right gate.left) := by
  simp only [ofGraph, List.mem_map, ev.mem_gates_iff]
  constructor
  · rintro ⟨⟨id, left, right⟩, h, rfl⟩
    exact h
  · intro h
    exact ⟨⟨gate.var, gate.right, gate.left⟩, h, rfl⟩

theorem mem_inputs_ofGraph (ev : g.Evaluable) {i : Nat} :
    i ∈ (ofGraph g).inputs ↔ g.nodes[i]? = some .input :=
  mem_values_iff.trans ev.input.symm

theorem mem_map_var_latches_ofGraph (ev : g.Evaluable) {i : Nat} :
    i ∈ (ofGraph g).latches.map (·.var) ↔ ∃ next init, g.nodes[i]? = some (.latch next init) := by
  rw [map_var_latches_ofGraph ev]
  exact mem_values_iff.trans ev.latch.symm

theorem mem_map_var_gates_ofGraph (ev : g.Evaluable) {i : Nat} :
    i ∈ (ofGraph g).gates.map (·.var) ↔ ∃ left right, g.nodes[i]? = some (.and left right) := by
  rw [List.mem_map]
  constructor
  · rintro ⟨gate, hgate, rfl⟩
    exact ⟨_, _, (mem_gates_ofGraph ev).1 hgate⟩
  · rintro ⟨left, right, h⟩
    exact ⟨⟨i, right, left⟩, (mem_gates_ofGraph ev).2 h, rfl⟩

/-- The variables are the nodes other than the constant. -/
theorem mem_defined_ofGraph (ev : g.Evaluable) {i : Nat} :
    i ∈ (ofGraph g).defined ↔ i < g.nodes.size ∧ i ≠ 0 := by
  rw [defined, List.mem_append, List.mem_append, mem_inputs_ofGraph ev,
    mem_map_var_latches_ofGraph ev, mem_map_var_gates_ofGraph ev]
  constructor
  · intro h
    have hnode : ∃ node, g.nodes[i]? = some node ∧ node ≠ .zero := by
      rcases h with h | ⟨next, init, h⟩ | ⟨left, right, h⟩ <;> exact ⟨_, h, by simp⟩
    obtain ⟨node, h, hne⟩ := hnode
    refine ⟨Graph.lt_size h, ?_⟩
    rintro rfl
    rw [ev.zero] at h
    exact hne (Option.some.inj h).symm
  · rintro ⟨hlt, hne⟩
    have h := Array.getElem?_eq_getElem hlt
    cases hnode : g.nodes[i] with
    | zero => exact absurd (ev.zero_unique (hnode ▸ h)) hne
    | input => exact .inl (hnode ▸ h)
    | latch next init => exact .inr (.inl ⟨next, init, hnode ▸ h⟩)
    | and left right => exact .inr (.inr ⟨left, right, hnode ▸ h⟩)

theorem nodup_defined_ofGraph (ev : g.Evaluable) : (ofGraph g).defined.Nodup := by
  -- A node is of one kind.
  have kinds {i : Nat} {node node' : Node} (h : g.nodes[i]? = some node)
      (h' : g.nodes[i]? = some node') : node = node' := Option.some.inj (h.symm.trans h')
  rw [defined]
  refine List.Nodup.append (nodup_values ev.input_inj) (List.Nodup.append ?_ ?_ ?_) ?_
  · rw [map_var_latches_ofGraph ev]
    exact nodup_values ev.latch_inj
  · rw [map_var_gates_ofGraph]
    exact ev.gates_nodup
  · intro i hlatch hgate
    obtain ⟨_, _, hlatch⟩ := (mem_map_var_latches_ofGraph ev).1 hlatch
    obtain ⟨_, _, hgate⟩ := (mem_map_var_gates_ofGraph ev).1 hgate
    cases kinds hlatch hgate
  · intro i hinput hother
    have hinput := (mem_inputs_ofGraph ev).1 hinput
    rcases List.mem_append.1 hother with hlatch | hgate
    · obtain ⟨_, _, hlatch⟩ := (mem_map_var_latches_ofGraph ev).1 hlatch
      cases kinds hinput hlatch
    · obtain ⟨_, _, hgate⟩ := (mem_map_var_gates_ofGraph ev).1 hgate
      cases kinds hinput hgate

/-- Every variable up to the greatest one is defined once. -/
theorem defined_ofGraph_perm (ev : g.Evaluable) :
    (ofGraph g).defined.Perm (List.range' 1 g.maxId) := by
  refine (List.perm_ext_iff_of_nodup (nodup_defined_ofGraph ev) List.nodup_range').2 fun i => ?_
  have := ev.pos
  rw [mem_defined_ofGraph ev, List.mem_range'_1, Graph.maxId]
  omega

theorem length_defined_ofGraph (ev : g.Evaluable) : (ofGraph g).defined.length = g.maxId := by
  rw [(defined_ofGraph_perm ev).length_eq, List.length_range']

theorem knows_ofGraph (ev : g.Evaluable) {l : Literal} (h : g.Has l) : (ofGraph g).Knows l := by
  rw [Knows, mem_defined_ofGraph ev]
  by_cases hzero : l.id = 0
  · exact .inl hzero
  · exact .inr ⟨h, hzero⟩

theorem lt_of_reads_ofGraph (ev : g.Evaluable) {v w : Nat} (h : (ofGraph g).Reads v w) : w < v := by
  obtain ⟨gate, hgate, rfl, hw⟩ := h
  obtain ⟨hleft, hright⟩ := ev.fanin ((mem_gates_ofGraph ev).1 hgate)
  rcases hw with rfl | rfl
  · exact hright
  · exact hleft

/-- The lines of a graph fit together. -/
theorem consistent_ofGraph (ev : g.Evaluable) : (ofGraph g).Consistent where
  once := nodup_defined_ofGraph ev
  acyclic v h := by
    have down (w : Nat) (h : Relation.TransGen (ofGraph g).Reads v w) : w < v := by
      induction h with
      | single h => exact lt_of_reads_ofGraph ev h
      | tail _ h ih => exact Nat.lt_trans (lt_of_reads_ofGraph ev h) ih
    exact Nat.lt_irrefl v (down v h)
  gates gate hgate := by
    have hnode := (mem_gates_ofGraph ev).1 hgate
    have hlt := Graph.lt_size hnode
    obtain ⟨hleft, hright⟩ := ev.fanin hnode
    exact ⟨knows_ofGraph ev (Nat.lt_trans hright hlt), knows_ofGraph ev (Nat.lt_trans hleft hlt)⟩
  latches latch hlatch := by
    obtain ⟨⟨id, next, init⟩, hmem, rfl⟩ := List.mem_map.1 hlatch
    obtain ⟨name, -, hname⟩ := List.mem_filterMap.1 hmem
    exact knows_ofGraph ev (ev.next (ev.latch?_eq_some_iff.1 hname).2)
  outputs l hl := by
    obtain ⟨name, hname⟩ := mem_values_iff.1 hl
    exact knows_ofGraph ev (ev.output hname)
  names kind := by
    rw [names_ofGraph ev]
    cases kind <;> exact Std.ExtTreeMap.nodup_keys

theorem blocked_ofGraph (ev : g.Evaluable) : (ofGraph g).layering.blocked = [] :=
  (blocked_eq_nil_iff (consistent_ofGraph ev).once_gates).2 (consistent_ofGraph ev).acyclic

/-- No gate of a graph can be folded or shared. -/
theorem reduced_ofGraph (wf : g.WellFormed) : (ofGraph g).Reduced where
  folded gate hgate := by
    have := wf.ascending ((mem_gates_ofGraph wf.toEvaluable).1 hgate)
    omega
  shared gate hgate gate' hgate' h := by
    have hnode := (mem_gates_ofGraph wf.toEvaluable).1 hgate
    have hnode' := (mem_gates_ofGraph wf.toEvaluable).1 hgate'
    rcases h with ⟨hleft, hright⟩ | ⟨hleft, hright⟩
    · rw [hleft, hright] at hnode
      exact wf.gate_inj hnode hnode'
    · have up := wf.ascending hnode
      have down := wf.ascending hnode'
      rw [hleft, hright] at up
      omega

end File

end Aiger

end AndInverter
