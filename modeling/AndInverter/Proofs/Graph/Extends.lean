import AndInverter.Graph.Build
import AndInverter.Proofs.Graph.Solution

/-! Steps of construction keep the invariant and only add to the graph, so that what a literal says
about the solutions of a graph holds in every later graph. -/

namespace AndInverter

theorem Node.setNext_setNext (node : Node) (a b : Literal) :
    Node.setNext b (Node.setNext a node) = Node.setNext b node := by
  cases node <;> rfl

theorem Node.exists_setNext_eq (node : Node) : ∃ next, Node.setNext next node = node := by
  cases node with
  | latch next init => exact ⟨next, rfl⟩
  | _ => exact ⟨.ofBool false, rfl⟩

namespace Graph

/-- `h` has the nodes and leaves of `g` where they were; next states may differ. -/
structure Extends (g h : Graph) : Prop where
  node : ∀ {i : Nat} {node : Node}, g.nodes[i]? = some node →
    ∃ next, h.nodes[i]? = some (node.setNext next)
  input : ∀ {name : String} {i : Nat}, g.inputs[name]? = some i → h.inputs[name]? = some i
  latch : ∀ {name : String} {i : Nat}, g.latches[name]? = some i → h.latches[name]? = some i

namespace Extends

variable {g h k : Graph}

theorem refl (g : Graph) : g.Extends g where
  node {i node} hi := by
    obtain ⟨next, hnext⟩ := node.exists_setNext_eq
    exact ⟨next, hnext.symm ▸ hi⟩
  input := id
  latch := id

theorem trans (gh : g.Extends h) (hk : h.Extends k) : g.Extends k where
  node hi := by
    obtain ⟨a, ha⟩ := gh.node hi
    obtain ⟨b, hb⟩ := hk.node ha
    exact ⟨b, Node.setNext_setNext _ a b ▸ hb⟩
  input := hk.input ∘ gh.input
  latch := hk.latch ∘ gh.latch

theorem has (gh : g.Extends h) {l : Literal} (hl : g.Has l) : h.Has l := by
  obtain ⟨next, hn⟩ := gh.node (Array.getElem?_eq_getElem hl)
  exact lt_size hn

theorem gate (gh : g.Extends h) {i : Nat} {left right : Literal}
    (hi : g.nodes[i]? = some (.and left right)) : h.nodes[i]? = some (.and left right) := by
  obtain ⟨next, hn⟩ := gh.node hi
  exact hn

theorem solution (gh : g.Extends h) {v : Nat → Bool} (hv : h.Solution v) : g.Solution v where
  zero := hv.zero
  gate hi := hv.gate (gh.gate hi)

theorem inputValue (gh : g.Extends h) (v : Nat → Bool) {name : String} (hn : name ∈ g.inputs) :
    h.inputValue v name = g.inputValue v name := by
  obtain ⟨i, hi⟩ := mem_iff_exists_getElem?.1 hn
  simp [Graph.inputValue, hi, gh.input hi]

theorem latchValue (gh : g.Extends h) (v : Nat → Bool) {name : String} (hn : name ∈ g.latches) :
    h.latchValue v name = g.latchValue v name := by
  obtain ⟨i, hi⟩ := mem_iff_exists_getElem?.1 hn
  simp [Graph.latchValue, hi, gh.latch hi]

/-- A latch keeps its initial value. -/
theorem initial (gh : g.Extends h) {name : String} {init : Bool}
    (hinit : g.initial name = some init) : h.initial name = some init := by
  simp only [Graph.initial, Graph.latch?, Option.map_eq_some_iff, Option.bind_eq_some_iff] at hinit ⊢
  obtain ⟨latch, ⟨id, hid, hlatch⟩, rfl⟩ := hinit
  split at hlatch
  next next init' hnode =>
    obtain ⟨next', hnode'⟩ := gh.node hnode
    obtain rfl := Option.some.inj hlatch
    exact ⟨⟨h.idAt id, next', init'⟩, ⟨id, gh.latch hid, by rw [hnode']; rfl⟩, rfl⟩
  next => cases hlatch

end Extends

/-- The graph with one more node, which stands last. -/
theorem extends_push {g h : Graph} {node : Node} (hn : h.nodes = g.nodes.push node)
    (hi : ∀ {name : String} {i : Nat}, g.inputs[name]? = some i → h.inputs[name]? = some i)
    (hl : ∀ {name : String} {i : Nat}, g.latches[name]? = some i → h.latches[name]? = some i) :
    g.Extends h where
  node {i node} h := by
    obtain ⟨next, hnext⟩ := node.exists_setNext_eq
    have := lt_size h
    exact ⟨next, by rw [hnext, hn, Array.getElem?_push, if_neg (by omega), h]⟩
  input := hi
  latch := hl

theorem empty_node_iff {i : Nat} {node : Node} :
    empty.nodes[i]? = some node ↔ i = 0 ∧ node = .zero := by
  cases i <;> simp [empty, eq_comm]

theorem wellFormed_empty : empty.WellFormed where
  ids := rfl
  zero := rfl
  zero_unique h := (empty_node_iff.1 h).1
  fanin h := by simp [empty_node_iff] at h
  input := by simp [empty_node_iff]; simp [empty]
  input_inj h := by simp [empty] at h
  latch := by simp [empty_node_iff]; simp [empty]
  latch_inj h := by simp [empty] at h
  next h := by simp [empty_node_iff] at h
  output h := by simp [empty] at h
  ascending h := by simp [empty_node_iff] at h
  table := by simp [empty_node_iff]; simp [empty]

theorem push_node_iff {nodes : Array Node} {new node : Node} {i : Nat} :
    (nodes.push new)[i]? = some node ↔ nodes[i]? = some node ∨ i = nodes.size ∧ new = node := by
  rw [Array.getElem?_push]
  by_cases h : i = nodes.size <;> simp [h]

theorem insert_iff {m : NameMap Nat} {new name : String} {i j : Nat} (hnew : new ∉ m) :
    (m.insert new i)[name]? = some j ↔ m[name]? = some j ∨ name = new ∧ i = j := by
  rw [NameMap.getElem?_insert]
  by_cases h : name = new
  · subst h
    simp [not_mem_iff_getElem?.1 hnew]
  · simp [h]

/-- A new number for a new name leaves no number with two names. -/
theorem insert_inj {m : NameMap Nat} {new : String} {i : Nat} (hnew : new ∉ m)
    (fresh : ∀ {name : String}, m[name]? = some i → False)
    (inj : ∀ {a b : String} {j : Nat}, m[a]? = some j → m[b]? = some j → a = b)
    {a b : String} {j : Nat} (ha : (m.insert new i)[a]? = some j)
    (hb : (m.insert new i)[b]? = some j) : a = b := by
  rcases (insert_iff hnew).1 ha with oldA | ⟨newA, rfl⟩ <;>
    rcases (insert_iff hnew).1 hb with oldB | ⟨newB, hj⟩
  · exact inj oldA oldB
  · exact (fresh (hj ▸ oldA)).elim
  · exact (fresh oldB).elim
  · rw [newA, newB]

theorem modify_node_iff {nodes : Array Node} {id i : Nat} {next : Literal} {node : Node}
    (hn : ∀ next init, node ≠ .latch next init) :
    (nodes.modify id (Node.setNext next))[i]? = some node ↔ nodes[i]? = some node := by
  rw [Array.getElem?_modify]
  by_cases h : id = i
  · cases hi : nodes[i]? with
    | none => simp [h]
    | some old =>
      cases old <;> simp [h, Node.setNext]
      grind
  · simp [h]

theorem modify_latch_iff {nodes : Array Node} {id i : Nat} {next next' : Literal} {init : Bool} :
    (nodes.modify id (Node.setNext next))[i]? = some (.latch next' init) ↔
      ∃ old, nodes[i]? = some (.latch old init) ∧ next' = if id = i then next else old := by
  rw [Array.getElem?_modify]
  by_cases h : id = i
  · cases hi : nodes[i]? with
    | none => simp [h]
    | some old => cases old <;> simp [h, Node.setNext, eq_comm, and_comm]
  · simp [h]

namespace WellFormed

variable {g : Graph} (wf : g.WellFormed)
include wf

theorem push_ids (node : Node) : g.ids.push g.nodes.size = Array.range (g.nodes.push node).size := by
  rw [wf.ids, Array.size_push, Array.range_succ, Array.push_eq_append]

theorem addInput {name : String} (hname : name ∉ g.inputs) :
    WellFormed { g with
      nodes := g.nodes.push .input
      ids := g.ids.push g.nodes.size
      inputs := g.inputs.insert name g.nodes.size } where
  ids := wf.push_ids _
  zero := push_node_iff.2 (.inl wf.zero)
  zero_unique h := (push_node_iff.1 h).elim wf.zero_unique (nomatch ·.2)
  fanin h := (push_node_iff.1 h).elim wf.fanin (nomatch ·.2)
  input {i} := by
    simp only [push_node_iff, insert_iff hname, wf.input, exists_or]
    simp [eq_comm]
  input_inj := insert_inj hname (fun h => Nat.lt_irrefl _ (lt_size (wf.input.2 ⟨_, h⟩)))
    wf.input_inj
  latch {i} := by simp [push_node_iff, ← wf.latch]
  latch_inj := wf.latch_inj
  next h := by
    have := (push_node_iff.1 h).elim wf.next (nomatch ·.2)
    simp only [Has, Array.size_push] at this ⊢
    omega
  output h := by
    have := wf.output h
    simp only [Has, Array.size_push] at this ⊢
    omega
  ascending h := (push_node_iff.1 h).elim wf.ascending (nomatch ·.2)
  table := by simp [push_node_iff, wf.table]

theorem addLatch {name : String} (hname : name ∉ g.latches) (init : Bool) :
    WellFormed { g with
      nodes := g.nodes.push (.latch (.ofBool false) init)
      ids := g.ids.push g.nodes.size
      latches := g.latches.insert name g.nodes.size } where
  ids := wf.push_ids _
  zero := push_node_iff.2 (.inl wf.zero)
  zero_unique h := (push_node_iff.1 h).elim wf.zero_unique (nomatch ·.2)
  fanin h := (push_node_iff.1 h).elim wf.fanin (nomatch ·.2)
  input {i} := by simp [push_node_iff, ← wf.input]
  input_inj := wf.input_inj
  latch {i} := by
    simp only [push_node_iff, insert_iff hname, exists_or, ← wf.latch]
    simp [eq_comm]
  latch_inj := insert_inj hname
    (fun h => by
      obtain ⟨next, init, h⟩ := wf.latch.2 ⟨_, h⟩
      exact Nat.lt_irrefl _ (lt_size h))
    wf.latch_inj
  next h := by
    simp only [Has, Array.size_push]
    rcases push_node_iff.1 h with h | ⟨-, h⟩
    · have := wf.next h
      simp only [Has] at this
      omega
    · cases h
      simp [Literal.ofBool]
  output h := by
    have := wf.output h
    simp only [Has, Array.size_push] at this ⊢
    omega
  ascending h := (push_node_iff.1 h).elim wf.ascending (nomatch ·.2)
  table := by simp [push_node_iff, wf.table]

theorem pushGate {left right : Literal} (h1 : 1 ≤ left.id) (h2 : left.id < right.id)
    (h3 : right.id < g.nodes.size) (hnew : g.gateTable[(left, right)]? = none) :
    WellFormed { g with
      nodes := g.nodes.push (.and left right)
      ids := g.ids.push g.nodes.size
      gateTable := g.gateTable.insert (left, right) (.positive g.nodes.size) } where
  ids := wf.push_ids _
  zero := push_node_iff.2 (.inl wf.zero)
  zero_unique h := (push_node_iff.1 h).elim wf.zero_unique (nomatch ·.2)
  fanin h := by
    rcases push_node_iff.1 h with old | ⟨rfl, new⟩
    · exact wf.fanin old
    · obtain ⟨rfl, rfl⟩ := Node.and.inj new
      omega
  input {i} := by simp [push_node_iff, ← wf.input]
  input_inj := wf.input_inj
  latch {i} := by simp [push_node_iff, ← wf.latch]
  latch_inj := wf.latch_inj
  next h := by
    have := (push_node_iff.1 h).elim wf.next (nomatch ·.2)
    simp only [Has, Array.size_push] at this ⊢
    omega
  output h := by
    have := wf.output h
    simp only [Has, Array.size_push] at this ⊢
    omega
  ascending h := by
    rcases push_node_iff.1 h with h | ⟨-, h⟩
    · exact wf.ascending h
    · cases h
      exact ⟨h1, h2⟩
  table {a b gate} := by
    rw [Std.ExtTreeMap.getElem?_insert]
    by_cases h : (left, right) = (a, b)
    · cases h
      have none {i : Nat} : g.nodes[i]? ≠ some (.and left right) := fun hi => by
        rw [wf.table.2 ⟨i, rfl, hi⟩] at hnew
        cases hnew
      rw [if_pos Std.ReflCmp.compare_self]
      simp [push_node_iff, none, eq_comm (a := gate)]
    · have hne : ¬ (left = a ∧ right = b) := fun both => h (Prod.ext both.1 both.2)
      simp [push_node_iff, h, hne, wf.table]

theorem setNext {next : Literal} (hnext : g.Has next) (id : Nat) :
    WellFormed { g with nodes := g.nodes.modify id (Node.setNext next) } where
  ids := wf.ids.trans (congrArg Array.range Array.size_modify.symm)
  zero := (modify_node_iff (by simp)).2 wf.zero
  zero_unique h := wf.zero_unique ((modify_node_iff (by simp)).1 h)
  fanin h := wf.fanin ((modify_node_iff (by simp)).1 h)
  input {i} := (modify_node_iff (by simp)).trans wf.input
  input_inj := wf.input_inj
  latch {i} := by
    rw [← wf.latch]
    constructor
    · rintro ⟨a, init, h⟩
      obtain ⟨old, h, -⟩ := modify_latch_iff.1 h
      exact ⟨old, init, h⟩
    · rintro ⟨old, init, h⟩
      exact ⟨_, init, modify_latch_iff.2 ⟨old, h, rfl⟩⟩
  latch_inj := wf.latch_inj
  next {i a init} h := by
    obtain ⟨old, hold, rfl⟩ := modify_latch_iff.1 h
    simp only [Has, Array.size_modify]
    split
    · exact hnext
    · exact wf.next hold
  output h := by simpa [Has] using wf.output h
  ascending h := wf.ascending ((modify_node_iff (by simp)).1 h)
  table {a b gate} := by simp [modify_node_iff, wf.table]

theorem withOutputs {outputs : NameMap Literal}
    (h : ∀ {name : String} {l}, outputs[name]? = some l → g.Has l) :
    WellFormed { g with outputs := outputs } :=
  { wf with output := h }

end WellFormed

end Graph

end AndInverter
