import AndInverter.Graph.Embed
import AndInverter.Proofs.Map
import Mathlib.Algebra.Group.Nat.Defs

/-! What a graph means. Its gates are equations between the values of nodes; the leaves are free. In
a graph whose references lead to nodes in front, values of the leaves have one solution. -/

namespace AndInverter

namespace Literal

/-- The value of the literal where the nodes have the values `v`. -/
def under (l : Literal) (v : Nat → Bool) : Bool := l.apply (v l.id)

@[simp] theorem under_neg (l : Literal) (v : Nat → Bool) : (-l).under v = !l.under v := by
  simp [under, apply]

theorem under_congr {l : Literal} {v w : Nat → Bool} (h : v l.id = w l.id) :
    l.under v = l.under w := by
  simp [under, h]

@[simp] theorem under_positive (id : Nat) (v : Nat → Bool) : (positive id).under v = v id := by
  simp [under, apply, positive]

end Literal

namespace Graph

/-- The literal is one over the nodes of the graph. -/
def Has (g : Graph) (l : Literal) : Prop := l.id < g.nodes.size

/-- Node values that solve the equations of the gates. -/
structure Solution (g : Graph) (v : Nat → Bool) : Prop where
  zero : v 0 = false
  gate : ∀ {i : Nat} {left right : Literal}, g.nodes[i]? = some (.and left right) →
    v i = (left.under v && right.under v)

/-- What evaluation relies on: every node holds its position as its number, every reference leads to a
node that is there, those of a gate to nodes in front of it, and every leaf has one name. -/
structure Evaluable (g : Graph) : Prop where
  ids : g.ids = Array.range g.nodes.size
  zero : g.nodes[0]? = some .zero
  zero_unique : ∀ {i : Nat}, g.nodes[i]? = some .zero → i = 0
  fanin : ∀ {i : Nat} {left right : Literal}, g.nodes[i]? = some (.and left right) →
    left.id < i ∧ right.id < i
  input : ∀ {i : Nat}, g.nodes[i]? = some .input ↔ ∃ name : String, g.inputs[name]? = some i
  input_inj : ∀ {a b : String} {i : Nat},
    g.inputs[a]? = some i → g.inputs[b]? = some i → a = b
  latch : ∀ {i : Nat}, (∃ next init, g.nodes[i]? = some (.latch next init)) ↔
    ∃ name : String, g.latches[name]? = some i
  latch_inj : ∀ {a b : String} {i : Nat},
    g.latches[a]? = some i → g.latches[b]? = some i → a = b
  next : ∀ {i : Nat} {next : Literal} {init : Bool},
    g.nodes[i]? = some (.latch next init) → g.Has next
  output : ∀ {name : String} {l : Literal}, g.outputs[name]? = some l → g.Has l

/-- The representation invariant. Arguments of a gate are no constants, are different nodes and stand
in ascending order, and the gate table has every gate, so that no two are equal. -/
structure WellFormed (g : Graph) : Prop extends Evaluable g where
  ascending : ∀ {i : Nat} {left right : Literal}, g.nodes[i]? = some (.and left right) →
    1 ≤ left.id ∧ left.id < right.id
  table : ∀ {left right gate : Literal}, g.gateTable[(left, right)]? = some gate ↔
    ∃ i, gate = .positive i ∧ g.nodes[i]? = some (.and left right)

/-- The values of named objects, and the initial values of latches. -/
def inputValue (g : Graph) (v : Nat → Bool) (name : String) : Option Bool :=
  (g.inputs[name]?).map v

def latchValue (g : Graph) (v : Nat → Bool) (name : String) : Option Bool :=
  (g.latches[name]?).map v

def outputValue (g : Graph) (v : Nat → Bool) (name : String) : Option Bool :=
  (g.outputs[name]?).map (·.under v)

def nextValue (g : Graph) (v : Nat → Bool) (name : String) : Option Bool :=
  (g.latch? name).map (·.next.under v)

def initial (g : Graph) (name : String) : Option Bool :=
  (g.latch? name).map (·.init)

theorem Solution.under_ofBool {g : Graph} {v : Nat → Bool} (h : g.Solution v) (value : Bool) :
    (Literal.ofBool value).under v = value := by
  simp [Literal.under, Literal.apply, Literal.ofBool, h.zero]

/-- No two gates have the same arguments. -/
theorem WellFormed.gate_inj {g : Graph} (wf : g.WellFormed) {i j : Nat} {left right : Literal}
    (hi : g.nodes[i]? = some (.and left right)) (hj : g.nodes[j]? = some (.and left right)) :
    i = j := by
  have ti := wf.table.2 ⟨i, rfl, hi⟩
  rw [wf.table.2 ⟨j, rfl, hj⟩] at ti
  simpa [Literal.positive] using ti.symm

/-- The gate table follows from the nodes. -/
theorem WellFormed.gateTable_eq {g h : Graph} (wfg : g.WellFormed) (wfh : h.WellFormed)
    (nodes : g.nodes = h.nodes) : g.gateTable = h.gateTable := by
  refine Std.ExtTreeMap.ext_getElem? fun (left, right) => Option.ext fun gate => ?_
  rw [wfg.table, wfh.table, nodes]

theorem WellFormed.eq_of_nodes {g h : Graph} (wfg : g.WellFormed) (wfh : h.WellFormed)
    (nodes : g.nodes = h.nodes) (inputs : g.inputs = h.inputs) (latches : g.latches = h.latches)
    (outputs : g.outputs = h.outputs) : g = h := by
  have table := wfg.gateTable_eq wfh nodes
  have ids := wfg.ids.trans (nodes ▸ wfh.ids.symm)
  cases g
  cases h
  simp_all

end Graph

theorem Graph.lt_size {g : Graph} {i : Nat} {node : Node} (h : g.nodes[i]? = some node) :
    i < g.nodes.size :=
  (Array.getElem?_eq_some_iff.1 h).1

theorem Graph.length_numbered (g : Graph) : g.numbered.length = g.nodes.size := by
  simp [numbered]

/-- A graph with at most `2 ^ 31` nodes has literals of 32 bits only. -/
theorem Graph.raw_lt {g : Graph} (nodes : g.nodes.size ≤ 2 ^ 31) {l : Literal} (h : g.Has l) :
    l.raw < UInt32.size := by
  have bit : l.negated.toNat ≤ 1 := Bool.toNat_le _
  have size : UInt32.size = 2 ^ 32 := rfl
  simp only [Has] at h
  simp only [Literal.raw]
  omega

/-- The literal of a node number of 32 bits is the one over this node where the node is one of the
first `2 ^ 31`. -/
theorem Literal.ofNode_eq (id : UInt32) (negated : Bool) :
    Literal.ofNode id negated = ⟨id.toNat % 2 ^ 31, negated⟩ := by
  have bit : negated.toUInt32.toNat = negated.toNat := by cases negated <;> rfl
  have raw : ((id <<< 1) + negated.toUInt32).toNat = 2 * (id.toNat % 2 ^ 31) + negated.toNat := by
    have := Bool.toNat_le negated
    simp [bit, Nat.shiftLeft_eq]
    omega
  rw [Literal.ofNode, Literal.ofWord, raw]
  exact Literal.ofRaw_raw ⟨_, negated⟩

/-- In a graph with at most `2 ^ 31` nodes no literal loses a bit where it is made from a node number of
32 bits. -/
theorem Graph.ofNode_eq {g : Graph} (nodes : g.nodes.size ≤ 2 ^ 31) {l : Literal} (h : g.Has l) :
    Literal.ofNode (.ofNat l.id) l.negated = l := by
  have lt : l.id < 2 ^ 31 := Nat.lt_of_lt_of_le h nodes
  have word : (UInt32.ofNat l.id).toNat = l.id := UInt32.toNat_ofNat_of_lt' (Nat.lt_trans lt (by decide))
  rw [Literal.ofNode_eq, word, Nat.mod_eq_of_lt lt]

namespace Graph.Evaluable

variable {g : Graph} (ev : g.Evaluable)
include ev

theorem idAt_eq {i : Nat} (hi : i < g.nodes.size) : g.idAt i = i := by
  simp [idAt, ev.ids, hi]

theorem numbered_eq : g.numbered = g.nodes.toList.zipIdx := by
  refine (List.map_congr_left fun entry hentry => ?_).trans (List.map_id _)
  show (entry.1, g.idAt entry.2) = entry
  rw [ev.idAt_eq (by simpa using List.snd_lt_of_mem_zipIdx hentry)]

theorem getElem?_numbered_iff {k id : Nat} {node : Node} :
    g.numbered[k]? = some (node, id) ↔ g.nodes[k]? = some node ∧ k = id := by
  rw [ev.numbered_eq, List.getElem?_zipIdx, Array.getElem?_toList]
  cases g.nodes[k]? <;> simp

theorem latch?_eq_some_iff {name : String} {l : Latch} :
    g.latch? name = some l ↔
      g.latches[name]? = some l.id ∧ g.nodes[l.id]? = some (.latch l.next l.init) := by
  rcases l with ⟨id, next, init⟩
  cases hn : g.latches[name]? with
  | none => simp [Graph.latch?, hn]
  | some i =>
    obtain ⟨next', init', hi⟩ := ev.latch.2 ⟨name, hn⟩
    have held : g.idAt i = i := ev.idAt_eq (lt_size hi)
    constructor
    · intro h
      obtain ⟨rfl, rfl, rfl⟩ : i = id ∧ next' = next ∧ init' = init := by
        simpa [Graph.latch?, hn, hi, held] using h
      exact ⟨rfl, hi⟩
    · rintro ⟨h, hid⟩
      obtain rfl : i = id := Option.some.inj h
      simp [Graph.latch?, hn, hid, held]

theorem mem_latches_iff {name : String} : name ∈ g.latches ↔ ∃ l, g.latch? name = some l := by
  rw [mem_iff_exists_getElem?]
  constructor
  · rintro ⟨i, h⟩
    obtain ⟨next, init, hi⟩ := ev.latch.2 ⟨name, h⟩
    exact ⟨⟨i, next, init⟩, ev.latch?_eq_some_iff.2 ⟨h, hi⟩⟩
  · rintro ⟨l, h⟩
    exact ⟨l.id, (ev.latch?_eq_some_iff.1 h).1⟩

theorem latch?_eq_none {name : String} (h : name ∉ g.latches) : g.latch? name = none := by
  rw [ev.mem_latches_iff] at h
  exact Option.eq_none_iff_forall_ne_some.2 fun l hl => h ⟨l, hl⟩

theorem getElem?_latches (name : String) : g.latches[name]? = (g.latch? name).map (·.id) := by
  cases hn : g.latch? name with
  | none =>
    rw [Option.map_none, ← not_mem_iff_getElem?, ev.mem_latches_iff, hn]
    simp
  | some latch => exact (ev.latch?_eq_some_iff.1 hn).1

theorem pos : 0 < g.nodes.size := lt_size ev.zero

/-- Values of the leaves extend to a solution. -/
theorem exists_solution (leaf : Nat → Bool) :
    ∃ v, g.Solution v ∧ ∀ i, (∀ left right, g.nodes[i]? ≠ some (.and left right)) → i ≠ 0 →
      v i = leaf i := by
  -- The first `k` nodes get their values; a gate reads none but these.
  have below (k : Nat) : ∃ v : Nat → Bool, v 0 = false ∧
      (∀ i < k, ∀ left right, g.nodes[i]? = some (.and left right) →
        v i = (left.under v && right.under v)) ∧
      ∀ i, (∀ left right, g.nodes[i]? ≠ some (.and left right)) → i ≠ 0 → v i = leaf i := by
    induction k with
    | zero => exact ⟨fun i => if i = 0 then false else leaf i, by simp, by simp, by simp_all⟩
    | succ k ih =>
      obtain ⟨v, h0, hg, hl⟩ := ih
      by_cases hk : ∃ left right, g.nodes[k]? = some (.and left right)
      · obtain ⟨left, right, hk⟩ := hk
        have kpos : k ≠ 0 := by
          rintro rfl
          rw [ev.zero] at hk
          cases hk
        let w i := if i = k then (left.under v && right.under v) else v i
        have agree (l : Literal) (h : l.id < k) : l.under w = l.under v :=
          Literal.under_congr (by simp only [w]; rw [if_neg (by omega)])
        refine ⟨w, by simp [w, kpos.symm, h0], fun i hi a b hab => ?_, fun i hi h => ?_⟩
        · have ⟨ha, hb⟩ := ev.fanin hab
          rw [agree a (by omega), agree b (by omega)]
          by_cases hik : i = k
          · subst hik
            rw [hk] at hab
            cases hab
            simp [w]
          · simp only [w]
            rw [if_neg hik]
            exact hg i (by omega) a b hab
        · have hik : i ≠ k := fun hik => hi left right (hik ▸ hk)
          simp only [w]
          rw [if_neg hik]
          exact hl i hi h
      · refine ⟨v, h0, fun i hi a b hab => ?_, hl⟩
        have hik : i ≠ k := fun hik => hk ⟨a, b, hik ▸ hab⟩
        exact hg i (by omega) a b hab
  obtain ⟨v, h0, hg, hl⟩ := below g.nodes.size
  exact ⟨v, ⟨h0, fun h => hg _ (lt_size h) _ _ h⟩, hl⟩

/-- Solutions that agree on the leaves agree on all nodes. -/
theorem solution_unique {v w : Nat → Bool} (hv : g.Solution v) (hw : g.Solution w)
    (inputs : ∀ name, g.inputValue v name = g.inputValue w name)
    (latches : ∀ name, g.latchValue v name = g.latchValue w name) :
    ∀ i < g.nodes.size, v i = w i := by
  intro i
  induction i using Nat.strongRecOn with
  | _ i ih =>
    intro hi
    obtain ⟨node, hn⟩ : ∃ node, g.nodes[i]? = some node := ⟨_, Array.getElem?_eq_getElem hi⟩
    cases node with
    | zero =>
      obtain rfl := ev.zero_unique hn
      rw [hv.zero, hw.zero]
    | input =>
      obtain ⟨name, hname⟩ := ev.input.1 hn
      simpa [inputValue, hname] using inputs name
    | latch next init =>
      obtain ⟨name, hname⟩ := ev.latch.1 ⟨next, init, hn⟩
      simpa [latchValue, hname] using latches name
    | and left right =>
      have ⟨hl, hr⟩ := ev.fanin hn
      rw [hv.gate hn, hw.gate hn, Literal.under_congr (ih _ hl (by omega)),
        Literal.under_congr (ih _ hr (by omega))]

end Graph.Evaluable

end AndInverter
