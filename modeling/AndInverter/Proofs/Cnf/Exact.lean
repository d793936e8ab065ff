import AndInverter.Proofs.Cnf.Encode
import AndInverter.Proofs.Graph.Reachable
import Mathlib.Data.List.Nodup
import Mathlib.Logic.ExistsUnique

/-! The encoding is exact. The assignments that satisfy the clauses are the solutions of the graph,
so values of the inputs and latches extend to just one of them, which gives every output its
value. -/

namespace AndInverter

/-! ### Assignments -/

namespace Cnf

/-- Values of the variables `1` to `n`. -/
abbrev Assignment (n : Nat) := Fin n → Bool

/-- The value of a variable, `false` for one that is out of range. -/
def Assignment.var {n : Nat} (α : Assignment n) (k : Nat) : Bool :=
  if h : k - 1 < n then α ⟨k - 1, h⟩ else false

/-- The value of a literal where the variables have the values `w`. -/
def under (x : Int) (w : Nat → Bool) : Bool := if x < 0 then !w x.natAbs else w x.natAbs

/-- All clauses are satisfied. -/
def Holds (c : Cnf) (w : Nat → Bool) : Prop :=
  ∀ clause ∈ c.clauses, ∃ x ∈ clause, under x w = true

/-- The variables of inputs and latches have their values. -/
structure Agrees (c : Cnf) (inputs state : Valuation) (w : Nat → Bool) : Prop where
  inputs : ∀ (name : String) x, c.inputs[name]? = some x → inputs[name]? = some (under x w)
  latches : ∀ (name : String) x, c.latches[name]? = some x → state[name]? = some (under x w)

/-- The literal stands somewhere in the formula or its names. -/
def Occurs (c : Cnf) (x : Int) : Prop :=
  x ∈ c.clauses.flatten ∨ x ∈ c.inputs.values ∨ x ∈ c.latches.values ∨ x ∈ c.outputs.values

theorem foldl_max_le_iff {l : List Nat} {a b : Nat} :
    l.foldl max a ≤ b ↔ a ≤ b ∧ ∀ x ∈ l, x ≤ b := by
  induction l generalizing a with
  | nil => simp
  | cons x l ih =>
    rw [List.foldl_cons, ih, List.forall_mem_cons, ← and_assoc]
    exact and_congr_left fun _ => Nat.max_le

theorem varCount_le_iff {c : Cnf} {b : Nat} :
    c.varCount ≤ b ↔ ∀ x, c.Occurs x → x.natAbs ≤ b := by
  simp only [varCount, foldl_max_le_iff, List.forall_mem_map, List.mem_append, Occurs, or_assoc,
    Nat.zero_le, true_and]

theorem Occurs.natAbs_le {c : Cnf} {x : Int} (h : c.Occurs x) : x.natAbs ≤ c.varCount :=
  varCount_le_iff.1 (Nat.le_refl _) x h

theorem Assignment.var_eq {n k : Nat} {w : Nat → Bool} (hpos : 1 ≤ k) (hle : k ≤ n) :
    Assignment.var (fun i : Fin n => w (i + 1)) k = w k := by
  have hlt : k - 1 < n := by omega
  have back : k - 1 + 1 = k := by omega
  rw [Assignment.var, dif_pos hlt]
  exact congrArg w back

theorem Assignment.ext_var {n : Nat} {α β : Assignment n}
    (same : ∀ k, 1 ≤ k → k ≤ n → α.var k = β.var k) : α = β := by
  funext i
  have := same (i + 1) (by omega) (by omega)
  simpa [Assignment.var] using this

theorem under_neg {x : Int} (hx : x ≠ 0) (w : Nat → Bool) : under (-x) w = !under x w := by
  by_cases hneg : x < 0
  · rw [under, under, if_neg (by omega), if_pos hneg, Int.natAbs_neg, Bool.not_not]
  · rw [under, under, if_pos (by omega), if_neg hneg, Int.natAbs_neg]

theorem under_of_pos {x : Int} (hx : 1 ≤ x) (w : Nat → Bool) : under x w = w x.natAbs := by
  rw [under, if_neg (by omega)]

/-- A clause of one literal says what its variable is. -/
theorem under_unit {x : Int} (hx : 1 ≤ x) (value : Bool) (w : Nat → Bool) :
    under (if value then x else -x) w = true ↔ w x.natAbs = value := by
  cases value
  · simp [under_neg (show x ≠ 0 by omega), under_of_pos hx]
  · simp [under_of_pos hx]

end Cnf

/-! ### The clauses of a gate -/

namespace NodeVars

variable {vars : NodeVars}

/-- The values of the nodes that have variables. -/
def nodeValue (vars : NodeVars) (w : Nat → Bool) (i : Nat) : Bool :=
  if i = 0 then false else w (vars.var i).natAbs

theorem Numbered.one_le_var (numbered : vars.Numbered) {i : Nat} (hi : i ∈ vars) :
    1 ≤ vars.var i :=
  (numbered.range (getElem?_var hi)).1

theorem Numbered.lit_ne_zero (numbered : vars.Numbered) {l : Literal} (hl : l.id ∈ vars) :
    vars.lit l ≠ 0 := by
  have := numbered.one_le_var hl
  rw [lit]
  split <;> omega

theorem Numbered.var_inj (numbered : vars.Numbered) {i j : Nat} (hi : i ∈ vars) (hj : j ∈ vars)
    (h : vars.var i = vars.var j) : i = j :=
  numbered.inj (getElem?_var hi) (h ▸ getElem?_var hj)

theorem under_lit (numbered : vars.Numbered) {l : Literal} (hl : l.id ∈ vars) (h0 : l.id ≠ 0)
    (w : Nat → Bool) : Cnf.under (vars.lit l) w = l.under (vars.nodeValue w) := by
  have pos := numbered.one_le_var hl
  have node : Cnf.under (vars.var l.id) w = vars.nodeValue w l.id := by
    rw [Cnf.under_of_pos pos, nodeValue, if_neg h0]
  have nodeNeg := Cnf.under_neg (show vars.var l.id ≠ 0 by omega) w
  rw [lit, Literal.under, Literal.apply]
  cases l.negated <;> simp [node, nodeNeg]

end NodeVars

/-- The clauses of a gate hold where the gate is the conjunction of its arguments. -/
theorem Cnf.holds_gateFormula_iff {vars : NodeVars} (numbered : vars.Numbered) {i : Nat}
    {left right : Literal} (hi : i ∈ vars) (hleft : left.id ∈ vars) (hright : right.id ∈ vars)
    (h0 : i ≠ 0 ∧ left.id ≠ 0 ∧ right.id ≠ 0) (w : Nat → Bool) :
    (∀ clause ∈ gateFormula vars i left right, ∃ x ∈ clause, under x w = true) ↔
      vars.nodeValue w i =
        (left.under (vars.nodeValue w) && right.under (vars.nodeValue w)) := by
  have pos := numbered.one_le_var hi
  have gate : under (vars.var i) w = vars.nodeValue w i := by
    rw [under_of_pos pos, NodeVars.nodeValue, if_neg h0.1]
  have gateNeg : under (-vars.var i) w = !vars.nodeValue w i := by
    rw [under_neg (by omega), gate]
  have arg := NodeVars.under_lit numbered hleft h0.2.1 w
  have arg' := NodeVars.under_lit numbered hright h0.2.2 w
  have argNeg := under_neg (numbered.lit_ne_zero hleft) w
  have argNeg' := under_neg (numbered.lit_ne_zero hright) w
  simp only [gateFormula, List.forall_mem_cons, List.exists_mem_cons_iff, List.not_mem_nil,
    false_implies, implies_true, false_and, exists_false, gate, gateNeg, arg, arg', argNeg, argNeg',
    and_true, or_false]
  generalize vars.nodeValue w i = x
  generalize left.under (vars.nodeValue w) = a
  generalize right.under (vars.nodeValue w) = b
  revert x a b
  decide

/-! ### Solutions and assignments -/

namespace Graph

variable {g : Graph} {vars : NodeVars} {start c : Cnf} {last : Int}

/-- The variables of constant outputs have the values of these. -/
def ConstantsHold (g : Graph) (c : Cnf) (w : Nat → Bool) : Prop :=
  ∀ (name : String) l v, g.outputs[name]? = some l → l.id = 0 → c.outputs[name]? = some v →
    w v.natAbs = l.negated

namespace IsEncoding

variable (encoding : g.IsEncoding vars start c last)
include encoding

theorem output_cases {name : String} {x : Int} (h : c.outputs[name]? = some x) :
    ∃ l, g.outputs[name]? = some l ∧
      (l.id ≠ 0 ∧ x = vars.lit l ∨ l.id = 0 ∧ vars.size < x ∧ x ≤ last) := by
  have hmem := (encoding.outputs.mem name).1 (mem_iff_exists_getElem?.2 ⟨x, h⟩)
  obtain ⟨⟨name, l⟩, hentry, rfl⟩ := List.mem_map.1 hmem
  refine ⟨l, Std.ExtTreeMap.mem_toList_iff_getElem?_eq_some.1 hentry, ?_⟩
  by_cases h0 : l.id = 0
  · obtain ⟨v, hv, hlt, hle, -⟩ := encoding.outputs.const name l hentry h0
    cases hv.symm.trans h
    exact .inr ⟨h0, hlt, hle⟩
  · have := encoding.outputs.gate name l hentry h0
    exact .inl ⟨h0, Option.some.inj (h.symm.trans this)⟩

theorem clause_iff {clause : List Int} :
    clause ∈ c.clauses ↔
      (∃ i left right, g.nodes[i]? = some (.and left right) ∧
        clause ∈ Cnf.gateFormula vars i left right) ∨
      ∃ (name : String) (l : Literal) (v : Int), g.outputs[name]? = some l ∧ l.id = 0 ∧
        c.outputs[name]? = some v ∧ clause = [if l.negated then v else -v] := by
  simp only [encoding.outputs.clauses, encoding.gates,
    Std.ExtTreeMap.mem_toList_iff_getElem?_eq_some]

theorem gate_mem (wf : g.WellFormed) {i : Nat} {left right : Literal}
    (hi : g.nodes[i]? = some (.and left right)) :
    (i ∈ vars ∧ left.id ∈ vars ∧ right.id ∈ vars) ∧ i ≠ 0 ∧ left.id ≠ 0 ∧ right.id ≠ 0 := by
  have := wf.fanin hi
  have := wf.ascending hi
  have := lt_size hi
  simp only [encoding.mem]
  omega

theorem input_mem (wf : g.WellFormed) {name : String} {i : Nat}
    (h : g.inputs[name]? = some i) : i ∈ vars := by
  have hi := wf.input.2 ⟨name, h⟩
  refine (encoding.mem i).2 ⟨?_, lt_size hi⟩
  rintro rfl
  rw [wf.zero] at hi
  cases hi

theorem latch_mem (wf : g.WellFormed) {name : String} {i : Nat}
    (h : g.latches[name]? = some i) : i ∈ vars := by
  obtain ⟨next, init, hi⟩ := wf.latch.2 ⟨name, h⟩
  refine (encoding.mem i).2 ⟨?_, lt_size hi⟩
  rintro rfl
  rw [wf.zero] at hi
  cases hi

/-- The satisfying values are those that solve the equations of the gates and fix the constants. -/
theorem holds_iff (wf : g.WellFormed) (w : Nat → Bool) :
    c.Holds w ↔ g.Solution (vars.nodeValue w) ∧ g.ConstantsHold c w := by
  have gate {i : Nat} {left right : Literal} (hi : g.nodes[i]? = some (.and left right)) :=
    have ⟨⟨hvar, hleft, hright⟩, h0⟩ := encoding.gate_mem wf hi
    Cnf.holds_gateFormula_iff encoding.numbered hvar hleft hright h0 w
  have const {name : String} {l : Literal} {v : Int} (hl : g.outputs[name]? = some l)
      (h0 : l.id = 0) (hv : c.outputs[name]? = some v) :
      Cnf.under (if l.negated then v else -v) w = true ↔ w v.natAbs = l.negated := by
    obtain ⟨l', hl', h | h⟩ := encoding.output_cases hv
    · cases hl.symm.trans hl'
      exact absurd h0 h.1
    · exact Cnf.under_unit (by omega) _ _
  constructor
  · intro holds
    refine ⟨⟨rfl, fun {i left right} hi => (gate hi).1 fun clause hc => ?_⟩,
      fun name l v hl h0 hv => (const hl h0 hv).1 ?_⟩
    · exact holds clause (encoding.clause_iff.2 (.inl ⟨i, left, right, hi, hc⟩))
    · have := holds _ (encoding.clause_iff.2 (.inr ⟨name, l, v, hl, h0, hv, rfl⟩))
      simpa using this
  · rintro ⟨solution, constants⟩ clause hc
    rcases encoding.clause_iff.1 hc with ⟨i, left, right, hi, hc⟩ | ⟨name, l, v, hl, h0, hv, rfl⟩
    · exact (gate hi).2 (solution.gate hi) clause hc
    · exact ⟨_, List.mem_singleton.2 rfl, (const hl h0 hv).2 (constants name l v hl h0 hv)⟩

/-- Values of the variables for given values of the nodes. -/
theorem exists_values (u : Nat → Bool) :
    ∃ w : Nat → Bool, (∀ i ∈ vars, w (vars.var i).natAbs = u i) ∧ g.ConstantsHold c w := by
  classical
  let isNode (k : Nat) := ∃ i ∈ vars, (vars.var i).natAbs = k ∧ u i = true
  let isConst (k : Nat) := ∃ (name : String) (l : Literal) (v : Int), g.outputs[name]? = some l ∧
    l.id = 0 ∧ c.outputs[name]? = some v ∧ v.natAbs = k ∧ l.negated = true
  have const {name : String} {l : Literal} {v : Int} (hl : g.outputs[name]? = some l)
      (h0 : l.id = 0) (hv : c.outputs[name]? = some v) : vars.size < v := by
    obtain ⟨l', hl', h | h⟩ := encoding.output_cases hv
    · cases hl.symm.trans hl'
      exact absurd h0 h.1
    · exact h.2.1
  have node {i : Nat} (hi : i ∈ vars) :=
    encoding.numbered.range (NodeVars.getElem?_var hi)
  refine ⟨fun k => decide (isNode k ∨ isConst k), fun i hi => ?_, fun name l v hl h0 hv => ?_⟩
  · rw [Bool.eq_iff_iff, decide_eq_true_iff]
    constructor
    · rintro (⟨j, hj, heq, huj⟩ | ⟨name, l, v, hl, h0, hv, heq, -⟩)
      · have hij : vars.var j = vars.var i := by
          have := node hi
          have := node hj
          omega
        rwa [encoding.numbered.var_inj hj hi hij] at huj
      · have := const hl h0 hv
        have := node hi
        omega
    · exact fun hu => .inl ⟨i, hi, rfl, hu⟩
  · rw [Bool.eq_iff_iff, decide_eq_true_iff]
    have hlt := const hl h0 hv
    constructor
    · rintro (⟨i, hi, heq, -⟩ | ⟨name', l', v', hl', h0', hv', heq, hneg⟩)
      · have := node hi
        omega
      · have hlt' := const hl' h0' hv'
        obtain rfl : v' = v := by omega
        obtain rfl := encoding.outputs.apart hlt hv hv'
        cases hl.symm.trans hl'
        exact hneg
    · exact fun hneg => .inr ⟨name, l, v, hl, h0, hv, rfl, hneg⟩

/-- Every literal that occurs is that of a node or of a constant. -/
theorem natAbs_of_occurs (wf : g.WellFormed) {x : Int} (h : c.Occurs x) :
    1 ≤ x.natAbs ∧ x.natAbs ≤ last := by
  have size_le := encoding.outputs.size_le
  have node {i : Nat} (hi : i ∈ vars) : 1 ≤ vars.var i ∧ vars.var i ≤ last := by
    have := encoding.numbered.range (NodeVars.getElem?_var hi)
    omega
  have lit {l : Literal} (hl : l.id ∈ vars) :
      1 ≤ (vars.lit l).natAbs ∧ (vars.lit l).natAbs ≤ last := by
    have := node hl
    rw [NodeVars.lit]
    split <;> omega
  have leaf {m : NameMap Nat} (hm : ∀ (name : String) i, m[name]? = some i → i ∈ vars)
      {name : String} (h : (m[name]?).map vars.var = some x) :
      1 ≤ x.natAbs ∧ x.natAbs ≤ last := by
    obtain ⟨i, hi, rfl⟩ := Option.map_eq_some_iff.1 h
    have := node (hm name i hi)
    omega
  have output {name : String} (h : c.outputs[name]? = some x) :
      1 ≤ x.natAbs ∧ x.natAbs ≤ last := by
    obtain ⟨l, hl, ⟨h0, rfl⟩ | h⟩ := encoding.output_cases h
    · exact lit ((encoding.mem _).2 ⟨h0, wf.output hl⟩)
    · omega
  rcases h with h | h | h | h
  · obtain ⟨clause, hc, hx⟩ := List.mem_flatten.1 h
    rcases encoding.clause_iff.1 hc with ⟨i, left, right, hi, hc⟩ | ⟨name, l, v, hl, h0, hv, rfl⟩
    · obtain ⟨⟨hvar, hleft, hright⟩, -⟩ := encoding.gate_mem wf hi
      have hi := node hvar
      have hl := lit hleft
      have hr := lit hright
      simp only [Cnf.gateFormula, List.mem_cons, List.not_mem_nil, or_false] at hc
      rcases hc with rfl | rfl | rfl <;>
        simp only [List.mem_cons, List.not_mem_nil, or_false] at hx <;> omega
    · obtain ⟨l', hl', h | h⟩ := encoding.output_cases hv
      · cases hl.symm.trans hl'
        exact absurd h0 h.1
      · rw [List.mem_singleton.1 hx]
        split <;> omega
  · obtain ⟨name, hname⟩ := mem_values_iff.1 h
    exact leaf (fun _ _ => encoding.input_mem wf) (encoding.inputs name ▸ hname)
  · obtain ⟨name, hname⟩ := mem_values_iff.1 h
    exact leaf (fun _ _ => encoding.latch_mem wf) (encoding.latches name ▸ hname)
  · obtain ⟨name, hname⟩ := mem_values_iff.1 h
    exact output hname

/-- Every node has a variable that occurs. -/
theorem occurs_var (wf : g.WellFormed) {i : Nat} (hi : i ∈ vars) : c.Occurs (vars.var i) := by
  obtain ⟨h0, hlt⟩ := (encoding.mem i).1 hi
  obtain ⟨node, hnode⟩ : ∃ node, g.nodes[i]? = some node := ⟨_, Array.getElem?_eq_getElem hlt⟩
  cases node with
  | zero => exact absurd (wf.zero_unique hnode) h0
  | input =>
    obtain ⟨name, hname⟩ := wf.input.1 hnode
    exact .inr (.inl (mem_values_iff.2 ⟨name, by rw [encoding.inputs, hname]; rfl⟩))
  | latch next init =>
    obtain ⟨name, hname⟩ := wf.latch.1 ⟨next, init, hnode⟩
    exact .inr (.inr (.inl (mem_values_iff.2 ⟨name, by rw [encoding.latches, hname]; rfl⟩)))
  | and left right =>
    have first := encoding.clause_iff.2 (.inl ⟨i, left, right, hnode, List.mem_cons_self⟩)
    exact .inl (List.mem_flatten.2 ⟨_, first, List.mem_cons_self⟩)

theorem varCount_le (wf : g.WellFormed) : c.varCount ≤ last := by
  have bound : c.varCount ≤ last.toNat := Cnf.varCount_le_iff.2 fun x h => by
    have := encoding.natAbs_of_occurs wf h
    omega
  have := encoding.outputs.size_le
  omega

/-- Every variable is that of a node or of a constant output. -/
theorem var_cases (wf : g.WellFormed) {k : Nat} (hpos : 1 ≤ k) (hle : k ≤ c.varCount) :
    (∃ i ∈ vars, (vars.var i).natAbs = k) ∨
      ∃ (name : String) (l : Literal) (v : Int), g.outputs[name]? = some l ∧ l.id = 0 ∧
        c.outputs[name]? = some v ∧ v.natAbs = k := by
  have hlast : (k : Int) ≤ last := by
    have := encoding.varCount_le wf
    omega
  by_cases hnode : (k : Int) ≤ vars.size
  · obtain ⟨i, hi⟩ := encoding.numbered.onto (v := k) (by omega) hnode
    refine .inl ⟨i, mem_iff_exists_getElem?.2 ⟨k, hi⟩, ?_⟩
    rw [NodeVars.var, hi, Option.getD_some]
    rfl
  · obtain ⟨name, l, hentry, h0, hv⟩ := encoding.outputs.fresh k (by omega) hlast
    exact .inr ⟨name, l, k, Std.ExtTreeMap.mem_toList_iff_getElem?_eq_some.1 hentry, h0, hv, rfl⟩

theorem varCount_lt (wf : g.WellFormed) : c.varCount < g.nodes.size + g.outputs.size := by
  have nodes := NodeVars.size_of_mem_iff wf.pos encoding.mem
  have last_eq := encoding.outputs.last_eq
  have constants : Cnf.constants g.outputs.toList ≤ g.outputs.toList.length :=
    List.countP_le_length
  rw [Std.ExtTreeMap.length_toList] at constants
  have := encoding.varCount_le wf
  omega

/-- An assignment agrees with values of the leaves where the nodes have these values. -/
theorem agrees_iff (wf : g.WellFormed) {inputs state : Valuation} {w : Nat → Bool} :
    c.Agrees inputs state w ↔
      (∀ (name : String) i, g.inputs[name]? = some i →
        inputs[name]? = some (vars.nodeValue w i)) ∧
      ∀ (name : String) i, g.latches[name]? = some i →
        state[name]? = some (vars.nodeValue w i) := by
  have value {i : Nat} (hi : i ∈ vars) :
      Cnf.under (vars.var i) w = vars.nodeValue w i := by
    rw [Cnf.under_of_pos (encoding.numbered.one_le_var hi), NodeVars.nodeValue,
      if_neg ((encoding.mem i).1 hi).1]
  have leaf {names : NameMap Nat} {literals : NameMap Int} (values : Valuation)
      (known : ∀ (name : String) i, names[name]? = some i → i ∈ vars)
      (same : ∀ name : String, literals[name]? = (names[name]?).map vars.var) :
      (∀ (name : String) x, literals[name]? = some x → values[name]? = some (Cnf.under x w)) ↔
        ∀ (name : String) i, names[name]? = some i →
          values[name]? = some (vars.nodeValue w i) := by
    constructor
    · intro h name i hi
      rw [← value (known name i hi)]
      exact h name _ (by rw [same, hi]; rfl)
    · intro h name x hx
      obtain ⟨i, hi, rfl⟩ := Option.map_eq_some_iff.1 ((same name).symm.trans hx)
      rw [value (known name i hi)]
      exact h name i hi
  have inputs_iff := leaf inputs (fun _ _ => encoding.input_mem wf) encoding.inputs
  have latches_iff := leaf state (fun _ _ => encoding.latch_mem wf) encoding.latches
  exact ⟨fun h => ⟨inputs_iff.1 h.inputs, latches_iff.1 h.latches⟩,
    fun h => ⟨inputs_iff.2 h.1, latches_iff.2 h.2⟩⟩

/-- The literal of an output has the value of the output. -/
theorem outputValue_eq {w : Nat → Bool} (wf : g.WellFormed) (constants : g.ConstantsHold c w)
    (name : String) :
    (c.outputs[name]?).map (Cnf.under · w) = g.outputValue (vars.nodeValue w) name := by
  cases hx : c.outputs[name]? with
  | none =>
    have hmem : name ∉ g.outputs := by
      rw [← not_mem_iff_getElem?, encoding.outputs.mem, Std.ExtTreeMap.map_fst_toList_eq_keys,
        Std.ExtTreeMap.mem_keys] at hx
      exact hx
    rw [outputValue_eq_none hmem]
    rfl
  | some x =>
    obtain ⟨l, hl, ⟨h0, rfl⟩ | ⟨h0, hlt, -⟩⟩ := encoding.output_cases hx
    · have hvar := (encoding.mem l.id).2 ⟨h0, wf.output hl⟩
      rw [outputValue, hl, Option.map_some, Option.map_some,
        NodeVars.under_lit encoding.numbered hvar h0]
    · have hval := constants name l x hl h0 hx
      rw [outputValue, hl, Option.map_some, Option.map_some, Cnf.under_of_pos (by omega), hval]
      simp [Literal.under, Literal.apply, NodeVars.nodeValue, h0]

/-- The variables of inputs and latches are different. -/
theorem nodup_leafVars (wf : g.WellFormed) : (c.inputs.values ++ c.latches.values).Nodup := by
  have node {names : NameMap Nat} {literals : NameMap Int}
      (same : ∀ name : String, literals[name]? = (names[name]?).map vars.var) {name : String}
      {x : Int} (h : literals[name]? = some x) : ∃ i, names[name]? = some i ∧ vars.var i = x :=
    Option.map_eq_some_iff.1 ((same name).symm.trans h)
  refine List.nodup_append.2 ⟨nodup_values fun {a b x} ha hb => ?_,
    nodup_values fun {a b x} ha hb => ?_, fun x hx y hy heq => ?_⟩
  · obtain ⟨i, hi, rfl⟩ := node encoding.inputs ha
    obtain ⟨j, hj, heq⟩ := node encoding.inputs hb
    obtain rfl := encoding.numbered.var_inj (encoding.input_mem wf hj)
      (encoding.input_mem wf hi) heq
    exact wf.input_inj hi hj
  · obtain ⟨i, hi, rfl⟩ := node encoding.latches ha
    obtain ⟨j, hj, heq⟩ := node encoding.latches hb
    obtain rfl := encoding.numbered.var_inj (encoding.latch_mem wf hj)
      (encoding.latch_mem wf hi) heq
    exact wf.latch_inj hi hj
  · subst heq
    obtain ⟨a, ha⟩ := mem_values_iff.1 hx
    obtain ⟨b, hb⟩ := mem_values_iff.1 hy
    obtain ⟨i, hi, rfl⟩ := node encoding.inputs ha
    obtain ⟨j, hj, heq⟩ := node encoding.latches hb
    obtain rfl := encoding.numbered.var_inj (encoding.latch_mem wf hj)
      (encoding.input_mem wf hi) heq
    exact (List.nodup_append.1 wf.nodup_leaves).2.2 j (mem_values_iff.2 ⟨a, hi⟩) j
      (mem_values_iff.2 ⟨b, hj⟩) rfl

/-- No two assignments agree with the same values. -/
theorem assignment_unique (wf : g.WellFormed) {inputs state : Valuation}
    {α β : Cnf.Assignment c.varCount} (ha : c.Agrees inputs state α.var) (hα : c.Holds α.var)
    (hb : c.Agrees inputs state β.var) (hβ : c.Holds β.var) : α = β := by
  obtain ⟨solution, constants⟩ := (encoding.holds_iff wf _).1 hα
  obtain ⟨solution', constants'⟩ := (encoding.holds_iff wf _).1 hβ
  obtain ⟨hin, hlatch⟩ := (encoding.agrees_iff wf).1 ha
  obtain ⟨hin', hlatch'⟩ := (encoding.agrees_iff wf).1 hb
  have same := wf.solution_unique solution solution'
    (fun name => by
      cases hi : g.inputs[name]? with
      | none => simp only [inputValue, hi, Option.map_none]
      | some i => simp only [inputValue, hi, Option.map_some, ← hin name i hi, ← hin' name i hi])
    (fun name => by
      cases hi : g.latches[name]? with
      | none => simp only [latchValue, hi, Option.map_none]
      | some i =>
        simp only [latchValue, hi, Option.map_some, ← hlatch name i hi, ← hlatch' name i hi])
  refine Cnf.Assignment.ext_var fun k hpos hle => ?_
  rcases encoding.var_cases wf hpos hle with ⟨i, hi, rfl⟩ | ⟨name, l, v, hl, h0, hv, rfl⟩
  · obtain ⟨h0, hlt⟩ := (encoding.mem i).1 hi
    have := same i hlt
    rwa [NodeVars.nodeValue, NodeVars.nodeValue, if_neg h0, if_neg h0] at this
  · rw [constants name l v hl h0 hv, constants' name l v hl h0 hv]

/-- A step is the reading of an assignment that agrees with its values. -/
theorem exists_assignment (wf : g.WellFormed) {inputs state : Valuation} {step : Step}
    (hstep : g.eval inputs (some state) = .ok step) (hlatches : ∀ x ∈ g.latches, x ∈ state) :
    ∃ α : Cnf.Assignment c.varCount, c.Agrees inputs state α.var ∧ c.Holds α.var ∧
      ∀ y : String, (c.outputs[y]?).map (Cnf.under · α.var) = step.outputs[y]? := by
  obtain ⟨u, hu⟩ := wf.eval_eq_ok_iff.1 hstep
  obtain ⟨w, hnodes, hconst⟩ := encoding.exists_values (c := c) u
  let α : Cnf.Assignment c.varCount := fun i => w (i + 1)
  have constants : g.ConstantsHold c α.var := fun name l v hl h0 hv => by
    have occurs : c.Occurs v := .inr (.inr (.inr (mem_values_iff.2 ⟨name, hv⟩)))
    rw [Cnf.Assignment.var_eq (encoding.natAbs_of_occurs wf occurs).1 occurs.natAbs_le]
    exact hconst name l v hl h0 hv
  have same : ∀ i < g.nodes.size, vars.nodeValue α.var i = u i := fun i hi => by
    by_cases h0 : i = 0
    · rw [NodeVars.nodeValue, if_pos h0, h0, hu.solution.zero]
    · have hvar := (encoding.mem i).2 ⟨h0, hi⟩
      have occurs := encoding.occurs_var wf hvar
      rw [NodeVars.nodeValue, if_neg h0,
        Cnf.Assignment.var_eq (encoding.natAbs_of_occurs wf occurs).1 occurs.natAbs_le,
        hnodes i hvar]
  have solution : g.Solution (vars.nodeValue α.var) := ⟨rfl, fun {i left right} hi => by
    have hlt := lt_size hi
    have ⟨hl, hr⟩ := wf.fanin hi
    rw [same i hlt, Literal.under_congr (same _ (Nat.lt_trans hl hlt)),
      Literal.under_congr (same _ (Nat.lt_trans hr hlt)), hu.solution.gate hi]⟩
  refine ⟨α, (encoding.agrees_iff wf).2 ⟨fun name i hi => ?_, fun name i hi => ?_⟩,
    (encoding.holds_iff wf _).2 ⟨solution, constants⟩, fun y => ?_⟩
  · have := hu.inputs name (mem_iff_exists_getElem?.2 ⟨i, hi⟩)
    rw [← this, inputValue, hi, Option.map_some, same i (lt_size (wf.input.2 ⟨name, hi⟩))]
  · have hmem := mem_iff_exists_getElem?.2 ⟨i, hi⟩
    obtain ⟨l, hl⟩ := wf.mem_latches_iff.1 hmem
    obtain ⟨value, hvalue⟩ := mem_iff_exists_getElem?.1 (hlatches name hmem)
    have := hu.latches name
    rw [latchValue, hi, initial, hl, Option.map_some, Option.map_some, Option.map_some,
      Option.getD_some, hvalue, Option.getD_some] at this
    obtain ⟨next, init, hnode⟩ := wf.latch.2 ⟨name, hi⟩
    rw [hvalue, same i (lt_size hnode), ← this]
  · rw [encoding.outputValue_eq wf constants, hu.outputs,
      wf.outputValue_congr (v := vars.nodeValue α.var) same]

end IsEncoding

/-- The encoding of a graph is exact, if the variables are numbers of 32 bits, and however the program is
built. Values of the inputs and latches extend to one assignment that satisfies the clauses, under which
every output has the value of the step. -/
theorem toCnf_exact (overflow : Overflow) {g : Graph} (reachable : g.Reachable)
    (few : g.FewVariables) :
    ∃ c, g.toCnfWith overflow = .ok c ∧
      ((∀ x, x ∈ c.inputs ↔ x ∈ g.inputs) ∧ (∀ x, x ∈ c.latches ↔ x ∈ g.latches) ∧
        ∀ y, y ∈ c.outputs ↔ y ∈ g.outputs) ∧
      (c.inputs.values ++ c.latches.values).Nodup ∧
      (∀ x, c.Occurs x → x ≠ 0 ∧ x.natAbs ≤ c.varCount) ∧
      c.varCount < g.nodes.size + g.outputs.size ∧
      ∀ inputs state : Valuation, (∀ x ∈ g.inputs, x ∈ inputs) → (∀ x ∈ g.latches, x ∈ state) →
        (∃! α : Cnf.Assignment c.varCount, c.Agrees inputs state α.var ∧ c.Holds α.var) ∧
        ∃ step, g.eval inputs (some state) = .ok step ∧
          ∀ α : Cnf.Assignment c.varCount, c.Agrees inputs state α.var → c.Holds α.var →
            ∀ y : String, (c.outputs[y]?).map (Cnf.under · α.var) = step.outputs[y]? := by
  have wf := reachable.wellFormed
  obtain ⟨c, vars, start, last, run, encoding⟩ := wf.exists_toCnf few overflow
  have leaf {names : NameMap Nat} {literals : NameMap Int}
      (same : ∀ name : String, literals[name]? = (names[name]?).map vars.var) (x : String) :
      x ∈ literals ↔ x ∈ names := by
    rw [Std.ExtTreeMap.mem_iff_isSome_getElem?, same, Option.isSome_map,
      Std.ExtTreeMap.mem_iff_isSome_getElem?]
  refine ⟨c, run, ⟨leaf encoding.inputs, leaf encoding.latches, fun y => ?_⟩,
    encoding.nodup_leafVars wf, fun x hx => ⟨?_, hx.natAbs_le⟩, encoding.varCount_lt wf,
    fun inputs state hinputs hlatches => ?_⟩
  · rw [encoding.outputs.mem, Std.ExtTreeMap.map_fst_toList_eq_keys, Std.ExtTreeMap.mem_keys]
  · have := encoding.natAbs_of_occurs wf hx
    omega
  · obtain ⟨step, hstep⟩ : ∃ step, g.eval inputs (some state) = .ok step :=
      wf.exists_eval_ok_iff.2 hinputs
    obtain ⟨α, hagrees, holds, houtputs⟩ := encoding.exists_assignment wf hstep hlatches
    have unique (β : Cnf.Assignment c.varCount) (hβ : c.Agrees inputs state β.var)
        (hβ' : c.Holds β.var) : β = α :=
      encoding.assignment_unique wf hβ hβ' hagrees holds
    exact ⟨⟨α, ⟨hagrees, holds⟩, fun β hβ => unique β hβ.1 hβ.2⟩, step, hstep,
      fun β hβ hβ' => unique β hβ hβ' ▸ houtputs⟩

/-- A gate with a negated output, beside a constant output. -/
theorem toCnf_exact_nand : ∃ g c,
    Build.graph ([.input "a", .input "b", .and (.positive 1) (.positive 2),
      .output "t" (.ofBool true), .output "y" (-.positive 3)].forM Growth.build) = .ok g ∧
    g.toCnf = .ok c ∧ c.clauses = [[3, -1, -2], [-3, 1], [-3, 2], [4]] ∧
    c.outputs["t"]? = some 4 ∧ c.outputs["y"]? = some (-3) ∧ ∀ a b : Bool,
      ∃! α : Cnf.Assignment c.varCount, (c.Agrees (NameMap.ofPairs [("a", a), ("b", b)]) ∅ α.var ∧
        c.Holds α.var) ∧ Cnf.under 4 α.var = true ∧ Cnf.under (-3) α.var = !(a && b) := by
  obtain ⟨g, hg, few, leaves, noLatches, values, c, hc, clauses, t, y⟩ : ∃ g,
      Build.graph ([.input "a", .input "b", .and (.positive 1) (.positive 2),
        .output "t" (.ofBool true), .output "y" (-.positive 3)].forM Growth.build) = .ok g ∧
      g.nodes.size + g.constantOutputs ≤ 2 ^ 31 ∧ g.inputs.keys = ["a", "b"] ∧
      g.latches.keys = [] ∧
      (∀ a b : Bool, ∃ step,
        g.eval (NameMap.ofPairs [("a", a), ("b", b)]) (some ∅) = .ok step ∧
          step.outputs["t"]? = some true ∧ step.outputs["y"]? = some !(a && b)) ∧
      ∃ c, g.toCnf = .ok c ∧ c.clauses = [[3, -1, -2], [-3, 1], [-3, 2], [4]] ∧
        c.outputs["t"]? = some 4 ∧ c.outputs["y"]? = some (-3) := by
    decide +kernel
  obtain ⟨c', hc', -, -, -, -, exact⟩ := toCnf_exact .wraps (reachable_of_growths hg) few
  obtain rfl := Except.ok.inj (hc.symm.trans hc')
  refine ⟨g, c, hg, hc, clauses, t, y, fun a b => ?_⟩
  have covered : ∀ x ∈ g.inputs, x ∈ NameMap.ofPairs [("a", a), ("b", b)] := by
    intro x hx
    rw [← Std.ExtTreeMap.mem_keys, leaves] at hx
    rw [NameMap.ofPairs, Std.ExtTreeMap.mem_ofList, List.contains_iff_mem]
    exact hx
  have stateless : ∀ x ∈ g.latches, x ∈ (∅ : Valuation) := by
    intro x hx
    rw [← Std.ExtTreeMap.mem_keys, noLatches] at hx
    cases hx
  obtain ⟨⟨α, hα, unique⟩, step, hstep, outputs⟩ := exact _ ∅ covered stateless
  obtain ⟨step', hstep', ht, hy⟩ := values a b
  obtain rfl := Except.ok.inj (hstep.symm.trans hstep')
  have value := outputs α hα.1 hα.2
  refine ⟨α, ⟨hα, ?_, ?_⟩, fun β hβ => unique β hβ.1⟩
  · simpa [t, ht] using value "t"
  · simpa [y, hy] using value "y"

/-- A constant output that is false, after the last variable of 32 bits. A program with checks stops there.
In one without, a clause says that the literal of the output is true. -/
theorem toCnf_limit : ∃ g : Graph, g.Reachable ∧ g.nodes.size = 1 ∧
    g.toCnfWith .stops = .error .inconsistent ∧
    ∃ c, g.toCnf = .ok c ∧ ∃ step, g.eval ∅ (some ∅) = .ok step ∧ ∃ y : String,
      step.outputs[y]? = some false ∧ ∀ α : Cnf.Assignment c.varCount, c.Holds α.var →
        (c.outputs[y]?).map (Cnf.under · α.var) = some true := by
  obtain ⟨outputs, hg, size, zeros⟩ := exists_zeros (2 ^ 31)
  have reachable : ({ empty with outputs := outputs } : Graph).Reachable := .source hg
  have wf := reachable.wellFormed
  have length : outputs.toList.length = 2 ^ 31 := by rw [Std.ExtTreeMap.length_toList, size]
  have zero (e : String × Literal) (he : e ∈ outputs.toList) : e.2 = .ofBool false :=
    (zeros e.1 e.2 (Std.ExtTreeMap.mem_toList_iff_getElem?_eq_some.1 he)).1
  obtain h | ⟨first, ⟨y, l⟩, entries⟩ := List.eq_nil_or_concat outputs.toList
  · rw [h] at length
    cases length
  rw [entries] at zero length
  have hl : l = .ofBool false := zero (y, l) (by simp)
  have constants : Cnf.constants first = first.length :=
    List.countP_eq_length.2 fun e he => by
      rw [zero e (by simp [he])]
      rfl
  have full : 1 + Cnf.constants first = 2 ^ 31 := by
    rw [constants, Nat.add_comm]
    simpa using length
  obtain ⟨stops, c, hc, hy, clause⟩ := wf.toCnf_full
    (by simpa using entries) (congrArg Literal.id hl) full
  obtain ⟨step, hstep⟩ : ∃ step, Graph.eval { empty with outputs := outputs } ∅ (some ∅) = .ok step :=
    wf.exists_eval_ok_iff.2 fun name h => absurd h (by simp [empty])
  obtain ⟨v, hv⟩ := wf.eval_eq_ok_iff.1 hstep
  have value : outputs[y]? = some (.ofBool false) := by
    refine Std.ExtTreeMap.mem_toList_iff_getElem?_eq_some.1 ?_
    rw [entries, hl]
    simp
  refine ⟨_, reachable, rfl, stops, c, hc, step, hstep, y, ?_, fun α holds => ?_⟩
  · rw [hv.outputs, outputValue]
    show (outputs[y]?).map (·.under v) = _
    rw [value, Option.map_some, hv.solution.under_ofBool]
  · obtain ⟨x, hx, true_⟩ := holds _ clause
    rw [hy, Option.map_some, ← List.mem_singleton.1 hx, true_]

end Graph

end AndInverter
