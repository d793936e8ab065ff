import AndInverter.Cnf.Encode
import AndInverter.Proofs.Overflow
import AndInverter.Proofs.Graph.Layers

/-! What the encoding of a graph consists of. Every node but the constant has a variable of its own,
every gate its three clauses, and every constant output a variable that a clause fixes. -/

namespace AndInverter

namespace NodeVars

/-- Different nodes have different variables, and these are the numbers from `1` on. -/
structure Numbered (vars : NodeVars) : Prop where
  range : ∀ {i : Nat} {v : Int}, vars[i]? = some v → 1 ≤ v ∧ v ≤ vars.size
  inj : ∀ {i j : Nat} {v : Int}, vars[i]? = some v → vars[j]? = some v → i = j
  onto : ∀ {v : Int}, 1 ≤ v → v ≤ vars.size → ∃ i : Nat, vars[i]? = some v

/-- A variable that no node has. -/
def fresh (vars : NodeVars) : Int := vars.size + 1

/-- One more node with a variable. -/
def grow (vars : NodeVars) (id : Nat) : NodeVars := vars.insert id vars.fresh

/-- The variable of a node that has one. -/
def var (vars : NodeVars) (i : Nat) : Int := (vars[i]?).getD 0

/-- The literal over variables for a literal over nodes that have one. -/
def lit (vars : NodeVars) (l : Literal) : Int :=
  if l.negated then -vars.var l.id else vars.var l.id

variable {vars : NodeVars} {i j : Nat}

theorem numbered_empty : Numbered (∅ : NodeVars) := by
  refine ⟨by simp, by simp, fun {v} hpos hle => ?_⟩
  rw [Std.ExtTreeMap.size_empty] at hle
  omega

theorem getElem?_var (h : i ∈ vars) : vars[i]? = some (vars.var i) := by
  obtain ⟨v, hv⟩ := mem_iff_exists_getElem?.1 h
  simp [var, hv]

theorem Numbered.natAbs_lit (numbered : vars.Numbered) {l : Literal} (h : l.id ∈ vars) :
    1 ≤ (vars.lit l).natAbs ∧ (vars.lit l).natAbs ≤ vars.size := by
  have := numbered.range (getElem?_var h)
  rw [lit]
  split <;> omega

/-- Positive node numbers below `n` leave less than `n` variables. -/
theorem size_lt {n : Nat} (pos : 0 < n) (inside : ∀ i ∈ vars, i ≠ 0 ∧ i < n) : vars.size < n := by
  have sub : vars.keys ⊆ List.range' 1 (n - 1) := by
    intro i hi
    have := inside i (Std.ExtTreeMap.mem_keys.1 hi)
    rw [List.mem_range'_1]
    omega
  have := (List.subperm_of_subset vars.nodup_keys sub).length_le
  rw [Std.ExtTreeMap.length_keys, List.length_range'] at this
  omega

theorem size_of_mem_iff {n : Nat} (pos : 0 < n) (mem : ∀ i, i ∈ vars ↔ i ≠ 0 ∧ i < n) :
    vars.size + 1 = n := by
  have perm : vars.keys.Perm (List.range' 1 (n - 1)) := by
    refine (List.perm_ext_iff_of_nodup vars.nodup_keys List.nodup_range').2 fun i => ?_
    rw [Std.ExtTreeMap.mem_keys, mem, List.mem_range'_1]
    omega
  have := perm.length_eq
  rw [Std.ExtTreeMap.length_keys, List.length_range'] at this
  omega

/-! What is computed with numbers of 32 bits, as long as there are few enough variables. -/

section Small

variable {overflow : Overflow}

theorem next_eq (overflow : Overflow) (small : vars.size + 1 < 2 ^ 31) :
    vars.next overflow = .ok vars.fresh := by
  rw [next, Overflow.truncate_of_lt (by omega)]
  exact Overflow.int32_of_fits ⟨by omega, by omega⟩

theorem literal_eq (numbered : vars.Numbered) (small : vars.size < 2 ^ 31) {l : Literal}
    (h : l.id ∈ vars) : vars.literal overflow l = .ok (vars.lit l) := by
  have range := numbered.range (getElem?_var h)
  rw [literal, getElem?_var h, promised_some, except_ok_bind, lit]
  split
  · exact Overflow.neg_eq (by omega)
  · rfl

theorem foldlM_add_eq {ids : List Nat} (small : vars.size + ids.length < 2 ^ 31) :
    ids.foldlM (add overflow) vars = .ok (ids.foldl grow vars) := by
  induction ids generalizing vars with
  | nil => rfl
  | cons i ids ih =>
    rw [List.length_cons] at small
    have size : (vars.grow i).size ≤ vars.size + 1 := by
      rw [grow, Std.ExtTreeMap.size_insert]
      split <;> omega
    rw [List.foldlM_cons, add, next_eq overflow (by omega)]
    exact @ih (vars.grow i) (by omega)

end Small

theorem getElem?_grow : (vars.grow i)[j]? = if j = i then some vars.fresh else vars[j]? := by
  rw [grow, Std.ExtTreeMap.getElem?_insert]
  simp only [Std.LawfulEqCmp.compare_eq_iff_eq, eq_comm (a := i)]

theorem mem_grow_iff : j ∈ vars.grow i ↔ j = i ∨ j ∈ vars := by
  rw [grow, Std.ExtTreeMap.mem_insert, Std.LawfulEqCmp.compare_eq_iff_eq, eq_comm]

theorem getElem?_grow_of_mem (hi : i ∉ vars) (hj : j ∈ vars) : (vars.grow i)[j]? = vars[j]? := by
  rw [getElem?_grow, if_neg]
  rintro rfl
  exact hi hj

theorem size_grow (hi : i ∉ vars) : (vars.grow i).size = vars.size + 1 := by
  rw [grow, Std.ExtTreeMap.size_insert, if_neg (mt Std.ExtTreeMap.mem_iff_contains.2 hi)]

theorem var_grow_self : (vars.grow i).var i = vars.fresh := by
  simp [var, getElem?_grow]

theorem lit_grow (hi : i ∉ vars) {l : Literal} (hl : l.id ∈ vars) :
    (vars.grow i).lit l = vars.lit l := by
  simp only [lit, var, getElem?_grow_of_mem hi hl]

theorem Numbered.grow (numbered : vars.Numbered) (hi : i ∉ vars) : (vars.grow i).Numbered := by
  have size := size_grow hi
  refine ⟨fun {j v} h => ?_, fun {j k v} hj hk => ?_, fun {v} hpos hle => ?_⟩
  · rw [getElem?_grow] at h
    split at h
    · cases h
      rw [size, fresh]
      omega
    · have := numbered.range h
      omega
  · -- The new variable is greater than all others.
    have new {j : Nat} : vars[j]? ≠ some vars.fresh := fun h => by
      have := numbered.range h
      simp only [fresh] at this
      omega
    rw [getElem?_grow] at hj hk
    split at hj <;> split at hk
    · omega
    · cases hj
      exact (new hk).elim
    · cases hk
      exact (new hj).elim
    · exact numbered.inj hj hk
  · by_cases hv : v = vars.fresh
    · exact ⟨i, by rw [getElem?_grow, if_pos rfl, hv]⟩
    · rw [fresh] at hv
      obtain ⟨j, hj⟩ := numbered.onto hpos (by omega)
      exact ⟨j, by rw [getElem?_grow_of_mem hi (mem_iff_exists_getElem?.2 ⟨v, hj⟩), hj]⟩

/-- New variables for a list of new nodes. -/
theorem Numbered.foldl_grow {ids : List Nat} (numbered : vars.Numbered) (distinct : ids.Nodup)
    (new : ∀ i ∈ ids, i ∉ vars) :
    (ids.foldl NodeVars.grow vars).Numbered ∧
      ∀ j, j ∈ ids.foldl NodeVars.grow vars ↔ j ∈ vars ∨ j ∈ ids := by
  induction ids generalizing vars with
  | nil => exact ⟨numbered, by simp⟩
  | cons i ids ih =>
    rw [List.nodup_cons] at distinct
    have hi := new i List.mem_cons_self
    obtain ⟨numbered', hmem⟩ := ih (numbered.grow hi) distinct.2 fun j hj => by
      rw [mem_grow_iff]
      rintro (rfl | h)
      · exact distinct.1 hj
      · exact new j (List.mem_cons_of_mem _ hj) h
    refine ⟨numbered', fun j => ?_⟩
    rw [List.foldl_cons, hmem, mem_grow_iff, List.mem_cons, or_assoc, or_left_comm]

end NodeVars

namespace Cnf

/-- The clauses of a gate whose arguments are no constants. -/
def gateFormula (vars : NodeVars) (i : Nat) (left right : Literal) : List (List Int) :=
  [[vars.var i, -vars.lit left, -vars.lit right], [-vars.var i, vars.lit left],
    [-vars.var i, vars.lit right]]

theorem gateClauses_eq (overflow : Overflow) {vars : NodeVars} (numbered : vars.Numbered)
    (small : vars.size < 2 ^ 31) {i : Nat} {left right : Literal} (hl : 1 ≤ left.id)
    (hr : 1 ≤ right.id) (hi : i ∈ vars) (hleft : left.id ∈ vars) (hright : right.id ∈ vars) :
    gateClauses overflow vars (vars.var i) left right = .ok (gateFormula vars i left right) := by
  have const {l : Literal} (h : 1 ≤ l.id) : l.const? = none := by
    simp [Literal.const?, Literal.isConst]
    omega
  have range := numbered.range (NodeVars.getElem?_var hi)
  have neg : overflow.neg (vars.var i) = .ok (-vars.var i) := Overflow.neg_eq (by omega)
  have negLit {l : Literal} (h : l.id ∈ vars) : overflow.neg (vars.lit l) = .ok (-vars.lit l) := by
    have := numbered.natAbs_lit h
    exact Overflow.neg_eq (by omega)
  simp [gateClauses, const hl, const hr, NodeVars.literal_eq numbered small hleft,
    NodeVars.literal_eq numbered small hright, neg, negLit hleft, negLit hright, gateFormula]

/-- The gates in `done` are encoded, after the leaves. -/
structure EncodedTo (g : Graph) (leaves : NodeVars) (done : List Nat) (vars : NodeVars)
    (clauses : List (List Int)) : Prop where
  numbered : vars.Numbered
  old : ∀ {i : Nat} {v : Int}, leaves[i]? = some v → vars[i]? = some v
  inside : ∀ i ∈ vars, i ≠ 0 ∧ i < g.nodes.size
  mem : ∀ i, i ∈ vars ↔ i ∈ leaves ∨ i ∈ done
  args : ∀ i ∈ done, ∀ left right, g.nodes[i]? = some (.and left right) →
    left.id ∈ vars ∧ right.id ∈ vars
  clauses : ∀ clause, clause ∈ clauses ↔ ∃ i ∈ done, ∃ left right,
    g.nodes[i]? = some (.and left right) ∧ clause ∈ gateFormula vars i left right

variable {g : Graph} {leaves vars : NodeVars} {done : List Nat}
  {clauses : List (List Int)}

theorem gateFormula_grow {i j : Nat} {left right : Literal} (hi : i ∉ vars) (hj : j ∈ vars)
    (hl : left.id ∈ vars) (hr : right.id ∈ vars) :
    gateFormula (vars.grow i) j left right = gateFormula vars j left right := by
  simp only [gateFormula, NodeVars.lit_grow hi hl, NodeVars.lit_grow hi hr, NodeVars.var,
    NodeVars.getElem?_grow_of_mem hi hj]

theorem EncodedTo.addGate (overflow : Overflow) (wf : g.WellFormed) (small : g.nodes.size ≤ 2 ^ 31)
    (encoded : EncodedTo g leaves done vars clauses) {i : Nat} {left right : Literal}
    (hi : g.nodes[i]? = some (.and left right)) (new : i ∉ vars)
    (hleft : left.id ∈ vars) (hright : right.id ∈ vars) :
    ∃ clauses', addGate overflow g (vars, clauses) i = .ok (vars.grow i, clauses') ∧
      EncodedTo g leaves (done ++ [i]) (vars.grow i) clauses' := by
  have ⟨hpos, hlt⟩ := wf.ascending hi
  have grow {j : Nat} (hj : j ∈ vars) : j ∈ vars.grow i := NodeVars.mem_grow_iff.2 (.inr hj)
  have inside (j : Nat) (hj : j ∈ vars.grow i) : j ≠ 0 ∧ j < g.nodes.size := by
    rcases NodeVars.mem_grow_iff.1 hj with rfl | hj
    · have := (wf.fanin hi).1
      exact ⟨by omega, Graph.lt_size hi⟩
    · exact encoded.inside j hj
  have size := NodeVars.size_lt wf.pos inside
  have one := NodeVars.size_grow new
  have hpos' : 1 ≤ right.id := by omega
  have run := gateClauses_eq overflow (encoded.numbered.grow new) (by omega) hpos hpos'
    (NodeVars.mem_grow_iff.2 (.inl rfl)) (grow hleft) (grow hright)
  rw [NodeVars.var_grow_self, NodeVars.grow] at run
  have next := vars.next_eq overflow (by omega)
  refine ⟨clauses ++ gateFormula (vars.grow i) i left right,
    by simp [Cnf.addGate, hi, next, run, NodeVars.grow],
    encoded.numbered.grow new, fun {j v} h => ?_, inside, fun j => ?_, fun j hj l r hlr => ?_,
    fun clause => ?_⟩
  · rw [NodeVars.getElem?_grow_of_mem new ((encoded.mem j).2
      (.inl (mem_iff_exists_getElem?.2 ⟨v, h⟩)))]
    exact encoded.old h
  · rw [NodeVars.mem_grow_iff, encoded.mem, List.mem_append, List.mem_singleton]
    exact or_rotate
  · rcases List.mem_append.1 hj with hj | hj
    · have ⟨hl, hr⟩ := encoded.args j hj l r hlr
      exact ⟨grow hl, grow hr⟩
    · obtain rfl := List.mem_singleton.1 hj
      cases hi.symm.trans hlr
      exact ⟨grow hleft, grow hright⟩
  · have same (j : Nat) (hj : j ∈ done) (l r : Literal) (hlr : g.nodes[j]? = some (.and l r)) :
        gateFormula (vars.grow i) j l r = gateFormula vars j l r := by
      have ⟨hl, hr⟩ := encoded.args j hj l r hlr
      exact gateFormula_grow new ((encoded.mem j).2 (.inr hj)) hl hr
    rw [List.mem_append, encoded.clauses]
    constructor
    · rintro (⟨j, hj, l, r, hlr, hc⟩ | hc)
      · exact ⟨j, List.mem_append_left _ hj, l, r, hlr, same j hj l r hlr ▸ hc⟩
      · exact ⟨i, List.mem_append_right _ (List.mem_singleton.2 rfl), left, right, hi, hc⟩
    · rintro ⟨j, hj, l, r, hlr, hc⟩
      rcases List.mem_append.1 hj with hj | hj
      · exact .inl ⟨j, hj, l, r, hlr, same j hj l r hlr ▸ hc⟩
      · obtain rfl := List.mem_singleton.1 hj
        cases hi.symm.trans hlr
        exact .inr hc

/-- Gates in order are encoded one after the other. -/
theorem EncodedTo.addGates (overflow : Overflow) (wf : g.WellFormed) (small : g.nodes.size ≤ 2 ^ 31)
    {items ready : List Nat} (encoded : EncodedTo g leaves done vars clauses)
    (order : Layering.InOrder g.reads ready items) (known : ∀ i ∈ ready, i ≠ 0 → i ∈ vars)
    (gates : ∀ i ∈ items, ∃ left right, g.nodes[i]? = some (.and left right))
    (distinct : items.Nodup) (new : ∀ i ∈ items, i ∉ vars) :
    ∃ vars' clauses', items.foldlM (Cnf.addGate overflow g) (vars, clauses) =
        .ok (vars', clauses') ∧
      EncodedTo g leaves (done ++ items) vars' clauses' := by
  induction items generalizing done vars clauses ready with
  | nil => exact ⟨vars, clauses, rfl, by simpa using encoded⟩
  | cons i items ih =>
    obtain ⟨left, right, hi⟩ := gates i List.mem_cons_self
    have ⟨hpos, hlt⟩ := wf.ascending hi
    rw [List.nodup_cons] at distinct
    have hnew := new i List.mem_cons_self
    obtain ⟨clauses', run, encoded'⟩ := encoded.addGate overflow wf small hi hnew
      (known _ (order.1 _ (Graph.mem_reads_iff.2 ⟨left, right, hi, .inl rfl⟩)) (by omega))
      (known _ (order.1 _ (Graph.mem_reads_iff.2 ⟨left, right, hi, .inr rfl⟩)) (by omega))
    obtain ⟨vars'', clauses'', run', encoded''⟩ := ih encoded' order.2
      (fun j hj h0 => NodeVars.mem_grow_iff.2
        ((List.mem_cons.1 hj).imp id fun hj => known j hj h0))
      (fun j hj => gates j (List.mem_cons_of_mem _ hj)) distinct.2
      (fun j hj => by
        rw [NodeVars.mem_grow_iff]
        rintro (rfl | h)
        · exact distinct.1 hj
        · exact new j (List.mem_cons_of_mem _ hj) h)
    exact ⟨vars'', clauses'', by rw [List.foldlM_cons, run]; exact run',
      by simpa using encoded''⟩

/-- The number of constant ones. -/
def constants (outputs : List (String × Literal)) : Nat := outputs.countP (·.2.isConst)

/-- The outputs in `done` have their literals. Those of constants are variables of their own after
those of the nodes, up to `last`. -/
structure OutputsTo (vars : NodeVars) (start : Cnf) (done : List (String × Literal)) (c : Cnf)
    (last : Int) : Prop where
  inputs : c.inputs = start.inputs
  latches : c.latches = start.latches
  last_eq : last = vars.size + constants done
  le_last : ∀ {name : String} {v : Int}, c.outputs[name]? = some v → v ≤ last
  mem : ∀ name, name ∈ c.outputs ↔ name ∈ done.map Prod.fst
  gate : ∀ name l, (name, l) ∈ done → l.id ≠ 0 → c.outputs[name]? = some (vars.lit l)
  const : ∀ name l, (name, l) ∈ done → l.id = 0 → ∃ v, c.outputs[name]? = some v ∧
    vars.size < v ∧ v ≤ last ∧ [if l.negated then v else -v] ∈ c.clauses
  fresh : ∀ v, vars.size < v → v ≤ last →
    ∃ name l, (name, l) ∈ done ∧ l.id = 0 ∧ c.outputs[name]? = some v
  apart : ∀ {a b : String} {v : Int}, vars.size < v → c.outputs[a]? = some v →
    c.outputs[b]? = some v → a = b
  clauses : ∀ clause, clause ∈ c.clauses ↔ clause ∈ start.clauses ∨ ∃ name l v,
    (name, l) ∈ done ∧ l.id = 0 ∧ c.outputs[name]? = some v ∧
      clause = [if l.negated then v else -v]

variable {start c : Cnf} {last : Int} {outputsDone : List (String × Literal)}

theorem OutputsTo.size_le (outputs : OutputsTo vars start outputsDone c last) :
    vars.size ≤ last := by
  have := outputs.last_eq
  omega

/-- One more output, which is the literal of a node or, for a constant, a new variable with its
clause. -/
theorem OutputsTo.insert (outputs : OutputsTo vars start outputsDone c last) {name : String}
    {l : Literal} (new : name ∉ outputsDone.map Prod.fst) {x last' : Int} {more : List (List Int)}
    (node : l.id ≠ 0 → x = vars.lit l ∧ x ≤ vars.size ∧ last' = last ∧ more = [])
    (const : l.id = 0 → x = last + 1 ∧ last' = last + 1 ∧ more = [[if l.negated then x else -x]]) :
    OutputsTo vars start (outputsDone ++ [(name, l)])
      { c with clauses := c.clauses ++ more, outputs := c.outputs.insert name x } last' := by
  have size_le := outputs.size_le
  have count : last' = vars.size + constants (outputsDone ++ [(name, l)]) := by
    rw [constants, List.countP_append, List.countP_singleton, ← constants, Int.natCast_add,
      ← Int.add_assoc, ← outputs.last_eq]
    by_cases hl : l.id = 0
    · simp [Literal.isConst, hl, (const hl).2.1]
    · simp [Literal.isConst, hl, (node hl).2.2.1]
  have bound : last ≤ last' ∧ last' ≤ last + 1 ∧ x ≤ last' ∧
      (vars.size < x → last < x) := by
    by_cases hl : l.id = 0
    · have := const hl
      omega
    · have := node hl
      omega
  have keep {n : String} {m : Literal} (h : (n, m) ∈ outputsDone) :
      (c.outputs.insert name x)[n]? = c.outputs[n]? := by
    rw [NameMap.getElem?_insert, if_neg]
    rintro rfl
    exact new (List.mem_map_of_mem h)
  have oldOrNew {n : String} {m : Literal} (h : (n, m) ∈ outputsDone ++ [(name, l)]) :
      (n, m) ∈ outputsDone ∨ n = name ∧ m = l := by
    simpa using h
  have self : (c.outputs.insert name x)[name]? = some x := by simp
  refine ⟨outputs.inputs, outputs.latches, count, fun {n v} h => ?_, fun n => ?_,
    fun n m h h0 => ?_, fun n m h h0 => ?_, fun v hlt hle => ?_, fun {a b v} hv ha hb => ?_,
    fun clause => ?_⟩
  · rw [NameMap.getElem?_insert] at h
    split at h
    · cases h
      exact bound.2.2.1
    · exact Int.le_trans (outputs.le_last h) bound.1
  · rw [NameMap.mem_insert_iff, outputs.mem, List.map_append, List.mem_append, List.map_cons,
      List.map_nil, List.mem_singleton, or_comm]
  · rcases oldOrNew h with h | ⟨rfl, rfl⟩
    · exact (keep h).trans (outputs.gate n m h h0)
    · exact self.trans (congrArg some (node h0).1)
  · rcases oldOrNew h with h | ⟨rfl, rfl⟩
    · obtain ⟨v, hv, hlt, hle, hc⟩ := outputs.const n m h h0
      exact ⟨v, (keep h).trans hv, hlt, Int.le_trans hle bound.1, List.mem_append_left _ hc⟩
    · obtain ⟨hx, hlast, rfl⟩ := const h0
      exact ⟨x, self, by omega, by omega, by simp⟩
  · by_cases hv : v ≤ last
    · obtain ⟨n, m, hmem, h0, hn⟩ := outputs.fresh v hlt hv
      exact ⟨n, m, List.mem_append_left _ hmem, h0, (keep hmem).trans hn⟩
    · have hl : l.id = 0 := Classical.byContradiction fun hl => by
        have := node hl
        omega
      have := const hl
      obtain rfl : v = x := by omega
      exact ⟨name, l, by simp, hl, self⟩
  · -- An old variable is not greater than `last`, the new one of a constant is.
    rw [NameMap.getElem?_insert] at ha hb
    split at ha <;> split at hb
    · simp_all
    · cases ha
      have := outputs.le_last hb
      omega
    · cases hb
      have := outputs.le_last ha
      omega
    · exact outputs.apart hv ha hb
  · rw [List.mem_append, outputs.clauses, or_assoc]
    refine or_congr_right ⟨?_, ?_⟩
    · rintro (⟨n, m, v, h, h0, hv, rfl⟩ | hc)
      · exact ⟨n, m, v, List.mem_append_left _ h, h0, (keep h).trans hv, rfl⟩
      · have hl : l.id = 0 := Classical.byContradiction fun hl => by simp [node hl] at hc
        obtain ⟨-, -, rfl⟩ := const hl
        exact ⟨name, l, x, by simp, hl, self, List.mem_singleton.1 hc⟩
    · rintro ⟨n, m, v, h, h0, hv, rfl⟩
      rcases oldOrNew h with h | ⟨rfl, rfl⟩
      · exact .inl ⟨n, m, v, h, h0, (keep h).symm.trans hv, rfl⟩
      · obtain rfl := Option.some.inj (self.symm.trans hv)
        obtain ⟨-, -, rfl⟩ := const h0
        exact .inr (List.mem_singleton.2 rfl)

theorem constants_append (done items : List (String × Literal)) :
    constants (done ++ items) = constants done + constants items :=
  List.countP_append

theorem OutputsTo.addOutput (overflow : Overflow)
    (outputs : OutputsTo vars start outputsDone c last) {name : String} {l : Literal}
    (small : vars.size + constants (outputsDone ++ [(name, l)]) < 2 ^ 31)
    (new : name ∉ outputsDone.map Prod.fst) (numbered : vars.Numbered)
    (known : l.id ≠ 0 → l.id ∈ vars) :
    ∃ c' last', addOutput overflow vars (c, last) (name, l) = .ok (c', last') ∧
      OutputsTo vars start (outputsDone ++ [(name, l)]) c' last' := by
  have last_eq := outputs.last_eq
  rw [constants_append] at small
  by_cases hl : l.id = 0
  · have one : constants [(name, l)] = 1 := by simp [constants, Literal.isConst, hl]
    have next : overflow.int32 (last + 1) = .ok (last + 1) :=
      Overflow.int32_of_fits ⟨by omega, by omega⟩
    have neg : overflow.neg (last + 1) = .ok (-(last + 1)) := Overflow.neg_eq (by omega)
    have fixed : unit overflow (last + 1) l.negated =
        .ok [if l.negated then last + 1 else -(last + 1)] := by
      rw [unit, neg]
      cases l.negated <;> rfl
    exact ⟨_, _, by simp [Cnf.addOutput, Literal.const?, Literal.isConst, hl, next, fixed],
      outputs.insert new (fun h => absurd hl h) fun _ => ⟨rfl, rfl, rfl⟩⟩
  · have range := numbered.range (NodeVars.getElem?_var (known hl))
    have le : vars.lit l ≤ vars.size := by
      rw [NodeVars.lit]
      split <;> omega
    have next := outputs.insert new (fun _ => ⟨rfl, le, rfl, rfl⟩) fun h => absurd h hl
    rw [List.append_nil] at next
    exact ⟨_, _, by simp [Cnf.addOutput, Literal.const?, Literal.isConst, hl,
      NodeVars.literal_eq numbered (by omega) (known hl)], next⟩

theorem OutputsTo.addOutputs (overflow : Overflow) (items : List (String × Literal))
    (outputs : OutputsTo vars start outputsDone c last)
    (small : vars.size + constants (outputsDone ++ items) < 2 ^ 31) (numbered : vars.Numbered)
    (distinct : ((outputsDone ++ items).map Prod.fst).Nodup)
    (known : ∀ e ∈ items, e.2.id ≠ 0 → e.2.id ∈ vars) :
    ∃ c' last', items.foldlM (Cnf.addOutput overflow vars) (c, last) = .ok (c', last') ∧
      OutputsTo vars start (outputsDone ++ items) c' last' := by
  induction items generalizing outputsDone c last with
  | nil => exact ⟨c, last, rfl, by simpa using outputs⟩
  | cons e items ih =>
    rw [List.append_cons] at small distinct
    have new : e.1 ∉ outputsDone.map Prod.fst := fun h => by
      rw [List.map_append, List.map_append] at distinct
      exact (List.nodup_append.1 (List.nodup_append.1 distinct).1).2.2 _ h e.1 (by simp) rfl
    have step : vars.size + constants (outputsDone ++ [e]) < 2 ^ 31 := by
      rw [constants_append] at small
      omega
    obtain ⟨c', last', run, outputs'⟩ := outputs.addOutput overflow step new numbered
      (known e List.mem_cons_self)
    obtain ⟨c'', last'', run', outputs''⟩ := ih outputs' small distinct
      (fun e' he' => known e' (List.mem_cons_of_mem _ he'))
    exact ⟨c'', last'', by rw [List.foldlM_cons, run]; exact run', by simpa using outputs''⟩

/-- A constant output after the last number of 32 bits. -/
theorem addOutput_last {name : String} {l : Literal} (hl : l.id = 0) :
    addOutput .stops vars (c, 2 ^ 31 - 1) (name, l) = .error .inconsistent ∧
    addOutput .wraps vars (c, 2 ^ 31 - 1) (name, l) = .ok ({ c with
      clauses := c.clauses ++ [[-2 ^ 31]]
      outputs := c.outputs.insert name (-2 ^ 31) }, -2 ^ 31) := by
  have const : l.const? = some l.negated := by simp [Literal.const?, Literal.isConst, hl]
  have far : ¬Overflow.Fits (2 ^ 31 - 1 + 1) := by simp [Overflow.Fits]
  have wrapped : Overflow.wraps.int32 (2 ^ 31 - 1 + 1) = .ok (-2 ^ 31) := by decide
  have neg : Overflow.wraps.neg (-2 ^ 31) = .ok (-2 ^ 31) := by decide
  have fixed : unit .wraps (-2 ^ 31) l.negated = .ok [-2 ^ 31] := by
    rw [unit, neg]
    cases l.negated <;> rfl
  constructor
  · simp only [addOutput, const]
    rw [Overflow.int32_stops far]
    rfl
  · simp only [addOutput, const]
    rw [wrapped, except_ok_bind, fixed]
    rfl

end Cnf

/-- The encoding of a whole graph. -/
structure Graph.IsEncoding (g : Graph) (vars : NodeVars) (start c : Cnf) (last : Int) : Prop where
  numbered : vars.Numbered
  mem : ∀ i, i ∈ vars ↔ i ≠ 0 ∧ i < g.nodes.size
  inputs : ∀ x : String, c.inputs[x]? = (g.inputs[x]?).map vars.var
  latches : ∀ x : String, c.latches[x]? = (g.latches[x]?).map vars.var
  gates : ∀ clause, clause ∈ start.clauses ↔ ∃ i left right,
    g.nodes[i]? = some (.and left right) ∧ clause ∈ Cnf.gateFormula vars i left right
  outputs : Cnf.OutputsTo vars start g.outputs.toList c last

namespace Graph

variable {g : Graph}

/-- The nodes with a name, of which no two are the same. -/
theorem Evaluable.nodup_leaves (ev : g.Evaluable) :
    (g.inputs.values ++ g.latches.values).Nodup := by
  refine List.nodup_append.2
    ⟨nodup_values ev.input_inj, nodup_values ev.latch_inj, fun i hi j hj heq => ?_⟩
  subst heq
  have hin := ev.input.2 (mem_values_iff.1 hi)
  obtain ⟨next, init, hlatch⟩ := ev.latch.2 (mem_values_iff.1 hj)
  rw [hin] at hlatch
  cases hlatch

theorem Evaluable.mem_leaves_iff (ev : g.Evaluable) {i : Nat} :
    i ∈ g.inputs.values ++ g.latches.values ↔
      i ≠ 0 ∧ i < g.nodes.size ∧ ∀ left right, g.nodes[i]? ≠ some (.and left right) := by
  rw [List.mem_append, mem_values_iff, mem_values_iff, ← ev.input, ← ev.latch]
  constructor
  · rintro (h | ⟨next, init, h⟩)
    all_goals
      refine ⟨?_, lt_size h, by simp [h]⟩
      rintro rfl
      rw [ev.zero] at h
      cases h
  · rintro ⟨h0, hi, hand⟩
    obtain ⟨node, hnode⟩ : ∃ node, g.nodes[i]? = some node := ⟨_, Array.getElem?_eq_getElem hi⟩
    cases node with
    | zero => exact absurd (ev.zero_unique hnode) h0
    | input => exact .inl hnode
    | latch next init => exact .inr ⟨next, init, hnode⟩
    | and left right => exact absurd hnode (hand left right)

/-- The variables of the nodes with a name. -/
def leafVars (g : Graph) : NodeVars :=
  (g.inputs.values ++ g.latches.values).foldl NodeVars.grow ∅

/-- There are no more of these than nodes besides the constant. -/
theorem Evaluable.length_leaves (ev : g.Evaluable) :
    (g.inputs.values ++ g.latches.values).length < g.nodes.size := by
  have sub : g.inputs.values ++ g.latches.values ⊆ List.range' 1 (g.nodes.size - 1) := by
    intro i hi
    have := ev.mem_leaves_iff.1 hi
    rw [List.mem_range'_1]
    omega
  have := (List.subperm_of_subset ev.nodup_leaves sub).length_le
  have := lt_size ev.zero
  rw [List.length_range'] at *
  omega

/-- All gates are encoded. Every node but the constant has a variable then, and the nodes with a name
have kept theirs. -/
theorem WellFormed.exists_gateClauses (wf : g.WellFormed) (small : g.nodes.size ≤ 2 ^ 31)
    (overflow : Overflow) : ∃ vars clauses,
    (g.layersFromLeaves.drop 1).flatten.foldlM (Cnf.addGate overflow g) (g.leafVars, []) =
      .ok (vars, clauses) ∧
    vars.Numbered ∧ (∀ i, i ∈ vars ↔ i ≠ 0 ∧ i < g.nodes.size) ∧
    (∀ i ∈ g.inputs.values ++ g.latches.values, g.leafVars[i]? = some (vars.var i)) ∧
    ∀ clause, clause ∈ clauses ↔ ∃ i left right,
      g.nodes[i]? = some (.and left right) ∧ clause ∈ Cnf.gateFormula vars i left right := by
  have ev := wf.toEvaluable
  obtain ⟨numbered, hleaves⟩ :=
    NodeVars.numbered_empty.foldl_grow ev.nodup_leaves fun i _ => by simp
  change g.leafVars.Numbered at numbered
  change ∀ i, i ∈ g.leafVars ↔ _ at hleaves
  simp only [Std.ExtTreeMap.not_mem_empty, false_or, ev.mem_leaves_iff] at hleaves
  obtain ⟨distinct, hgates, order⟩ := ev.gates_inOrder
  have encodedStart : Cnf.EncodedTo g g.leafVars [] g.leafVars [] :=
    ⟨numbered, id, fun i hi => ⟨((hleaves i).1 hi).1, ((hleaves i).1 hi).2.1⟩, by simp, by simp,
      by simp⟩
  obtain ⟨vars, clauses, run, encoded⟩ := encodedStart.addGates overflow wf small order
    (fun i hi h0 => by
      obtain ⟨hlt, hreads⟩ := wf.mem_dependencies_iff.1 (Layering.mem_ready_iff.1 hi)
      exact (hleaves i).2 ⟨h0, hlt, fun left right h =>
        reads_ne_nil_iff.2 ⟨left, right, h⟩ hreads.symm⟩)
    (fun i hi => (hgates i).1 hi) distinct
    (fun i hi h => by
      obtain ⟨left, right, hnode⟩ := (hgates i).1 hi
      exact ((hleaves i).1 h).2.2 left right hnode)
  refine ⟨vars, clauses, run, encoded.numbered, fun i => ?_, fun i hi => ?_, fun clause => ?_⟩
  · rw [encoded.mem, hleaves, List.nil_append, hgates]
    constructor
    · rintro (h | ⟨left, right, h⟩)
      · exact ⟨h.1, h.2.1⟩
      · obtain ⟨h1, h2⟩ := wf.fanin h
        exact ⟨by omega, lt_size h⟩
    · rintro ⟨h0, hlt⟩
      by_cases h : ∃ left right, g.nodes[i]? = some (.and left right)
      · exact .inr h
      · exact .inl ⟨h0, hlt, fun left right hnode => h ⟨left, right, hnode⟩⟩
  · -- The variables of leaves stay while gates are added.
    obtain ⟨v, hv⟩ := mem_iff_exists_getElem?.1 ((hleaves i).2 (ev.mem_leaves_iff.1 hi))
    rw [hv, NodeVars.var, encoded.old hv, Option.getD_some]
  · rw [encoded.clauses]
    simp only [List.nil_append, hgates]
    constructor
    · rintro ⟨i, -, left, right, h⟩
      exact ⟨i, left, right, h⟩
    · rintro ⟨i, left, right, hi, hc⟩
      exact ⟨i, ⟨left, right, hi⟩, left, right, hi, hc⟩

theorem getElem?_filterMap_leafVars {vars : NodeVars} {m : NameMap Nat}
    (same : ∀ i ∈ m.values, g.leafVars[i]? = some (vars.var i)) (x : String) :
    (m.filterMap fun _ i => g.leafVars[i]?)[x]? = (m[x]?).map vars.var := by
  rw [Std.ExtTreeMap.getElem?_filterMap]
  cases hx : m[x]? with
  | none => rfl
  | some i =>
    have := same i (mem_values_iff.2 ⟨x, hx⟩)
    simp [this]

/-- The outputs with a variable of their own. -/
def constantOutputs (g : Graph) : Nat := Cnf.constants g.outputs.toList

/-- The variables of the nodes but the constant, and of constant outputs, are numbers of 32 bits. -/
def FewVariables (g : Graph) : Prop := g.nodes.size + g.constantOutputs ≤ 2 ^ 31

/-- The formula before its outputs. -/
theorem WellFormed.exists_start (wf : g.WellFormed) (small : g.nodes.size ≤ 2 ^ 31)
    (overflow : Overflow) : ∃ vars start,
    g.toCnfWith overflow = (g.outputs.toList.foldlM (Cnf.addOutput overflow vars)
      (start, (vars.size : Int))).map Prod.fst ∧
    Cnf.OutputsTo vars start [] start vars.size ∧ vars.Numbered ∧ vars.size + 1 = g.nodes.size ∧
    (∀ e ∈ g.outputs.toList, e.2.id ≠ 0 → e.2.id ∈ vars) ∧
    ∀ c last, Cnf.OutputsTo vars start g.outputs.toList c last →
      g.IsEncoding vars start c last := by
  obtain ⟨vars, clauses, run, numbered, hvars, leaf, hclauses⟩ :=
    wf.exists_gateClauses small overflow
  let start : Cnf := ⟨clauses, g.inputs.filterMap fun _ i => g.leafVars[i]?,
    g.latches.filterMap fun _ i => g.leafVars[i]?, ∅⟩
  refine ⟨vars, start, ?_, ⟨rfl, rfl, by simp [Cnf.constants], by simp [start], by simp [start],
      by simp, by simp, fun v hlt hle => by omega, by simp [start], by simp⟩, numbered,
    NodeVars.size_of_mem_iff wf.pos hvars,
    fun e he h0 => (hvars _).2 ⟨h0, wf.output (Std.ExtTreeMap.mem_toList_iff_getElem?_eq_some.1 he)⟩,
    fun c last outputs => ⟨numbered, hvars, fun x => ?_, fun x => ?_, hclauses, outputs⟩⟩
  · have few := wf.toEvaluable.length_leaves
    have leaves : (g.inputs.values ++ g.latches.values).foldlM (NodeVars.add overflow) ∅ =
        .ok g.leafVars :=
      NodeVars.foldlM_add_eq (by rw [Std.ExtTreeMap.size_empty]; omega)
    have size := NodeVars.size_of_mem_iff wf.pos hvars
    rw [toCnfWith, leaves, except_ok_bind]
    show ((g.layersFromLeaves.drop 1).flatten.foldlM (Cnf.addGate overflow g) (g.leafVars, []) >>=
      _) = _
    rw [run, except_ok_bind]
    show (g.outputs.toList.foldlM (Cnf.addOutput overflow vars)
      (start, Overflow.truncate vars.size) >>= _) = _
    rw [Overflow.truncate_of_lt (by omega)]
    cases g.outputs.toList.foldlM (Cnf.addOutput overflow vars) (start, (vars.size : Int)) <;> rfl
  · rw [outputs.inputs]
    exact getElem?_filterMap_leafVars (fun i hi => leaf i (List.mem_append_left _ hi)) x
  · rw [outputs.latches]
    exact getElem?_filterMap_leafVars (fun i hi => leaf i (List.mem_append_right _ hi)) x

theorem WellFormed.exists_toCnf (wf : g.WellFormed) (few : g.FewVariables) (overflow : Overflow) :
    ∃ c vars start last, g.toCnfWith overflow = .ok c ∧ g.IsEncoding vars start c last := by
  have few' : g.nodes.size + Cnf.constants g.outputs.toList ≤ 2 ^ 31 := few
  obtain ⟨vars, start, run, outputsStart, numbered, size, known, encodes⟩ :=
    wf.exists_start (by omega) overflow
  obtain ⟨c, last, run', outputs⟩ := outputsStart.addOutputs overflow
    g.outputs.toList (by rw [List.nil_append]; omega) numbered
    (by simpa using nodup_map_fst_toList g.outputs) known
  exact ⟨c, vars, start, last, by rw [run, run']; rfl, encodes c last (by simpa using outputs)⟩

/-- The last output is constant, and the variables in front of its own are all that there are. -/
theorem WellFormed.toCnf_full (wf : g.WellFormed) {first : List (String × Literal)} {name : String}
    {l : Literal} (entries : g.outputs.toList = first ++ [(name, l)]) (hl : l.id = 0)
    (full : g.nodes.size + Cnf.constants first = 2 ^ 31) :
    g.toCnfWith .stops = .error .inconsistent ∧
    ∃ c, g.toCnf = .ok c ∧ c.outputs[name]? = some (-2 ^ 31) ∧ [-2 ^ 31] ∈ c.clauses := by
  have before (overflow : Overflow) : ∃ vars c, g.toCnfWith overflow =
      (Cnf.addOutput overflow vars (c, 2 ^ 31 - 1) (name, l)).map Prod.fst := by
    obtain ⟨vars, start, run, outputsStart, numbered, size, known, -⟩ :=
      wf.exists_start (by omega) overflow
    have distinct := nodup_map_fst_toList g.outputs
    rw [entries] at run known distinct
    rw [List.map_append] at distinct
    obtain ⟨c, last, run', outputs⟩ := outputsStart.addOutputs overflow first
      (by rw [List.nil_append]; omega) numbered
      (List.nodup_append.1 distinct).1 fun e he => known e (List.mem_append_left _ he)
    have last_eq := outputs.last_eq
    rw [List.nil_append] at last_eq
    obtain rfl : last = 2 ^ 31 - 1 := by omega
    refine ⟨vars, c, ?_⟩
    rw [run, List.foldlM_append, run', except_ok_bind, List.foldlM_cons]
    cases Cnf.addOutput overflow vars (c, 2 ^ 31 - 1) (name, l) <;> rfl
  constructor
  · obtain ⟨vars, c, run⟩ := before .stops
    rw [run, (Cnf.addOutput_last hl).1]
    rfl
  · obtain ⟨vars, c, run⟩ := before .wraps
    rw [toCnf, run, (Cnf.addOutput_last hl).2]
    exact ⟨_, rfl, by simp, by simp⟩

end Graph

end AndInverter
