import AndInverter.Proofs.Graph.Build

/-! What gates compute. A literal computes a function of the values of nodes if it has that value in
every solution; the folding and sharing of gates does not show. -/

namespace AndInverter

/-- The gate of two arguments, which stand in ascending order. -/
def Node.ordered (a b : Literal) : Node := if a.raw ≤ b.raw then .and a b else .and b a

theorem Node.ordered_cases (a b : Literal) :
    ∃ c d, Node.ordered a b = .and c d ∧ (c = a ∧ d = b ∨ c = b ∧ d = a) := by
  rw [ordered]
  split
  · exact ⟨a, b, rfl, .inl ⟨rfl, rfl⟩⟩
  · exact ⟨b, a, rfl, .inr ⟨rfl, rfl⟩⟩

theorem Node.ordered_of_lt {a b : Literal} (h : a.id < b.id) : Node.ordered b a = .and a b := by
  have bit : a.negated.toNat ≤ 1 := Bool.toNat_le _
  refine if_neg ?_
  simp only [Literal.raw]
  omega

theorem Node.eq_of_ordered_eq {a b c d : Literal} (h : Node.ordered a b = Node.ordered c d) :
    a = c ∧ b = d ∨ a = d ∧ b = c := by
  obtain ⟨x, y, hxy, hab⟩ := ordered_cases a b
  obtain ⟨z, w, hzw, hcd⟩ := ordered_cases c d
  obtain ⟨rfl, rfl⟩ := Node.and.inj (hxy.symm.trans (h.trans hzw))
  rcases hab with ⟨rfl, rfl⟩ | ⟨rfl, rfl⟩ <;> rcases hcd with ⟨rfl, rfl⟩ | ⟨rfl, rfl⟩ <;> simp

namespace Graph

/-- In this graph and all later ones the literal has the value that `f` says. -/
def Computes (g : Graph) (l : Literal) (f : (Nat → Bool) → Bool) : Prop :=
  g.Has l ∧ ∀ v, g.Solution v → l.under v = f v

variable {g h : Graph} {l : Literal} {f : (Nat → Bool) → Bool}

theorem Computes.mono (c : g.Computes l f) (ext : g.Extends h) : h.Computes l f :=
  ⟨ext.has c.1, fun v hv => c.2 v (ext.solution hv)⟩

theorem Computes.neg (c : g.Computes l f) : g.Computes (-l) fun v => !f v :=
  ⟨c.1, fun v hv => by rw [Literal.under_neg, c.2 v hv]⟩

theorem Computes.congr {f' : (Nat → Bool) → Bool} (c : g.Computes l f)
    (hf : ∀ v, g.Solution v → f v = f' v) : g.Computes l f' :=
  ⟨c.1, fun v hv => (c.2 v hv).trans (hf v hv)⟩

theorem Evaluable.computes_ofBool (ev : g.Evaluable) (value : Bool) :
    g.Computes (.ofBool value) fun _ => value :=
  ⟨ev.pos, fun _ hv => hv.under_ofBool value⟩

/-- A literal that is no constant is one over another node than `0`. -/
theorem one_le_id (hf : l ≠ .ofBool false) (ht : l ≠ .ofBool true) : 1 ≤ l.id := by
  rcases l with ⟨_ | id, _ | _⟩ <;> simp_all [Literal.ofBool]

/-- Literals that do not meet are over different nodes, which stand as the literals do. -/
theorem id_lt_id {m : Literal} (hne : l ≠ m) (hneg : l ≠ -m) (hle : l.raw ≤ m.raw) :
    l.id < m.id := by
  rcases l with ⟨i, _ | _⟩ <;> rcases m with ⟨j, _ | _⟩ <;>
    simp_all [Literal.raw, Neg.neg] <;> omega

/-- The gate with these arguments, which is new unless the graph has one. -/
theorem WellFormed.addGate_spec (wf : g.WellFormed) {a b : Literal} (hpos : 1 ≤ a.id)
    (hlt : a.id < b.id) (hb : g.Has b) :
    (g.addGate a b).2.WellFormed ∧ g.Extends (g.addGate a b).2 ∧
      (g.addGate a b).2.Computes (g.addGate a b).1 (fun v => a.under v && b.under v) ∧
      g.SameNames (g.addGate a b).2 := by
  cases hgate : g.gateTable[(a, b)]? with
  | some gate =>
    obtain ⟨i, rfl, hi⟩ := wf.table.1 hgate
    simp only [addGate, hgate]
    exact ⟨wf, .refl g, ⟨lt_size hi, fun v hv => by simpa using hv.gate hi⟩, .refl g⟩
  | none =>
    simp only [addGate, hgate]
    have wf' := wf.pushGate hpos hlt hb hgate
    refine ⟨wf', extends_push rfl id id, ⟨?_, fun v hv => ?_⟩, rfl, latch?_push wf wf' rfl rfl, rfl⟩
    · simp [Has, Literal.positive]
    · simpa using hv.gate (push_node_iff.2 (.inr ⟨rfl, rfl⟩))

theorem WellFormed.conj_spec (wf : g.WellFormed) {left right : Literal} (hl : g.Has left)
    (hr : g.Has right) :
    (g.conj left right).2.WellFormed ∧ g.Extends (g.conj left right).2 ∧
      (g.conj left right).2.Computes (g.conj left right).1
        (fun v => left.under v && right.under v) ∧ g.SameNames (g.conj left right).2 := by
  unfold conj
  split
  next h =>
    refine ⟨wf, .refl g, (wf.computes_ofBool false).congr fun v hv => ?_, .refl g⟩
    rcases h with rfl | rfl | rfl <;> simp [hv.under_ofBool]
  next hfalse =>
    simp only [not_or] at hfalse
    split
    next h =>
      refine ⟨wf, .refl g, ⟨hr, fun v hv => ?_⟩, .refl g⟩
      rcases h with rfl | rfl <;> simp [hv.under_ofBool]
    next hleft =>
      simp only [not_or] at hleft
      split
      next h =>
        refine ⟨wf, .refl g, ⟨hl, fun v hv => ?_⟩, .refl g⟩
        simp [h, hv.under_ofBool]
      next hright =>
        split
        next hle =>
          exact wf.addGate_spec (one_le_id hfalse.1 hleft.1) (id_lt_id hleft.2 hfalse.2.2 hle) hr
        next hle =>
          obtain ⟨wf', ext, comp, same⟩ := wf.addGate_spec (a := right) (b := left)
            (one_le_id hfalse.2.1 hright)
            (id_lt_id (Ne.symm hleft.2) (fun h => hfalse.2.2 (by simp [h])) (by omega)) hl
          exact ⟨wf', ext, comp.congr fun v _ => Bool.and_comm _ _, same⟩

/-- A gate that is neither folded nor shared is a new node. -/
theorem WellFormed.conj_eq_push (wf : g.WellFormed) {a b : Literal}
    (ha : a.id ≠ 0) (hb : b.id ≠ 0) (hne : a.id ≠ b.id)
    (new : ∀ i : Nat, g.nodes[i]? ≠ some (.ordered a b)) :
    (g.conj a b).1 = .positive g.nodes.size ∧
      (g.conj a b).2.nodes = g.nodes.push (.ordered a b) := by
  have none (c d : Literal) (h : Node.ordered a b = .and c d) : g.gateTable[(c, d)]? = none := by
    refine Option.eq_none_iff_forall_ne_some.2 fun gate htable => ?_
    obtain ⟨i, -, hi⟩ := wf.table.1 htable
    exact new i (h ▸ hi)
  have fold (value : Bool) : a ≠ .ofBool value ∧ b ≠ .ofBool value :=
    ⟨fun h => ha (h ▸ rfl), fun h => hb (h ▸ rfl)⟩
  have apart : a ≠ b ∧ a ≠ -b := ⟨fun h => hne (h ▸ rfl), fun h => hne (h ▸ rfl)⟩
  rw [conj, if_neg (by simp [fold, apart]), if_neg (by simp [fold, apart]),
    if_neg (by simp [fold])]
  by_cases hle : a.raw ≤ b.raw
  · have hgate : Node.ordered a b = .and a b := if_pos hle
    rw [if_pos hle, hgate, addGate, none a b hgate]
    exact ⟨rfl, rfl⟩
  · have hgate : Node.ordered a b = .and b a := if_neg hle
    rw [if_neg hle, hgate, addGate, none b a hgate]
    exact ⟨rfl, rfl⟩

/-- `h` has gates after the nodes of `g` and the same named objects. -/
structure GrowsByGates (g h : Graph) : Prop where
  nodes : ∃ gates : List Node, h.nodes.toList = g.nodes.toList ++ gates ∧
    ∀ node ∈ gates, ∃ left right, node = .and left right
  inputs : h.inputs = g.inputs
  latches : h.latches = g.latches
  outputs : h.outputs = g.outputs

theorem GrowsByGates.refl (g : Graph) : g.GrowsByGates g := ⟨⟨[], by simp⟩, rfl, rfl, rfl⟩

theorem GrowsByGates.trans {g h k : Graph} (gh : g.GrowsByGates h) (hk : h.GrowsByGates k) :
    g.GrowsByGates k := by
  obtain ⟨as, heq, has⟩ := gh.nodes
  obtain ⟨bs, heq', hbs⟩ := hk.nodes
  refine ⟨⟨as ++ bs, by rw [heq', heq, List.append_assoc], fun node hmem => ?_⟩,
    hk.inputs.trans gh.inputs, hk.latches.trans gh.latches, hk.outputs.trans gh.outputs⟩
  exact (List.mem_append.1 hmem).elim (has node) (hbs node)

theorem growsByGates_addGate (g : Graph) (a b : Literal) : g.GrowsByGates (g.addGate a b).2 := by
  rw [addGate]
  split
  · exact .refl g
  · exact ⟨⟨[.and a b], by simp⟩, rfl, rfl, rfl⟩

theorem growsByGates_conj (g : Graph) (a b : Literal) : g.GrowsByGates (g.conj a b).2 := by
  unfold conj
  repeat' split
  all_goals first | exact .refl g | exact growsByGates_addGate g _ _

end Graph

namespace Build

variable {g : Graph}

theorem and_eq {a b : Literal} (ha : g.Has a) (hb : g.Has b) : and a b g = .ok (g.conj a b) := by
  simp only [Graph.Has] at ha hb
  simp [and, Graph.requireNode, ha, hb]

theorem has_of_and {h : Graph} {a b l : Literal} (run : and a b g = .ok (l, h)) :
    g.Has a ∧ g.Has b := by
  obtain ⟨_, ha, run⟩ := except_bind_eq_ok_iff.1 run
  obtain ⟨_, hb, -⟩ := except_bind_eq_ok_iff.1 run
  exact ⟨Graph.requireNode_eq_ok_iff.1 ha, Graph.requireNode_eq_ok_iff.1 hb⟩

theorem and_runs (wf : g.WellFormed) {a b : Literal} (ha : g.Has a) (hb : g.Has b) :
    (and a b).Runs g fun l h =>
      h.Computes l (fun v => a.under v && b.under v) ∧ g.SameNames h := by
  obtain ⟨wf', ext, post⟩ := wf.conj_spec ha hb
  exact .of_eq (and_eq ha hb) wf' ext post

section Gates
variable {a b c : Literal}

theorem or_runs (wf : g.WellFormed) (ha : g.Has a) (hb : g.Has b) :
    (or a b).Runs g fun l h =>
      h.Computes l (fun v => a.under v || b.under v) ∧ g.SameNames h := by
  refine (and_runs wf (a := -a) (b := -b) ha hb).bind fun l h wf' _ ⟨comp, same⟩ => ?_
  exact .pure wf' ⟨comp.neg.congr (by simp), same⟩

theorem xor_runs (wf : g.WellFormed) (ha : g.Has a) (hb : g.Has b) :
    (xor a b).Runs g fun l h =>
      h.Computes l (fun v => a.under v ^^ b.under v) ∧ g.SameNames h := by
  refine (and_runs wf (b := -b) ha hb).bind fun x h₁ wf₁ ext₁ ⟨cx, same₁⟩ => ?_
  refine (and_runs wf₁ (a := -a) (ext₁.has ha) (ext₁.has hb)).bind
    fun y h₂ wf₂ ext₂ ⟨cy, same₂⟩ => ?_
  refine (or_runs wf₂ (ext₂.has cx.1) cy.1).imp fun l h _ ext ⟨cl, same⟩ => ⟨cl.congr fun v hv => ?_,
    (same₁.trans same₂).trans same⟩
  rw [(cx.mono ext₂).2 v (ext.solution hv), cy.2 v (ext.solution hv)]
  simp only [Literal.under_neg]
  cases a.under v <;> cases b.under v <;> rfl

theorem xnor_runs (wf : g.WellFormed) (ha : g.Has a) (hb : g.Has b) :
    (xnor a b).Runs g fun l h =>
      h.Computes l (fun v => a.under v == b.under v) ∧ g.SameNames h := by
  refine (xor_runs wf ha hb).bind fun l h wf' _ ⟨comp, same⟩ => ?_
  exact .pure wf' ⟨comp.neg.congr fun v _ => by cases a.under v <;> cases b.under v <;> rfl, same⟩

theorem mux_runs (wf : g.WellFormed) (hc : g.Has c) (ha : g.Has a) (hb : g.Has b) :
    (mux c a b).Runs g fun l h =>
      h.Computes l (fun v => if c.under v then a.under v else b.under v) ∧ g.SameNames h := by
  refine (and_runs wf hc ha).bind fun x h₁ wf₁ ext₁ ⟨cx, same₁⟩ => ?_
  refine (and_runs wf₁ (a := -c) (ext₁.has hc) (ext₁.has hb)).bind
    fun y h₂ wf₂ ext₂ ⟨cy, same₂⟩ => ?_
  refine (or_runs wf₂ (ext₂.has cx.1) cy.1).imp fun l h _ ext ⟨cl, same⟩ => ⟨cl.congr fun v hv => ?_,
    (same₁.trans same₂).trans same⟩
  rw [(cx.mono ext₂).2 v (ext.solution hv), cy.2 v (ext.solution hv)]
  simp only [Literal.under_neg]
  cases c.under v <;> simp

end Gates

/-- Folding a gate over literals folds the operation that it computes. -/
theorem foldGate_runs {gate : Literal → Literal → Build Literal} {op : Bool → Bool → Bool}
    (runs : ∀ {g : Graph} {a b : Literal}, g.WellFormed → g.Has a → g.Has b →
      (gate a b).Runs g fun l h =>
        h.Computes l (fun v => op (a.under v) (b.under v)) ∧ g.SameNames h)
    (wf : g.WellFormed) {ls : List Literal} (hls : ∀ l ∈ ls, g.Has l) (unit : Bool) :
    Runs (ls.foldlM gate (.ofBool unit)) g fun l h =>
      h.Computes l (fun v => (ls.map (·.under v)).foldl op unit) ∧ g.SameNames h := by
  refine (Spec.foldlM (fun k l h =>
      h.Computes l (fun v => ((ls.take k).map (·.under v)).foldl op unit) ∧ g.SameNames h)
    ?_ wf ⟨wf.computes_ofBool unit, .refl g⟩).imp fun l h _ _ post => ?_
  · rintro k l x h hx wf' ext ⟨comp, same⟩
    refine (runs wf' comp.1 (ext.has (hls x (List.mem_of_getElem? hx)))).imp
      fun l' h' _ ext' ⟨comp', same'⟩ => ⟨comp'.congr fun v hv => ?_, same.trans same'⟩
    simp only [comp.2 v (ext'.solution hv), List.take_add_one, hx, Option.toList_some,
      List.map_append, List.foldl_append, List.map_cons, List.map_nil, List.foldl_cons,
      List.foldl_nil]
  · simpa only [List.take_length] using post

end Build

end AndInverter
