import AndInverter.Proofs.Aiger.Define
import AndInverter.Proofs.Enumerates

/-! The places of gates. Where no gate of a file can be folded or shared, every gate becomes a node of
its own, and the nodes stand in the order in which the gates are built. -/

namespace AndInverter

namespace Aiger

/-- The literal of a variable that has a place. -/
theorem Definitions.literal_eq {vars : List Nat} {defs : Definitions}
    (places : Enumerates vars Literal.positive defs) {i : Nat} {l : Literal}
    (hi : vars[i]? = some l.id) : defs.literal l = ⟨i, l.negated⟩ := by
  rw [literal, places.getElem? hi]
  rcases l with ⟨id, _ | _⟩ <;> rfl

theorem Definitions.literal_inj {vars : List Nat} {defs : Definitions}
    (places : Enumerates vars Literal.positive defs) {l m : Literal} (hl : l.id ∈ defs)
    (hm : m.id ∈ defs) (h : defs.literal l = defs.literal m) : l = m := by
  obtain ⟨i, hi⟩ := List.mem_iff_getElem?.1 (places.mem_iff.1 hl)
  obtain ⟨j, hj⟩ := List.mem_iff_getElem?.1 (places.mem_iff.1 hm)
  rw [literal_eq places hi, literal_eq places hj, Literal.mk.injEq] at h
  obtain ⟨rfl, hneg⟩ := h
  rcases l with ⟨id, negated⟩
  rcases m with ⟨id', negated'⟩
  obtain rfl : id = id' := Option.some.inj (hi.symm.trans hj)
  obtain rfl : negated = negated' := hneg
  rfl

/-- No gate has a constant argument or one variable twice, and no two gates have the same
arguments. -/
structure File.Reduced (f : File) : Prop where
  folded : ∀ gate ∈ f.gates,
    gate.left.id ≠ 0 ∧ gate.right.id ≠ 0 ∧ gate.left.id ≠ gate.right.id
  shared : ∀ gate ∈ f.gates, ∀ gate' ∈ f.gates,
    gate.left = gate'.left ∧ gate.right = gate'.right ∨
      gate.left = gate'.right ∧ gate.right = gate'.left → gate.var = gate'.var

/-- The gates of the variables `vars` are the nodes after those of the leaves. -/
structure Laid (f : File) (vars : List Nat) (defs : Definitions) (g : Graph) : Prop where
  places : Enumerates (f.leaves ++ vars) Literal.positive defs
  size : g.nodes.size = f.leaves.length + vars.length
  known : ∀ var ∈ vars, ∃ gate, f.gateMap[var]? = some gate ∧
    gate.left.id ∈ defs ∧ gate.right.id ∈ defs
  gate : ∀ k var gate, vars[k]? = some var → f.gateMap[var]? = some gate →
    g.nodes[f.leaves.length + k]? =
      some (.ordered (defs.literal gate.left) (defs.literal gate.right))
  after : ∀ (i : Nat) a b, g.nodes[i]? = some (.and a b) → f.leaves.length ≤ i

namespace Laid

variable {f : File} {vars : List Nat} {defs : Definitions} {g : Graph}

/-- A gate is the one of a variable. -/
theorem exists_gate (laid : Laid f vars defs g) {i : Nat} {a b : Literal}
    (h : g.nodes[i]? = some (.and a b)) :
    ∃ k var gate, i = f.leaves.length + k ∧ vars[k]? = some var ∧ f.gateMap[var]? = some gate ∧
      .and a b = Node.ordered (defs.literal gate.left) (defs.literal gate.right) := by
  have hlt := Graph.lt_size h
  have hle := laid.after i a b h
  rw [laid.size] at hlt
  obtain ⟨k, rfl⟩ := Nat.exists_eq_add_of_le hle
  have hk := List.getElem?_eq_getElem (l := vars) (i := k) (by omega)
  obtain ⟨gate, hgate, -⟩ := laid.known _ (List.mem_of_getElem? hk)
  exact ⟨k, _, gate, rfl, hk, hgate,
    Option.some.inj (h.symm.trans (laid.gate k _ gate hk hgate))⟩

/-- Only the leaves of a graph change when latches get their next states. -/
theorem of_leaves {h : Graph} (laid : Laid f vars defs g) (size : h.nodes.size = g.nodes.size)
    (same : ∀ i, f.leaves.length ≤ i → h.nodes[i]? = g.nodes[i]?)
    (leaf : ∀ i < f.leaves.length, ∀ a b, h.nodes[i]? ≠ some (.and a b)) : Laid f vars defs h where
  places := laid.places
  size := size.trans laid.size
  known := laid.known
  gate k var gate hk hgate := (same _ (Nat.le_add_right _ _)).trans (laid.gate k var gate hk hgate)
  after i a b hi := Nat.le_of_not_lt fun hlt => leaf i hlt a b hi

section Push
variable (laid : Laid f vars defs g) (reduced : f.Reduced)
  (once : (f.gates.map (·.var)).Nodup) {var : Nat} {gate : GateLine}
  (hgate : f.gateMap[var]? = some gate) (hl : gate.left.id ∈ defs) (hr : gate.right.id ∈ defs)
  (new : var ∉ defs)
include laid reduced once hgate hl hr new

/-- The gate of a new variable is not among the nodes. -/
theorem fresh (i : Nat) :
    g.nodes[i]? ≠ some (.ordered (defs.literal gate.left) (defs.literal gate.right)) := by
  intro h
  obtain ⟨hmem, rfl⟩ := (File.getElem?_gateMap once).1 hgate
  obtain ⟨c, d, hcd, -⟩ := Node.ordered_cases (defs.literal gate.left) (defs.literal gate.right)
  rw [hcd] at h
  obtain ⟨k, var, gate', -, hk, hgate', heq⟩ := laid.exists_gate h
  have hdone := List.mem_of_getElem? hk
  obtain ⟨_, hsame, hl', hr'⟩ := laid.known _ hdone
  obtain rfl := Option.some.inj (hgate'.symm.trans hsame)
  obtain ⟨hmem', rfl⟩ := (File.getElem?_gateMap once).1 hgate'
  have same : gate.var = gate'.var := by
    refine reduced.shared gate hmem gate' hmem' ?_
    refine (Node.eq_of_ordered_eq (hcd.trans heq)).imp (fun h => ⟨?_, ?_⟩) fun h => ⟨?_, ?_⟩
    · exact Definitions.literal_inj laid.places hl hl' h.1
    · exact Definitions.literal_inj laid.places hr hr' h.2
    · exact Definitions.literal_inj laid.places hl hr' h.1
    · exact Definitions.literal_inj laid.places hr hl' h.2
  exact new (same ▸ laid.places.mem_iff.2 (List.mem_append_right _ hdone))

theorem conj_eq_push (wf : g.WellFormed) :
    (g.conj (defs.literal gate.left) (defs.literal gate.right)).1 = .positive g.nodes.size ∧
      (g.conj (defs.literal gate.left) (defs.literal gate.right)).2.nodes =
        g.nodes.push (.ordered (defs.literal gate.left) (defs.literal gate.right)) := by
  obtain ⟨hmem, -⟩ := (File.getElem?_gateMap once).1 hgate
  obtain ⟨leftPos, rightPos, apart⟩ := reduced.folded gate hmem
  obtain ⟨i, hi⟩ := List.mem_iff_getElem?.1 (laid.places.mem_iff.1 hl)
  obtain ⟨j, hj⟩ := List.mem_iff_getElem?.1 (laid.places.mem_iff.1 hr)
  -- Only the constant has the first place.
  have first {k v : Nat} (hk : (f.leaves ++ vars)[k]? = some v) (hv : v ≠ 0) : k ≠ 0 := by
    rintro rfl
    exact hv (Option.some.inj hk).symm
  have left := Definitions.literal_eq laid.places hi
  have right := Definitions.literal_eq laid.places hj
  refine wf.conj_eq_push ?_ ?_ ?_ (laid.fresh reduced once hgate hl hr new)
  · rw [left]
    exact first hi leftPos
  · rw [right]
    exact first hj rightPos
  · rw [left, right]
    rintro rfl
    exact apart (Option.some.inj (hi.symm.trans hj))

/-- The gate of a new variable takes the next place. -/
theorem push (wf : g.WellFormed) :
    Laid f (vars ++ [var])
      (defs.insert var (g.conj (defs.literal gate.left) (defs.literal gate.right)).1)
      (g.conj (defs.literal gate.left) (defs.literal gate.right)).2 := by
  obtain ⟨hfst, hnodes⟩ := laid.conj_eq_push reduced once hgate hl hr new wf
  have more (l : Literal) (h : l.id ∈ defs) :
      Definitions.literal (defs.insert var
        (g.conj (defs.literal gate.left) (defs.literal gate.right)).1) l = defs.literal l :=
    Definitions.literal_insert h new
  have inserted (v : Nat) (h : v ∈ defs) : v ∈ defs.insert var
      (g.conj (defs.literal gate.left) (defs.literal gate.right)).1 :=
    Std.ExtTreeMap.mem_insert.2 (.inr h)
  constructor
  · have places := laid.places.push (laid.places.mem_iff.not.1 new)
    rwa [List.length_append, ← laid.size, List.append_assoc, ← hfst] at places
  · rw [hnodes, Array.size_push, laid.size, List.length_append, List.length_singleton, Nat.add_assoc]
  · intro v hv
    rcases List.mem_append.1 hv with hv | hv
    · obtain ⟨gate', hgate', hl', hr'⟩ := laid.known v hv
      exact ⟨gate', hgate', inserted _ hl', inserted _ hr'⟩
    · rw [List.mem_singleton.1 hv]
      exact ⟨gate, hgate, inserted _ hl, inserted _ hr⟩
  · intro k v gate' hk hgate'
    rw [hnodes, Graph.push_node_iff]
    rcases concat_getElem?_iff.1 hk with hk | ⟨rfl, rfl⟩
    · obtain ⟨_, hsame, hl', hr'⟩ := laid.known v (List.mem_of_getElem? hk)
      obtain rfl := Option.some.inj (hgate'.symm.trans hsame)
      rw [more _ hl', more _ hr']
      exact .inl (laid.gate k v _ hk hgate')
    · obtain rfl := Option.some.inj (hgate.symm.trans hgate')
      rw [more _ hl, more _ hr]
      exact .inr ⟨laid.size.symm, rfl⟩
  · intro i a b h
    rw [hnodes, Graph.push_node_iff] at h
    rcases h with h | ⟨rfl, -⟩
    · exact laid.after i a b h
    · rw [laid.size]
      omega

end Push

end Laid

end Aiger

end AndInverter
