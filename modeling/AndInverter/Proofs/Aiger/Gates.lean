import AndInverter.Proofs.Aiger.Layout
import AndInverter.Proofs.Aiger.Leaves

/-! The gates of the graph of a file, which are built in their order. Each of them finds its arguments
defined, or the file is inconsistent. -/

namespace AndInverter.Aiger

open Build (Spec)

/-- The gates of the variables `done` are built. -/
structure GatesTo (f : File) (base : Definitions) (start : Graph) (done : List Nat)
    (defs : Definitions) (g : Graph) : Prop where
  laid : f.Reduced → Laid f (done.filter (f.gateMap.contains ·)) defs g
  grows : start.GrowsByGates g
  new : ∀ v ∈ done, v ∈ f.gateMap → v ∉ base
  old : ∀ (v : Nat) l, base[v]? = some l → defs[v]? = some l
  mem : ∀ v : Nat, v ∈ defs ↔ v ∈ base ∨ v ∈ done ∧ v ∈ f.gateMap
  has : ∀ (v : Nat) l, defs[v]? = some l → g.Has l
  gate : ∀ v ∈ done, ∀ gate, f.gateMap[v]? = some gate →
    gate.left.id ∈ defs ∧ gate.right.id ∈ defs ∧ g.Computes (defs.literal (.positive v)) fun w =>
      (defs.literal gate.left).under w && (defs.literal gate.right).under w

section Gates
variable {f : File} {base defs : Definitions} {start g : Graph} {done : List Nat} {var : Nat}

theorem GatesTo.has_literal (built : GatesTo f base start done defs g) {l : Literal}
    (hl : l.id ∈ defs) : g.Has (defs.literal l) := by
  obtain ⟨r, hr⟩ := mem_iff_exists_getElem?.1 hl
  rw [Graph.Has, Definitions.literal_id_eq hr]
  exact built.has _ r hr

/-- A variable without a gate changes nothing. -/
theorem GatesTo.skip (built : GatesTo f base start done defs g) (hnone : f.gateMap[var]? = none) :
    GatesTo f base start (done ++ [var]) defs g where
  laid reduced := by
    have absent : f.gateMap.contains var = false :=
      contains_eq_false_iff.2 (not_mem_iff_getElem?.2 hnone)
    simpa [List.filter_append, absent] using built.laid reduced
  grows := built.grows
  new v hv hmem := by
    rcases List.mem_append.1 hv with hv | hv
    · exact built.new v hv hmem
    · rw [List.mem_singleton.1 hv] at hmem
      exact absurd hmem (not_mem_iff_getElem?.2 hnone)
  old := built.old
  mem v := by
    rw [built.mem, List.mem_append, List.mem_singleton]
    have : var ∉ f.gateMap := not_mem_iff_getElem?.2 hnone
    grind
  has := built.has
  gate v hv gate hgate := by
    rcases List.mem_append.1 hv with hv | hv
    · exact built.gate v hv gate hgate
    · rw [List.mem_singleton.1 hv, hnone] at hgate
      cases hgate

theorem GatesTo.push (built : GatesTo f base start done defs g) (wf : g.WellFormed)
    (once : (f.gates.map (·.var)).Nodup) {gate : GateLine} (hgate : f.gateMap[var]? = some gate)
    (hl : gate.left.id ∈ defs) (hr : gate.right.id ∈ defs) (new : var ∉ defs) :
    GatesTo f base start (done ++ [var])
      (defs.insert var (g.conj (defs.literal gate.left) (defs.literal gate.right)).1)
      (g.conj (defs.literal gate.left) (defs.literal gate.right)).2 := by
  obtain ⟨-, ext, comp, -⟩ := wf.conj_spec (built.has_literal hl) (built.has_literal hr)
  have hmem : var ∈ f.gateMap := mem_iff_exists_getElem?.2 ⟨gate, hgate⟩
  have keep (v : Nat) (l : Literal) (h : defs[v]? = some l) : v ≠ var :=
    fun heq => new (heq ▸ mem_iff_exists_getElem?.2 ⟨l, h⟩)
  constructor
  · intro reduced
    have present : f.gateMap.contains var = true := Std.ExtTreeMap.mem_iff_contains.1 hmem
    simpa [List.filter_append, present] using
      (built.laid reduced).push reduced once hgate hl hr new wf
  · exact built.grows.trans (Graph.growsByGates_conj g _ _)
  · intro v hv hmem
    rcases List.mem_append.1 hv with hv | hv
    · exact built.new v hv hmem
    · rw [List.mem_singleton.1 hv]
      exact fun hbase => new ((built.mem var).2 (.inl hbase))
  · intro v l h
    have hdefs := built.old v l h
    simpa [Std.ExtTreeMap.getElem?_insert, (keep v l hdefs).symm] using hdefs
  · intro v
    rw [Std.ExtTreeMap.mem_insert, Std.LawfulEqCmp.compare_eq_iff_eq, built.mem, List.mem_append,
      List.mem_singleton]
    grind
  · intro v l h
    rw [Std.ExtTreeMap.getElem?_insert] at h
    split at h
    · cases h
      exact comp.1
    · exact ext.has (built.has v l h)
  · intro v hv gate' hgate'
    rcases List.mem_append.1 hv with hv | hv
    · obtain ⟨hl', hr', comp'⟩ := built.gate v hv gate' hgate'
      have hv' : v ∈ defs := (built.mem v).2 (.inr ⟨hv, mem_iff_exists_getElem?.2 ⟨gate', hgate'⟩⟩)
      refine ⟨Std.ExtTreeMap.mem_insert.2 (.inr hl'), Std.ExtTreeMap.mem_insert.2 (.inr hr'), ?_⟩
      rw [Definitions.literal_insert hl' new, Definitions.literal_insert hr' new,
        Definitions.literal_insert (l := .positive v) hv' new]
      exact comp'.mono ext
    · obtain rfl := List.mem_singleton.1 hv
      obtain rfl : gate = gate' := Option.some.inj (hgate.symm.trans hgate')
      refine ⟨Std.ExtTreeMap.mem_insert.2 (.inr hl), Std.ExtTreeMap.mem_insert.2 (.inr hr), ?_⟩
      rw [Definitions.literal_insert hl new, Definitions.literal_insert hr new]
      simpa [Definitions.literal, Literal.positive] using comp

theorem addGate_spec {condition : Prop} (wf : g.WellFormed)
    (built : GatesTo f base start done defs g) (once : (f.gates.map (·.var)).Nodup)
    (fresh : var ∉ done) (known : condition → ∀ d ∈ f.arguments var, d ∈ defs)
    (new : condition → var ∈ f.gateMap → var ∉ base) :
    (addGate f.gateMap defs var).Spec g (GatesTo f base start (done ++ [var]))
      (Fault.Blames condition) := by
  rw [addGate]
  cases hgate : f.gateMap[var]? with
  | none => exact .pure wf (built.skip hgate)
  | some gate =>
    have hvar : gate.var = var := ((File.getElem?_gateMap once).1 hgate).2
    have argument (d : Nat) (hd : d = gate.left.id ∨ d = gate.right.id) (hnot : d ∉ defs) :
        ¬ condition := fun c => hnot (known c d (File.mem_arguments_iff.2 ⟨gate, hgate, hd⟩))
    refine (resolve_spec wf (argument _ (.inl rfl))).bind ?_
    rintro _ _ - - ⟨rfl, hl, rfl⟩
    refine (resolve_spec wf (argument _ (.inr rfl))).bind ?_
    rintro _ _ - - ⟨rfl, hr, rfl⟩
    have made : (Build.and (defs.literal gate.left) (defs.literal gate.right)).Spec g
        (fun l h => (l, h) = g.conj (defs.literal gate.left) (defs.literal gate.right))
        (Fault.Blames condition) := by
      obtain ⟨wf', ext, -⟩ := wf.conj_spec (built.has_literal hl) (built.has_literal hr)
      exact .of_eq (Build.and_eq (built.has_literal hl) (built.has_literal hr)) wf' ext rfl
    refine made.bind fun l h wf' _ heq => ?_
    obtain ⟨rfl, rfl⟩ := Prod.mk.inj heq
    refine define_spec wf' (fun htwice c => ?_) (fun hnew => ?_)
    · rw [hvar] at htwice
      rcases (built.mem var).1 htwice with hbase | ⟨hdone, -⟩
      · exact new c (mem_iff_exists_getElem?.2 ⟨gate, hgate⟩) hbase
      · exact fresh hdone
    · rw [hvar] at hnew ⊢
      exact built.push wf once hgate hl hr hnew

/-- The leaves are all there is before the gates. -/
theorem HasLeaves.laid
    (leaves : HasLeaves (f.named .input f.inputs) (f.named .latch f.latches) base start) :
    Laid f [] base start where
  places := by simpa using leaves.leaves_enumerated
  size := by rw [leaves.size, f.length_named, f.length_named, f.length_leaves, List.length_nil,
    Nat.add_zero]
  known := by simp
  gate := by simp
  after i a b h := by
    rw [← Array.getElem?_toList, leaves.nodes] at h
    simpa using List.mem_of_getElem? h

/-- The gates are built one after the other. -/
theorem foldGates_spec (zero : 0 ∉ f.defined) (wf : start.WellFormed) (laid : Laid f [] base start)
    (once : (f.gates.map (·.var)).Nodup) :
    Spec (f.order.foldlM (addGate f.gateMap) base) start (GatesTo f base start f.order)
      (Fault.Blames f.Consistent) := by
  have leaves : Enumerates f.leaves Literal.positive base := by simpa using laid.places
  have has (v : Nat) (l : Literal) (h : base[v]? = some l) : start.Has l := by
    obtain ⟨i, hi, rfl⟩ := leaves.entry.1 h
    have := laid.size
    exact Nat.lt_of_lt_of_eq (List.getElem?_eq_some_iff.1 hi).1 (by simpa using this.symm)
  refine (Spec.foldlM (fun k => GatesTo f base start (f.order.take k))
    (fun k defs var g hk wf ext built => ?_) wf ?_).imp
    fun defs g _ _ built => by rwa [List.take_length] at built
  · rw [take_succ_eq hk]
    have fresh : var ∉ f.order.take k := by
      have := not_mem_take_of_nodup (f := id) (by simpa using f.order_nodup) hk
      simpa using this
    refine addGate_spec wf built once fresh (fun c d hd => ?_) (fun c hvar hbase => ?_)
    · -- An argument is a leaf or a gate that is built before.
      have hdone := (f.order_inOrder.mem_take hk hd).resolve_left List.not_mem_nil
      obtain ⟨gate, hgate, hd'⟩ := File.mem_arguments_iff.1 hd
      obtain ⟨hleft, hright⟩ := c.gates gate ((File.getElem?_gateMap once).1 hgate).1
      have cases : d ∈ f.leaves ∨ d ∈ f.gates.map (·.var) := by
        rcases hd' with rfl | rfl
        · exact File.knows_iff.1 hleft
        · exact File.knows_iff.1 hright
      rw [built.mem, leaves.mem_iff, File.mem_gateMap_iff once]
      exact cases.imp_right fun h => ⟨hdone, h⟩
    · rw [leaves.mem_iff, File.leaves] at hbase
      have onceAll := c.once
      rw [File.mem_gateMap_iff once] at hvar
      simp only [File.defined] at onceAll zero
      grind
  · exact ⟨fun _ => laid, .refl start, by simp, fun _ _ h => h, by simp, has, by simp⟩

theorem addGates_spec (zero : 0 ∉ f.defined) (wf : start.WellFormed) (laid : Laid f [] base start) :
    (addGates f.gates base).Spec start
      (fun defs g => (f.gates.map (·.var)).Nodup ∧ f.layering.blocked = [] ∧
        GatesTo f base start f.order defs g) (Fault.Blames f.Consistent) := by
  refine Spec.guarded (fun hsize => ?_) fun hsize => ?_
  · exact .reading (fun c => hsize (File.size_gateMap_iff.2 c.once_gates)) _
  have once := File.size_gateMap_iff.1 (not_not.1 hsize)
  refine (foldGates_spec zero wf laid once).bind fun defs g wf' _ built => ?_
  refine Spec.guarded (fun hcyclic => ?_) fun hcyclic => ?_
  · refine .reading (fun c => ?_) _
    have blocked : (!f.layering.blocked.isEmpty) = true := hcyclic
    rw [(File.blocked_eq_nil_iff once).2 c.acyclic] at blocked
    cases blocked
  · have blocked : ¬ (!f.layering.blocked.isEmpty) = true := hcyclic
    exact .pure wf' ⟨once, by simpa using blocked, built⟩

/-- Gates come after the leaves. -/
theorem GatesTo.getElem?_leaf {done : List Nat} (built : GatesTo f base start done defs g) {i : Nat}
    (hi : i < start.nodes.size) : g.nodes[i]? = start.nodes[i]? := by
  obtain ⟨gates, heq, -⟩ := built.grows.nodes
  rw [← Array.getElem?_toList, heq, List.getElem?_append_left (by simpa using hi),
    Array.getElem?_toList]

/-- Once all gates are built, just the variables that are leaves or defined by gates are known. -/
theorem GatesTo.mem_iff (built : GatesTo f base start f.order defs g)
    (once : (f.gates.map (·.var)).Nodup) (blocked : f.layering.blocked = [])
    (leaves : Enumerates f.leaves Literal.positive base) {v : Nat} :
    v ∈ defs ↔ v ∈ f.leaves ∨ v ∈ f.gates.map (·.var) := by
  rw [built.mem, leaves.mem_iff, ← File.mem_gateMap_iff once]
  exact or_congr_right ⟨fun h => h.2, fun h => ⟨File.mem_order blocked h, h⟩⟩

end Gates

end AndInverter.Aiger
