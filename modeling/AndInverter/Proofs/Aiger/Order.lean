import AndInverter.Proofs.Aiger.Consistent
import AndInverter.Proofs.Layering.Levels

/-! The order of the gates of a file. A gate is one level above the greater one of its arguments, and
the gates are built by level and by variable within a level. The order is determined by this. -/

namespace AndInverter.Aiger.File

variable {f : File}

theorem mem_gateOrder (blocked : f.layering.blocked = []) {var : Nat} :
    var ∈ f.gateOrder ↔ var ∈ f.gateMap := by
  rw [gateOrder, List.mem_filter, ← Std.ExtTreeMap.mem_iff_contains]
  exact ⟨fun h => h.2, fun h => ⟨mem_order blocked h, h⟩⟩

theorem gateOrder_nodup (f : File) : f.gateOrder.Nodup := f.order_nodup.filter _

/-- The gates in their order are all the gates. -/
theorem gateOrder_perm (once : (f.gates.map (·.var)).Nodup) (blocked : f.layering.blocked = []) :
    f.gateOrder.Perm (f.gates.map (·.var)) := by
  refine (List.perm_ext_iff_of_nodup f.gateOrder_nodup once).2 fun var => ?_
  rw [mem_gateOrder blocked, mem_gateMap_iff once]

/-- Levels of the variables, with the gates in their order. -/
structure IsLeveled (f : File) (level : Nat → Nat) : Prop where
  leaf : ∀ var, var ∉ f.gateMap → level var = 0
  gate : ∀ var gate, f.gateMap[var]? = some gate →
    level var = Max.max (level gate.left.id) (level gate.right.id) + 1
  order : f.gateOrder.Pairwise (Layering.ByLevel level (· < ·))

/-- Gates are given by variable, and only gates have to be. -/
theorem closed_gateGraph_pairwise (f : File) :
    ((Layering.closed f.gateGraph).map Prod.fst).Pairwise fun v w =>
      v ∈ f.gateMap → w ∈ f.gateMap → v < w := by
  refine Layering.closed_pairwise ?_ fun v w hnot hv hw => ?_
  · rw [map_fst_gateGraph]
    exact Std.ExtTreeMap.ordered_keys.imp fun h _ _ => Nat.compare_eq_lt.1 h
  · rw [map_fst_gateGraph, Std.ExtTreeMap.mem_keys, Std.ExtTreeMap.mem_keys] at hnot
    exact (hnot.elim (fun h => h hv) fun h => h hw).elim

theorem nodup_closed_gateGraph (f : File) :
    ((Layering.closed f.gateGraph).map Prod.fst).Nodup := by
  refine Layering.nodup_closed ?_
  rw [map_fst_gateGraph]
  exact Std.ExtTreeMap.nodup_keys

theorem isLevel_layering (blocked : f.layering.blocked = []) :
    Layering.IsLevel (Layering.closed f.gateGraph) (Layering.level f.layering.layers) :=
  Layering.peel_isLevel _ f.nodup_closed_gateGraph blocked

/-- What a gate reads and is no gate is in the first layer. -/
theorem layer_eq_zero (blocked : f.layering.blocked = []) {var d : Nat} {gate : GateLine}
    (hgate : f.gateMap[var]? = some gate) (hd : d ∈ [gate.left.id, gate.right.id])
    (hnot : d ∉ f.gateMap) : Layering.level f.layering.layers d = 0 := by
  have depends : Layering.Depends f.gateGraph var d :=
    ⟨_, mem_gateGraph_iff.2 ⟨gate, hgate, rfl⟩, hd⟩
  obtain ⟨ds, hmem⟩ := Layering.exists_mem_closed depends
  rcases Layering.mem_closed_iff.1 hmem with hgraph | ⟨rfl, -, -⟩
  · obtain ⟨gate', hgate', -⟩ := mem_gateGraph_iff.1 hgraph
    exact absurd (mem_iff_exists_getElem?.2 ⟨gate', hgate'⟩) hnot
  · refine Classical.byContradiction fun hne => ?_
    obtain ⟨_, hnil, -⟩ := (isLevel_layering blocked).step d [] hmem hne
    cases hnil

/-- The level of a variable, which is `0` unless a gate defines it. -/
def level (f : File) (var : Nat) : Nat :=
  if var ∈ f.gateMap then Layering.level f.layering.layers var else 0

theorem level_argument (blocked : f.layering.blocked = []) {var d : Nat} {gate : GateLine}
    (hgate : f.gateMap[var]? = some gate) (hd : d ∈ [gate.left.id, gate.right.id]) :
    f.level d = Layering.level f.layering.layers d := by
  rw [level]
  split
  · rfl
  next hnot => exact (layer_eq_zero blocked hgate hd hnot).symm

theorem isLeveled (blocked : f.layering.blocked = []) : f.IsLeveled f.level where
  leaf var hvar := if_neg hvar
  gate var gate hgate := by
    have hmem : (var, [gate.left.id, gate.right.id]) ∈ Layering.closed f.gateGraph :=
      Layering.mem_closed_iff.2 (.inl (mem_gateGraph_iff.2 ⟨gate, hgate, rfl⟩))
    have left := (isLevel_layering blocked).below var _ hmem gate.left.id (by simp)
    have right := (isLevel_layering blocked).below var _ hmem gate.right.id (by simp)
    obtain ⟨d, hd, heq⟩ := (isLevel_layering blocked).step var _ hmem (Nat.ne_zero_of_lt left)
    have levelLeft := level_argument blocked hgate (d := gate.left.id) (by simp)
    have levelRight := level_argument blocked hgate (d := gate.right.id) (by simp)
    rw [levelLeft, levelRight, level, if_pos (mem_iff_exists_getElem?.2 ⟨gate, hgate⟩)]
    have : d = gate.left.id ∨ d = gate.right.id := by simpa using hd
    rcases this with rfl | rfl <;> omega
  order := by
    have sorted := Layering.peel_pairwise (Layering.closed f.gateGraph).length
      f.nodup_closed_gateGraph f.closed_gateGraph_pairwise
    refine (sorted.filter _).imp_of_mem fun hv hw h => ?_
    have hv := Std.ExtTreeMap.mem_iff_contains.2 (List.mem_filter.1 hv).2
    have hw := Std.ExtTreeMap.mem_iff_contains.2 (List.mem_filter.1 hw).2
    simp only [Layering.ByLevel, level, if_pos hv, if_pos hw]
    exact h.imp id fun h => ⟨h.1, h.2 hv hw⟩

namespace IsLeveled

variable {level : Nat → Nat}

/-- The gates by level and variable are the gates in their order. -/
theorem gateOrder_eq (leveled : f.IsLeveled level) (blocked : f.layering.blocked = [])
    {vars : List Nat} (once : vars.Nodup) (mem : ∀ var, var ∈ vars ↔ var ∈ f.gateMap)
    (sorted : vars.Pairwise (Layering.ByLevel level (· < ·))) : f.gateOrder = vars := by
  have perm : f.gateOrder.Perm vars :=
    (List.perm_ext_iff_of_nodup f.gateOrder_nodup once).2 fun var =>
      (mem_gateOrder blocked).trans (mem var).symm
  refine perm.eq_of_pairwise (fun v w _ _ hvw hwv => ?_) leveled.order sorted
  rcases hvw with h | ⟨h, h'⟩ <;> rcases hwv with k | ⟨k, k'⟩ <;> omega

/-- Levels stay where gates are renamed with their arguments. -/
theorem renamed {f' : File} {level' : Nat → Nat} (leveled : f.IsLeveled level)
    (leveled' : f'.IsLeveled level') (blocked : f.layering.blocked = []) {ren : Nat → Nat}
    (gates : ∀ var gate, f.gateMap[var]? = some gate →
      ∃ gate', f'.gateMap[ren var]? = some gate' ∧
        (gate'.left.id = ren gate.left.id ∧ gate'.right.id = ren gate.right.id ∨
          gate'.left.id = ren gate.right.id ∧ gate'.right.id = ren gate.left.id))
    (others : ∀ var, var ∉ f.gateMap → ren var ∉ f'.gateMap) (var : Nat) :
    level' (ren var) = level var := by
  have other (var : Nat) (h : var ∉ f.gateMap) : level' (ren var) = level var := by
    rw [leveled.leaf var h, leveled'.leaf _ (others var h)]
  by_cases hvar : var ∈ f.gateMap
  · -- Along the order of the gates, the levels of the arguments are known.
    refine f.order_inOrder.forall_mem (P := fun var => level' (ren var) = level var) (by simp)
      (fun var _ before => ?_) var (mem_order blocked hvar)
    cases hgate : f.gateMap[var]? with
    | none => exact other var (not_mem_iff_getElem?.2 hgate)
    | some gate =>
      have left := before gate.left.id (mem_arguments_iff.2 ⟨gate, hgate, .inl rfl⟩)
      have right := before gate.right.id (mem_arguments_iff.2 ⟨gate, hgate, .inr rfl⟩)
      obtain ⟨gate', hgate', args⟩ := gates var gate hgate
      rw [leveled'.gate _ gate' hgate', leveled.gate var gate hgate, ← left, ← right]
      rcases args with ⟨hleft, hright⟩ | ⟨hleft, hright⟩
      · rw [hleft, hright]
      · rw [hleft, hright, Nat.max_comm]
  · exact other var hvar

end IsLeveled

end AndInverter.Aiger.File
