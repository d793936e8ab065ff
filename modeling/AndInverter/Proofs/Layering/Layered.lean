import AndInverter.Proofs.Layering.Height
import Mathlib.Data.List.GetD

/-! What layers say of the relation they are made from. Every item from which no cycle is reached is
in the layer of its height, the other items are in none, and whether there are others tells if there
is a cycle. Layers from the leaves are those of the dependencies, layers from the roots those of the
opposite relation. -/

namespace AndInverter.Layering

variable {α : Type}

/-- The item is a key of the graph or is depended on. -/
def Item (graph : List (α × List α)) (v : α) : Prop :=
  v ∈ graph.map Prod.fst ∨ ∃ u, Depends graph u v

/-- The layers have the items by height, and it is known whether the relation has a cycle. -/
structure IsLayered (item : α → Prop) (r : α → α → Prop) (layers : List (List α)) (cyclic : Prop) :
    Prop where
  ne_nil : ∀ layer ∈ layers, layer ≠ []
  nodup : ∀ layer ∈ layers, layer.Nodup
  disjoint : layers.Pairwise List.Disjoint
  emitted_iff : ∀ v, (∃ layer ∈ layers, v ∈ layer) ↔ item v ∧ Clear r v
  mem_layer_iff : ∀ v k, v ∈ layers.getD k [] ↔ item v ∧ Clear r v ∧ IsHeight r v k
  cyclic_iff : cyclic ↔ ∃ v, Relation.TransGen r v v

variable {item item' : α → Prop} {r r' : α → α → Prop} {layers layers' : List (List α)}
  {cyclic cyclic' : Prop}

theorem IsLayered.congr (l : IsLayered item r layers cyclic) (hitem : ∀ v, item v ↔ item' v)
    (hr : ∀ v w, r v w ↔ r' v w) (hcyclic : cyclic ↔ cyclic') :
    IsLayered item' r' layers cyclic' := by
  obtain rfl : item = item' := funext fun v => propext (hitem v)
  obtain rfl : r = r' := funext fun v => funext fun w => propext (hr v w)
  exact { l with cyclic_iff := hcyclic.symm.trans l.cyclic_iff }

theorem mem_getD_of_perm (perm : List.Forall₂ List.Perm layers' layers) (v : α) (k : Nat) :
    v ∈ layers'.getD k [] ↔ v ∈ layers.getD k [] := by
  induction perm generalizing k with
  | nil => rfl
  | cons first _ ih =>
    cases k with
    | zero => exact first.mem_iff
    | succ k => exact ih k

theorem exists_mem_iff_getD {v : α} :
    (∃ layer ∈ layers, v ∈ layer) ↔ ∃ k, v ∈ layers.getD k [] := by
  constructor
  · rintro ⟨layer, hlayer, hv⟩
    obtain ⟨k, hk, rfl⟩ := List.mem_iff_getElem.1 hlayer
    exact ⟨k, by rwa [List.getD_eq_getElem _ _ hk]⟩
  · rintro ⟨k, hv⟩
    by_cases hk : k < layers.length
    · rw [List.getD_eq_getElem _ _ hk] at hv
      exact ⟨_, List.getElem_mem hk, hv⟩
    · rw [List.getD_eq_default _ _ (Nat.le_of_not_lt hk)] at hv
      cases hv

/-- The order within a layer is free. -/
theorem IsLayered.of_perm (l : IsLayered item r layers cyclic)
    (perm : List.Forall₂ List.Perm layers' layers) : IsLayered item r layers' cyclic := by
  obtain ⟨ne_nil, nodup, disjoint, emitted_iff, mem_layer_iff, cyclic_iff⟩ := l
  have once : layers'.flatten.Nodup := by
    rw [(List.Perm.flatten_congr perm).nodup_iff]
    exact List.nodup_flatten.2 ⟨nodup, disjoint⟩
  obtain ⟨nodup', disjoint'⟩ := List.nodup_flatten.1 once
  refine ⟨?_, nodup', disjoint', fun v => ?_, fun v k => ?_, cyclic_iff⟩
  · rintro layer hlayer rfl
    obtain ⟨k, hk, hnil⟩ := List.mem_iff_getElem.1 hlayer
    have hk' : k < layers.length := perm.length_eq ▸ hk
    have := perm.get hk hk'
    rw [List.get_eq_getElem, hnil] at this
    exact ne_nil _ (List.getElem_mem hk') this.nil_eq.symm
  · rw [exists_mem_iff_getD, ← emitted_iff v, exists_mem_iff_getD]
    exact exists_congr (mem_getD_of_perm perm v)
  · rw [mem_getD_of_perm perm, mem_layer_iff]

/-- Without cycles every item is emitted. -/
theorem IsLayered.mem_flatten_iff (l : IsLayered item r layers cyclic)
    (acyclic : ∀ v, ¬ Relation.TransGen r v v) (v : α) : v ∈ layers.flatten ↔ item v := by
  rw [List.mem_flatten, l.emitted_iff]
  exact and_iff_left fun w _ => acyclic w

/-- Without cycles the layer of an item is the length of a longest path to where no step is left. -/
theorem IsLayered.mem_layer_iff_longest (l : IsLayered item r layers cyclic)
    (acyclic : ∀ v, ¬ Relation.TransGen r v v) (v : α) (k : Nat) : v ∈ layers.getD k [] ↔
      item v ∧ IsGreatest {n | ∃ w, (∀ u, ¬ r w u) ∧ Chain r n v w} k := by
  constructor
  · intro hv
    obtain ⟨hitem, -, height⟩ := (l.mem_layer_iff v k).1 hv
    exact ⟨hitem, height.to_end⟩
  · rintro ⟨hitem, longest⟩
    obtain ⟨k', hv⟩ := exists_mem_iff_getD.1
      ((l.emitted_iff v).2 ⟨hitem, fun w _ => acyclic w⟩)
    have height := ((l.mem_layer_iff v k').1 hv).2.2
    rwa [longest.unique height.to_end]

theorem isCyclic_iff {l : Layering α} :
    l.isCyclic = true ↔ ∃ v, v ∈ l.blocked.map Prod.fst := by
  rw [isCyclic, Bool.not_eq_true', List.isEmpty_eq_false_iff_exists_mem]
  simp

variable [BEq α] {waiting graph : List (α × List α)}

theorem peel_ne_nil (fuel : Nat) (waiting : List (α × List α)) :
    ∀ layer ∈ (peel fuel waiting).layers, layer ≠ [] := by
  induction fuel generalizing waiting with
  | zero => simp [peel]
  | succ fuel ih =>
    rw [peel_succ]
    split
    next => simp
    next some =>
      intro layer hlayer
      rcases List.mem_cons.1 hlayer with rfl | hlayer
      · exact mt List.isEmpty_iff.2 some
      · exact ih _ layer hlayer

variable [LawfulBEq α]

section Peel

variable (once : (waiting.map Prod.fst).Nodup)
  (items : ∀ v w, Depends waiting v w → w ∈ waiting.map Prod.fst)
include once items

/-- Just the items that are clear of cycles are peeled off. -/
theorem mem_layers_peel_iff {v : α} : (∃ layer ∈ (peel waiting.length waiting).layers, v ∈ layer) ↔
    v ∈ waiting.map Prod.fst ∧ Clear (Depends waiting) v := by
  rw [exists_mem_iff_getD]
  simp only [mem_peel_iff _ once items (Nat.le_refl _), exists_and_left]
  refine and_congr_right fun _ => ⟨?_, fun clear => clear.exists_isHeight items⟩
  rintro ⟨k, hk⟩
  exact hk.clear

theorem mem_blocked_peel_iff {v : α} : v ∈ (peel waiting.length waiting).blocked.map Prod.fst ↔
    v ∈ waiting.map Prod.fst ∧ ¬ Clear (Depends waiting) v := by
  have perm := peel_perm waiting.length waiting
  have apart := (List.nodup_append.1 (perm.nodup_iff.2 once)).2.2
  have either := perm.mem_iff (a := v)
  rw [List.mem_append, List.mem_flatten, mem_layers_peel_iff once items] at either
  constructor
  · intro hv
    have hwait := either.1 (.inr hv)
    refine ⟨hwait, fun clear => apart v (List.mem_flatten.2 ?_) v hv rfl⟩
    exact (mem_layers_peel_iff once items).2 ⟨hwait, clear⟩
  · exact fun ⟨hwait, hclear⟩ => (either.2 hwait).resolve_left fun h => hclear h.2

/-- What is peeled off, where all dependencies are items that wait. -/
theorem peel_isLayered :
    IsLayered (· ∈ waiting.map Prod.fst) (Depends waiting) (peel waiting.length waiting).layers
      ((peel waiting.length waiting).isCyclic = true) := by
  have perm := peel_perm waiting.length waiting
  have nodup := List.nodup_flatten.1 ((perm.nodup_iff.2 once).sublist
    (List.sublist_append_left _ _))
  refine ⟨peel_ne_nil _ _, nodup.1, nodup.2, fun v => mem_layers_peel_iff once items,
    fun v k => ?_, ?_⟩
  · rw [mem_peel_iff _ once items (Nat.le_refl _)]
    exact and_congr_right fun _ => ⟨fun h => ⟨h.clear, h⟩, And.right⟩
  · simp only [isCyclic_iff, mem_blocked_peel_iff once items]
    constructor
    · rintro ⟨v, -, hclear⟩
      simp only [Clear, not_forall, not_not] at hclear
      obtain ⟨w, -, cycle⟩ := hclear
      exact ⟨w, cycle⟩
    · rintro ⟨v, cycle⟩
      obtain ⟨u, -, last⟩ := Relation.TransGen.tail'_iff.1 cycle
      exact ⟨v, items u v last, fun clear => clear v .refl cycle⟩

end Peel

/-! ### Layers of a graph -/

theorem mem_map_closed_iff {v : α} : v ∈ (closed graph).map Prod.fst ↔ Item graph v := by
  simp only [List.mem_map, Prod.exists, exists_and_right, exists_eq_right]
  constructor
  · rintro ⟨ds, h⟩
    rcases mem_closed_iff.1 h with h | ⟨-, -, h⟩
    · exact .inl (List.mem_map.2 ⟨_, h, rfl⟩)
    · exact .inr h
  · rintro (h | ⟨u, h⟩)
    · obtain ⟨⟨v, ds⟩, hmem, rfl⟩ := List.mem_map.1 h
      exact ⟨ds, mem_closed_iff.2 (.inl hmem)⟩
    · exact exists_mem_closed h

theorem fromLeaves_isLayered (once : (graph.map Prod.fst).Nodup) :
    IsLayered (Item graph) (Depends graph) (fromLeaves graph).layers
      ((fromLeaves graph).isCyclic = true) := by
  refine (peel_isLayered (nodup_closed once) fun v w h => ?_).congr
    (fun v => mem_map_closed_iff) (fun v w => depends_closed) Iff.rfl
  exact mem_map_closed_iff.2 (.inr ⟨v, depends_closed.1 h⟩)

omit [LawfulBEq α] in
theorem map_fst_opposite (graph : List (α × List α)) :
    (opposite graph).map Prod.fst = (closed graph).map Prod.fst := by
  rw [opposite, List.map_map]
  rfl

theorem depends_opposite {v w : α} : Depends (opposite graph) v w ↔ Depends graph w v := by
  have users : w ∈ graph.flatMap (fun use => (use.2.filter (· == v)).map fun _ => use.1) ↔
      Depends graph w v := by
    simp only [List.mem_flatMap, List.mem_map, List.mem_filter, beq_iff_eq, Prod.exists, Depends]
    constructor
    · rintro ⟨user, ds, hmem, d, ⟨hd, rfl⟩, rfl⟩
      exact ⟨ds, hmem, hd⟩
    · rintro ⟨ds, hmem, hd⟩
      exact ⟨w, ds, hmem, v, ⟨hd, rfl⟩, rfl⟩
  rw [← users]
  constructor
  · rintro ⟨ds, hv, hw⟩
    obtain ⟨⟨v, ds'⟩, -, heq⟩ := List.mem_map.1 hv
    cases heq
    exact hw
  · intro hw
    obtain ⟨ds, hv⟩ := exists_mem_closed (users.1 hw)
    exact ⟨_, List.mem_map.2 ⟨_, hv, rfl⟩, hw⟩

theorem item_opposite {v : α} : Item (opposite graph) v ↔ Item graph v := by
  rw [Item, map_fst_opposite, mem_map_closed_iff]
  refine or_iff_left_of_imp ?_
  rintro ⟨u, h⟩
  obtain ⟨ds, hv, -⟩ := depends_opposite.1 h
  exact .inl (List.mem_map.2 ⟨_, hv, rfl⟩)

theorem nodup_opposite (once : (graph.map Prod.fst).Nodup) :
    ((opposite graph).map Prod.fst).Nodup := by
  rw [map_fst_opposite]
  exact nodup_closed once

theorem fromRoots_isLayered (once : (graph.map Prod.fst).Nodup) :
    IsLayered (Item graph) (fun v w => Depends graph w v) (fromRoots graph).layers
      ((fromRoots graph).isCyclic = true) :=
  (fromLeaves_isLayered (nodup_opposite once)).congr (fun _ => item_opposite)
    (fun _ _ => depends_opposite) Iff.rfl

end AndInverter.Layering
