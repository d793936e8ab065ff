import AndInverter.Proofs.Layering.Edges
import Mathlib.Data.List.Sort

/-! Layers whose items are sorted. Counting finds the items of a layer in some order, which depends on
the orders of edges and items. Sorted, they are those of the layers from the leaves, where items with
dependencies come in the order given. -/

namespace AndInverter.Layering

variable {α : Type}

section Runs

variable [DecidableEq α]

/-- There is one run from given counts. -/
theorem Counting.Runs.unique {c d d' : Counting α} {layers layers' : List (List α)}
    (run : Runs c layers d) (run' : Runs c layers' d') : layers = layers' ∧ d = d' := by
  induction run generalizing layers' with
  | done last =>
    cases run' with
    | done => exact ⟨rfl, rfl⟩
    | step next =>
      rw [last] at next
      cases next
  | step next _ ih =>
    cases run' with
    | done last =>
      rw [last] at next
      cases next
    | step next' run' =>
      obtain ⟨rfl, rfl⟩ := Prod.mk.inj (Option.some.inj (next.symm.trans next'))
      obtain ⟨rfl, rfl⟩ := ih run'
      exact ⟨rfl, rfl⟩

end Runs

/-- A layer lists its items in the order in which they wait. -/
theorem sublist_of_mem_peel [BEq α] {fuel : Nat} {waiting : List (α × List α)} {layer : List α}
    (h : layer ∈ (peel fuel waiting).layers) : layer.Sublist (waiting.map Prod.fst) := by
  induction fuel generalizing waiting with
  | zero => simp [peel] at h
  | succ fuel ih =>
    rw [peel_succ] at h
    split at h
    · simp at h
    · rcases List.mem_cons.1 h with rfl | h
      · exact List.filter_sublist.map _
      · have later := ih h
        rw [map_fst_rest] at later
        exact later.trans (List.filter_sublist.map _)

section Sorted

variable {graph : List (Nat × List Nat)}

/-- The items in a layer that have an entry ascend where those of the graph do. -/
theorem pairwise_filter_layer (ascending : (graph.map Prod.fst).Pairwise (· ≤ ·))
    {p : Nat → Bool} (keys : ∀ x, p x ↔ x ∈ graph.map Prod.fst) {layer : List Nat}
    (h : layer ∈ (fromLeaves graph).layers) : (layer.filter p).Pairwise (· ≤ ·) := by
  have items : ((closed graph).map Prod.fst).filter p = graph.map Prod.fst := by
    rw [closed, List.map_append, List.filter_append, List.filter_eq_self.2 fun x hx => (keys x).2 hx,
      List.map_map, List.append_right_eq_self, List.filter_eq_nil_iff]
    intro x hx hkey
    obtain ⟨x, hleaf, rfl⟩ := List.mem_map.1 hx
    have new := (List.mem_filter.1 (List.mem_eraseDups.1 hleaf)).2
    exact absurd ((keys x).1 hkey) (by simpa using new)
  have sub := (sublist_of_mem_peel h).filter p
  rw [items] at sub
  exact ascending.sublist sub

/-- Layers are told apart by the order of their items only, and sorting removes that. -/
theorem flatten_sorted_filter {p : Nat → Bool} {layers layers' : List (List Nat)}
    (perm : List.Forall₂ List.Perm layers layers')
    (ascending : ∀ layer ∈ layers', (layer.filter p).Pairwise (· ≤ ·)) :
    (layers.map (·.mergeSort)).flatten.filter p = layers'.flatten.filter p := by
  induction perm with
  | nil => rfl
  | @cons layer layer' layers layers' first _ ih =>
    obtain ⟨ascending, later⟩ := List.forall_mem_cons.1 ascending
    have sorted : (layer.mergeSort.filter p).Pairwise (· ≤ ·) :=
      (List.pairwise_mergeSort' (· ≤ ·) layer).filter p
    have same : layer.mergeSort.filter p = layer'.filter p :=
      (((List.mergeSort_perm layer _).trans first).filter p).eq_of_pairwise' sorted ascending
    rw [List.map_cons, List.flatten_cons, List.flatten_cons, List.filter_append, List.filter_append,
      same, ih later]

/-- Sorted, the layers that counting finds have the items with an entry in the order given. -/
theorem flatten_sorted_of_runs (ascending : (graph.map Prod.fst).Pairwise (· < ·))
    {order : List (Nat × Nat)} {items : List Nat} (hedges : order.Perm (edgesFromLeaves graph))
    (nodup : items.Nodup) (all : ∀ x, x ∈ items ↔ Item graph x) {layers : List (List Nat)}
    {last : Counting Nat} (run : Counting.Runs (.ofEdges (graph.map Prod.fst) order items) layers last)
    {p : Nat → Bool} (keys : ∀ x, p x ↔ x ∈ graph.map Prod.fst) :
    (layers.map (·.mergeSort)).flatten.filter p = (fromLeaves graph).layers.flatten.filter p ∧
      (last.Cyclic ↔ (fromLeaves graph).isCyclic = true) := by
  have once : (graph.map Prod.fst).Nodup := ascending.imp fun h => Nat.ne_of_lt h
  obtain ⟨layers', last', run', perm, cyclic⟩ :=
    (counts_edgesFromLeaves once hedges nodup all).exists_runs _ (nodup_closed once) (Nat.le_refl _)
  obtain ⟨rfl, rfl⟩ := run.unique run'
  exact ⟨flatten_sorted_filter perm fun layer h =>
    pairwise_filter_layer (ascending.imp Nat.le_of_lt) keys h, cyclic⟩

end Sorted

end AndInverter.Layering
