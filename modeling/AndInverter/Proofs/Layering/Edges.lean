import AndInverter.Proofs.Layering.Counting

/-! Counting the edges of a graph. Whatever the order of the edges and of the items, the counts at the
start are those of what waits, so a run over the layers ends and has the layers from the leaves, or
from the roots where edges go the other way. -/

namespace AndInverter.Layering

variable {α : Type}

namespace Counting

variable [DecidableEq α] {c : Counting α} {waiting : List (α × List α)}

/-! ### Counts of edges -/

theorem getD_blocked_addEdge (c : Counting α) (edge : α × α) (x : α) :
    ((c.addEdge edge).blocked x).getD 0 =
      (c.blocked x).getD 0 + if edge.2 = x then 1 else 0 := by
  have counted : (Function.update c.blocked edge.2 (some ((c.blocked edge.2).getD 0 + 1)) x).getD 0 =
      (c.blocked x).getD 0 + if edge.2 = x then 1 else 0 := by
    rcases eq_or_ne x edge.2 with rfl | h
    · simp
    · simp [h, h.symm]
  rw [← counted, addEdge]
  rcases eq_or_ne x edge.1 with rfl | h
  · simp
  · simp [h]

theorem isSome_blocked_addEdge (c : Counting α) (edge : α × α) (x : α) :
    ((c.addEdge edge).blocked x).isSome ↔ (c.blocked x).isSome ∨ x = edge.1 ∨ x = edge.2 := by
  rw [addEdge]
  rcases eq_or_ne x edge.1 with rfl | h1
  · simp
  · rcases eq_or_ne x edge.2 with rfl | h2
    · simp [h1]
    · simp [h1, h2]

theorem successors_addEdge (c : Counting α) (edge : α × α) (x : α) :
    (c.addEdge edge).successors x = c.successors x ++ if edge.1 = x then [edge.2] else [] := by
  rw [addEdge]
  rcases eq_or_ne x edge.1 with rfl | h
  · simp
  · simp [h, h.symm]

theorem getD_blocked_foldl_addEdge (c : Counting α) (edges : List (α × α)) (x : α) :
    ((edges.foldl addEdge c).blocked x).getD 0 =
      (c.blocked x).getD 0 + (edges.filter (·.2 = x)).length := by
  induction edges generalizing c with
  | nil => rfl
  | cons edge edges ih =>
    rw [List.foldl_cons, ih, getD_blocked_addEdge, List.filter_cons]
    by_cases h : edge.2 = x
    · simp only [h, if_true, decide_true, List.length_cons]
      omega
    · simp [h]

theorem isSome_blocked_foldl_addEdge (c : Counting α) (edges : List (α × α)) (x : α) :
    ((edges.foldl addEdge c).blocked x).isSome ↔
      (c.blocked x).isSome ∨ ∃ edge ∈ edges, x = edge.1 ∨ x = edge.2 := by
  induction edges generalizing c with
  | nil => simp
  | cons edge edges ih =>
    rw [List.foldl_cons, ih, isSome_blocked_addEdge, List.exists_mem_cons_iff, or_assoc]

theorem successors_foldl_addEdge (c : Counting α) (edges : List (α × α)) (x : α) :
    (edges.foldl addEdge c).successors x =
      c.successors x ++ (edges.filter (·.1 = x)).map Prod.snd := by
  induction edges generalizing c with
  | nil => simp
  | cons edge edges ih =>
    rw [List.foldl_cons, ih, successors_addEdge, List.filter_cons, List.append_assoc]
    split <;> simp_all

theorem count_map_snd (edges : List (α × α)) (x y : α) :
    ((edges.filter (·.1 = y)).map Prod.snd).count x = edges.count (y, x) := by
  induction edges with
  | nil => rfl
  | cons edge edges ih =>
    rw [List.filter_cons, List.count_cons]
    obtain ⟨u, v⟩ := edge
    by_cases hu : u = y <;> simp_all [List.count_cons]

theorem count_map_fst (edges : List (α × α)) (x y : α) :
    ((edges.filter (·.2 = x)).map Prod.fst).count y = edges.count (y, x) := by
  induction edges with
  | nil => rfl
  | cons edge edges ih =>
    rw [List.filter_cons, List.count_cons]
    obtain ⟨u, v⟩ := edge
    by_cases hv : v = x <;> simp_all [List.count_cons]

/-- A node or an end of an edge is counted, with the number of edges to it. -/
theorem blocked_ofNodes_iff {nodes : List α} {edges : List (α × α)} (x : α) (n : Nat) :
    (edges.foldl addEdge (ofNodes nodes)).blocked x = some n ↔
      (x ∈ nodes ∨ ∃ edge ∈ edges, x = edge.1 ∨ x = edge.2) ∧
        (edges.filter (·.2 = x)).length = n := by
  have some_iff : ∀ o : Option Nat, o = some n ↔ o.isSome ∧ o.getD 0 = n := by
    rintro (_ | m) <;> simp
  have start : ((ofNodes nodes).blocked x).isSome ↔ x ∈ nodes := by simp [ofNodes]
  have zero : ((ofNodes nodes).blocked x).getD 0 = 0 := by
    rw [ofNodes]
    dsimp only
    split <;> rfl
  rw [some_iff, isSome_blocked_foldl_addEdge, getD_blocked_foldl_addEdge, start, zero, Nat.zero_add]

/-- Counting the edges of a relation starts with the counts of what waits in it. -/
theorem counts_ofEdges {nodes items : List α} {edges : List (α × α)}
    (once : (waiting.map Prod.fst).Nodup)
    (count : ∀ x ds, (x, ds) ∈ waiting → ∀ y, ds.count y = edges.count (y, x))
    (ends : ∀ x, x ∈ waiting.map Prod.fst ↔ x ∈ nodes ∨ ∃ edge ∈ edges, x = edge.1 ∨ x = edge.2)
    (nodup : items.Nodup) (all : ∀ x, x ∈ items ↔ x ∈ waiting.map Prod.fst) :
    Counts waiting (ofEdges nodes edges items) := by
  have length {x : α} {ds : List α} (hmem : (x, ds) ∈ waiting) :
      (edges.filter (·.2 = x)).length = ds.length := by
    have perm : ((edges.filter (·.2 = x)).map Prod.fst).Perm ds :=
      List.perm_iff_count.2 fun y => (count_map_fst edges x y).trans (count x ds hmem y).symm
    rw [← perm.length_eq, List.length_map]
  have counted (x : α) (n : Nat) : (edges.foldl addEdge (ofNodes nodes)).blocked x = some n ↔
      ∃ ds, (x, ds) ∈ waiting ∧ ds.length = n := by
    rw [blocked_ofNodes_iff, ← ends]
    constructor
    · rintro ⟨hx, rfl⟩
      obtain ⟨⟨x, ds⟩, hmem, rfl⟩ := List.mem_map.1 hx
      exact ⟨ds, hmem, (length hmem).symm⟩
    · rintro ⟨ds, hmem, rfl⟩
      exact ⟨List.mem_map.2 ⟨_, hmem, rfl⟩, length hmem⟩
  refine ⟨fun x n => ?_, fun x ds hmem y => ?_, ?_⟩
  · rw [ofEdges, Option.filter_eq_some_iff, counted, and_comm]
    simp
  · rw [ofEdges, successors_foldl_addEdge, count x ds hmem, ← count_map_snd]
    rfl
  · rw [ofEdges]
    refine (List.perm_ext_iff_of_nodup (nodup.filter _) ?_).2 fun x => ?_
    · exact once.sublist (List.filter_sublist.map _)
    · rw [List.mem_filter, decide_eq_true_iff, counted, all, mem_ready_iff]
      simp only [List.length_eq_zero_iff, exists_eq_right]
      exact and_iff_right_of_imp fun h => List.mem_map.2 ⟨_, h, rfl⟩

/-- Counts of all that waits run through the layers of the relation. -/
theorem Counts.exists_isLayered {graph : List (α × List α)} {item : α → Prop} {r : α → α → Prop}
    (counts : Counts (closed graph) c) (once : (graph.map Prod.fst).Nodup)
    (layered : IsLayered item r (fromLeaves graph).layers ((fromLeaves graph).isCyclic = true)) :
    ∃ layers last, Runs c layers last ∧ IsLayered item r layers last.Cyclic := by
  obtain ⟨layers, last, run, perm, cyclic⟩ :=
    counts.exists_runs _ (nodup_closed once) (Nat.le_refl _)
  refine ⟨layers, last, run, (layered.of_perm perm).congr ?_ ?_ cyclic.symm⟩
  · exact fun _ => Iff.rfl
  · exact fun _ _ => Iff.rfl

end Counting

/-! ### The edges of a graph -/

section Edges

variable {graph : List (α × List α)}

/-- An edge to each item from everything it depends on. -/
def edgesFromLeaves (graph : List (α × List α)) : List (α × α) :=
  graph.flatMap fun (item, deps) => deps.map fun dep => (dep, item)

/-- An edge from each item to everything it depends on. -/
def edgesFromRoots (graph : List (α × List α)) : List (α × α) :=
  graph.flatMap fun (item, deps) => deps.map fun dep => (item, dep)

theorem mem_edgesFromLeaves_iff {v w : α} :
    (v, w) ∈ edgesFromLeaves graph ↔ Depends graph w v := by
  simp [edgesFromLeaves, Depends]

theorem mem_edgesFromRoots_iff {v w : α} :
    (v, w) ∈ edgesFromRoots graph ↔ Depends graph v w := by
  simp [edgesFromRoots, Depends]

/-- Items are the keys and the ends of edges. -/
theorem item_iff_edgesFromLeaves {v : α} : Item graph v ↔ v ∈ graph.map Prod.fst ∨
    ∃ edge ∈ edgesFromLeaves graph, v = edge.1 ∨ v = edge.2 := by
  simp only [Prod.exists, mem_edgesFromLeaves_iff, Item]
  constructor
  · rintro (h | ⟨u, h⟩)
    · exact .inl h
    · exact .inr ⟨v, u, h, .inl rfl⟩
  · rintro (h | ⟨u, w, h, rfl | rfl⟩)
    · exact .inl h
    · exact .inr ⟨w, h⟩
    · obtain ⟨ds, hmem, -⟩ := h
      exact .inl (List.mem_map.2 ⟨_, hmem, rfl⟩)

theorem item_iff_edgesFromRoots {v : α} : Item graph v ↔ v ∈ graph.map Prod.fst ∨
    ∃ edge ∈ edgesFromRoots graph, v = edge.1 ∨ v = edge.2 := by
  rw [item_iff_edgesFromLeaves]
  refine or_congr_right ?_
  simp only [Prod.exists, mem_edgesFromLeaves_iff, mem_edgesFromRoots_iff]
  rw [exists_comm]
  simp only [or_comm]

variable [DecidableEq α]

theorem count_edgesFromLeaves_of_mem (once : (graph.map Prod.fst).Nodup) {x : α} {ds : List α}
    (hmem : (x, ds) ∈ graph) (y : α) : (edgesFromLeaves graph).count (y, x) = ds.count y := by
  induction graph with
  | nil => cases hmem
  | cons entry graph ih =>
    obtain ⟨item, deps⟩ := entry
    obtain ⟨hitem, once⟩ := List.nodup_cons.1 once
    have split : (edgesFromLeaves ((item, deps) :: graph)).count (y, x) =
        (deps.map fun dep => (dep, item)).count (y, x) + (edgesFromLeaves graph).count (y, x) := by
      rw [edgesFromLeaves, List.flatMap_cons, List.count_append]
      rfl
    rw [split]
    rcases List.mem_cons.1 hmem with heq | hlater
    · cases heq
      have none : (edgesFromLeaves graph).count (y, x) = 0 := by
        refine List.count_eq_zero.2 fun hedge => ?_
        obtain ⟨ds', hmem', -⟩ := mem_edgesFromLeaves_iff.1 hedge
        exact hitem (List.mem_map.2 ⟨_, hmem', rfl⟩)
      rw [none, Nat.add_zero]
      exact List.count_map_of_injective ds _ (fun _ _ h => (Prod.mk.inj h).1) y
    · have none : (deps.map fun dep => (dep, item)).count (y, x) = 0 := by
        refine List.count_eq_zero.2 fun hedge => ?_
        obtain ⟨_, -, heq⟩ := List.mem_map.1 hedge
        cases heq
        exact hitem (List.mem_map.2 ⟨_, hlater, rfl⟩)
      rw [none, Nat.zero_add, ih once hlater]

theorem count_edgesFromLeaves (once : (graph.map Prod.fst).Nodup) {x : α} {ds : List α}
    (hmem : (x, ds) ∈ closed graph) (y : α) :
    ds.count y = (edgesFromLeaves graph).count (y, x) := by
  rcases mem_closed_iff.1 hmem with hmem | ⟨rfl, hnew, -⟩
  · exact (count_edgesFromLeaves_of_mem once hmem y).symm
  · rw [List.count_nil, eq_comm, List.count_eq_zero]
    intro hedge
    obtain ⟨ds, hmem, -⟩ := mem_edgesFromLeaves_iff.1 hedge
    exact hnew (List.mem_map.2 ⟨_, hmem, rfl⟩)

theorem count_edgesFromRoots {x : α} {ds : List α} (hmem : (x, ds) ∈ opposite graph) (y : α) :
    ds.count y = (edgesFromRoots graph).count (y, x) := by
  obtain ⟨⟨x, _⟩, -, heq⟩ := List.mem_map.1 hmem
  cases heq
  rw [← Counting.count_map_fst, edgesFromRoots, List.filter_flatMap, List.map_flatMap]
  congr 2
  funext entry
  rw [List.filter_map, List.map_map]
  rfl

/-- Nothing has to be added to the opposite relation. -/
theorem mem_closed_opposite_iff {x : α} {ds : List α} :
    (x, ds) ∈ closed (opposite graph) ↔ (x, ds) ∈ opposite graph := by
  refine mem_closed_iff.trans (or_iff_left ?_)
  rintro ⟨-, hnew, u, h⟩
  rw [map_fst_opposite, mem_map_closed_iff] at hnew
  exact hnew (item_opposite.1 (.inr ⟨u, h⟩))

end Edges

/-! ### Layers of a graph by counting -/

section Runs

variable [DecidableEq α] {graph : List (α × List α)}

/-- In whatever order edges and items come, counting them ends, with the layers of the relation. -/
def LayeredByCounting (graph : List (α × List α)) (edges : List (α × α)) (r : α → α → Prop) : Prop :=
  ∀ order items, order.Perm edges → items.Nodup → (∀ x, x ∈ items ↔ Item graph x) →
    ∃ layers last, Counting.Runs (.ofEdges (graph.map Prod.fst) order items) layers last ∧
      IsLayered (Item graph) r layers last.Cyclic

/-- The counts of the edges from dependencies, in any order, are those of what waits at the start. -/
theorem counts_edgesFromLeaves (once : (graph.map Prod.fst).Nodup) {order : List (α × α)}
    {items : List α} (hedges : order.Perm (edgesFromLeaves graph)) (nodup : items.Nodup)
    (all : ∀ x, x ∈ items ↔ Item graph x) :
    Counting.Counts (closed graph) (.ofEdges (graph.map Prod.fst) order items) := by
  refine Counting.counts_ofEdges (nodup_closed once) (fun x ds hmem y => ?_) (fun x => ?_) nodup
    fun x => (all x).trans mem_map_closed_iff.symm
  · rw [hedges.count_eq, count_edgesFromLeaves once hmem]
  · rw [mem_map_closed_iff, item_iff_edgesFromLeaves]
    simp only [hedges.mem_iff]

theorem layeredByCounting_fromLeaves (once : (graph.map Prod.fst).Nodup) :
    LayeredByCounting graph (edgesFromLeaves graph) (Depends graph) :=
  fun _ _ hedges nodup all =>
    (counts_edgesFromLeaves once hedges nodup all).exists_isLayered once (fromLeaves_isLayered once)

theorem layeredByCounting_fromRoots (once : (graph.map Prod.fst).Nodup) :
    LayeredByCounting graph (edgesFromRoots graph) fun v w => Depends graph w v := by
  intro order items hedges nodup all
  have once' := nodup_opposite once
  refine Counting.Counts.exists_isLayered ?_ once' (fromRoots_isLayered once)
  refine Counting.counts_ofEdges (nodup_closed once') (fun x ds hmem y => ?_) (fun x => ?_) nodup
    fun x => ?_
  · rw [hedges.count_eq, count_edgesFromRoots (mem_closed_opposite_iff.1 hmem)]
  · rw [mem_map_closed_iff, item_opposite, item_iff_edgesFromRoots]
    simp only [hedges.mem_iff]
  · rw [mem_map_closed_iff, item_opposite, all]

end Runs

end AndInverter.Layering
