import AndInverter.Proofs.Graph.Layers
import AndInverter.Proofs.Graph.Reachable
import AndInverter.Proofs.Layering.Edges

/-! Layers and paths. Layers of a relation are exact, with cycles or without, whatever the order in
which the edges are counted; and those of a graph have each node at the length of its longest path
down to a leaf, or up to a root. -/

namespace AndInverter.Graph

variable {g : Graph}

/-- The first node reads the second. -/
def Reads (g : Graph) (i d : Nat) : Prop := d ∈ g.reads i

namespace Evaluable

variable (ev : g.Evaluable)
include ev

theorem depends_dependencies_iff {i d : Nat} :
    Layering.Depends g.dependencies i d ↔ g.Reads i d := by
  constructor
  · rintro ⟨ds, hi, hd⟩
    obtain ⟨-, rfl⟩ := ev.mem_dependencies_iff.1 hi
    exact hd
  · intro hd
    obtain ⟨left, right, hi, -⟩ := mem_reads_iff.1 hd
    exact ⟨_, ev.mem_dependencies_iff.2 ⟨lt_size hi, rfl⟩, hd⟩

theorem item_dependencies_iff {i : Nat} :
    Layering.Item g.dependencies i ↔ i < g.nodes.size := by
  rw [Layering.Item, ev.map_fst_dependencies, List.mem_range]
  refine or_iff_left_of_imp ?_
  rintro ⟨j, h⟩
  have hi : i ∈ g.reads j := ev.depends_dependencies_iff.1 h
  obtain ⟨left, right, hj, -⟩ := mem_reads_iff.1 hi
  exact Nat.lt_trans (ev.lt_of_mem_reads hi) (lt_size hj)

theorem not_transGen_reads (i : Nat) : ¬ Relation.TransGen g.Reads i i := by
  have down (d : Nat) (h : Relation.TransGen g.Reads i d) : d < i := by
    induction h with
    | single h => exact ev.lt_of_mem_reads h
    | tail _ h ih => exact Nat.lt_trans (ev.lt_of_mem_reads h) ih
  exact fun h => Nat.lt_irrefl i (down i h)

end Evaluable

/-- The layers list each node once, at the length of its longest path along `r`. -/
def LayeredByPath (g : Graph) (r : Nat → Nat → Prop) (layers : List (List Nat)) : Prop :=
  layers.flatten.Perm (List.range g.nodes.size) ∧
  ∀ i k, i ∈ layers.getD k [] ↔ i < g.nodes.size ∧
    IsGreatest {n | ∃ last, (∀ d, ¬ r last d) ∧ Layering.Chain r n i last} k

theorem layeredByPath_of_isLayered {r : Nat → Nat → Prop} {layers : List (List Nat)} {cyclic : Prop}
    (l : Layering.IsLayered (· < g.nodes.size) r layers cyclic)
    (acyclic : ∀ i, ¬ Relation.TransGen r i i) : g.LayeredByPath r layers := by
  refine ⟨?_, l.mem_layer_iff_longest acyclic⟩
  refine (List.perm_ext_iff_of_nodup ?_ List.nodup_range).2 fun i => ?_
  · exact List.nodup_flatten.2 ⟨l.nodup, l.disjoint⟩
  · rw [l.mem_flatten_iff acyclic, List.mem_range]

/-- Layers of a relation have just the items from which no cycle is reached, each in the layer of its
height, and tell whether there is a cycle; the same goes for its opposite. Counting edges ends with such
layers in whatever order edges and items come. The layers of a graph have every node at the length of
its longest path, down to a node that reads nothing or up to one that nothing reads. -/
theorem layers_exact {α : Type} [DecidableEq α] {graph : List (α × List α)}
    (once : (graph.map Prod.fst).Nodup) (reachable : g.Reachable) :
    (Layering.IsLayered (Layering.Item graph) (Layering.Depends graph)
        (Layering.fromLeaves graph).layers ((Layering.fromLeaves graph).isCyclic = true) ∧
      Layering.LayeredByCounting graph (Layering.edgesFromLeaves graph) (Layering.Depends graph)) ∧
    (Layering.IsLayered (Layering.Item graph) (fun v w => Layering.Depends graph w v)
        (Layering.fromRoots graph).layers ((Layering.fromRoots graph).isCyclic = true) ∧
      Layering.LayeredByCounting graph (Layering.edgesFromRoots graph)
        fun v w => Layering.Depends graph w v) ∧
    g.LayeredByPath g.Reads g.layersFromLeaves ∧
    g.LayeredByPath (fun d i => g.Reads i d) g.layersFromRoots := by
  have ev := reachable.wellFormed.toEvaluable
  have nodes : (g.dependencies.map Prod.fst).Nodup := by
    rw [ev.map_fst_dependencies]
    exact List.nodup_range
  refine ⟨⟨Layering.fromLeaves_isLayered once, Layering.layeredByCounting_fromLeaves once⟩,
    ⟨Layering.fromRoots_isLayered once, Layering.layeredByCounting_fromRoots once⟩, ?_, ?_⟩
  · refine layeredByPath_of_isLayered ((Layering.fromLeaves_isLayered nodes).congr ?_ ?_ Iff.rfl)
      ev.not_transGen_reads
    · exact fun _ => ev.item_dependencies_iff
    · exact fun _ _ => ev.depends_dependencies_iff
  · refine layeredByPath_of_isLayered ((Layering.fromRoots_isLayered nodes).congr ?_ ?_ Iff.rfl) ?_
    · exact fun _ => ev.item_dependencies_iff
    · exact fun _ _ => ev.depends_dependencies_iff
    · exact fun i h => ev.not_transGen_reads i (Relation.transGen_swap.1 h)

/-- An item depends on another one twice, two depend on each other, and one depends on these; and a
conjunction of two inputs. -/
theorem layers_exact_cycle : ∃ g h, Graph.sink ["a", "b"] = .ok g ∧
    [Growth.and (.positive 1) (.positive 2)].forM Growth.build g = .ok ((), h) ∧
    ([(1, [0, 0]), (2, [3, 1]), (3, [2]), (4, [3])].map Prod.fst).Nodup ∧
    Layering.IsLayered (Layering.Item [(1, [0, 0]), (2, [3, 1]), (3, [2]), (4, [3])])
      (Layering.Depends [(1, [0, 0]), (2, [3, 1]), (3, [2]), (4, [3])]) [[0], [1]] True ∧
    h.LayeredByPath h.Reads [[0, 1, 2], [3]] ∧
    h.LayeredByPath (fun d i => h.Reads i d) [[0, 3], [1, 2]] := by
  obtain ⟨g, hg, made⟩ : ∃ g, Graph.sink ["a", "b"] = .ok g ∧
      ∃ made, [Growth.and (.positive 1) (.positive 2)].forM Growth.build g = .ok made ∧
        made.2.layersFromLeaves = [[0, 1, 2], [3]] ∧ made.2.layersFromRoots = [[0, 3], [1, 2]] := by
    decide +kernel
  obtain ⟨⟨_, h⟩, run, leaves, roots⟩ := made
  have once : ([(1, [0, 0]), (2, [3, 1]), (3, [2]), (4, [3])].map Prod.fst).Nodup := by decide
  obtain ⟨⟨layered, -⟩, -, down, up⟩ := layers_exact once ((Reachable.sink hg).grows run)
  refine ⟨g, h, hg, run, once, layered.congr ?_ ?_ ?_, leaves ▸ down, roots ▸ up⟩
  · exact fun _ => Iff.rfl
  · exact fun _ _ => Iff.rfl
  · decide

end AndInverter.Graph
