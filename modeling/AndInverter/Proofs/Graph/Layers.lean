import AndInverter.Graph.Layers
import AndInverter.Proofs.Graph.Solution
import AndInverter.Proofs.Layering

/-! The layers of a graph. All gates stand after the first layer, each of them once and after its
arguments. -/

namespace AndInverter.Graph

variable {g : Graph}

/-- The nodes that a node reads. -/
def reads (g : Graph) (i : Nat) : List Nat :=
  match g.nodes[i]? with
  | some node => (node.fanins.map (·.id)).eraseDups
  | none => []

theorem Evaluable.mem_dependencies_iff (ev : g.Evaluable) {i : Nat} {ds : List Nat} :
    (i, ds) ∈ g.dependencies ↔ i < g.nodes.size ∧ ds = g.reads i := by
  simp only [dependencies, ev.numbered_eq, List.mem_map, Prod.exists, Prod.mk.injEq,
    List.mem_zipIdx_iff_getElem?, Array.getElem?_toList, reads]
  constructor
  · rintro ⟨node, j, hj, rfl, rfl⟩
    exact ⟨lt_size hj, by simp [hj]⟩
  · rintro ⟨hi, rfl⟩
    exact ⟨g.nodes[i], i, Array.getElem?_eq_getElem hi, rfl, by simp [hi]⟩

theorem Evaluable.map_fst_dependencies (ev : g.Evaluable) :
    g.dependencies.map Prod.fst = List.range g.nodes.size := by
  rw [dependencies, ev.numbered_eq, List.map_map, List.range_eq_range', ← Array.length_toList,
    ← List.zipIdx_map_snd]
  exact List.map_congr_left fun _ _ => rfl

theorem mem_reads_iff {i d : Nat} :
    d ∈ g.reads i ↔ ∃ left right, g.nodes[i]? = some (.and left right) ∧
      (d = left.id ∨ d = right.id) := by
  rw [reads]
  cases hi : g.nodes[i]? with
  | none => simp
  | some node => cases node <;> simp [Node.fanins]

theorem reads_ne_nil_iff {i : Nat} :
    g.reads i ≠ [] ↔ ∃ left right, g.nodes[i]? = some (.and left right) := by
  constructor
  · intro h
    obtain ⟨d, hd⟩ := List.exists_mem_of_ne_nil _ h
    obtain ⟨left, right, hi, -⟩ := mem_reads_iff.1 hd
    exact ⟨left, right, hi⟩
  · rintro ⟨left, right, hi⟩
    exact List.ne_nil_of_mem (mem_reads_iff.2 ⟨left, right, hi, .inl rfl⟩)

namespace Evaluable

variable (ev : g.Evaluable)
include ev

theorem lt_of_mem_reads {i d : Nat} (h : d ∈ g.reads i) : d < i := by
  obtain ⟨left, right, hi, hd⟩ := mem_reads_iff.1 h
  have ⟨hl, hr⟩ := ev.fanin hi
  omega

/-- Dependencies are nodes, so nothing has to be added. -/
theorem closed_dependencies : Layering.closed g.dependencies = g.dependencies := by
  have none : (g.dependencies.flatMap (·.2)).filter
      (!(g.dependencies.map Prod.fst).contains ·) = [] := by
    rw [List.filter_eq_nil_iff]
    intro d hd
    obtain ⟨⟨i, ds⟩, hi, hd⟩ := List.mem_flatMap.1 hd
    obtain ⟨hi, rfl⟩ := ev.mem_dependencies_iff.1 hi
    have := ev.lt_of_mem_reads hd
    rw [ev.map_fst_dependencies]
    simp
    omega
  simp only [Layering.closed, none, List.eraseDups_nil, List.map_nil, List.append_nil]

/-- The layers after the first list the gates, each of them once and after its arguments. -/
theorem gates_inOrder :
    (g.layersFromLeaves.drop 1).flatten.Nodup ∧
    (∀ i, i ∈ (g.layersFromLeaves.drop 1).flatten ↔
      ∃ left right, g.nodes[i]? = some (.and left right)) ∧
    Layering.InOrder g.reads (Layering.ready g.dependencies)
      (g.layersFromLeaves.drop 1).flatten := by
  obtain ⟨fuel, hfuel⟩ : ∃ fuel, g.dependencies.length = fuel + 1 := by
    refine ⟨g.nodes.size - 1, ?_⟩
    have hlen := congrArg List.length ev.map_fst_dependencies
    rw [List.length_map, List.length_range] at hlen
    have := ev.pos
    omega
  have layers : g.layersFromLeaves = (Layering.peel (fuel + 1) g.dependencies).layers := by
    rw [layersFromLeaves, Layering.fromLeaves, ev.closed_dependencies, hfuel]
  have blocked : (Layering.peel (fuel + 1) g.dependencies).blocked = [] := by
    refine Layering.peel_blocked id (fuel + 1) (Nat.le_of_eq hfuel) fun i ds h d hd => ?_
    obtain ⟨hi, rfl⟩ := ev.mem_dependencies_iff.1 h
    have lt := ev.lt_of_mem_reads hd
    exact ⟨lt, _, ev.mem_dependencies_iff.2 ⟨Nat.lt_trans lt hi, rfl⟩⟩
  have perm := Layering.peel_drop_perm blocked
  rw [← layers] at perm
  refine ⟨?_, fun i => ?_, ?_⟩
  · refine perm.nodup_iff.2 (List.Nodup.sublist (List.filter_sublist.map _) ?_)
    rw [ev.map_fst_dependencies]
    exact List.nodup_range
  · rw [perm.mem_iff, ← reads_ne_nil_iff]
    simp only [List.mem_map, List.mem_filter, Prod.exists, ev.mem_dependencies_iff]
    constructor
    · rintro ⟨i, ds, ⟨⟨-, rfl⟩, hne⟩, rfl⟩
      simpa using hne
    · intro hne
      obtain ⟨left, right, hi⟩ := reads_ne_nil_iff.1 hne
      exact ⟨i, _, ⟨⟨lt_size hi, rfl⟩, by simpa using hne⟩, rfl⟩
  · rw [layers]
    exact Layering.peel_drop_inOrder fun i ds h d hd => (ev.mem_dependencies_iff.1 h).2 ▸ hd

end Evaluable

end AndInverter.Graph
