import AndInverter.Graph.Compact
import AndInverter.Proofs.Except
import AndInverter.Proofs.Graph.Solution

/-! The cone of a graph: the nodes that its outputs and latches depend on. The stack-driven marking ends
with just the nodes of the cone. -/

namespace AndInverter

@[simp] theorem Node.sources_and (left right : Literal) :
    (Node.and left right).sources = [left.id, right.id] := rfl

@[simp] theorem Node.sources_latch (next : Literal) (init : Bool) :
    (Node.latch next init).sources = [next.id] := rfl

namespace Graph

/-- The nodes that outputs and latches depend on, through the arguments of gates and the next states of
latches. -/
inductive InCone (g : Graph) : Nat → Prop where
  | output {name : String} {l : Literal} : g.outputs[name]? = some l → InCone g l.id
  | latch {name : String} {i : Nat} : g.latches[name]? = some i → InCone g i
  | source {i j : Nat} {node : Node} :
      InCone g i → g.nodes[i]? = some node → j ∈ node.sources → InCone g j

variable {g : Graph} {used : Array Bool} {stack : List Nat} {i j : Nat} {node : Node}

theorem Evaluable.lt_size_of_mem_sources (ev : g.Evaluable) (hi : g.nodes[i]? = some node)
    (hj : j ∈ node.sources) : j < g.nodes.size := by
  cases node with
  | zero => cases hj
  | input => cases hj
  | latch next init => exact List.mem_singleton.1 hj ▸ ev.next hi
  | and left right =>
    have hlt := lt_size hi
    rcases List.mem_pair.1 hj with rfl | rfl
    · exact Nat.lt_trans (ev.fanin hi).1 hlt
    · exact Nat.lt_trans (ev.fanin hi).2 hlt

theorem Evaluable.lt_size_of_inCone (ev : g.Evaluable) (h : g.InCone i) : i < g.nodes.size := by
  cases h with
  | output hl => exact ev.output hl
  | latch hn =>
    obtain ⟨next, init, hi⟩ := ev.latch.2 ⟨_, hn⟩
    exact lt_size hi
  | source _ hi hj => exact ev.lt_size_of_mem_sources hi hj

/-- The node is marked or waits to be. -/
def Seen (used : Array Bool) (stack : List Nat) (i : Nat) : Prop :=
  used[i]? = some true ∨ i ∈ stack

/-- Some nodes of the cone are marked, others wait on the stack. The roots are among both, and so is
what a marked node depends on. -/
structure Marking (g : Graph) (used : Array Bool) (stack : List Nat) : Prop where
  size : used.size = g.nodes.size
  sound : ∀ i, Seen used stack i → g.InCone i
  output : ∀ (name : String) l, g.outputs[name]? = some l → Seen used stack l.id
  latch : ∀ (name : String) i, g.latches[name]? = some i → Seen used stack i
  source : ∀ (i j : Nat) (node : Node), used[i]? = some true → g.nodes[i]? = some node →
    j ∈ node.sources → Seen used stack j

/-- A marked node is taken off the stack. -/
theorem Marking.skip (marking : g.Marking used (i :: stack)) (marked : used[i]? = some true) :
    g.Marking used stack := by
  have seen (j : Nat) : Seen used (i :: stack) j ↔ Seen used stack j := by
    rw [Seen, Seen, List.mem_cons]
    constructor
    · rintro (h | rfl | h)
      · exact .inl h
      · exact .inl marked
      · exact .inr h
    · exact Or.imp_right .inr
  obtain ⟨size, sound, output, latch, source⟩ := marking
  simp only [seen] at sound output latch source
  exact ⟨size, sound, output, latch, source⟩

/-- A node is marked, and what it depends on put on the stack. -/
theorem Marking.push (marking : g.Marking used (i :: stack)) (hi : g.nodes[i]? = some node) :
    g.Marking (used.setIfInBounds i true) (node.sources ++ stack) := by
  have hlt : i < used.size := marking.size ▸ lt_size hi
  have marked (j : Nat) : (used.setIfInBounds i true)[j]? = some true ↔
      i = j ∨ used[j]? = some true := by
    rw [Array.getElem?_setIfInBounds]
    by_cases h : i = j
    · subst h
      simp [hlt]
    · simp [h]
  have kept (j : Nat) (seen : Seen used (i :: stack) j) :
      Seen (used.setIfInBounds i true) (node.sources ++ stack) j := by
    rw [Seen, marked, List.mem_append]
    rcases seen with h | h
    · exact .inl (.inr h)
    · rcases List.mem_cons.1 h with rfl | h
      · exact .inl (.inl rfl)
      · exact .inr (.inr h)
  have inCone : g.InCone i := marking.sound i (.inr (by simp))
  refine ⟨by simpa using marking.size, fun j seen => ?_,
    fun name l hl => kept _ (marking.output name l hl),
    fun name j hj => kept j (marking.latch name j hj), fun a j node' ha hnode hj => ?_⟩
  · rw [Seen, marked, List.mem_append] at seen
    rcases seen with (rfl | h) | h | h
    · exact inCone
    · exact marking.sound j (.inl h)
    · exact inCone.source hi h
    · exact marking.sound j (.inr (by simp [h]))
  · rcases (marked a).1 ha with rfl | ha
    · obtain rfl := Option.some.inj (hi.symm.trans hnode)
      exact .inr (List.mem_append_left _ hj)
    · exact kept j (marking.source a j node' ha hnode hj)

/-- Marking goes on until the stack is empty. -/
theorem Marking.exists_mark (ev : g.Evaluable) (marking : g.Marking used stack) :
    ∃ used', g.mark used stack = .ok used' ∧ g.Marking used' [] := by
  induction used, stack using mark.induct with
  | case1 used => exact ⟨used, by rw [mark]; rfl, marking⟩
  | case2 used id stack h =>
    have hlt := ev.lt_size_of_inCone (marking.sound id (.inr (by simp)))
    rw [← marking.size] at hlt
    exact absurd h (by simp [hlt])
  | case3 used id stack h ih =>
    obtain ⟨used', run, done⟩ := ih (marking.skip h)
    exact ⟨used', by rw [mark, h]; exact run, done⟩
  | case4 used id stack h ih =>
    have hlt := ev.lt_size_of_inCone (marking.sound id (.inr (by simp)))
    have hnode := Array.getElem?_eq_getElem hlt
    obtain ⟨used', run, done⟩ := ih _ (marking.push hnode)
    refine ⟨used', ?_, done⟩
    rw [mark, h, node, hnode]
    exact run

theorem Marking.inCone_iff (marking : g.Marking used []) : used[i]? = some true ↔ g.InCone i := by
  have seen (j : Nat) : Seen used [] j ↔ used[j]? = some true := by simp [Seen]
  refine ⟨fun h => marking.sound i (.inl h), fun h => ?_⟩
  induction h with
  | output hl => exact (seen _).1 (marking.output _ _ hl)
  | latch hn => exact (seen _).1 (marking.latch _ _ hn)
  | source _ hi hj ih => exact (seen _).1 (marking.source _ _ _ ih hi hj)

/-- At the start nothing is marked, and the roots wait. -/
theorem marking_roots (g : Graph) : g.Marking (Array.replicate g.nodes.size false)
    (g.outputs.values.map (·.id) ++ g.latches.values) := by
  have none (i : Nat) : (Array.replicate g.nodes.size false)[i]? ≠ some true := by
    rw [Array.getElem?_replicate]
    split <;> simp
  have output (name : String) (l : Literal) (hl : g.outputs[name]? = some l) :
      l.id ∈ g.outputs.values.map (·.id) :=
    List.mem_map.2 ⟨l, mem_values_iff.2 ⟨name, hl⟩, rfl⟩
  refine ⟨Array.size_replicate, ?_, fun name l hl => .inr (List.mem_append_left _ (output name l hl)),
    fun name i hi => .inr (List.mem_append_right _ (mem_values_iff.2 ⟨name, hi⟩)),
    fun i j node hi => absurd hi (none i)⟩
  rintro i (h | h)
  · exact absurd h (none i)
  · rcases List.mem_append.1 h with h | h
    · obtain ⟨l, hl, rfl⟩ := List.mem_map.1 h
      obtain ⟨name, hname⟩ := mem_values_iff.1 hl
      exact .output hname
    · obtain ⟨name, hname⟩ := mem_values_iff.1 h
      exact .latch hname

/-- The nodes that end up marked are those of the cone. -/
theorem Evaluable.exists_cone (ev : g.Evaluable) :
    ∃ used, g.cone = .ok used ∧ ∀ i : Nat, used[i]? = some true ↔ g.InCone i := by
  obtain ⟨used, run, marking⟩ := (marking_roots g).exists_mark ev
  exact ⟨used, run, fun i => marking.inCone_iff⟩

end Graph

end AndInverter
