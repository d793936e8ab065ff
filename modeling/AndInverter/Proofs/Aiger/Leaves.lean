import AndInverter.Proofs.Aiger.Define
import AndInverter.Proofs.Enumerates

/-! The leaves of the graph of a file. They come first: the constant, the inputs by position and the
latches by position. -/

namespace AndInverter

/-- In a list without repetitions an entry does not occur in front of itself. -/
theorem not_mem_take_of_nodup {α β : Type} {f : α → β} {xs : List α} (once : (xs.map f).Nodup)
    {k : Nat} {x : α} (hk : xs[k]? = some x) : f x ∉ (xs.take k).map f := by
  obtain ⟨hlt, rfl⟩ := List.getElem?_eq_some_iff.1 hk
  rw [← List.take_append_drop k xs, List.drop_eq_getElem_cons hlt, List.map_append, List.map_cons,
    List.nodup_append] at once
  exact fun hmem => once.2.2 _ hmem _ List.mem_cons_self rfl

theorem take_succ_eq {α : Type} {xs : List α} {k : Nat} {x : α} (hk : xs[k]? = some x) :
    xs.take (k + 1) = xs.take k ++ [x] := by
  rw [List.take_add_one, hk, Option.toList_some]

namespace Aiger

open Build (Spec)

/-- The graph has the leaves of these inputs and latches and nothing else; next states are not set. -/
structure HasLeaves (is : List (String × Nat)) (ls : List (String × LatchLine))
    (defs : Definitions) (g : Graph) : Prop where
  defs : Enumerates (0 :: (is.map (·.2) ++ ls.map (·.2.var))) Literal.positive defs
  inputs : Enumerates (is.map (·.1)) (1 + ·) g.inputs
  latches : Enumerates (ls.map (·.1)) (1 + is.length + ·) g.latches
  nodes : g.nodes.toList = .zero :: (is.map (fun _ => .input) ++
    ls.map fun e => .latch (.ofBool false) e.2.init)
  outputs : g.outputs = ∅

theorem hasLeaves_start : HasLeaves [] [] Definitions.start .empty where
  defs := Enumerates.empty.push List.not_mem_nil
  inputs := .empty
  latches := .empty
  nodes := rfl
  outputs := rfl

section Leaves
variable {is : List (String × Nat)} {ls : List (String × LatchLine)} {defs : Definitions}
  {g : Graph} {condition : Prop}

theorem HasLeaves.size (leaves : HasLeaves is ls defs g) :
    g.nodes.size = 1 + is.length + ls.length := by
  have := congrArg List.length leaves.nodes
  simp only [Array.length_toList, List.length_cons, List.length_append, List.length_map] at this
  omega

theorem addInput_spec (wf : g.WellFormed) (leaves : HasLeaves is [] defs g)
    {name : String} {var : Nat} (newName : condition → name ∉ is.map (·.1))
    (newVar : condition → var ∉ 0 :: is.map (·.2)) :
    (addInput defs (name, var)).Spec g (HasLeaves (is ++ [(name, var)]) [])
      (Fault.Blames condition) := by
  have defined : Enumerates (0 :: is.map (·.2)) Literal.positive defs := by
    simpa using leaves.defs
  refine Spec.bind_of_eq (a := g) rfl (Spec.guarded (fun hname => ?_) fun hname => ?_)
  · rw [← Std.ExtTreeMap.mem_iff_contains, leaves.inputs.mem_iff] at hname
    exact .reading (fun h => newName h hname) _
  · rw [← Std.ExtTreeMap.mem_iff_contains] at hname
    have hnone : g.inputs[name]? = none := not_mem_iff_getElem?.1 hname
    have size := leaves.size
    have made : (Build.input name).Spec g (fun l h => l = .positive g.nodes.size ∧ h = { g with
        nodes := g.nodes.push .input
        ids := g.ids.push g.nodes.size
        inputs := g.inputs.insert name g.nodes.size }) (Fault.Blames condition) :=
      .of_eq (by simp only [Build.input, hnone]) (wf.addInput hname)
        (Graph.extends_push rfl (fun hi => (Graph.insert_iff hname).2 (.inl hi)) id) ⟨rfl, rfl⟩
    refine made.bind ?_
    rintro _ _ wf' - ⟨rfl, rfl⟩
    refine define_spec wf' (fun hvar h => ?_) (fun hvar => ?_)
    · exact newVar h (defined.mem_iff.1 hvar)
    · have pushDefs := defined.push (defined.mem_iff.not.1 hvar)
      have pushInputs := leaves.inputs.push (leaves.inputs.mem_iff.not.1 hname)
      exact {
        defs := by simpa [size, Nat.add_comm] using pushDefs
        inputs := by simpa [size] using pushInputs
        latches := by simpa using leaves.latches.congr (by simp)
        nodes := by simp [leaves.nodes]
        outputs := leaves.outputs }

theorem addLatch_spec (wf : g.WellFormed) (leaves : HasLeaves is ls defs g)
    {name : String} {latch : LatchLine} (newName : condition → name ∉ ls.map (·.1))
    (newVar : condition → latch.var ∉ 0 :: (is.map (·.2) ++ ls.map (·.2.var))) :
    (addLatch defs (name, latch)).Spec g (HasLeaves is (ls ++ [(name, latch)]))
      (Fault.Blames condition) := by
  refine Spec.bind_of_eq (a := g) rfl (Spec.guarded (fun hname => ?_) fun hname => ?_)
  · rw [← Std.ExtTreeMap.mem_iff_contains, leaves.latches.mem_iff] at hname
    exact .reading (fun h => newName h hname) _
  · rw [← Std.ExtTreeMap.mem_iff_contains] at hname
    have size := leaves.size
    have made : (Build.latch name latch.init).Spec g (fun l h =>
        l = .positive g.nodes.size ∧ h = { g with
          nodes := g.nodes.push (.latch (.ofBool false) latch.init)
          ids := g.ids.push g.nodes.size
          latches := g.latches.insert name g.nodes.size }) (Fault.Blames condition) :=
      .of_eq (by simp [Build.latch, hname]) (wf.addLatch hname latch.init)
        (Graph.extends_push rfl id (fun hi => (Graph.insert_iff hname).2 (.inl hi))) ⟨rfl, rfl⟩
    refine made.bind ?_
    rintro _ _ wf' - ⟨rfl, rfl⟩
    refine define_spec wf' (fun hvar h => ?_) (fun hvar => ?_)
    · exact newVar h (leaves.defs.mem_iff.1 hvar)
    · have pushDefs := leaves.defs.push (leaves.defs.mem_iff.not.1 hvar)
      have pushLatches := leaves.latches.push (leaves.latches.mem_iff.not.1 hname)
      have count : (0 :: (is.map (·.2) ++ ls.map (·.2.var))).length = g.nodes.size := by
        simp only [size, List.length_cons, List.length_append, List.length_map]
        omega
      rw [count] at pushDefs
      exact {
        defs := by simpa using pushDefs
        inputs := leaves.inputs
        latches := by simpa [size] using pushLatches
        nodes := by simp [leaves.nodes]
        outputs := leaves.outputs }

end Leaves

namespace File

variable (f : File)

/-- What the lines of one kind say, each under the name of its position. -/
def named {α : Type} (kind : Kind) (as : List α) : List (String × α) :=
  (f.names kind as.length).zip as

theorem length_names (kind : Kind) (count : Nat) : (f.names kind count).length = count := by
  simp [names]

theorem map_fst_named {α : Type} (kind : Kind) (as : List α) :
    (f.named kind as).map (·.1) = f.names kind as.length :=
  List.map_fst_zip (Nat.le_of_eq (f.length_names kind _))

theorem map_snd_named {α : Type} (kind : Kind) (as : List α) :
    (f.named kind as).map (·.2) = as :=
  List.map_snd_zip (Nat.le_of_eq (f.length_names kind _).symm)

theorem length_named {α : Type} (kind : Kind) (as : List α) :
    (f.named kind as).length = as.length := by
  simpa using congrArg List.length (f.map_snd_named kind as)

theorem getElem?_names_iff {kind : Kind} {count p : Nat} {name : String} :
    (f.names kind count)[p]? = some name ↔ p < count ∧ name = f.symbols.name kind p := by
  simp only [names, List.getElem?_map, Option.map_eq_some_iff, List.getElem?_eq_some_iff,
    List.length_range, List.getElem_range]
  constructor
  · rintro ⟨_, ⟨hp, rfl⟩, rfl⟩
    exact ⟨hp, rfl⟩
  · rintro ⟨hp, rfl⟩
    exact ⟨p, ⟨hp, rfl⟩, rfl⟩

theorem getElem?_named_iff {α : Type} {kind : Kind} {as : List α} {p : Nat} {name : String} {a : α} :
    (f.named kind as)[p]? = some (name, a) ↔
      (f.names kind as.length)[p]? = some name ∧ as[p]? = some a :=
  List.getElem?_zip_eq_some

theorem getElem?_named {α : Type} (kind : Kind) {as : List α} {p : Nat} {a : α}
    (hp : as[p]? = some a) : (f.named kind as)[p]? = some (f.symbols.name kind p, a) :=
  f.getElem?_named_iff.2 ⟨f.getElem?_names_iff.2 ⟨(List.getElem?_eq_some_iff.1 hp).1, rfl⟩, hp⟩

end File

section Leaves
variable {f : File} (zero : 0 ∉ f.defined)
include zero

theorem addInputs_spec :
    Spec ((f.named .input f.inputs).foldlM addInput Definitions.start) .empty
      (HasLeaves (f.named .input f.inputs) []) (Fault.Blames f.Consistent) := by
  refine (Spec.foldlM (fun k => HasLeaves ((f.named .input f.inputs).take k) [])
    (fun k defs (name, var) g hk wf _ leaves => ?_) Graph.wellFormed_empty hasLeaves_start).imp
    fun defs g _ _ leaves => by rwa [List.take_length] at leaves
  rw [take_succ_eq hk]
  refine addInput_spec wf leaves (fun c => ?_) (fun c => ?_)
  · refine not_mem_take_of_nodup (f := Prod.fst) ?_ hk
    exact f.map_fst_named .input f.inputs ▸ c.names .input
  · have once : ((f.named .input f.inputs).map (·.2)).Nodup := by
      rw [File.map_snd_named]
      exact (List.nodup_append.1 c.once).1
    have hvar : var ∈ f.inputs := (List.of_mem_zip (List.mem_of_getElem? hk)).2
    rw [List.mem_cons, not_or]
    refine ⟨?_, not_mem_take_of_nodup once hk⟩
    rintro rfl
    exact zero (List.mem_append_left _ hvar)

theorem addLatches_spec {defs : Definitions} {g : Graph} (wf : g.WellFormed)
    (leaves : HasLeaves (f.named .input f.inputs) [] defs g) :
    Spec ((f.named .latch f.latches).foldlM addLatch defs) g
      (HasLeaves (f.named .input f.inputs) (f.named .latch f.latches))
      (Fault.Blames f.Consistent) := by
  refine (Spec.foldlM (fun k => HasLeaves (f.named .input f.inputs)
    ((f.named .latch f.latches).take k)) (fun k defs (name, latch) g hk wf _ leaves => ?_)
    wf leaves).imp fun defs g _ _ leaves => by rwa [List.take_length] at leaves
  rw [take_succ_eq hk]
  refine addLatch_spec wf leaves (fun c => ?_) (fun c => ?_)
  · refine not_mem_take_of_nodup (f := Prod.fst) ?_ hk
    exact f.map_fst_named .latch f.latches ▸ c.names .latch
  · obtain ⟨-, onceLatches, apart⟩ := List.nodup_append.1 c.once
    have once : ((f.named .latch f.latches).map fun e => e.2.var).Nodup := by
      have := f.map_snd_named .latch f.latches ▸ (List.nodup_append.1 onceLatches).1
      rwa [List.map_map] at this
    have hvar : latch.var ∈ f.latches.map (·.var) ++ f.gates.map (·.var) :=
      List.mem_append_left _ (List.mem_map_of_mem (List.of_mem_zip (List.mem_of_getElem? hk)).2)
    rw [File.map_snd_named, List.mem_cons, List.mem_append, not_or, not_or]
    refine ⟨?_, fun hinput => apart _ hinput _ hvar rfl, not_mem_take_of_nodup once hk⟩
    intro hzero
    exact zero (hzero ▸ List.mem_append_right _ hvar)

end Leaves

section Leaves
variable {f : File} {base : Definitions} {start : Graph}

theorem HasLeaves.leaves_enumerated
    (leaves : HasLeaves (f.named .input f.inputs) (f.named .latch f.latches) base start) :
    Enumerates f.leaves Literal.positive base := by
  have latchVars : (f.named .latch f.latches).map (·.2.var) = f.latches.map (·.var) := by
    rw [← congrArg (List.map LatchLine.var) (f.map_snd_named .latch f.latches), List.map_map]
    rfl
  have defined := leaves.defs
  rwa [f.map_snd_named, latchVars] at defined

theorem HasLeaves.getElem?_latch
    (leaves : HasLeaves (f.named .input f.inputs) (f.named .latch f.latches) base start) {p : Nat}
    {latch : LatchLine} (hp : f.latches[p]? = some latch) :
    start.nodes[1 + f.inputs.length + p]? = some (.latch (.ofBool false) latch.init) := by
  rw [← Array.getElem?_toList, leaves.nodes, show 1 + f.inputs.length + p = f.inputs.length + p + 1 by
    omega, List.getElem?_cons_succ, List.getElem?_append_right (by simp [f.length_named])]
  simp [f.length_named, f.getElem?_named .latch hp]

end Leaves

end Aiger

end AndInverter
