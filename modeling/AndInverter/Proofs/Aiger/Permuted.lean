import AndInverter.Proofs.Aiger.Accept
import AndInverter.Proofs.Layering.Sorted
import Mathlib.Data.List.Perm.Basic

/-! Gates in another order. A file has the same graph when its gates are listed in another order, and
when the layers of its gates are found in another order but sorted before gates are built. -/

namespace AndInverter

/-- A map does not depend on the order of the pairs that it is made of, if their keys are different. -/
theorem ofList_eq_of_perm {κ α : Type} {cmp : κ → κ → Ordering} [Std.TransCmp cmp]
    [Std.LawfulEqCmp cmp] [BEq κ] [LawfulBEq κ] [Std.LawfulBEqCmp cmp] {l l' : List (κ × α)}
    (perm : l.Perm l') (once : (l.map Prod.fst).Nodup) :
    Std.ExtTreeMap.ofList l cmp = Std.ExtTreeMap.ofList l' cmp := by
  have once' := (perm.map Prod.fst).nodup_iff.1 once
  refine Std.ExtTreeMap.ext_getElem? fun k => Option.ext fun a => ?_
  rw [getElem?_ofList_eq_some_iff once, getElem?_ofList_eq_some_iff once', perm.mem_iff]

namespace Aiger

/-- Builds gates along layers that were found in some way. -/
def addGatesAlong (layers : List (List Nat)) (cyclic : Bool) (lines : List GateLine)
    (defs : Definitions) : Build Definitions := do
  let gates := Std.ExtTreeMap.ofList (lines.map fun gate => (gate.var, gate)) compare
  if gates.size ≠ lines.length then
    throw (.reading .duplicateGate)
  let defs ← layers.flatten.foldlM (addGate gates) defs
  if cyclic then
    throw (.reading .cyclicGates)
  return defs

/-- The graph of a file with its gates built along these layers. -/
def File.graphAlong (f : File) (layers : List (List Nat)) (cyclic : Bool) : Except Fault Graph :=
  Build.graph do
    let defs ← (f.named .input f.inputs).foldlM addInput Definitions.start
    let defs ← (f.named .latch f.latches).foldlM addLatch defs
    let defs ← addGatesAlong layers cyclic f.gates defs
    (f.named .latch f.latches).forM (setLatch defs)
    (f.named .output f.outputs).forM (addOutput defs)

theorem File.graph_eq_graphAlong (f : File) :
    f.graph = f.graphAlong f.layering.layers f.layering.isCyclic := rfl

/-- Variables that no gate defines are passed over. -/
theorem foldlM_addGate_filter (gates : Std.ExtTreeMap Nat GateLine) (vars : List Nat)
    (defs : Definitions) : vars.foldlM (addGate gates) defs =
      (vars.filter (gates.contains ·)).foldlM (addGate gates) defs := by
  induction vars generalizing defs with
  | nil => rfl
  | cons var vars ih =>
    by_cases h : gates.contains var
    · rw [List.filter_cons_of_pos h, List.foldlM_cons, List.foldlM_cons]
      exact bind_congr fun defs => ih defs
    · have none : gates[var]? = none :=
        not_mem_iff_getElem?.1 (contains_eq_false_iff.1 (Bool.eq_false_iff.2 h))
      have passed : addGate gates defs var = pure defs := by rw [addGate, none]
      rw [List.filter_cons_of_neg h, List.foldlM_cons, passed, pure_bind, ih]

namespace File

variable {f : File}

theorem graphAlong_congr {layers layers' : List (List Nat)} {cyclic : Bool}
    (same : layers.flatten.filter (f.gateMap.contains ·) =
      layers'.flatten.filter (f.gateMap.contains ·)) :
    f.graphAlong layers cyclic = f.graphAlong layers' cyclic := by
  have fold (defs : Definitions) : layers.flatten.foldlM (addGate f.gateMap) defs =
      layers'.flatten.foldlM (addGate f.gateMap) defs := by
    rw [foldlM_addGate_filter, same, ← foldlM_addGate_filter]
  have gates : addGatesAlong layers cyclic f.gates = addGatesAlong layers' cyclic f.gates := by
    funext defs
    rw [addGatesAlong, addGatesAlong, ← gateMap, fold]
  rw [graphAlong, graphAlong, gates]

/-- In whatever order the edges between gates come, and the items, counting finds layers that lead to
the graph when they are sorted. -/
theorem graphAlong_sorted {order : List (Nat × Nat)} {items : List Nat}
    (hedges : order.Perm (Layering.edgesFromLeaves f.gateGraph)) (nodup : items.Nodup)
    (all : ∀ x, x ∈ items ↔ Layering.Item f.gateGraph x) {layers : List (List Nat)}
    {last : Layering.Counting Nat}
    (run : Layering.Counting.Runs (.ofEdges (f.gateGraph.map Prod.fst) order items) layers last)
    {cyclic : Bool} (hcyclic : cyclic = true ↔ last.Cyclic) :
    f.graphAlong (layers.map (·.mergeSort)) cyclic = f.graph := by
  have ascending : (f.gateGraph.map Prod.fst).Pairwise (· < ·) := by
    rw [map_fst_gateGraph]
    exact Std.ExtTreeMap.ordered_keys.imp Nat.compare_eq_lt.1
  have keys (x : Nat) : f.gateMap.contains x ↔ x ∈ f.gateGraph.map Prod.fst := by
    rw [map_fst_gateGraph, Std.ExtTreeMap.mem_keys, Std.ExtTreeMap.mem_iff_contains]
  obtain ⟨same, cyclic_iff⟩ :=
    Layering.flatten_sorted_of_runs ascending hedges nodup all run keys
  obtain rfl : cyclic = f.layering.isCyclic := Bool.eq_iff_iff.2 (hcyclic.trans cyclic_iff)
  rw [graph_eq_graphAlong]
  exact graphAlong_congr same

/-- The file with other gates. -/
def withGates (f : File) (gates : List GateLine) : File := { f with gates }

/-- The graph of a file does not depend on the order of the gates. -/
theorem graph_withGates {gates : List GateLine} (perm : f.gates.Perm gates) :
    (f.withGates gates).graph = f.graph := by
  have same : addGates gates = addGates f.gates := by
    have pairs := perm.map fun gate => (gate.var, gate)
    have keys := pairs.map Prod.fst
    funext defs
    by_cases once : ((f.gates.map fun gate => (gate.var, gate)).map Prod.fst).Nodup
    · rw [addGates, addGates, ofList_eq_of_perm pairs once, perm.length_eq]
    · have refused {lines : List GateLine}
          (twice : ¬ ((lines.map fun gate => (gate.var, gate)).map Prod.fst).Nodup) :
          addGates lines defs = throw (.reading .duplicateGate) := by
        rw [addGates]
        exact (if_pos fun h => twice
          (size_ofList_eq_length_iff.1 (h.trans (List.length_map _).symm))).trans rfl
      rw [refused once, refused (mt keys.nodup_iff.2 once)]
  have assembled : (f.withGates gates).assemble = f.assemble := by
    rw [assemble, assemble, show (f.withGates gates).gates = gates from rfl, same]
    rfl
  rw [graph_eq, graph_eq, assembled]

end File

/-- What comes between the header and the gates is as long as the header says, and so are the gates. -/
def HasParts (first : String) (before gates : List String) : Prop :=
  ∀ h, readHeader first = .ok h →
    before.length = h.inputs + h.latches + h.outputs ∧ gates.length = h.gates

section Lines

variable {first : String} {before gates gates' later : List String}

/-- The file of lines with the gate lines in another order. -/
theorem File.IsListed.exists_withGates {f : File}
    (listed : f.IsListed (first :: (before ++ (gates ++ later)))) (parts : HasParts first before gates)
    (perm : gates.Perm gates') : ∃ gs, f.gates.Perm gs ∧
      (f.withGates gs).IsListed (first :: (before ++ (gates' ++ later))) := by
  obtain ⟨_, inputs, latches, outputs, lines, rest, whole, header, is, ls, os, as, table⟩ := listed
  obtain ⟨rfl, split⟩ := List.cons.inj whole
  obtain ⟨hbefore, hgates⟩ := parts _ (((readHeader_answers first).ok_iff _).2 header)
  have front : before.length = (inputs ++ (latches ++ outputs)).length := by
    rw [List.length_append, List.length_append, ← Nat.add_assoc]
    exact hbefore
  rw [← List.append_assoc latches, ← List.append_assoc inputs] at split
  obtain ⟨rfl, back⟩ := List.append_inj split front
  obtain ⟨rfl, rfl⟩ := List.append_inj back hgates
  obtain ⟨gs, as', perm'⟩ := List.perm_comp_forall₂ perm.symm as
  refine ⟨gs, perm'.symm, first, inputs, latches, outputs, gates', later, ?_, ?_, is, ls, os, as', ?_⟩
  · rw [List.append_assoc, List.append_assoc]
  · rw [← perm.length_eq]
    exact header
  · exact table

theorem HasParts.of_perm (parts : HasParts first before gates) (perm : gates.Perm gates') :
    HasParts first before gates' :=
  fun h header => (parts h header).imp_right (perm.length_eq.symm.trans ·)

theorem readLines_of_perm (parts : HasParts first before gates) (perm : gates.Perm gates')
    {g : Graph} (h : readLines (first :: (before ++ (gates ++ later))) = .ok g) :
    readLines (first :: (before ++ (gates' ++ later))) = .ok g := by
  obtain ⟨f, listed, hgraph⟩ := exists_file h
  obtain ⟨gs, hgs, listed'⟩ := listed.exists_withGates parts perm
  rw [readLines_eq listed', File.graph_withGates hgs, hgraph]

/-- Accepted lines have all their parts. -/
theorem exists_parts {lines : List String} {g : Graph} (h : readLines lines = .ok g) :
    ∃ first before gates later, lines = first :: (before ++ (gates ++ later)) ∧
      HasParts first before gates := by
  obtain ⟨f, ⟨first, inputs, latches, outputs, gates, later, rfl, header, -⟩, -⟩ := exists_file h
  refine ⟨first, inputs ++ (latches ++ outputs), gates, later, ?_, fun counts hcounts => ?_⟩
  · rw [List.append_assoc, List.append_assoc]
  · obtain rfl : _ = counts :=
      Except.ok.inj ((((readHeader_answers first).ok_iff _).2 header).symm.trans hcounts)
    exact ⟨by simp [Nat.add_assoc], rfl⟩

end Lines

/-- Lines are accepted only if they have all their parts. With the gates in another order, they are read
as the same graph, or turned down as before. Nor does the order matter in which the layers of the gates
are found, by counting edges in any order over items in any order, as each layer is sorted: the graph
that is built along them is the same. -/
theorem readLines_ignores_order :
    (∀ lines g, readLines lines = .ok g → ∃ first before gates later,
      lines = first :: (before ++ (gates ++ later)) ∧ HasParts first before gates) ∧
    ∀ first before gates gates' later, HasParts first before gates → gates.Perm gates' →
      (∀ g, readLines (first :: (before ++ (gates ++ later))) = .ok g →
        readLines (first :: (before ++ (gates' ++ later))) = .ok g) ∧
      (∀ fault, readLines (first :: (before ++ (gates ++ later))) = .error fault →
        ∃ fault', readLines (first :: (before ++ (gates' ++ later))) = .error fault') ∧
      ∀ f, File.ofLines (first :: (before ++ (gates' ++ later))) = .ok f → ∀ order items,
        order.Perm (Layering.edgesFromLeaves f.gateGraph) → items.Nodup →
        (∀ x, x ∈ items ↔ Layering.Item f.gateGraph x) → ∃ layers last,
          Layering.Counting.Runs (.ofEdges (f.gateGraph.map Prod.fst) order items) layers last ∧
          ∀ cyclic : Bool, (cyclic = true ↔ last.Cyclic) →
            f.graphAlong (layers.map (·.mergeSort)) cyclic =
              readLines (first :: (before ++ (gates ++ later))) := by
  refine ⟨fun lines g h => exists_parts h, fun first before gates gates' later parts perm =>
    ⟨fun g h => readLines_of_perm parts perm h, fun fault h => ?_, fun f hf order items hedges nodup
      all => ?_⟩⟩
  · cases h' : readLines (first :: (before ++ (gates' ++ later))) with
    | error fault' => exact ⟨fault', rfl⟩
    | ok g =>
      rw [readLines_of_perm (parts.of_perm perm) perm.symm h'] at h
      cases h
  · have listed := ((ofLines_answers _).ok_iff f).1 hf
    obtain ⟨gs, hgs, listed'⟩ := listed.exists_withGates (parts.of_perm perm) perm.symm
    have once : (f.gateGraph.map Prod.fst).Nodup := by
      rw [File.map_fst_gateGraph]
      exact Std.ExtTreeMap.nodup_keys
    obtain ⟨layers, last, run, -⟩ := Layering.layeredByCounting_fromLeaves once order items hedges
      nodup all
    refine ⟨layers, last, run, fun cyclic hcyclic => ?_⟩
    rw [readLines_eq listed', File.graph_withGates hgs]
    exact File.graphAlong_sorted hedges nodup all run hcyclic


/-- Two gates, the first of which reads the second, and two gates that read each other. -/
theorem readLines_ignores_order_swap :
    (∃ g, readLines ["aag 4 2 0 1 2", "2", "4", "9", "8 6 2", "6 5 2"] = .ok g ∧
      readLines ["aag 4 2 0 1 2", "2", "4", "9", "6 5 2", "8 6 2"] = .ok g ∧
      ∃ (f : File) (layers : List (List Nat)) (cyclic : Bool),
        File.ofLines ["aag 4 2 0 1 2", "2", "4", "9", "6 5 2", "8 6 2"] = .ok f ∧
        f.graphAlong (layers.map (·.mergeSort)) cyclic = .ok g) ∧
    ∃ fault, readLines ["aag 4 2 0 1 2", "2", "4", "9", "6 8 2", "8 6 2"] = .error fault := by
  have parts {a b : String} : HasParts "aag 4 2 0 1 2" ["2", "4", "9"] [a, b] := by
    intro h header
    obtain ⟨h', header', counts⟩ : ∃ h, readHeader "aag 4 2 0 1 2" = .ok h ∧
        3 = h.inputs + h.latches + h.outputs ∧ 2 = h.gates := by decide +kernel
    obtain rfl := Except.ok.inj (header'.symm.trans header)
    exact counts
  obtain ⟨g, accepted, -⟩ : ∃ g,
      readLines ["aag 4 2 0 1 2", "2", "4", "9", "8 6 2", "6 5 2"] = .ok g ∧ g.gateCount = 2 := by
    decide +kernel
  obtain ⟨f, listed, -⟩ : ∃ f,
      File.ofLines ["aag 4 2 0 1 2", "2", "4", "9", "6 5 2", "8 6 2"] = .ok f ∧ f.max = 4 := by
    decide +kernel
  have cyclic : readLines ["aag 4 2 0 1 2", "2", "4", "9", "8 6 2", "6 8 2"] =
      .error (.reading .cyclicGates) := by
    decide +kernel
  constructor
  · obtain ⟨same, -, along⟩ :=
      readLines_ignores_order.2 _ _ _ _ [] parts (.swap "6 5 2" "8 6 2" [])
    have once : (f.gateGraph.map Prod.fst).Nodup := by
      rw [File.map_fst_gateGraph]
      exact Std.ExtTreeMap.nodup_keys
    obtain ⟨layers, last, -, built⟩ := along f listed _ _ (.refl _)
      (Layering.nodup_closed once) fun _ => Layering.mem_map_closed_iff
    obtain ⟨cyclic, hcyclic⟩ : ∃ cyclic : Bool, cyclic = true ↔ last.Cyclic :=
      ⟨_, @decide_eq_true_iff _ (Classical.dec _)⟩
    exact ⟨g, accepted, same g accepted, f, layers, cyclic, listed,
      (built cyclic hcyclic).trans accepted⟩
  · exact (readLines_ignores_order.2 _ _ _ _ [] parts (.swap "6 8 2" "8 6 2" [])).2.1 _ cyclic

end Aiger

end AndInverter
