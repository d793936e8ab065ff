import AndInverter.Aiger.Read
import AndInverter.Proofs.Aiger.Listing
import AndInverter.Proofs.Layering.Acyclic
import AndInverter.Proofs.Map
import Mathlib.Data.List.Perm.Subperm

/-! What the lines of a file say together. Every variable has one definition, every variable that is
used has one, no gate depends on itself, and no name is given twice. The gates of such a file can be
built in the order of their layers. -/

namespace AndInverter

/-- A map made of pairs has all of them exactly where no two have the same key. -/
theorem size_ofList_eq_length_iff {κ α : Type} {cmp : κ → κ → Ordering} [Std.TransCmp cmp]
    [Std.LawfulEqCmp cmp] [BEq κ] [LawfulBEq κ] [Std.LawfulBEqCmp cmp] {l : List (κ × α)} :
    (Std.ExtTreeMap.ofList l cmp).size = l.length ↔ (l.map Prod.fst).Nodup := by
  constructor
  · intro hsize
    have sub : (Std.ExtTreeMap.ofList l cmp).keys ⊆ l.map Prod.fst := by
      intro k hk
      rw [Std.ExtTreeMap.mem_keys, Std.ExtTreeMap.mem_ofList] at hk
      exact List.contains_iff_mem.1 hk
    have perm := (Std.ExtTreeMap.nodup_keys.subperm sub).perm_of_length_le (by
      rw [Std.ExtTreeMap.length_keys, hsize, List.length_map])
    exact perm.nodup_iff.1 Std.ExtTreeMap.nodup_keys
  · intro once
    refine Std.ExtTreeMap.size_ofList ((List.pairwise_map.1 once).imp fun hne heq => hne ?_)
    exact Std.LawfulEqCmp.eq_of_compare heq

namespace Aiger

namespace File

/-- The variables that the lines define. -/
def defined (f : File) : List Nat :=
  f.inputs ++ (f.latches.map (·.var) ++ f.gates.map (·.var))

/-- The literal is one over the constant or over a variable that is defined. -/
def Knows (f : File) (l : Literal) : Prop := l.id = 0 ∨ l.id ∈ f.defined

/-- A gate reads the variables of its arguments. -/
def Reads (f : File) (v w : Nat) : Prop :=
  ∃ gate ∈ f.gates, gate.var = v ∧ (w = gate.left.id ∨ w = gate.right.id)

structure Consistent (f : File) : Prop where
  once : f.defined.Nodup
  acyclic : ∀ v, ¬ Relation.TransGen f.Reads v v
  gates : ∀ gate ∈ f.gates, f.Knows gate.left ∧ f.Knows gate.right
  latches : ∀ latch ∈ f.latches, f.Knows latch.next
  outputs : ∀ l ∈ f.outputs, f.Knows l
  names : ∀ kind, (f.names kind (f.count kind)).Nodup

/-- No variable is defined by two gates. -/
theorem Consistent.once_gates {f : File} (consistent : f.Consistent) :
    (f.gates.map (·.var)).Nodup :=
  (List.nodup_append.1 (List.nodup_append.1 consistent.once).2.1).2.1

/-- The variables that have a node before gates are built. -/
def leaves (f : File) : List Nat := 0 :: (f.inputs ++ f.latches.map (·.var))

theorem length_leaves (f : File) :
    f.leaves.length = 1 + f.inputs.length + f.latches.length := by
  simp only [leaves, List.length_cons, List.length_append, List.length_map]
  omega

/-- What a literal may be over is a leaf or defined by a gate. -/
theorem knows_iff {f : File} {l : Literal} :
    f.Knows l ↔ l.id ∈ f.leaves ∨ l.id ∈ f.gates.map (·.var) := by
  simp only [Knows, leaves, defined, List.mem_cons, List.mem_append]
  grind

/-- A line defines no constant. -/
theorem IsListed.zero_not_mem_defined {f : File} {lines : List String} (listed : f.IsListed lines) :
    0 ∉ f.defined := by
  obtain ⟨_, inputs, latches, outputs, gates, later, -, -, is, ls, -, gs, -⟩ := listed
  simp only [defined, List.mem_append, List.mem_map]
  rintro (hmem | ⟨latch, hmem, hzero⟩ | ⟨gate, hmem, hzero⟩)
  · obtain ⟨line, -, -, definable⟩ := forall₂_exists_of_mem is.flip hmem
    exact definable.1 rfl
  · obtain ⟨line, -, -, definable, -⟩ := forall₂_exists_of_mem ls.flip hmem
    exact definable.1 hzero
  · obtain ⟨line, -, -, definable, -⟩ := forall₂_exists_of_mem gs.flip hmem
    exact definable.1 hzero

/-! ### Gates by their variables -/

/-- The gates by the variables that they define. -/
def gateMap (f : File) : Std.ExtTreeMap Nat GateLine :=
  Std.ExtTreeMap.ofList (f.gates.map fun gate => (gate.var, gate)) compare

/-- Each gate with the variables that it reads. -/
def gateGraph (f : File) : List (Nat × List Nat) :=
  f.gateMap.toList.map fun (var, gate) => (var, [gate.left.id, gate.right.id])

def layering (f : File) : Layering Nat := .fromLeaves f.gateGraph

/-- The order in which the variables of gates are gone through. -/
def order (f : File) : List Nat := f.layering.layers.flatten

/-- The variables of the gates, in the order in which these are built. -/
def gateOrder (f : File) : List Nat := f.order.filter (f.gateMap.contains ·)

/-- The variables that the gate of a variable reads. -/
def arguments (f : File) (var : Nat) : List Nat :=
  match f.gateMap[var]? with
  | some gate => [gate.left.id, gate.right.id]
  | none => []

variable {f : File}

theorem size_gateMap_iff :
    f.gateMap.size = f.gates.length ↔ (f.gates.map (·.var)).Nodup := by
  have pairs : f.gateMap.size = (f.gates.map fun gate => (gate.var, gate)).length ↔
      ((f.gates.map fun gate => (gate.var, gate)).map Prod.fst).Nodup := size_ofList_eq_length_iff
  rwa [List.length_map, List.map_map] at pairs

theorem getElem?_gateMap (once : (f.gates.map (·.var)).Nodup) {var : Nat} {gate : GateLine} :
    f.gateMap[var]? = some gate ↔ gate ∈ f.gates ∧ gate.var = var := by
  have once' : ((f.gates.map fun gate => (gate.var, gate)).map Prod.fst).Nodup := by
    rwa [List.map_map]
  rw [gateMap, getElem?_ofList_eq_some_iff once']
  simp only [List.mem_map, Prod.mk.injEq]
  constructor
  · rintro ⟨gate, hmem, rfl, rfl⟩
    exact ⟨hmem, rfl⟩
  · rintro ⟨hmem, rfl⟩
    exact ⟨gate, hmem, rfl, rfl⟩

theorem mem_gateMap_iff (once : (f.gates.map (·.var)).Nodup) {var : Nat} :
    var ∈ f.gateMap ↔ var ∈ f.gates.map (·.var) := by
  rw [mem_iff_exists_getElem?]
  simp [getElem?_gateMap once]

theorem mem_gateGraph_iff {var : Nat} {ds : List Nat} : (var, ds) ∈ f.gateGraph ↔
    ∃ gate, f.gateMap[var]? = some gate ∧ ds = [gate.left.id, gate.right.id] := by
  simp only [gateGraph, List.mem_map, Prod.exists, Prod.mk.injEq,
    Std.ExtTreeMap.mem_toList_iff_getElem?_eq_some]
  constructor
  · rintro ⟨var, gate, hgate, rfl, rfl⟩
    exact ⟨gate, hgate, rfl⟩
  · rintro ⟨gate, hgate, rfl⟩
    exact ⟨var, gate, hgate, rfl, rfl⟩

theorem map_fst_gateGraph (f : File) : f.gateGraph.map Prod.fst = f.gateMap.keys := by
  rw [gateGraph, List.map_map, ← Std.ExtTreeMap.map_fst_toList_eq_keys]
  rfl

theorem mem_arguments_iff {v w : Nat} : w ∈ f.arguments v ↔
    ∃ gate, f.gateMap[v]? = some gate ∧ (w = gate.left.id ∨ w = gate.right.id) := by
  rw [arguments]
  cases f.gateMap[v]? <;> simp

theorem depends_iff_mem_arguments {v w : Nat} :
    Layering.Depends f.gateGraph v w ↔ w ∈ f.arguments v := by
  simp only [Layering.Depends, mem_gateGraph_iff, mem_arguments_iff]
  constructor
  · rintro ⟨_, ⟨gate, hgate, rfl⟩, hw⟩
    exact ⟨gate, hgate, by simpa using hw⟩
  · rintro ⟨gate, hgate, hw⟩
    exact ⟨_, ⟨gate, hgate, rfl⟩, by simpa using hw⟩

theorem reads_iff_mem_arguments (once : (f.gates.map (·.var)).Nodup) {v w : Nat} :
    f.Reads v w ↔ w ∈ f.arguments v := by
  simp only [Reads, mem_arguments_iff, getElem?_gateMap once, and_assoc]

/-! ### The order of the gates -/

theorem order_nodup (f : File) : f.order.Nodup := by
  refine Layering.nodup_layers ?_
  rw [map_fst_gateGraph]
  exact Std.ExtTreeMap.nodup_keys

/-- A gate comes after the gates that it reads. -/
theorem order_inOrder (f : File) : Layering.InOrder f.arguments [] f.order := by
  refine Layering.layers_inOrder fun var ds hvar d hd => ?_
  obtain ⟨gate, hgate, hd⟩ := mem_arguments_iff.1 hd
  rcases Layering.mem_closed_iff.1 hvar with hvar | ⟨-, hvar, -⟩
  · obtain ⟨gate', hgate', rfl⟩ := mem_gateGraph_iff.1 hvar
    obtain rfl : gate = gate' := Option.some.inj (hgate.symm.trans hgate')
    simpa using hd
  · rw [map_fst_gateGraph, Std.ExtTreeMap.mem_keys] at hvar
    exact absurd (mem_iff_exists_getElem?.2 ⟨gate, hgate⟩) hvar

theorem mem_order (blocked : f.layering.blocked = []) {var : Nat} (hvar : var ∈ f.gateMap) :
    var ∈ f.order := by
  obtain ⟨gate, hgate⟩ := mem_iff_exists_getElem?.1 hvar
  exact Layering.mem_layers_of_blocked blocked
    (Layering.mem_closed_iff.2 (.inl (mem_gateGraph_iff.2 ⟨gate, hgate, rfl⟩)))

/-- Gates are left over exactly where one of them depends on itself. -/
theorem blocked_eq_nil_iff (once : (f.gates.map (·.var)).Nodup) :
    f.layering.blocked = [] ↔ ∀ v, ¬ Relation.TransGen f.Reads v v := by
  constructor
  · intro blocked
    refine f.order_inOrder.not_transGen f.order_nodup fun v w h => ?_
    have hw := (reads_iff_mem_arguments once).1 h
    obtain ⟨gate, hgate, -⟩ := mem_arguments_iff.1 hw
    exact ⟨mem_order blocked (mem_iff_exists_getElem?.2 ⟨gate, hgate⟩), hw⟩
  · intro acyclic
    have same : Layering.Depends f.gateGraph = f.Reads := by
      funext v w
      exact propext (depends_iff_mem_arguments.trans (reads_iff_mem_arguments once).symm)
    exact Layering.blocked_eq_nil (same ▸ acyclic)

end File

end Aiger

end AndInverter
