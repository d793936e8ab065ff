import AndInverter.Proofs.Aiger.Gates

/-! Assembling the graph of a file: leaves first, then the gates in their order, then next states and
outputs. Each part either adds what its lines say or finds the file to be inconsistent. -/

namespace AndInverter.Aiger

open Build (Spec)

/-! ### Next states and outputs -/

/-- The latches `done` have their next states; they are the first ones, from the node `first` on. -/
structure NextsTo (defs : Definitions) (first : Nat) (start : Graph)
    (done : List (String × LatchLine)) (g : Graph) : Prop where
  size : g.nodes.size = start.nodes.size
  known : ∀ e ∈ done, e.2.next.id ∈ defs
  set : ∀ p e, done[p]? = some e →
    g.nodes[first + p]? = some (.latch (defs.literal e.2.next) e.2.init)
  other : ∀ i, i < first ∨ first + done.length ≤ i → g.nodes[i]? = start.nodes[i]?
  inputs : g.inputs = start.inputs
  latches : g.latches = start.latches
  outputs : g.outputs = start.outputs

/-- The outputs `done` are made. -/
structure OutputsTo (defs : Definitions) (start : Graph) (done : List (String × Literal))
    (g : Graph) : Prop where
  known : ∀ e ∈ done, e.2.id ∈ defs
  outputs : Enumerates (done.map (·.1))
    (fun p => defs.literal (((done.map (·.2))[p]?).getD (.ofBool false))) g.outputs
  same : g = { start with outputs := g.outputs }

section Final
variable {defs : Definitions} {start g : Graph} {condition : Prop}

theorem setLatch_spec (wf : g.WellFormed) {first : Nat} {done : List (String × LatchLine)}
    (set : NextsTo defs first start done g) {name : String} {latch : LatchLine} {old : Literal}
    (hname : start.latches[name]? = some (first + done.length))
    (hnode : start.nodes[first + done.length]? = some (.latch old latch.init))
    (has : latch.next.id ∈ defs → g.Has (defs.literal latch.next))
    (known : condition → latch.next.id ∈ defs) :
    (setLatch defs (name, latch)).Spec g
      (fun _ => NextsTo defs first start (done ++ [(name, latch)])) (Fault.Blames condition) := by
  refine (resolve_spec wf (fun hnot c => hnot (known c))).bind ?_
  rintro _ _ - - ⟨rfl, hnext, rfl⟩
  rw [← set.latches] at hname
  refine ((Build.setNext_modifies wf hname (has hnext)).mono ?_ (fun _ => False.elim))
  rintro _ _ - - rfl
  have here : g.nodes[first + done.length]? = some (.latch old latch.init) := by
    rw [set.other _ (.inr (Nat.le_refl _)), hnode]
  refine ⟨by rw [Array.size_modify, set.size], ?_, fun p e hp => ?_, fun i hi => ?_, set.inputs,
    set.latches, set.outputs⟩
  · intro e he
    rcases List.mem_append.1 he with he | he
    · exact set.known e he
    · rw [List.mem_singleton.1 he]
      exact hnext
  · rw [Array.getElem?_modify]
    rcases concat_getElem?_iff.1 hp with hp | ⟨rfl, rfl⟩
    · have hlt := (List.getElem?_eq_some_iff.1 hp).1
      rw [if_neg (by omega), set.set p e hp]
    · rw [if_pos rfl, here]
      rfl
  · rw [List.length_append, List.length_singleton] at hi
    rw [Array.getElem?_modify, if_neg (by omega), set.other i (by omega)]

theorem addOutput_spec (wf : g.WellFormed) {done : List (String × Literal)}
    (set : OutputsTo defs start done g) {name : String} {l : Literal}
    (has : l.id ∈ defs → g.Has (defs.literal l)) (newName : condition → name ∉ done.map (·.1))
    (known : condition → l.id ∈ defs) :
    (addOutput defs (name, l)).Spec g (fun _ => OutputsTo defs start (done ++ [(name, l)]))
      (Fault.Blames condition) := by
  refine Spec.bind_of_eq (a := g) rfl (Spec.guarded (fun hname => ?_) fun hname => ?_)
  · rw [← Std.ExtTreeMap.mem_iff_contains, set.outputs.mem_iff] at hname
    exact .reading (fun c => newName c hname) _
  rw [← Std.ExtTreeMap.mem_iff_contains] at hname
  refine (resolve_spec wf (fun hnot c => hnot (known c))).bind ?_
  rintro _ _ - - ⟨rfl, hl, rfl⟩
  refine ((Build.output_runs wf hname (has hl)).mono ?_ (fun _ => False.elim))
  rintro _ _ - - rfl
  refine ⟨?_, ?_, ?_⟩
  · intro e he
    rcases List.mem_append.1 he with he | he
    · exact set.known e he
    · rw [List.mem_singleton.1 he]
      exact hl
  · have same (p : Nat) (hp : p < (done.map (·.1)).length) :
        defs.literal (((done.map (·.2))[p]?).getD (.ofBool false)) =
          defs.literal ((((done ++ [(name, l)]).map (·.2))[p]?).getD (.ofBool false)) := by
      rw [List.length_map] at hp
      rw [List.map_append, List.getElem?_append_left (by simpa using hp)]
    have push := (set.outputs.congr same).push (set.outputs.mem_iff.not.1 hname)
    simpa using push
  · rw [set.same]

end Final

/-! ### The whole graph -/

namespace File

/-- The graph of a file: where its leaves, gates, next states and outputs are. The literals of the
variables are `defs`. -/
structure IsGraph (f : File) (defs : Definitions) (g : Graph) : Prop where
  inputs : Enumerates (f.names .input f.inputs.length) (1 + ·) g.inputs
  latches : Enumerates (f.names .latch f.latches.length) (1 + f.inputs.length + ·) g.latches
  outputs : Enumerates (f.names .output f.outputs.length)
    (fun p => defs.literal ((f.outputs[p]?).getD (.ofBool false))) g.outputs
  leaf : ∀ i var, f.leaves[i]? = some var → defs.literal (.positive var) = .positive i
  latch : ∀ p latch, f.latches[p]? = some latch → g.nodes[1 + f.inputs.length + p]? =
    some (.latch (defs.literal latch.next) latch.init)
  laid : f.Reduced → Laid f f.gateOrder defs g
  gate : ∀ gate ∈ f.gates, g.Computes (defs.literal (.positive gate.var)) fun w =>
    (defs.literal gate.left).under w && (defs.literal gate.right).under w

end File

section Whole
variable {f : File} {base defs : Definitions} {start g : Graph}

theorem setLatches_spec (wf : g.WellFormed)
    (latches : Enumerates (f.names .latch f.latches.length) (1 + f.inputs.length + ·) g.latches)
    (nodes : ∀ p latch, f.latches[p]? = some latch → g.nodes[1 + f.inputs.length + p]? =
      some (.latch (.ofBool false) latch.init))
    (has : ∀ l, l.id ∈ defs → g.Has (defs.literal l))
    (known : f.Consistent → ∀ latch ∈ f.latches, latch.next.id ∈ defs) :
    Spec ((f.named .latch f.latches).forM (setLatch defs)) g
      (fun _ => NextsTo defs (1 + f.inputs.length) g (f.named .latch f.latches))
      (Fault.Blames f.Consistent) := by
  refine Spec.forM (NextsTo defs (1 + f.inputs.length) g)
    (fun done (name, latch) rest h hxs wf' ext set => ?_) wf ⟨rfl, by simp, by simp, fun _ _ => rfl, rfl, rfl, rfl⟩
  have hat : (f.named .latch f.latches)[done.length]? = some (name, latch) := by simp [hxs]
  obtain ⟨hname, hlatch⟩ := f.getElem?_named_iff.1 hat
  exact setLatch_spec wf' set (latches.getElem? hname) (nodes _ _ hlatch)
    (fun hl => ext.has (has _ hl)) (fun c => known c latch (List.mem_of_getElem? hlatch))

theorem addOutputs_spec (wf : g.WellFormed) (none : g.outputs = ∅)
    (has : ∀ l, l.id ∈ defs → g.Has (defs.literal l))
    (known : f.Consistent → ∀ l ∈ f.outputs, l.id ∈ defs) :
    Spec ((f.named .output f.outputs).forM (addOutput defs)) g
      (fun _ => OutputsTo defs g (f.named .output f.outputs)) (Fault.Blames f.Consistent) := by
  refine Spec.forM (OutputsTo defs g) (fun done (name, l) rest h hxs wf' ext set => ?_)
    wf ⟨by simp, none ▸ .empty, rfl⟩
  have hat : (f.named .output f.outputs)[done.length]? = some (name, l) := by simp [hxs]
  obtain ⟨hname, hl⟩ := f.getElem?_named_iff.1 hat
  refine addOutput_spec wf' set (fun hl => ext.has (has _ hl)) (fun c => ?_)
    (fun c => known c l (List.mem_of_getElem? hl))
  have once : ((f.named .output f.outputs).map (·.1)).Nodup := by
    rw [File.map_fst_named]
    exact c.names .output
  have := not_mem_take_of_nodup once hat
  rwa [hxs, List.take_left] at this

end Whole

/-- The steps that make the graph of a file. -/
def File.assemble (f : File) : Build Unit := do
  let defs ← (f.named .input f.inputs).foldlM addInput Definitions.start
  let defs ← (f.named .latch f.latches).foldlM addLatch defs
  let defs ← addGates f.gates defs
  (f.named .latch f.latches).forM (setLatch defs)
  (f.named .output f.outputs).forM (addOutput defs)

theorem File.graph_eq (f : File) : f.graph = Build.graph f.assemble := rfl

/-! ### What the gates leave -/

section Built
variable {f : File} {base defs : Definitions} {start built : Graph}
  (leaves : HasLeaves (f.named .input f.inputs) (f.named .latch f.latches) base start)
  (gates : GatesTo f base start f.order defs built)
include leaves gates

theorem inputs_built : Enumerates (f.names .input f.inputs.length) (1 + ·) built.inputs := by
  have inputs := gates.grows.inputs ▸ leaves.inputs
  rwa [f.map_fst_named] at inputs

theorem latches_built :
    Enumerates (f.names .latch f.latches.length) (1 + f.inputs.length + ·) built.latches := by
  have latches := gates.grows.latches ▸ leaves.latches
  rwa [f.map_fst_named, f.length_named] at latches

theorem latch_built {p : Nat} {latch : LatchLine} (hp : f.latches[p]? = some latch) :
    built.nodes[1 + f.inputs.length + p]? = some (.latch (.ofBool false) latch.init) := by
  have hlt := (List.getElem?_eq_some_iff.1 hp).1
  rw [gates.getElem?_leaf, leaves.getElem?_latch hp]
  rw [leaves.size, f.length_named, f.length_named]
  omega

variable (once : (f.gates.map (·.var)).Nodup) (blocked : f.layering.blocked = [])
include once blocked

theorem mem_built_iff {l : Literal} : l.id ∈ defs ↔ f.Knows l := by
  rw [gates.mem_iff once blocked leaves.leaves_enumerated, File.knows_iff]

omit leaves in
theorem gate_built {gate : GateLine} (h : gate ∈ f.gates) :
    gate.left.id ∈ defs ∧ gate.right.id ∈ defs ∧
      built.Computes (defs.literal (.positive gate.var)) fun w =>
        (defs.literal gate.left).under w && (defs.literal gate.right).under w := by
  have hgate := (File.getElem?_gateMap once).2 ⟨h, rfl⟩
  exact gates.gate _ (File.mem_order blocked (mem_iff_exists_getElem?.2 ⟨_, hgate⟩)) gate hgate

/-- No gate defines a leaf. -/
theorem nodup_built : f.defined.Nodup := by
  rw [File.defined, ← List.append_assoc, List.nodup_append]
  refine ⟨(List.nodup_cons.1 leaves.leaves_enumerated.once).2, once, fun v hv w hw heq => ?_⟩
  obtain ⟨gate, hgate, rfl⟩ := List.mem_map.1 hw
  subst heq
  have hmem := mem_iff_exists_getElem?.2 ⟨_, (File.getElem?_gateMap once).2 ⟨hgate, rfl⟩⟩
  exact gates.new _ (File.mem_order blocked hmem) hmem
    (leaves.leaves_enumerated.mem_iff.2 (List.mem_cons_of_mem _ hv))

/-! ### What all steps leave -/

variable {set g : Graph}
  (nexts : NextsTo defs (1 + f.inputs.length) built (f.named .latch f.latches) set)
  (outputs : OutputsTo defs set (f.named .output f.outputs) g)
include nexts outputs

/-- Lines from which all steps could be made fit together. -/
theorem consistent_built : f.Consistent where
  once := nodup_built leaves gates once blocked
  acyclic := (File.blocked_eq_nil_iff once).1 blocked
  gates gate h := by
    obtain ⟨left, right, -⟩ := gate_built gates once blocked h
    exact ⟨(mem_built_iff leaves gates once blocked).1 left,
      (mem_built_iff leaves gates once blocked).1 right⟩
  latches latch h := by
    rw [← f.map_snd_named .latch f.latches] at h
    obtain ⟨e, he, rfl⟩ := List.mem_map.1 h
    exact (mem_built_iff leaves gates once blocked).1 (nexts.known e he)
  outputs l h := by
    rw [← f.map_snd_named .output f.outputs] at h
    obtain ⟨e, he, rfl⟩ := List.mem_map.1 h
    exact (mem_built_iff leaves gates once blocked).1 (outputs.known e he)
  names kind := by
    cases kind with
    | input => exact (inputs_built leaves gates).once
    | latch => exact (latches_built leaves gates).once
    | output =>
      have names := outputs.outputs.once
      rwa [f.map_fst_named] at names

omit leaves once blocked in
/-- Gates stay where they are when next states and outputs are set. -/
theorem laid_built (reduced : f.Reduced) : Laid f f.gateOrder defs g := by
  have laid := gates.laid reduced
  have length := f.length_leaves
  have nodes : g.nodes = set.nodes := by rw [outputs.same]
  have other (i : Nat) (hi : i < 1 + f.inputs.length ∨ f.leaves.length ≤ i) :
      g.nodes[i]? = built.nodes[i]? := by
    rw [nodes]
    exact nexts.other i (by rwa [f.length_named, ← length])
  refine laid.of_leaves (by rw [nodes, nexts.size]) (fun i hi => other i (.inr hi)) ?_
  intro i hi a b hand
  by_cases hinput : i < 1 + f.inputs.length
  · rw [other i (.inl hinput)] at hand
    exact absurd (laid.after i a b hand) (Nat.not_le_of_lt hi)
  · obtain ⟨p, rfl⟩ := Nat.exists_eq_add_of_le (Nat.le_of_not_lt hinput)
    have hp := List.getElem?_eq_getElem (l := f.latches) (i := p) (by omega)
    rw [nodes, nexts.set p _ (f.getElem?_named .latch hp)] at hand
    cases hand

theorem isGraph_built (ext : built.Extends g) : f.IsGraph defs g where
  inputs := by
    rw [outputs.same, nexts.inputs]
    exact inputs_built leaves gates
  latches := by
    rw [outputs.same, nexts.latches]
    exact latches_built leaves gates
  outputs := by
    have names := outputs.outputs
    rwa [f.map_fst_named, f.map_snd_named] at names
  leaf i var h := by
    have := gates.old var _ (leaves.leaves_enumerated.getElem? h)
    simp [Definitions.literal, Literal.positive, this]
  latch p latch h := by
    rw [outputs.same]
    exact nexts.set p _ (f.getElem?_named .latch h)
  laid := laid_built gates nexts outputs
  gate gate h := (gate_built gates once blocked h).2.2.mono ext

end Built

theorem assemble_spec {f : File} (zero : 0 ∉ f.defined) :
    f.assemble.Spec .empty (fun _ g => f.Consistent ∧ ∃ defs, f.IsGraph defs g)
      (Fault.Blames f.Consistent) := by
  refine (addInputs_spec zero).bind fun _ _ wf₁ _ leaves₁ => ?_
  refine (addLatches_spec zero wf₁ leaves₁).bind fun base start wf₂ _ leaves => ?_
  refine (addGates_spec zero wf₂ leaves.laid).bind ?_
  rintro defs built wf₃ - ⟨once, blocked, gates⟩
  have mem {l : Literal} : l.id ∈ defs ↔ f.Knows l := mem_built_iff leaves gates once blocked
  refine (setLatches_spec wf₃ (latches_built leaves gates) (fun _ _ => latch_built leaves gates)
    (fun l => gates.has_literal) (fun c latch h => mem.2 (c.latches latch h))).bind
    fun _ set wf₄ ext₄ nexts => ?_
  refine (addOutputs_spec wf₄ (nexts.outputs.trans (gates.grows.outputs.trans leaves.outputs))
    (fun l hl => ext₄.has (gates.has_literal hl))
    (fun c l h => mem.2 (c.outputs l h))).imp fun _ g wf₅ ext₅ outputs => ?_
  exact ⟨consistent_built leaves gates once blocked nexts outputs, defs,
    isGraph_built leaves gates once blocked nexts outputs (ext₄.trans ext₅)⟩

/-- Either the lines fit together and make the graph that they describe, or the text is at fault. -/
theorem graph_cases {f : File} (zero : 0 ∉ f.defined) :
    (∃ g, f.graph = .ok g ∧ g.WellFormed ∧ f.Consistent ∧ ∃ defs, f.IsGraph defs g) ∨
      ∃ fault, f.graph = .error fault ∧ fault.Blames f.Consistent := by
  have spec := assemble_spec zero
  rw [Spec] at spec
  rw [f.graph_eq, Build.graph, StateT.run]
  cases heq : f.assemble .empty with
  | ok result =>
    rw [heq] at spec
    obtain ⟨wf, -, consistent, isGraph⟩ := spec
    exact .inl ⟨result.2, rfl, wf, consistent, isGraph⟩
  | error fault =>
    rw [heq] at spec
    exact .inr ⟨fault, rfl, spec⟩

end AndInverter.Aiger
