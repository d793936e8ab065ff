import AndInverter.Proofs.Graph.Spec

/-! The steps that make and set named objects, alone and for a whole list of names. -/

namespace AndInverter

namespace Graph

/-- The named objects of `h` are those of `g`. -/
structure SameNames (g h : Graph) : Prop where
  inputs : h.inputs = g.inputs
  latch? : h.latch? = g.latch?
  outputs : h.outputs = g.outputs

theorem SameNames.refl (g : Graph) : g.SameNames g := ⟨rfl, rfl, rfl⟩

theorem SameNames.trans {g h k : Graph} (gh : g.SameNames h) (hk : h.SameNames k) :
    g.SameNames k :=
  ⟨hk.1.trans gh.1, hk.2.trans gh.2, hk.3.trans gh.3⟩

variable {g h : Graph} {l : Literal}

/-- A node that is no latch leaves the latches as they are. -/
theorem latch?_push (wf : g.WellFormed) (wf' : h.WellFormed) {node : Node}
    (hn : h.nodes = g.nodes.push node) (hl : h.latches = g.latches) : h.latch? = g.latch? := by
  funext name
  rw [Graph.latch?, Graph.latch?, hl, hn]
  cases hi : g.latches[name]? with
  | none => rfl
  | some i =>
    obtain ⟨next, init, hnode⟩ := wf.latch.2 ⟨name, hi⟩
    have lt := lt_size hnode
    have lt' : i < h.nodes.size := by simp [hn, Nat.lt_succ_of_lt lt]
    simp only [Option.bind_some, Array.getElem?_push, wf.idAt_eq lt, wf'.idAt_eq lt']
    rw [if_neg (by omega)]

theorem requireNode_eq_ok_iff {u : Unit} : g.requireNode l = .ok u ↔ g.Has l := by
  by_cases h : l.id < g.nodes.size <;> simp [requireNode, Has, h]

end Graph

namespace Build

variable {g : Graph}

theorem input_runs (wf : g.WellFormed) (name : String) :
    (input name).Runs g fun l h => (∃ id, l = .positive id ∧ h.inputs[name]? = some id) ∧
      (∀ n, n ∈ h.inputs ↔ n = name ∨ n ∈ g.inputs) ∧
      h.latch? = g.latch? ∧ h.outputs = g.outputs := by
  cases hn : g.inputs[name]? with
  | some id =>
    refine .of_eq (a := .positive id) (h := g) (by simp [input, hn]) wf (.refl g)
      ⟨⟨id, rfl, hn⟩, fun n => ⟨.inr, ?_⟩, rfl, rfl⟩
    rintro (rfl | h)
    · exact mem_iff_exists_getElem?.2 ⟨id, hn⟩
    · exact h
  | none =>
    have hname : name ∉ g.inputs := not_mem_iff_getElem?.2 hn
    refine .of_eq (a := .positive g.nodes.size) (by simp only [input, hn]) (wf.addInput hname)
      (Graph.extends_push rfl (fun hi => (Graph.insert_iff hname).2 (.inl hi)) id)
      ⟨⟨g.nodes.size, rfl, by simp⟩, fun n => NameMap.mem_insert_iff,
        Graph.latch?_push wf (wf.addInput hname) rfl rfl, rfl⟩

theorem latch_runs (wf : g.WellFormed) {name : String} (hname : name ∉ g.latches) (init : Bool) :
    (latch name init).Runs g fun l h =>
      (∃ id, l = .positive id ∧
        h.latch? = fun n => if n = name then some ⟨id, .ofBool false, init⟩ else g.latch? n) ∧
      h.inputs = g.inputs ∧ h.outputs = g.outputs := by
  have ok : latch name init g = .ok (.positive g.nodes.size, { g with
      nodes := g.nodes.push (.latch (.ofBool false) init)
      ids := g.ids.push g.nodes.size
      latches := g.latches.insert name g.nodes.size }) := by
    simp [latch, hname]
  have wf' := wf.addLatch hname init
  refine .of_eq ok wf'
    (Graph.extends_push rfl id (fun hi => (Graph.insert_iff hname).2 (.inl hi))) ⟨⟨_, rfl, ?_⟩, rfl, rfl⟩
  have held {i : Nat} (hi : i ≤ g.nodes.size) := wf'.idAt_eq (i := i) (by simpa using Nat.lt_succ_of_le hi)
  funext n
  by_cases h : n = name
  · subst h
    simp [Graph.latch?, held]
  · rw [if_neg h, Graph.latch?, Graph.latch?, NameMap.getElem?_insert, if_neg h]
    cases hi : g.latches[n]? with
    | none => rfl
    | some i =>
      obtain ⟨next, init, hnode⟩ := wf.latch.2 ⟨n, hi⟩
      have lt := Graph.lt_size hnode
      simp only [Option.bind_some, Array.getElem?_push, held (Nat.le_of_lt lt), wf.idAt_eq lt]
      rw [if_neg (by omega)]

/-- Setting a next state changes one node. -/
theorem setNext_modifies (wf : g.WellFormed) {name : String} {next : Literal} {id : Nat}
    (hid : g.latches[name]? = some id) (hnext : g.Has next) :
    (setNext name next).Runs g fun _ h =>
      h = { g with nodes := g.nodes.modify id (Node.setNext next) } := by
  have ok : setNext name next g =
      .ok ((), { g with nodes := g.nodes.modify id (Node.setNext next) }) := by
    simp only [Graph.Has] at hnext
    simp [setNext, Graph.requireNode, hnext, hid]
  refine .of_eq ok (wf.setNext hnext id) ⟨fun {i node} hi => ?_, fun h => h, fun h => h⟩ rfl
  obtain ⟨same, hsame⟩ := Node.exists_setNext_eq node
  rw [Array.getElem?_modify, hi]
  by_cases h : id = i
  · exact ⟨next, by simp [h]⟩
  · exact ⟨same, by simp [h, hsame]⟩

theorem setNext_runs (wf : g.WellFormed) {name : String} {next : Literal} (hname : name ∈ g.latches)
    (hnext : g.Has next) :
    (setNext name next).Runs g fun _ h =>
      h.inputs = g.inputs ∧ h.outputs = g.outputs ∧
      h.latch? = fun n => if n = name then (g.latch? n).map fun l => { l with next := next }
        else g.latch? n := by
  obtain ⟨id, hid⟩ := mem_iff_exists_getElem?.1 hname
  refine (setNext_modifies wf hid hnext).imp ?_
  rintro _ _ - - rfl
  refine ⟨rfl, rfl, ?_⟩
  funext n
  simp only [Graph.latch?, Graph.idAt]
  cases hi : g.latches[n]? with
  | none => simp
  | some i =>
    obtain ⟨old, init, hnode⟩ := wf.latch.2 ⟨n, hi⟩
    simp only [Option.bind_some, Array.getElem?_modify, hnode]
    by_cases h : n = name
    · subst h
      obtain rfl : id = i := Option.some.inj (hid.symm.trans hi)
      simp [Node.setNext]
    · have hne : id ≠ i := fun heq => h (wf.latch_inj hi (heq ▸ hid))
      simp [h, hne]

theorem output_runs (wf : g.WellFormed) {name : String} {l : Literal} (hname : name ∉ g.outputs)
    (hl : g.Has l) :
    (output name l).Runs g fun _ h => h = { g with outputs := g.outputs.insert name l } := by
  have ok : output name l g = .ok ((), { g with outputs := g.outputs.insert name l }) := by
    simp only [Graph.Has] at hl
    simp [output, Graph.requireNode, hl, hname]
  refine .of_eq ok (wf.withOutputs fun {n l'} h => ?_) ⟨(Graph.Extends.refl g).node, id, id⟩ rfl
  rw [NameMap.getElem?_insert] at h
  split at h
  · cases h
    exact hl
  · exact wf.output h

/-- A list of outputs with new and different names. -/
theorem outputList_runs (wf : g.WellFormed) {entries : List (String × Literal)}
    (distinct : (entries.map Prod.fst).Nodup) (new : ∀ e ∈ entries, e.1 ∉ g.outputs)
    (has : ∀ e ∈ entries, g.Has e.2) :
    Runs (entries.forM fun (name, l) => output name l) g fun _ h =>
      ∃ outputs : NameMap Literal, h = { g with outputs := outputs } ∧
        ∀ (name : String) l, outputs[name]? = some l ↔
          g.outputs[name]? = some l ∨ (name, l) ∈ entries := by
  refine Spec.forM (fun done h => ∃ outputs : NameMap Literal, h = { g with outputs := outputs } ∧
      ∀ (name : String) l, outputs[name]? = some l ↔
        g.outputs[name]? = some l ∨ (name, l) ∈ done)
    (fun done x rest h hx wf' ext inv => ?_) wf ⟨g.outputs, rfl, by simp⟩
  obtain ⟨outputs, rfl, houtputs⟩ := inv
  rcases x with ⟨name, l⟩
  have hmem : (name, l) ∈ entries := by simp [hx]
  have absent : name ∉ outputs := by
    rw [mem_iff_exists_getElem?]
    rintro ⟨l', hl'⟩
    rcases (houtputs name l').1 hl' with hold | hdone
    · exact new _ hmem (mem_iff_exists_getElem?.2 ⟨l', hold⟩)
    · rw [hx, List.map_append, List.map_cons, List.nodup_append] at distinct
      exact distinct.2.2 name (List.mem_map.2 ⟨_, hdone, rfl⟩) name (by simp) rfl
  refine (output_runs wf' absent (has _ hmem)).imp fun _ h' _ _ heq => ⟨_, heq, fun n l' => ?_⟩
  rw [NameMap.getElem?_insert, List.mem_append, List.mem_singleton, ← or_assoc, ← houtputs]
  by_cases hn : n = name
  · subst hn
    simp [not_mem_iff_getElem?.1 absent, eq_comm]
  · simp [hn]

theorem outputs_runs (wf : g.WellFormed) {ls : NameMap Literal}
    (new : ∀ name ∈ ls, name ∉ g.outputs) (has : ∀ (name : String) l, ls[name]? = some l → g.Has l) :
    (outputs ls).Runs g fun _ h =>
      ∃ outputs : NameMap Literal, h = { g with outputs := outputs } ∧
        ∀ (name : String) l, outputs[name]? = some l ↔
          g.outputs[name]? = some l ∨ ls[name]? = some l := by
  have entry {e : String × Literal} (he : e ∈ ls.toList) : ls[e.1]? = some e.2 :=
    Std.ExtTreeMap.mem_toList_iff_getElem?_eq_some.1 he
  refine (outputList_runs wf (nodup_map_fst_toList ls)
    (fun e he => new _ (mem_iff_exists_getElem?.2 ⟨_, entry he⟩))
    (fun e he => has _ _ (entry he))).imp fun _ h _ _ ⟨outputs, heq, houtputs⟩ => ?_
  exact ⟨outputs, heq, fun name l => by
    rw [houtputs, Std.ExtTreeMap.mem_toList_iff_getElem?_eq_some]⟩

/-- Next states of a list of different latches. -/
theorem setNextList_runs (wf : g.WellFormed) {entries : List (String × Literal)}
    (distinct : (entries.map Prod.fst).Nodup) (known : ∀ e ∈ entries, e.1 ∈ g.latches)
    (has : ∀ e ∈ entries, g.Has e.2) :
    Runs (entries.forM fun (name, next) => setNext name next) g fun _ h =>
      h.inputs = g.inputs ∧ h.outputs = g.outputs ∧
      (∀ name l, (name, l) ∈ entries →
        h.latch? name = (g.latch? name).map fun latch => { latch with next := l }) ∧
      ∀ name, name ∉ entries.map Prod.fst → h.latch? name = g.latch? name := by
  refine Spec.forM (fun done h => h.inputs = g.inputs ∧ h.outputs = g.outputs ∧
      (∀ name l, (name, l) ∈ done →
        h.latch? name = (g.latch? name).map fun latch => { latch with next := l }) ∧
      ∀ name, name ∉ done.map Prod.fst → h.latch? name = g.latch? name)
    (fun done x rest h hx wf' ext inv => ?_) wf ⟨rfl, rfl, by simp, by simp⟩
  rcases x with ⟨name, l⟩
  obtain ⟨hin, hout, hdone, hother⟩ := inv
  have hmem : (name, l) ∈ entries := by simp [hx]
  have absent : name ∉ done.map Prod.fst := by
    rw [hx, List.map_append, List.map_cons, List.nodup_append] at distinct
    exact fun hmem => distinct.2.2 name hmem name (by simp) rfl
  obtain ⟨i, hi⟩ := mem_iff_exists_getElem?.1 (known _ hmem)
  refine (setNext_runs wf' (mem_iff_exists_getElem?.2 ⟨i, ext.latch hi⟩)
    (ext.has (has _ hmem))).imp fun _ h' _ _ ⟨hin', hout', hlatch⟩ =>
    ⟨hin'.trans hin, hout'.trans hout, fun n l' hn => ?_, fun n hn => ?_⟩
  · rcases List.mem_append.1 hn with hn | hn
    · have hne : n ≠ name := fun heq => absent (List.mem_map.2 ⟨_, heq ▸ hn, rfl⟩)
      simp [hlatch, hne, hdone n l' hn]
    · obtain ⟨rfl, rfl⟩ := Prod.mk.inj (List.mem_singleton.1 hn)
      simp [hlatch, hother n absent]
  · simp only [List.map_append, List.map_cons, List.map_nil, List.mem_append, List.mem_singleton,
      not_or] at hn
    simp [hlatch, hn.2, hother n hn.1]

theorem setNexts_runs (wf : g.WellFormed) {nexts : NameMap Literal}
    (known : ∀ name ∈ nexts, name ∈ g.latches)
    (has : ∀ (name : String) l, nexts[name]? = some l → g.Has l) :
    (setNexts nexts).Runs g fun _ h => h.inputs = g.inputs ∧ h.outputs = g.outputs ∧
      ∀ name, h.latch? name = (g.latch? name).map fun latch =>
        { latch with next := (nexts[name]?).getD latch.next } := by
  have entry {e : String × Literal} (he : e ∈ nexts.toList) : nexts[e.1]? = some e.2 :=
    Std.ExtTreeMap.mem_toList_iff_getElem?_eq_some.1 he
  refine (setNextList_runs wf (nodup_map_fst_toList nexts)
    (fun e he => known _ (mem_iff_exists_getElem?.2 ⟨_, entry he⟩))
    (fun e he => has _ _ (entry he))).imp
    fun _ h _ _ ⟨hin, hout, hdone, hother⟩ => ⟨hin, hout, fun name => ?_⟩
  cases hn : nexts[name]? with
  | none =>
    have absent : name ∉ nexts.toList.map Prod.fst := by
      rw [Std.ExtTreeMap.map_fst_toList_eq_keys, Std.ExtTreeMap.mem_keys]
      exact not_mem_iff_getElem?.2 hn
    simp [hother name absent]
  | some l => exact hdone name l (Std.ExtTreeMap.mem_toList_iff_getElem?_eq_some.2 hn)

end Build

/-- Constants with different names are outputs of a graph without further nodes. -/
theorem Graph.exists_source {values : List (String × Bool)}
    (distinct : (values.map Prod.fst).Nodup) :
    ∃ outputs : NameMap Literal, source values = .ok { empty with outputs := outputs } ∧
      ∀ (name : String) l, outputs[name]? = some l ↔ ∃ value, (name, value) ∈ values ∧
        .ofBool value = l := by
  let entry (value : String × Bool) : String × Literal := (value.1, .ofBool value.2)
  have names : (values.map entry).map Prod.fst = values.map Prod.fst := by
    rw [List.map_map]
    rfl
  have build : source values =
      Build.graph ((values.map entry).forM fun (name, l) => Build.output name l) := by
    rw [source, List.forM_eq_forM, List.forM_eq_forM, List.forM_map]
  have has : ∀ e ∈ values.map entry, empty.Has e.2 := by
    intro e he
    obtain ⟨⟨name, _ | _⟩, -, rfl⟩ := List.mem_map.1 he <;> exact Nat.zero_lt_one
  obtain ⟨_, hg, -, outputs, rfl, houtputs⟩ := Build.Runs.exists_graph
    (Build.outputList_runs wellFormed_empty (names ▸ distinct) (by simp [empty]) has)
  refine ⟨outputs, build.trans hg, fun name l => ?_⟩
  have none : empty.outputs[name]? = none := rfl
  rw [houtputs, none, List.mem_map]
  constructor
  · rintro (h | ⟨⟨name, value⟩, h, ⟨⟩⟩)
    · cases h
    · exact ⟨value, h, rfl⟩
  · rintro ⟨value, h, rfl⟩
    exact .inr ⟨(name, value), h, rfl⟩

end AndInverter
