import AndInverter.Proofs.Graph.Eval
import AndInverter.Proofs.Graph.Keeps
import Mathlib.Data.List.Nodup
import Mathlib.Logic.ExistsUnique
import Std.Data.String.ToNat

/-! The graphs that the operations make. All of them satisfy the representation invariant, so
evaluation fails only for want of an input value. -/

namespace AndInverter

namespace Graph

/-- Renaming without clashes leaves every leaf one name. -/
theorem rename_leaf {m : NameMap Nat} {f : String → String}
    (inj : ∀ a ∈ m, ∀ b ∈ m, f a = f b → a = b) {i : Nat} :
    (∃ name : String, (m.rename f)[name]? = some i) ↔ ∃ name : String, m[name]? = some i := by
  simp only [NameMap.getElem?_rename_eq_some_iff inj]
  exact ⟨fun ⟨_, old, _, h⟩ => ⟨old, h⟩, fun ⟨old, h⟩ => ⟨f old, old, rfl, h⟩⟩

theorem rename_inj {m : NameMap Nat} {f : String → String}
    (inj : ∀ a ∈ m, ∀ b ∈ m, f a = f b → a = b)
    (one : ∀ {a b : String} {i : Nat}, m[a]? = some i → m[b]? = some i → a = b)
    {a b : String} {i : Nat} (ha : (m.rename f)[a]? = some i) (hb : (m.rename f)[b]? = some i) :
    a = b := by
  obtain ⟨a', rfl, ha'⟩ := (NameMap.getElem?_rename_eq_some_iff inj).1 ha
  obtain ⟨b', rfl, hb'⟩ := (NameMap.getElem?_rename_eq_some_iff inj).1 hb
  rw [one ha' hb']

theorem WellFormed.rename {g : Graph} (wf : g.WellFormed) {kind : Kind} {new : Renaming}
    (inj : ∀ a ∈ g.names kind, ∀ b ∈ g.names kind, new.apply a = new.apply b → a = b) :
    (g.rename kind new).WellFormed := by
  cases kind with
  | input =>
    have inj' : ∀ a ∈ g.inputs, ∀ b ∈ g.inputs, new.apply a = new.apply b → a = b := by
      simpa [names] using inj
    exact { wf with
      input := wf.input.trans (rename_leaf inj').symm
      input_inj := rename_inj inj' wf.input_inj }
  | latch =>
    have inj' : ∀ a ∈ g.latches, ∀ b ∈ g.latches, new.apply a = new.apply b → a = b := by
      simpa [names] using inj
    exact { wf with
      latch := wf.latch.trans (rename_leaf inj').symm
      latch_inj := rename_inj inj' wf.latch_inj }
  | output =>
    have inj' : ∀ a ∈ g.outputs, ∀ b ∈ g.outputs, new.apply a = new.apply b → a = b := by
      simpa [names] using inj
    refine wf.withOutputs fun {name l} h => ?_
    obtain ⟨old, -, hold⟩ := (NameMap.getElem?_rename_eq_some_iff inj').1 h
    exact wf.output hold

theorem hasName_iff {g : Graph} {kind : Kind} {name : String} :
    g.hasName kind name = true ↔ name ∈ g.names kind := by
  cases kind <;> exact Std.ExtTreeMap.mem_iff_contains.symm.trans Std.ExtTreeMap.mem_keys.symm

theorem nodup_names (g : Graph) (kind : Kind) : (g.names kind).Nodup := by
  cases kind <;> exact Std.ExtTreeMap.nodup_keys

theorem mem_names_rename_iff {g : Graph} {kind : Kind} {new : Renaming}
    (inj : ∀ a ∈ g.names kind, ∀ b ∈ g.names kind, new.apply a = new.apply b → a = b) {n : String} :
    n ∈ (g.rename kind new).names kind ↔ ∃ old ∈ g.names kind, new.apply old = n := by
  have renamed {α : Type} {m : NameMap α}
      (inj : ∀ a ∈ m.keys, ∀ b ∈ m.keys, new.apply a = new.apply b → a = b) :
      n ∈ (m.rename new.apply).keys ↔ ∃ old ∈ m.keys, new.apply old = n := by
    simp only [Std.ExtTreeMap.mem_keys] at inj ⊢
    simp only [mem_iff_exists_getElem?, NameMap.getElem?_rename_eq_some_iff inj]
    constructor
    · rintro ⟨x, old, heq, h⟩
      exact ⟨old, ⟨x, h⟩, heq⟩
    · rintro ⟨old, ⟨x, h⟩, heq⟩
      exact ⟨x, old, heq, h⟩
  cases kind <;> exact renamed inj

/-- Objects of other kinds keep their names. -/
theorem names_rename_of_ne (g : Graph) {kind kind' : Kind} (new : Renaming) (h : kind' ≠ kind) :
    (g.rename kind new).names kind' = g.names kind' := by
  cases kind <;> cases kind' <;> first | exact absurd rfl h | rfl

/-- Renaming that succeeds is renaming without clashes. -/
theorem eq_rename_of_relabel {g h : Graph} {kind : Kind} {new : Renaming}
    (run : g.relabel kind new = .ok h) : h = g.rename kind new ∧
      ∀ a ∈ g.names kind, ∀ b ∈ g.names kind, new.apply a = new.apply b → a = b := by
  rw [Graph.relabel] at run
  cases hclash : firstClash [] new.apply (g.names kind) with
  | some name => simp [hclash] at run
  | none =>
    rw [hclash] at run
    cases run
    have distinct := (firstClash_eq_none_iff.1 hclash).2
    exact ⟨rfl, fun a ha b hb hab => List.inj_on_of_nodup_map distinct ha hb hab⟩

/-- Where the new names are all different nothing is refused. -/
theorem relabel_eq_rename {g : Graph} {kind : Kind} {new : Renaming}
    (inj : ∀ a ∈ g.names kind, ∀ b ∈ g.names kind, new.apply a = new.apply b → a = b) :
    g.relabel kind new = .ok (g.rename kind new) := by
  have none : firstClash [] new.apply (g.names kind) = none :=
    firstClash_eq_none_iff.2 ⟨by simp, (g.nodup_names kind).map_on inj⟩
  rw [Graph.relabel, none]
  rfl

theorem WellFormed.relabel {g h : Graph} (wf : g.WellFormed) {kind : Kind} {new : Renaming}
    (hrun : g.relabel kind new = .ok h) : h.WellFormed := by
  obtain ⟨rfl, inj⟩ := eq_rename_of_relabel hrun
  exact wf.rename inj

theorem WellFormed.omitOutputs {g : Graph} (wf : g.WellFormed) (names : List String) :
    (g.omitOutputs names).WellFormed := by
  refine wf.withOutputs fun {name l} h => ?_
  rw [NameMap.getElem?_without] at h
  split at h
  · cases h
  · exact wf.output h

end Graph

/-- One step of growing a graph, with its arguments. -/
inductive Growth where
  | input (name : String)
  | latch (name : String) (init : Bool)
  | setNext (name : String) (next : Literal)
  | output (name : String) (l : Literal)
  | and (left right : Literal)
  | or (left right : Literal)
  | xor (left right : Literal)
  | xnor (left right : Literal)
  | mux (test thenCase elseCase : Literal)
  | andAll (ls : List Literal)
  | orAll (ls : List Literal)
  | xorAll (ls : List Literal)

/-- The step, without its result. -/
def Growth.build : Growth → Build Unit
  | input name => discard (Build.input name)
  | latch name init => discard (Build.latch name init)
  | setNext name next => Build.setNext name next
  | output name l => Build.output name l
  | and left right => discard (Build.and left right)
  | or left right => discard (Build.or left right)
  | xor left right => discard (Build.xor left right)
  | xnor left right => discard (Build.xnor left right)
  | mux test thenCase elseCase => discard (Build.mux test thenCase elseCase)
  | andAll ls => discard (Build.andAll ls)
  | orAll ls => discard (Build.orAll ls)
  | xorAll ls => discard (Build.xorAll ls)

namespace Graph

/-- The graphs that finitely many operations lead to, each of which ended well. -/
inductive Reachable : Graph → Prop where
  | empty : Reachable .empty
  | source {values : List (String × Bool)} {g : Graph} : source values = .ok g → Reachable g
  | sink {names : List String} {g : Graph} : sink names = .ok g → Reachable g
  | identity {names : List String} {g : Graph} : identity names = .ok g → Reachable g
  | grow (step : Growth) {g h : Graph} :
      Reachable g → step.build g = .ok ((), h) → Reachable h
  | readLines {lines : List String} {g : Graph} : Aiger.readLines lines = .ok g → Reachable g
  | readText {text : String} {g : Graph} : Aiger.readText text = .ok g → Reachable g
  | readStored {path : String} {content : Option ByteArray} {g : Graph} :
      Aiger.readStored path content = .ok g → Reachable g
  | seq {g g' h : Graph} : Reachable g → Reachable g' → g.seq g' = .ok h → Reachable h
  | par {g g' h : Graph} : Reachable g → Reachable g' → g.par g' = .ok h → Reachable h
  | relabel {kind : Kind} {new : Renaming} {g h : Graph} :
      Reachable g → g.relabel kind new = .ok h → Reachable h
  | omitOutputs (names : List String) {g : Graph} : Reachable g → Reachable (g.omitOutputs names)
  | feedback {inputs outputs : List String} {initials : Option (List Bool)}
      {latches : Option (List String)} {keepOutputs : Bool} {g h : Graph} : Reachable g →
      g.feedback inputs outputs initials latches keepOutputs = .ok h → Reachable h
  | unroll {horizon : Nat} {options : UnrollOptions} {g h : Graph} :
      Reachable g → g.unroll horizon options = .ok h → Reachable h
  | compacted {g h : Graph} : Reachable g → g.compacted = .ok h → Reachable h

end Graph

/-! ### Every operation makes well-formed graphs -/

theorem Growth.keeps (step : Growth) : step.build.Keeps := by
  cases step with
  | input name => exact (Build.Keeps.input name).discard
  | latch name init => exact (Build.Keeps.latch name init).discard
  | setNext name next => exact Build.Keeps.setNext name next
  | output name l => exact Build.Keeps.output name l
  | and left right => exact (Build.Keeps.and left right).discard
  | or left right => exact (Build.Keeps.or left right).discard
  | xor left right => exact (Build.Keeps.xor left right).discard
  | xnor left right => exact (Build.Keeps.xnor left right).discard
  | mux test thenCase elseCase => exact (Build.Keeps.mux test thenCase elseCase).discard
  | andAll ls => exact (Build.Keeps.andAll ls).discard
  | orAll ls => exact (Build.Keeps.orAll ls).discard
  | xorAll ls => exact (Build.Keeps.xorAll ls).discard

namespace Graph

open Build (Keeps)

theorem wellFormed_source {values : List (String × Bool)} {g : Graph}
    (h : source values = .ok g) : g.WellFormed :=
  (Keeps.forM (fun _ => .output _ _) values).graph h

theorem wellFormed_sink {names : List String} {g : Graph} (h : sink names = .ok g) :
    g.WellFormed :=
  (Keeps.forM (fun _ => (Keeps.input _).discard) names).graph h

theorem wellFormed_identity {names : List String} {g : Graph} (h : identity names = .ok g) :
    g.WellFormed :=
  (Keeps.forM (fun _ => (Keeps.input _).bind fun _ => .output _ _) names).graph h

theorem wellFormed_chain {a b h : Graph} (hrun : a.chain b = .ok h) : h.WellFormed :=
  ((Keeps.embedDriven _ _).bind fun _ => (Keeps.embedDriven _ _).bind fun _ =>
    (Keeps.outputs _).bind fun _ => .outputs _).graph hrun

theorem wellFormed_beside {a b h : Graph} (hrun : a.beside b = .ok h) :
    h.WellFormed :=
  ((Keeps.embedDriven _ _).bind fun _ => (Keeps.embedDriven _ _).bind fun _ =>
    (Keeps.outputs _).bind fun _ => .outputs _).graph hrun

theorem wellFormed_closeLoops {g h : Graph} {loops : List Loop} {keepOutputs : Bool}
    (hrun : g.closeLoops loops keepOutputs = .ok h) : h.WellFormed := by
  refine Keeps.graph ?_ hrun
  refine (Keeps.mapM (fun _ => (Keeps.latch _ _).bind fun _ => .pure _) _).bind fun drivers => ?_
  refine (Keeps.embedDriven _ _).bind fun outputs => ?_
  exact (Keeps.forM (fun _ => (Keeps.lift _).bind fun _ => .setNext _ _) _).bind fun _ => .outputs _

theorem wellFormed_compacted {g h : Graph} (hrun : g.compacted = .ok h) : h.WellFormed := by
  obtain ⟨_, -, hbuild⟩ := except_bind_eq_ok_iff.1 hrun
  exact ((Keeps.embedDriven _ _).bind fun _ => .outputs _).graph hbuild

theorem wellFormed_unroll {g h : Graph} {horizon : Nat} {options : UnrollOptions}
    (hrun : g.unroll horizon options = .ok h) : h.WellFormed := by
  have keeps : Keeps (do
      let state ← Build.startState g options.fromInitial
      discard (Build.unrollFrom g options horizon 0 state)) := by
    refine Keeps.bind ((Keeps.mapM (fun entry => ?_) _).bind fun _ => .pure _) fun state =>
      (Keeps.unrollFrom g options horizon 0 state).discard
    exact .ite (.pure _) ((Keeps.input _).bind fun _ => .pure _)
  refine keeps.graph ?_
  simp only [Graph.unroll] at hrun
  repeat' split at hrun
  all_goals first | exact hrun | cases hrun

theorem wellFormed_seq {g g' h : Graph} (hrun : g.seq g' = .ok h) : h.WellFormed := by
  refine wellFormed_chain (a := g) (b := g') ?_
  simp only [Graph.seq] at hrun
  repeat' split at hrun
  all_goals first | exact hrun | cases hrun

theorem wellFormed_par {g g' h : Graph} (hrun : g.par g' = .ok h) : h.WellFormed := by
  refine wellFormed_beside (a := g) (b := g') ?_
  simp only [Graph.par] at hrun
  repeat' split at hrun
  all_goals first | exact hrun | cases hrun

theorem wellFormed_feedback {g h : Graph} {inputs outputs : List String}
    {initials : Option (List Bool)} {latches : Option (List String)} {keepOutputs : Bool}
    (hrun : g.feedback inputs outputs initials latches keepOutputs = .ok h) : h.WellFormed := by
  obtain ⟨loops, -, hclose⟩ := except_bind_eq_ok_iff.1 hrun
  exact wellFormed_closeLoops hclose

end Graph

namespace Aiger

open Build (Keeps)

theorem addInput_keeps (defs : Definitions) (entry : String × Nat) :
    (addInput defs entry).Keeps := by
  refine Keeps.get.bind fun g => ?_
  split
  · exact (Keeps.throw _).bind fun _ => (Keeps.input _).bind fun _ => .lift _
  · exact (Keeps.input _).bind fun _ => .lift _

theorem addLatch_keeps (defs : Definitions) (entry : String × LatchLine) :
    (addLatch defs entry).Keeps := by
  refine Keeps.get.bind fun g => ?_
  split
  · exact (Keeps.throw _).bind fun _ => (Keeps.latch _ _).bind fun _ => .lift _
  · exact (Keeps.latch _ _).bind fun _ => .lift _

theorem addGate_keeps (gates : Std.ExtTreeMap Nat GateLine) (defs : Definitions) (var : Nat) :
    (addGate gates defs var).Keeps := by
  rw [addGate]
  split
  · exact .pure _
  · exact (Keeps.lift _).bind fun _ => (Keeps.lift _).bind fun _ =>
      (Keeps.and _ _).bind fun _ => .lift _

theorem addGates_keeps (lines : List GateLine) (defs : Definitions) :
    (addGates lines defs).Keeps := by
  -- The layers are built only if no variable is defined by two gates.
  refine .ite ((Keeps.throw _).bind fun _ => ?_) ?_ <;>
    refine (Keeps.foldlM (addGate_keeps _) _ _).bind fun defs => ?_ <;>
    exact .ite ((Keeps.throw _).bind fun _ => .pure _) (.pure _)

theorem addOutput_keeps (defs : Definitions) (entry : String × Literal) :
    (addOutput defs entry).Keeps := by
  refine Keeps.get.bind fun g => ?_
  split
  · exact (Keeps.throw _).bind fun _ => (Keeps.lift _).bind fun _ => .output _ _
  · exact (Keeps.lift _).bind fun _ => .output _ _

theorem wellFormed_graph {f : File} {g : Graph} (h : f.graph = .ok g) : g.WellFormed := by
  refine Keeps.graph ?_ h
  refine (Keeps.foldlM addInput_keeps _ _).bind fun defs => ?_
  refine (Keeps.foldlM addLatch_keeps _ _).bind fun defs => ?_
  refine (addGates_keeps _ _).bind fun defs => ?_
  exact (Keeps.forM (fun _ => (Keeps.lift _).bind fun _ => .setNext _ _) _).bind fun _ =>
    .forM (addOutput_keeps defs) _

theorem wellFormed_readLines {lines : List String} {g : Graph} (h : readLines lines = .ok g) :
    g.WellFormed := by
  obtain ⟨f, -, hf⟩ := except_bind_eq_ok_iff.1 h
  exact wellFormed_graph hf

theorem wellFormed_readStored {path : String} {content : Option ByteArray} {g : Graph}
    (h : readStored path content = .ok g) : g.WellFormed := by
  simp only [readStored] at h
  split at h
  · cases h
  · split at h
    · cases h
    · exact wellFormed_readLines h

end Aiger

namespace Graph

theorem Reachable.wellFormed {g : Graph} (reachable : g.Reachable) : g.WellFormed := by
  induction reachable with
  | empty => exact wellFormed_empty
  | source h => exact wellFormed_source h
  | sink h => exact wellFormed_sink h
  | identity h => exact wellFormed_identity h
  | grow step _ h wf => exact (step.keeps _ _ _ wf h).1
  | readLines h => exact Aiger.wellFormed_readLines h
  | readText h => exact Aiger.wellFormed_readLines h
  | readStored h => exact Aiger.wellFormed_readStored h
  | seq _ _ h => exact wellFormed_seq h
  | par _ _ h => exact wellFormed_par h
  | relabel _ h wf => exact wf.relabel h
  | omitOutputs names _ wf => exact wf.omitOutputs names
  | feedback _ h => exact wellFormed_feedback h
  | unroll _ h => exact wellFormed_unroll h
  | compacted _ h => exact wellFormed_compacted h

/-- Steps of growth one after the other. -/
theorem Reachable.grows {steps : List Growth} {g h : Graph} (reachable : g.Reachable)
    (run : steps.forM Growth.build g = .ok ((), h)) : h.Reachable := by
  induction steps generalizing g with
  | nil =>
    cases run
    exact reachable
  | cons step steps ih =>
    obtain ⟨_, k, hstep, hsteps⟩ := Build.bind_eq_ok_iff.1 run
    exact ih (.grow step reachable hstep) hsteps

theorem reachable_of_growths {steps : List Growth} {g : Graph}
    (run : Build.graph (steps.forM Growth.build) = .ok g) : g.Reachable := by
  obtain ⟨⟨_, h⟩, hrun, heq⟩ := except_bind_eq_ok_iff.1 run
  obtain rfl := Except.ok.inj heq
  exact Reachable.empty.grows hrun

/-- A graph with as many outputs as wanted, all of them false. -/
theorem exists_zeros (count : Nat) : ∃ outputs : NameMap Literal,
    source ((List.range count).map fun i => (i.repr, false)) =
      .ok { empty with outputs := outputs } ∧
    outputs.size = count ∧
    ∀ (name : String) l, outputs[name]? = some l → l = .ofBool false ∧ ∃ i : Nat, i.repr = name := by
  have names : ((List.range count).map fun i => (i.repr, false)).map Prod.fst =
      (List.range count).map Nat.repr := by
    rw [List.map_map]
    rfl
  have distinct : ((List.range count).map Nat.repr).Nodup :=
    List.nodup_range.map fun _ _ h => Nat.repr_inj.1 h
  obtain ⟨outputs, hg, houtputs⟩ := exists_source (names ▸ distinct)
  have mem (name : String) : name ∈ outputs.keys ↔ name ∈ (List.range count).map Nat.repr := by
    rw [Std.ExtTreeMap.mem_keys, mem_iff_exists_getElem?, ← names, List.mem_map]
    constructor
    · rintro ⟨l, h⟩
      obtain ⟨value, h, -⟩ := (houtputs name l).1 h
      exact ⟨_, h, rfl⟩
    · rintro ⟨⟨name, value⟩, h, rfl⟩
      exact ⟨_, (houtputs name _).2 ⟨value, h, rfl⟩⟩
  have all := (List.perm_ext_iff_of_nodup outputs.nodup_keys distinct).2 mem
  refine ⟨outputs, hg, ?_, fun name l h => ?_⟩
  · rw [← Std.ExtTreeMap.length_keys, all.length_eq, List.length_map, List.length_range]
  · obtain ⟨value, entry, rfl⟩ := (houtputs name l).1 h
    obtain ⟨i, -, heq⟩ := List.mem_map.1 entry
    cases heq
    exact ⟨rfl, i, rfl⟩

/-- The representation of a reachable graph: node `0` is the only constant, and every node holds its
position as its number; a gate has two different nodes in front of it as arguments, neither of them the
constant, and in ascending order; no two gates have the same arguments, and the gate table lists just
the gates; inputs and latches are in bijection with their names; next states and outputs exist. So
evaluation fails exactly where an input has no value, and then with that answer. -/
theorem representation_of_reachable {g : Graph} (reachable : g.Reachable) :
    (∀ i : Nat, g.nodes[i]? = some .zero ↔ i = 0) ∧
    (g.ids.size = g.nodes.size ∧ ∀ i < g.nodes.size, g.idAt i = i) ∧
    (∀ (i : Nat) (a b : Literal), g.nodes[i]? = some (.and a b) →
      1 ≤ a.id ∧ a.id < b.id ∧ b.id < i) ∧
    (∀ (i j : Nat) (a b : Literal),
      g.nodes[i]? = some (.and a b) → g.nodes[j]? = some (.and a b) → i = j) ∧
    (∀ a b gate : Literal, g.gateTable[(a, b)]? = some gate ↔
      ∃ i, gate = .positive i ∧ g.nodes[i]? = some (.and a b)) ∧
    (∀ (name : String) (i : Nat), g.inputs[name]? = some i → g.nodes[i]? = some .input) ∧
    (∀ i : Nat, g.nodes[i]? = some .input → ∃! name : String, g.inputs[name]? = some i) ∧
    (∀ (name : String) (i : Nat), g.latches[name]? = some i →
      ∃ next init, g.nodes[i]? = some (.latch next init)) ∧
    (∀ (i : Nat) (next : Literal) (init : Bool), g.nodes[i]? = some (.latch next init) →
      ∃! name : String, g.latches[name]? = some i) ∧
    (∀ (i : Nat) (next : Literal) (init : Bool), g.nodes[i]? = some (.latch next init) →
      next.id < g.nodes.size) ∧
    (∀ (name : String) (l : Literal), g.outputs[name]? = some l → l.id < g.nodes.size) ∧
    ∀ inputs state,
      ((∃ fault, g.eval inputs state = .error fault) ↔ ∃ name ∈ g.inputs, name ∉ inputs) ∧
      ∀ fault, g.eval inputs state = .error fault →
        ∃ name ∈ g.inputs, name ∉ inputs ∧ fault = .circuit (.missingInput name) := by
  have wf := reachable.wellFormed
  refine ⟨fun i => ⟨wf.zero_unique, fun h => h ▸ wf.zero⟩,
    ⟨by rw [wf.ids, Array.size_range], fun i hi => wf.idAt_eq hi⟩, fun i a b h => ?_,
    fun i j a b hi hj => wf.gate_inj hi hj, fun a b gate => wf.table,
    fun name i h => wf.input.2 ⟨name, h⟩, fun i h => ?_, fun name i h => wf.latch.2 ⟨name, h⟩,
    fun i next init h => ?_, fun i next init h => wf.next h, fun name l h => wf.output h,
    fun inputs state => ?_⟩
  · have ⟨pos, lt⟩ := wf.ascending h
    exact ⟨pos, lt, (wf.fanin h).2⟩
  · obtain ⟨name, hname⟩ := wf.input.1 h
    exact ⟨name, hname, fun other hother => wf.input_inj hother hname⟩
  · obtain ⟨name, hname⟩ := wf.latch.1 ⟨next, init, h⟩
    exact ⟨name, hname, fun other hother => wf.latch_inj hother hname⟩
  · rcases wf.eval_cases inputs state with ⟨v, step, hok, -, covered⟩ | ⟨name, hn, hi, herr⟩
    · simp only [hok, reduceCtorEq, exists_false, false_iff, false_implies, implies_true, and_true]
      exact fun ⟨name, hn, hi⟩ => hi (covered name hn)
    · exact ⟨⟨fun _ => ⟨name, hn, hi⟩, fun _ => ⟨_, herr⟩⟩,
        fun fault h => ⟨name, hn, hi, by rw [herr] at h; exact (Except.error.inj h).symm⟩⟩

/-- A gate over an input and a latch, which drives the latch and an output. -/
theorem representation_of_toggle : ∃ g,
    Build.graph ([.input "a", .latch "l" true, .and (.positive 1) (.positive 2),
      .setNext "l" (-.positive 3), .output "y" (.positive 3)].forM Growth.build) = .ok g ∧
    g.nodes.toList =
      [.zero, .input, .latch (-.positive 3) true, .and (.positive 1) (.positive 2)] ∧
    g.idAt 3 = 3 ∧ g.gateTable[(Literal.positive 1, Literal.positive 2)]? = some (.positive 3) ∧
    (∃! name : String, g.latches[name]? = some 2) ∧
    (∃ fault, g.eval ∅ none = .error fault) ∧
    ∀ a state, ∃ step, g.eval (NameMap.ofPairs [("a", a)]) state = .ok step := by
  obtain ⟨g, hg, nodes, inputs⟩ : ∃ g,
      Build.graph ([.input "a", .latch "l" true, .and (.positive 1) (.positive 2),
        .setNext "l" (-.positive 3), .output "y" (.positive 3)].forM Growth.build) = .ok g ∧
      g.nodes.toList =
        [.zero, .input, .latch (-.positive 3) true, .and (.positive 1) (.positive 2)] ∧
      g.inputs.keys = ["a"] := by
    decide +kernel
  have node {i : Nat} {n : Node} (h : g.nodes.toList[i]? = some n) : g.nodes[i]? = some n :=
    Array.getElem?_toList.symm.trans h
  have gate : g.nodes[3]? = some (.and (.positive 1) (.positive 2)) := node (by rw [nodes]; rfl)
  have driven : g.nodes[2]? = some (.latch (-.positive 3) true) := node (by rw [nodes]; rfl)
  have covered (name : String) : name ∈ g.inputs ↔ name = "a" := by
    rw [← Std.ExtTreeMap.mem_keys, inputs, List.mem_singleton]
  obtain ⟨-, ⟨-, held⟩, -, -, table, -, -, -, latch, -, -, eval⟩ :=
    representation_of_reachable (reachable_of_growths hg)
  refine ⟨g, hg, nodes, held 3 (lt_size gate), (table _ _ _).2 ⟨3, rfl, gate⟩,
    latch 2 _ _ driven, (eval ∅ none).1.2 ⟨"a", (covered "a").2 rfl, by simp⟩, fun a state => ?_⟩
  cases run : g.eval (NameMap.ofPairs [("a", a)]) state with
  | ok step => exact ⟨step, rfl⟩
  | error fault =>
    obtain ⟨name, hname, missing⟩ := (eval _ state).1.1 ⟨fault, run⟩
    refine absurd ?_ missing
    rw [(covered name).1 hname, NameMap.ofPairs, Std.ExtTreeMap.mem_ofList]
    rfl

end Graph

end AndInverter
