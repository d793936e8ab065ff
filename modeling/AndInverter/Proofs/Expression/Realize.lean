import AndInverter.Proofs.Expression.Draw
import AndInverter.Proofs.WordCircuit.Compose
import AndInverter.Proofs.WordCircuit.Relabel
import AndInverter.Proofs.WordGate.Wiring

/-! Circuits with one output word, which is a function of the input words. -/

namespace AndInverter

open Draw (Old freshName)

namespace WordCircuit

/-- Circuits that are the same differ at most in their tables of gates, which say nothing about
what they give. -/
theorem Gives.of_same {c d : WordCircuit} {inputs outputs : Bundle}
    {F : (String → Word) → String → Word} (gives : d.Gives inputs outputs F) (exact : c.Exact)
    (same : c.same d = true) : c.Gives inputs outputs F := by
  obtain ⟨⟨nodes, _, _, _, _, _⟩, _, _, _⟩ := c
  obtain ⟨⟨nodes', _, _, _, _, _⟩, _, _, _⟩ := d
  simp only [WordCircuit.same, Graph.same, Bool.and_eq_true, beq_iff_eq] at same
  obtain ⟨⟨⟨⟨⟨⟨⟨rfl, rfl⟩, rfl⟩, rfl⟩, rfl⟩, rfl⟩, rfl⟩, rfl⟩ := same
  exact ⟨exact, gives.inputs, gives.outputs, gives.latches,
    fun v hv => gives.value v ⟨hv.zero, hv.gate⟩⟩

/-- The circuit takes the listed words and gives one word, which is `F` of them. The name of that word
is not drawn from the count `n` on. -/
structure Realizes (c : WordCircuit) (n : Nat) (words : List (String × Nat)) {size : Nat}
    (F : (String → Word) → BitVec size) : Prop where
  gives : ∃ name, Old n name ∧ c.Gives c.inputs ((∅ : Bundle).insert name size)
    fun env _ => Word.ofBitVec (F env)
  inputs : ∀ (name : String) size, c.inputs[name]? = some size ↔ (name, size) ∈ words

variable {c : WordCircuit} {n k size size' : Nat} {words words' : List (String × Nat)}
  {F G : (String → Word) → BitVec size}

/-- A circuit with one output word whose name is not drawn any more. -/
theorem Realizes.of_gives {Γ : Bundle} {name : String}
    (gives : c.Gives Γ ((∅ : Bundle).insert name size) fun env _ => Word.ofBitVec (F env))
    (old : Old n name)
    (inputs : ∀ (name : String) size, Γ[name]? = some size ↔ (name, size) ∈ words) :
    c.Realizes n words F := by
  obtain rfl := gives.inputs
  exact ⟨⟨name, old, gives⟩, inputs⟩

theorem Realizes.mono (r : c.Realizes n words F) (h : n ≤ k) : c.Realizes k words F := by
  obtain ⟨name, old, gives⟩ := r.gives
  exact ⟨⟨name, old.mono h, gives⟩, r.inputs⟩

theorem Realizes.congr (r : c.Realizes n words F) (same : ∀ env, c.inputs.Fits env → F env = G env) :
    c.Realizes n words G := by
  obtain ⟨name, old, gives⟩ := r.gives
  exact ⟨⟨name, old, gives.congr fun env fits _ _ => by rw [same env fits]⟩, r.inputs⟩

theorem Realizes.congr_words (r : c.Realizes n words F) (same : ∀ e, e ∈ words ↔ e ∈ words') :
    c.Realizes n words' F :=
  ⟨r.gives, fun name size => (r.inputs name size).trans (same _)⟩

theorem Realizes.cast (r : c.Realizes n words F) (h : size = size') :
    c.Realizes n words fun env => (F env).cast h := by
  subst h
  exact r

end WordCircuit

namespace Expression

variable {e : Expression} {n size : Nat} {words : List (String × Nat)}
  {F G : (String → Word) → BitVec size}

theorem output_eq {name : String} (h : e.circuit.outputs = (∅ : Bundle).insert name size) :
    e.output = name := by
  have only (n : String) : n ∈ e.circuit.outputs.keys ↔ n = name := by
    rw [Std.ExtTreeMap.mem_keys, h, NameMap.mem_singleton_iff]
  rw [output]
  cases hkeys : e.circuit.outputs.keys with
  | nil =>
    have := (only name).2 rfl
    rw [hkeys] at this
    cases this
  | cons first rest =>
    rw [hkeys] at only
    exact (only first).1 (List.mem_cons_self ..)

/-- The word is the one that the expression shows. -/
theorem gives_output (r : e.circuit.Realizes n words F) : Old n e.output ∧
    e.circuit.Gives e.circuit.inputs ((∅ : Bundle).insert e.output size)
      fun env _ => Word.ofBitVec (F env) := by
  obtain ⟨name, old, gives⟩ := r.gives
  rw [output_eq gives.outputs]
  exact ⟨old, gives⟩

theorem size_eq (r : e.circuit.Realizes n words F) : e.size = size := by
  rw [Expression.size, (gives_output r).2.outputs, NameMap.getElem?_singleton, if_pos rfl,
    Option.getD_some]

/-- A new name for the word. -/
theorem withOutput_realizes (r : e.circuit.Realizes n words F) {name : String} (old : Old n name) :
    (e.withOutput name).circuit.Realizes n words F ∧ (e.withOutput name).output = name := by
  have gives := (gives_output r).2.renameOutput name
  exact ⟨.of_gives gives old r.inputs, output_eq gives.outputs⟩

/-- Evaluation gives the word, whatever else has a value. -/
theorem eval_eq (r : e.circuit.Realizes n words F) {values : WordValuation}
    (covers : ∀ name size, (name, size) ∈ words →
      ∃ word, values[name]? = some word ∧ word.length = size) :
    e.eval values = .ok (Word.ofBitVec (F fun name => (values[name]?).getD [])) := by
  have gives := (gives_output r).2
  have covers' : Bundle.Covers values e.circuit.inputs :=
    fun name size h => covers name size ((r.inputs name size).1 h)
  obtain ⟨v, step, heq, hv, hin, hout⟩ := gives.exact.exists_eval covers'
  have shown : e.output ∈ e.circuit.outputs := by
    rw [gives.outputs]
    exact NameMap.mem_singleton_iff.2 rfl
  have word := gives.value v hv (fun name => (values[name]?).getD []) (fun name hname => by
    rw [hin name hname, Option.getD_some]) e.output shown
  simp [eval, heq, hout e.output shown, word]

end Expression

end AndInverter
