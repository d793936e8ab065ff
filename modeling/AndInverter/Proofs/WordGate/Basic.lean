import AndInverter.Proofs.Word.Shape
import AndInverter.Proofs.WordGate.Build

/-! Gates with one output word. What their inside computes from literals they compute from words, also
where two input words are one. -/

namespace AndInverter

namespace WordCircuit

variable {c d : WordCircuit}

theorem exact_empty : empty.Exact :=
  ⟨Graph.wellFormed_empty, by simp [empty, Graph.empty, Bundle.HasBit],
    by simp [empty, Graph.empty, Bundle.HasBit], by simp [empty, Graph.empty, Bundle.HasBit]⟩

theorem gives_empty (F : (String → Word) → String → Word) : empty.Gives ∅ ∅ F :=
  ⟨exact_empty, rfl, rfl, rfl, fun _ _ _ _ n hn => by simp [empty] at hn⟩

/-- Input words keep their values while the graph grows. -/
theorem inputWord_of_extends (exact : c.Exact) (same : d.inputs = c.inputs)
    (ext : c.graph.Extends d.graph) (v : Nat → Bool) (n : String) :
    d.inputWord v n = c.inputWord v n := by
  rw [inputWord, inputWord, same]
  refine readWord_congr fun i hi => ext.inputValue v ?_
  rw [exact.inputs, Bundle.hasBit_bitName_iff]
  cases h : c.inputs[n]? with
  | none => simp [h] at hi
  | some size => exact ⟨size, rfl, by simpa [h] using hi⟩

/-- Values of the words of the later circuit are values of the words of the earlier one. -/
theorem env_of_extends (exact : c.Exact) (same : d.inputs = c.inputs)
    (ext : c.graph.Extends d.graph) {v : Nat → Bool} {env : String → Word}
    (henv : ∀ n ∈ d.inputs, env n = d.inputWord v n) : ∀ n ∈ c.inputs, env n = c.inputWord v n := by
  intro n hn
  rw [henv n (same ▸ hn), inputWord_of_extends exact same ext]

end WordCircuit

namespace WordBuild

variable {c : WordCircuit} {inputs : Bundle} {F : (String → Word) → Word}

theorem circuit_gives {build : WordBuild Unit} {outputs : Bundle}
    {F : (String → Word) → String → Word}
    (runs : build.Runs .empty fun _ c => c.inputs = inputs ∧ c.outputs = outputs ∧
      ∀ v, c.graph.Solution v → ∀ env : String → Word,
        (∀ n ∈ c.inputs, env n = c.inputWord v n) → ∀ n ∈ c.outputs, c.outputWord v n = F env n) :
    ∃ c, circuit build = .ok c ∧ c.Gives inputs outputs F := by
  obtain ⟨_, c, heq, exact, latches, -, hin, hout, value⟩ := runs
  exact ⟨c, by simp [circuit, StateT.run, heq], exact, hin, hout, latches, value⟩

/-- The first input word. -/
theorem firstInput_runs (name : String) (size : Nat) :
    (input name size).Runs .empty fun xs c => c.inputs = (∅ : Bundle).insert name size ∧
      c.outputs = ∅ ∧ xs.length = size ∧ c.Carries name xs :=
  (input_runs WordCircuit.exact_empty (by simp [WordCircuit.empty])).imp
    fun _ _ _ _ ⟨hin, hout, _, hlen, carries⟩ => ⟨hin, hout, hlen, carries⟩

/-- Two input words, which may be one word if they have the same size. -/
theorem twoInputs_runs {α : Type} {left right : String} {width width' : Nat}
    {f : List Literal → List Literal → WordBuild α} {ok : α → WordCircuit → Prop}
    (agree : right = left → width = width')
    (then_ : ∀ xs ys d, d.Exact → d.inputs = ((∅ : Bundle).insert left width).insert right width' →
      d.outputs = ∅ → xs.length = width → ys.length = width' → d.Carries left xs →
      d.Carries right ys → (f xs ys).Runs d ok) :
    Runs (do
      let xs ← input left width
      let ys ← input right width'
      f xs ys) .empty ok := by
  refine (firstInput_runs left width).bind fun xs c exact _ ⟨hin, hout, hxs, carriesX⟩ => ?_
  have agree' (old : Nat) (hold : c.inputs[right]? = some old) : old = width' := by
    rw [hin, NameMap.getElem?_singleton] at hold
    split at hold
    next heq => rw [← agree heq, Option.some.inj hold]
    next => cases hold
  refine (input_runs exact agree').bind fun ys d exact' ext ⟨hin', hout', _, hys, carriesY⟩ => ?_
  exact then_ xs ys d exact' (hin ▸ hin') (hout'.trans hout) hxs hys
    (carriesX.insert ext agree' hin') carriesY

/-- The only output word, given by literals that have the values it should. -/
theorem onlyOutput_runs (exact : c.Exact) (none : c.outputs = ∅) {name : String}
    {ls : List Literal} (has : ∀ l ∈ ls, c.graph.Has l)
    (value : ∀ v, c.graph.Solution v → ∀ env : String → Word,
      (∀ n ∈ c.inputs, env n = c.inputWord v n) → ls.map (·.under v) = F env) :
    (output name ls).Runs c fun _ d => d.inputs = c.inputs ∧
      d.outputs = (∅ : Bundle).insert name ls.length ∧
      ∀ v, d.graph.Solution v → ∀ env : String → Word,
        (∀ n ∈ d.inputs, env n = d.inputWord v n) → ∀ n ∈ d.outputs, d.outputWord v n = F env := by
  refine (output_runs exact (by simp [none]) has).imp
    fun _ d _ ext ⟨hin, hout, word, _⟩ => ⟨hin, none ▸ hout, fun v hv env henv n hn => ?_⟩
  have hn : n = name := by
    rw [hout, none] at hn
    exact NameMap.mem_singleton_iff.1 hn
  rw [hn, word, value v (ext.solution hv) env (WordCircuit.env_of_extends exact hin ext henv)]

/-- Literals made inside the graph become the only output word. It is known by its value for the input
words. -/
theorem outputBits_runs (exact : c.Exact) (none : c.outputs = ∅) {word : Build (List Literal)}
    {W : (Nat → Bool) → Word} {size : Nat} {F : (String → Word) → BitVec size} (name : String)
    (runs : word.Runs c.graph fun ls h => h.ComputesWord ls W ∧ c.graph.SameNames h)
    (value : ∀ v, ∀ env : String → Word, (∀ n ∈ c.inputs, env n = c.inputWord v n) →
      W v = Word.ofBitVec (F env)) :
    Runs (do output name (← bits word)) c fun _ d => d.inputs = c.inputs ∧
      d.outputs = (∅ : Bundle).insert name size ∧
      ∀ v, d.graph.Solution v → ∀ env : String → Word,
        (∀ n ∈ d.inputs, env n = d.inputWord v n) → ∀ n ∈ d.outputs,
          d.outputWord v n = Word.ofBitVec (F env) := by
  refine (bits_runs exact runs).bind fun ls d exact' ext ⟨hin, hout, _, comp⟩ => ?_
  have length : ls.length = size := by
    refine comp.length_eq exact'.wf.toEvaluable fun v => ?_
    rw [value v (c.inputWord v) fun _ _ => rfl, Word.length_ofBitVec]
  have value' (v : Nat → Bool) (hv : d.graph.Solution v) (env : String → Word)
      (henv : ∀ n ∈ d.inputs, env n = d.inputWord v n) :
      ls.map (·.under v) = Word.ofBitVec (F env) := by
    rw [comp.2 v hv, value v env (WordCircuit.env_of_extends exact hin ext henv)]
  refine (onlyOutput_runs exact' (hout.trans none) comp.1 value').imp
    fun _ e _ _ ⟨hin', hout', word⟩ => ⟨hin'.trans hin, ?_, word⟩
  rw [hout', length]

end WordBuild

namespace WordGate

variable {width width' size : Nat} {input left right output : String}

/-- The gate turns the word `input` into the word `output` by `op`. -/
def Maps (gate : Except Fault WordCircuit) (input output : String)
    (op : BitVec width → BitVec size) : Prop :=
  ∃ c, gate = .ok c ∧ c.Gives ((∅ : Bundle).insert input width) ((∅ : Bundle).insert output size)
    fun env _ => Word.ofBitVec (op ((env input).toBitVec width))

/-- The gate joins the words `left` and `right` to the word `output` by `op`. -/
def Joins (gate : Except Fault WordCircuit) (left right output : String)
    (op : BitVec width → BitVec width' → BitVec size) : Prop :=
  ∃ c, gate = .ok c ∧ c.Gives (((∅ : Bundle).insert left width).insert right width')
    ((∅ : Bundle).insert output size)
    fun env _ => Word.ofBitVec (op ((env left).toBitVec width) ((env right).toBitVec width'))

/-- A gate whose inside computes `f` maps words by the same function on numbers of fixed size. -/
theorem unary_maps {word : List Literal → Build (List Literal)} {f : Word → Word}
    {op : BitVec width → BitVec size}
    (runs : ∀ {g : Graph} {xs : List Literal}, g.WellFormed → xs.length = width →
      (∀ x ∈ xs, g.Has x) → (word xs).Runs g fun ls h =>
        h.ComputesWord ls (fun v => f (xs.map (·.under v))) ∧ g.SameNames h)
    (hop : ∀ x, f (Word.ofBitVec x) = Word.ofBitVec (op x)) :
    Maps (unary width input output word) input output op := by
  have hf (x : Word) (size : x.length = width) : f x = Word.ofBitVec (op (x.toBitVec width)) := by
    rw [← hop, Word.ofBitVec_toBitVec size]
  refine WordBuild.circuit_gives ?_
  refine (WordBuild.firstInput_runs input width).bind
    fun xs c exact _ ⟨hin, hout, hlen, carries⟩ => ?_
  refine (WordBuild.outputBits_runs exact hout output (runs exact.wf hlen (carries.has exact))
    fun v env henv => ?_).imp fun _ d _ _ ⟨hin', hout', value⟩ => ⟨hin'.trans hin, hout', value⟩
  rw [hf _ (by simp [hlen]), carries.eq_env henv]

/-- The same for two words. They may be one word if they have the same size. -/
theorem two_join (word : List Literal → List Literal → Build (List Literal))
    {f : Word → Word → Word} {op : BitVec width → BitVec width' → BitVec size}
    (agree : right = left → width = width')
    (runs : ∀ {g : Graph} {xs ys : List Literal}, g.WellFormed → xs.length = width →
      ys.length = width' → (∀ x ∈ xs, g.Has x) → (∀ y ∈ ys, g.Has y) →
      (word xs ys).Runs g fun ls h =>
        h.ComputesWord ls (fun v => f (xs.map (·.under v)) (ys.map (·.under v))) ∧ g.SameNames h)
    (hop : ∀ x y, f (Word.ofBitVec x) (Word.ofBitVec y) = Word.ofBitVec (op x y)) :
    Joins (WordBuild.circuit (do
        let xs ← WordBuild.input left width
        let ys ← WordBuild.input right width'
        WordBuild.output output (← WordBuild.bits (word xs ys)))) left right output op := by
  have hf (x y : Word) (hx : x.length = width) (hy : y.length = width') :
      f x y = Word.ofBitVec (op (x.toBitVec width) (y.toBitVec width')) := by
    rw [← hop, Word.ofBitVec_toBitVec hx, Word.ofBitVec_toBitVec hy]
  refine WordBuild.circuit_gives (WordBuild.twoInputs_runs agree
    fun xs ys c exact hin none hxs hys carriesX carriesY => ?_)
  have run := runs exact.wf hxs hys (carriesX.has exact) (carriesY.has exact)
  refine (WordBuild.outputBits_runs exact none output run fun v env henv => ?_).imp
    fun _ d _ _ ⟨hin', hout', value⟩ => ⟨hin'.trans hin, hout', value⟩
  rw [hf _ _ (by simp [hxs]) (by simp [hys]), carriesX.eq_env henv, carriesY.eq_env henv]

theorem binary_joins {word : List Literal → List Literal → Build (List Literal)}
    {f : Word → Word → Word} {op : BitVec width → BitVec width → BitVec size}
    (runs : ∀ {g : Graph} {xs ys : List Literal}, g.WellFormed → xs.length = width →
      ys.length = width → (∀ x ∈ xs, g.Has x) → (∀ y ∈ ys, g.Has y) →
      (word xs ys).Runs g fun ls h =>
        h.ComputesWord ls (fun v => f (xs.map (·.under v)) (ys.map (·.under v))) ∧ g.SameNames h)
    (hop : ∀ x y, f (Word.ofBitVec x) (Word.ofBitVec y) = Word.ofBitVec (op x y)) :
    Joins (binary width left right output word) left right output op :=
  two_join word (fun _ => rfl) runs hop

end WordGate

end AndInverter
