import AndInverter.Proofs.Graph.Eval
import AndInverter.Proofs.Word.Bundle
import AndInverter.WordCircuit.Eval

/-! Circuits whose graph has no objects but the bits of their words. What solves the graph gives every
word a value, and one step reads the words of the solution. -/

namespace AndInverter

namespace WordCircuit

/-- The graph is well-formed, and its objects are the bits of the words. -/
structure Exact (c : WordCircuit) : Prop where
  wf : c.graph.WellFormed
  inputs : ∀ n, n ∈ c.graph.inputs ↔ c.inputs.HasBit n
  outputs : ∀ n, n ∈ c.graph.outputs ↔ c.outputs.HasBit n
  latches : ∀ n, n ∈ c.graph.latches ↔ c.latches.HasBit n

theorem exact_iff {c : WordCircuit} : c.Exact ↔ c.graph.WellFormed ∧
    ∀ kind n, n ∈ c.graph.names kind ↔ (c.words kind).HasBit n := by
  constructor
  · intro exact
    refine ⟨exact.wf, fun kind n => ?_⟩
    cases kind with
    | input => exact Std.ExtTreeMap.mem_keys.trans (exact.inputs n)
    | latch => exact Std.ExtTreeMap.mem_keys.trans (exact.latches n)
    | output => exact Std.ExtTreeMap.mem_keys.trans (exact.outputs n)
  · rintro ⟨wf, bits⟩
    exact ⟨wf, fun n => Std.ExtTreeMap.mem_keys.symm.trans (bits .input n),
      fun n => Std.ExtTreeMap.mem_keys.symm.trans (bits .output n),
      fun n => Std.ExtTreeMap.mem_keys.symm.trans (bits .latch n)⟩

/-- The word whose bits have the values given. -/
def readWord (value : String → Option Bool) (name : String) (size : Nat) : Word :=
  (List.range size).map fun i => (value (Word.bitName name i)).getD false

/-- The words of a solution. -/
def inputWord (c : WordCircuit) (v : Nat → Bool) (name : String) : Word :=
  readWord (c.graph.inputValue v) name ((c.inputs[name]?).getD 0)

def outputWord (c : WordCircuit) (v : Nat → Bool) (name : String) : Word :=
  readWord (c.graph.outputValue v) name ((c.outputs[name]?).getD 0)

theorem readWord_congr {value value' : String → Option Bool} {name name' : String} {size : Nat}
    (same : ∀ i < size, value (Word.bitName name i) = value' (Word.bitName name' i)) :
    readWord value name size = readWord value' name' size := by
  refine List.map_congr_left fun i hi => ?_
  rw [same i (List.mem_range.1 hi)]

theorem getElem?_readWord {value : String → Option Bool} {name : String} {size i : Nat}
    (hi : i < size) (some : (value (Word.bitName name i)).isSome) :
    (readWord value name size)[i]? = value (Word.bitName name i) := by
  obtain ⟨bit, hbit⟩ := Option.isSome_iff_exists.1 some
  simp [readWord, hi, hbit]

@[simp] theorem length_readWord (value : String → Option Bool) (name : String) (size : Nat) :
    (readWord value name size).length = size := by
  simp [readWord]

/-- A word is read off its bits. -/
theorem readWord_eq {value : String → Option Bool} {name : String} {word : Word} {size : Nat}
    (length : word.length = size)
    (same : ∀ i < size, value (Word.bitName name i) = word[i]?) :
    readWord value name size = word := by
  refine List.ext_getElem? fun i => ?_
  by_cases hi : i < size
  · have hbit := same i hi
    rw [getElem?_readWord hi (by simp [hbit, length, hi]), hbit]
  · rw [List.getElem?_eq_none (by rw [length_readWord]; omega), List.getElem?_eq_none (by omega)]

variable {c : WordCircuit}

theorem length_inputWord {v : Nat → Bool} {name : String} {size : Nat}
    (h : c.inputs[name]? = some size) : (c.inputWord v name).length = size := by
  simp [inputWord, h]

/-- Every input word can be given a value, and the step then gives the words of a solution. -/
theorem Exact.exists_eval (exact : c.Exact) {values : WordValuation}
    (covers : Bundle.Covers values c.inputs) :
    ∃ v step, c.eval values none = .ok step ∧ c.graph.Solution v ∧
      (∀ name ∈ c.inputs, values[name]? = some (c.inputWord v name)) ∧
      ∀ name ∈ c.outputs, step.outputs[name]? = some (c.outputWord v name) := by
  have ev := exact.wf.toEvaluable
  obtain ⟨bits, hblast, hbits⟩ := Bundle.exists_blast covers
  have bit {name : String} {size i : Nat} (h : c.inputs[name]? = some size) (hi : i < size) :
      ∃ word, values[name]? = some word ∧ word.length = size ∧
        bits[Word.bitName name i]? = word[i]? := by
    obtain ⟨word, hword, hlen⟩ := covers name size h
    exact ⟨word, hword, hlen, by rw [hbits name size h i hi, hword, Option.bind_some]⟩
  have given : ∀ n ∈ c.graph.inputs, n ∈ bits := by
    intro n hn
    obtain ⟨name, size, i, h, hi, rfl⟩ := (exact.inputs n).1 hn
    obtain ⟨word, -, hlen, heq⟩ := bit h hi
    exact mem_iff_exists_getElem?.2 ⟨word[i], heq.trans (List.getElem?_eq_getElem (by omega))⟩
  obtain ⟨step, hstep⟩ : ∃ step, c.graph.eval bits none = .ok step :=
    ev.exists_eval_ok_iff.2 given
  obtain ⟨v, isStep⟩ := ev.eval_eq_ok_iff.1 hstep
  refine ⟨v, ⟨c.outputs.unblast step.outputs, c.latches.unblast step.latches⟩, ?_,
    isStep.solution, fun name hname => ?_, fun name hname => ?_⟩
  · simp [eval, hblast, hstep]
  · obtain ⟨size, h⟩ := mem_iff_exists_getElem?.1 hname
    obtain ⟨word, hword, rfl⟩ := covers name size h
    rw [hword, inputWord, h, Option.getD_some]
    refine congrArg some (readWord_eq rfl fun i hi => ?_).symm
    obtain ⟨word', hword', -, heq⟩ := bit h hi
    obtain rfl := Option.some.inj (hword.symm.trans hword')
    rw [← heq]
    exact isStep.inputs _ ((exact.inputs _).2 ⟨name, _, i, h, hi, rfl⟩)
  · obtain ⟨size, h⟩ := mem_iff_exists_getElem?.1 hname
    have all (i : Nat) (hi : i < size) : Word.bitName name i ∈ step.outputs := by
      have hmem := (exact.outputs (Word.bitName name i)).2 ⟨name, size, i, h, hi, rfl⟩
      obtain ⟨l, hl⟩ := mem_iff_exists_getElem?.1 hmem
      refine mem_iff_exists_getElem?.2 ⟨l.under v, ?_⟩
      rw [isStep.outputs, Graph.outputValue, hl, Option.map_some]
    rw [Bundle.getElem?_unblast h all, outputWord, h, Option.getD_some, readWord]
    simp only [isStep.outputs]

/-- The circuit has no latches and these input and output words, and its output words are those that
`F` gives for the input words. -/
structure Gives (c : WordCircuit) (inputs outputs : Bundle)
    (F : (String → Word) → String → Word) : Prop where
  exact : c.Exact
  inputs : c.inputs = inputs
  outputs : c.outputs = outputs
  latches : c.latches = ∅
  value : ∀ v, c.graph.Solution v → ∀ env : String → Word,
    (∀ n ∈ c.inputs, env n = c.inputWord v n) → ∀ n ∈ c.outputs, c.outputWord v n = F env n

variable {inputs outputs : Bundle} {F G : (String → Word) → String → Word}

/-- Only words of the right size matter. -/
theorem Gives.congr (gives : c.Gives inputs outputs F)
    (same : ∀ env, inputs.Fits env → ∀ n ∈ outputs, F env n = G env n) :
    c.Gives inputs outputs G := by
  refine ⟨gives.exact, gives.inputs, gives.outputs, gives.latches, fun v hv env henv n hn => ?_⟩
  have fits : inputs.Fits env := by
    intro m size h
    rw [← gives.inputs] at h
    rw [henv m (mem_iff_exists_getElem?.2 ⟨size, h⟩), length_inputWord h]
  exact (gives.value v hv env henv n hn).trans (same env fits n (gives.outputs ▸ hn))

/-- The bits of an input word. -/
theorem Exact.inputValue_eq (exact : c.Exact) (v : Nat → Bool) {name : String} {size i : Nat}
    (h : c.inputs[name]? = some size) (hi : i < size) :
    c.graph.inputValue v (Word.bitName name i) = (c.inputWord v name)[i]? := by
  obtain ⟨node, hnode⟩ :=
    mem_iff_exists_getElem?.1 ((exact.inputs _).2 ⟨name, size, i, h, hi, rfl⟩)
  rw [inputWord, h, Option.getD_some, getElem?_readWord hi (by simp [Graph.inputValue, hnode])]

/-- Without latches the input words say what the output words are. -/
theorem Exact.outputWord_congr (exact : c.Exact) (closed : c.latches = ∅) {v w : Nat → Bool}
    (hv : c.graph.Solution v) (hw : c.graph.Solution w)
    (same : ∀ n ∈ c.inputs, c.inputWord v n = c.inputWord w n) (name : String) :
    c.outputWord v name = c.outputWord w name := by
  have ev := exact.wf.toEvaluable
  have inputs (n : String) : c.graph.inputValue v n = c.graph.inputValue w n := by
    by_cases hn : n ∈ c.graph.inputs
    · obtain ⟨name, size, i, h, hi, rfl⟩ := (exact.inputs n).1 hn
      rw [exact.inputValue_eq v h hi, exact.inputValue_eq w h hi,
        same name (mem_iff_exists_getElem?.2 ⟨size, h⟩)]
    · rw [Graph.inputValue, Graph.inputValue, not_mem_iff_getElem?.1 hn]
      rfl
  have latches (n : String) : c.graph.latchValue v n = c.graph.latchValue w n := by
    have hn : n ∉ c.graph.latches := by
      rw [exact.latches, closed]
      rintro ⟨name, size, i, h, -⟩
      simp at h
    rw [Graph.latchValue, Graph.latchValue, not_mem_iff_getElem?.1 hn]
    rfl
  exact readWord_congr fun i _ => ev.outputValue_congr (ev.solution_unique hv hw inputs latches) _

/-- Every circuit without latches gives functions of its input words. -/
theorem Exact.exists_gives (exact : c.Exact) (closed : c.latches = ∅) :
    ∃ F, c.Gives c.inputs c.outputs F := by
  classical
  -- The words are read off a solution over the given input words; all of them say the same.
  let F (env : String → Word) (name : String) : Word :=
    if h : ∃ v, c.graph.Solution v ∧ ∀ n ∈ c.inputs, env n = c.inputWord v n then
      c.outputWord h.choose name
    else []
  refine ⟨F, exact, rfl, rfl, closed, fun v hv env henv name _ => ?_⟩
  have h : ∃ v, c.graph.Solution v ∧ ∀ n ∈ c.inputs, env n = c.inputWord v n := ⟨v, hv, henv⟩
  obtain ⟨hw, henv'⟩ := h.choose_spec
  simp only [F, dif_pos h]
  exact exact.outputWord_congr closed hv hw
    (fun n hn => (henv n hn).symm.trans (henv' n hn)) name

/-- What one circuit gives is one function. -/
theorem Gives.agree (gives : c.Gives inputs outputs F) (gives' : c.Gives inputs outputs G)
    {env : String → Word} (fits : inputs.Fits env) : ∀ n ∈ outputs, F env n = G env n := by
  have covers : Bundle.Covers (c.inputs.map fun n _ => env n) c.inputs := by
    intro n size h
    rw [Std.ExtTreeMap.getElem?_map, h]
    exact ⟨env n, rfl, fits n size (gives.inputs ▸ h)⟩
  obtain ⟨v, -, -, hv, hin, -⟩ := gives.exact.exists_eval covers
  have henv (n : String) (hn : n ∈ c.inputs) : env n = c.inputWord v n := by
    obtain ⟨size, h⟩ := mem_iff_exists_getElem?.1 hn
    have word := hin n hn
    rw [Std.ExtTreeMap.getElem?_map, h] at word
    exact Option.some.inj word
  intro n hn
  rw [← gives.outputs] at hn
  rw [← gives.value v hv env henv n hn, gives'.value v hv env henv n hn]

end WordCircuit

end AndInverter
