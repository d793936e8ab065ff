import AndInverter.Proofs.WordGate.Basic

/-! Gates as relations of words. A gate that gives its output words as a function of its input words can
be evaluated wherever the input words have values. -/

namespace AndInverter

/-- The values of all words of a bundle, each of its size. -/
def Bundle.Holds (b : Bundle) (values : WordValuation) (word : String → Word) : Prop :=
  ∀ (name : String) size, b[name]? = some size →
    values[name]? = some (word name) ∧ (word name).length = size

namespace WordGate

variable {gate : Except Fault WordCircuit} {inputs outputs : Bundle}
  {post : (String → Word) → (String → Word) → Prop}

/-- The gate can be made, and it has these words and no others. Whatever the values of its input words
are, a step gives values to its output words that are related to them as `post` says. -/
def Evaluates (gate : Except Fault WordCircuit) (inputs outputs : Bundle)
    (post : (String → Word) → (String → Word) → Prop) : Prop :=
  ∃ c, gate = .ok c ∧ c.inputs = inputs ∧ c.outputs = outputs ∧ c.latches = ∅ ∧
    ∀ values x, inputs.Holds values x →
      ∃ step z, c.eval values none = .ok step ∧ outputs.Holds step.outputs z ∧ post x z

theorem evaluates_of_gives {F : (String → Word) → String → Word}
    (gives : ∃ c, gate = .ok c ∧ c.Gives inputs outputs F)
    (h : ∀ x, inputs.Fits x → post x (F x)) : Evaluates gate inputs outputs post := by
  obtain ⟨c, hgate, gives⟩ := gives
  refine ⟨c, hgate, gives.inputs, gives.outputs, gives.latches, fun values x holds => ?_⟩
  rw [← gives.inputs] at holds
  obtain ⟨v, step, hstep, hv, hin, hout⟩ :=
    gives.exact.exists_eval fun n size hn => ⟨x n, holds n size hn⟩
  have env (n : String) (hn : n ∈ c.inputs) : x n = c.inputWord v n := by
    obtain ⟨size, h⟩ := mem_iff_exists_getElem?.1 hn
    exact Option.some.inj ((holds n size h).1.symm.trans (hin n hn))
  refine ⟨step, F x, hstep, fun n size hn => ?_, h x fun n size hn => ?_⟩
  · rw [← gives.outputs] at hn
    have hmem := mem_iff_exists_getElem?.2 ⟨size, hn⟩
    rw [← gives.value v hv x env n hmem]
    exact ⟨hout n hmem, by simp [WordCircuit.outputWord, hn]⟩
  · exact (holds n size (gives.inputs ▸ hn)).2

variable {width size : Nat} {input left right output : String}

/-- Two words, or one word in place of both if they have one size. -/
theorem lengths_of_fits {width' : Nat} {x : String → Word} (agree : right = left → width = width')
    (fits : Bundle.Fits (((∅ : Bundle).insert left width).insert right width') x) :
    (x left).length = width ∧ (x right).length = width' := by
  constructor
  · apply fits
    rw [NameMap.getElem?_insert, NameMap.getElem?_singleton, if_pos rfl]
    split
    next heq => rw [agree heq.symm]
    next => rfl
  · apply fits
    rw [NameMap.getElem?_insert, if_pos rfl]

/-- Two words of one size, or one word in place of both. -/
theorem length_of_fits {x : String → Word}
    (fits : Bundle.Fits (((∅ : Bundle).insert left width).insert right width) x) :
    (x left).length = width ∧ (x right).length = width :=
  lengths_of_fits (fun _ => rfl) fits

/-- A gate for an operation on numbers of fixed size. -/
theorem Maps.evaluates {op : BitVec width → BitVec size} (maps : Maps gate input output op)
    (h : ∀ x z : String → Word, (x input).length = width →
      z output = Word.ofBitVec (op ((x input).toBitVec width)) → post x z) :
    Evaluates gate ((∅ : Bundle).insert input width) ((∅ : Bundle).insert output size) post :=
  evaluates_of_gives maps fun x fits => h x _ (fits input width (by simp)) rfl

theorem Joins.evaluates {op : BitVec width → BitVec width → BitVec size}
    (joins : Joins gate left right output op)
    (h : ∀ x z : String → Word, (x left).length = width → (x right).length = width →
      z output = Word.ofBitVec (op ((x left).toBitVec width) ((x right).toBitVec width)) →
      post x z) :
    Evaluates gate (((∅ : Bundle).insert left width).insert right width)
      ((∅ : Bundle).insert output size) post :=
  evaluates_of_gives joins fun x fits => h x _ (length_of_fits fits).1 (length_of_fits fits).2 rfl

end WordGate

end AndInverter
