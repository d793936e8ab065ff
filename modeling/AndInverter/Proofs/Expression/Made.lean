import AndInverter.Proofs.WordCircuit.Whole

/-! Expressions made by any operations, from circuits as well as from atoms. Operators return just
where their operands fit. A name is drawn for an output that clashes, and it is not compared with the
names that are there, so no output may have a name that is drawn later. -/

namespace AndInverter

open Draw (Old freshName)

namespace Bundle

theorem exists_eq_singleton {b : Bundle} (single : b.size = 1) :
    ∃ name size, b = (∅ : Bundle).insert name size := by
  rw [← Std.ExtTreeMap.length_keys, List.length_eq_one_iff] at single
  obtain ⟨name, keys⟩ := single
  have only (m : String) : m ∈ b ↔ m = name := by
    rw [← Std.ExtTreeMap.mem_keys, keys, List.mem_singleton]
  obtain ⟨size, hsize⟩ := mem_iff_exists_getElem?.1 ((only name).2 rfl)
  refine ⟨name, size, Std.ExtTreeMap.ext_getElem? fun m => ?_⟩
  rw [NameMap.getElem?_singleton]
  split
  next heq => rw [heq, hsize]
  next ne => exact not_mem_iff_getElem?.1 fun hm => ne ((only m).1 hm)

end Bundle

namespace Expression

variable {e f g : Expression} {c : WordCircuit} {n : Nat}

/-- The circuit gives one word, whose name is not drawn from the count `n` on. -/
def Usable (n : Nat) (e : Expression) : Prop :=
  ∃ size words, ∃ F : (String → Word) → BitVec size, e.circuit.Realizes n words F

theorem Usable.mono {k : Nat} : Usable n e → n ≤ k → Usable k e :=
  fun ⟨size, words, F, r⟩ le => ⟨size, words, F, r.mono le⟩

theorem ofCircuit_eq_ok_iff {signed : Bool} : ofCircuit c signed = .ok e ↔
    e = ⟨c, signed⟩ ∧ c.outputs.size = 1 ∧ c.latches = ∅ := by
  rw [ofCircuit]
  split
  next several => simp [several]
  next single =>
    cases closed : c.latches.isEmpty
    · simp [← Std.ExtTreeMap.isEmpty_iff, closed]
    · simp [← Std.ExtTreeMap.isEmpty_iff, closed, not_not.1 single, eq_comm]

/-- A circuit that has just the bits of its words is usable as an expression. -/
theorem usable_of_exact (exact : e.circuit.Exact) (single : e.circuit.outputs.size = 1)
    (closed : e.circuit.latches = ∅) (old : Old n e.output) : Usable n e := by
  obtain ⟨F, gives⟩ := exact.exists_gives closed
  obtain ⟨name, size, outputs⟩ := Bundle.exists_eq_singleton single
  rw [output_eq outputs] at old
  refine ⟨size, e.circuit.inputs.toList, fun env => (F env name).toBitVec size,
    ⟨name, old, exact, rfl, outputs, closed, fun v hv env henv m hm => ?_⟩,
    fun _ _ => Std.ExtTreeMap.mem_toList_iff_getElem?_eq_some.symm⟩
  have word := gives.value v hv env henv m hm
  rw [outputs] at hm
  obtain rfl := NameMap.mem_singleton_iff.1 hm
  rw [← word, Word.ofBitVec_toBitVec]
  simp [WordCircuit.outputWord, outputs]

/-- The expressions that any operations lead to by the count `n`. The circuits that they begin with must
be whole, and an output word must not be given a name that is drawn later. -/
inductive Made : Nat → Expression → Prop where
  | atom {n k width : Nat} {value : Atom} {signed : Bool} {e : Expression}
      (run : (atom width value signed).result n = (.ok e, k)) : Made k e
  | ofCircuit {n : Nat} {c : WordCircuit} {signed : Bool} {e : Expression} (whole : c.Whole)
      (run : ofCircuit c signed = .ok e) (old : Old n e.output) : Made n e
  | withOutput {n : Nat} {e : Expression} (made : Made n e) {name : String} (old : Old n name) :
      Made n (e.withOutput name)
  | unary {n k : Nat} {e e' : Expression} (made : Made n e) {op : UnaryOp}
      (run : (op.apply e).result n = (.ok e', k)) : Made k e'
  | binary {n k : Nat} {e f e' : Expression} (left : Made n e) (right : Made n f) {op : BinaryOp}
      (run : (op.apply e (.expression f)).result n = (.ok e', k)) : Made k e'
  | binaryInt {n k : Nat} {e e' : Expression} (made : Made n e) {op : BinaryOp} {value : Int64}
      (run : (op.apply e (.int value)).result n = (.ok e', k)) : Made k e'
  | concat {n k : Nat} {e f e' : Expression} (left : Made n e) (right : Made n f)
      (run : (e.concat f).result n = (.ok e', k)) : Made k e'
  | ite {n k : Nat} {e f g e' : Expression} (test : Made n e) (left : Made n f) (right : Made n g)
      (run : (Expression.ite e f g).result n = (.ok e', k)) : Made k e'
  | later {n k : Nat} {e : Expression} (made : Made n e) (le : n ≤ k) : Made k e

theorem usable_of_builds {d : Draw Expression} {fits : Prop} {words : List (String × Nat)}
    {size k : Nat} {F : (String → Word) → BitVec size} {signed : Bool}
    (builds : d.Builds n fits words F signed) (run : d.result n = (.ok e, k)) : Usable k e :=
  ⟨size, words, F, (builds.elim run).2.1⟩

theorem Made.usable (made : Made n e) : Usable n e := by
  induction made with
  | @atom _ _ width value signed _ run =>
    cases value with
    | name input => exact usable_of_builds (atom_name_builds input width signed) run
    | int value => exact usable_of_builds (atom_int_builds width value signed) run
    | fresh => exact usable_of_builds (atom_fresh_builds width signed) run
  | ofCircuit whole run old =>
    obtain ⟨rfl, single, closed⟩ := ofCircuit_eq_ok_iff.1 run
    exact usable_of_exact whole.exact single closed old
  | withOutput _ old ih =>
    obtain ⟨size, words, F, r⟩ := ih
    exact ⟨size, words, F, (withOutput_realizes r old).1⟩
  | @unary _ _ _ _ _ op run ih =>
    obtain ⟨size, words, F, r⟩ := ih
    exact usable_of_builds (op.apply_builds r) run
  | @binary _ _ _ _ _ _ _ op run ihl ihr =>
    obtain ⟨size, words, F, r⟩ := ihl
    obtain ⟨size', words', F', r'⟩ := ihr
    exact usable_of_builds (op.apply_builds r (operand_expression_runs r')) run
  | @binaryInt _ _ _ _ _ op value run ih =>
    obtain ⟨size, words, F, r⟩ := ih
    exact usable_of_builds (op.apply_builds r (operand_int_runs r value)) run
  | concat _ _ run ihl ihr =>
    obtain ⟨size, words, F, r⟩ := ihl
    obtain ⟨size', words', F', r'⟩ := ihr
    exact usable_of_builds (concat_builds r r') run
  | ite _ _ _ run ihs iht ihu =>
    obtain ⟨size, words, F, r⟩ := ihs
    obtain ⟨size', words', F', r'⟩ := iht
    obtain ⟨size'', words'', F'', r''⟩ := ihu
    exact usable_of_builds (ite_builds r r' r'') run
  | later _ le ih => exact ih.mono le

/-- Operators return just where their operands fit. An operator on one word asks for bits that the word
has, and for at least one copy; an operator on two words asks for one size and for shared input words
of one size, and is satisfied with every integer. Where operands do not fit they are turned down; no
operator fails in another way, and what it returns can be used like what it was given. -/
theorem Made.returns_iff_fit (he : Made n e) (hf : Made n f) (hg : Made n g) :
    (∀ op : UnaryOp, (op.apply e).Runs n (op.Fits e.size) fun e' k => Made k e') ∧
    (∀ op : BinaryOp, (op.apply e (.expression f)).Runs n
      (e.size = f.size ∧ e.circuit.inputs.Agree f.circuit.inputs) fun e' k => Made k e') ∧
    (∀ (op : BinaryOp) value,
      (op.apply e (.int value)).Runs n True fun e' k => Made k e') ∧
    ((e.concat f).Runs n (e.circuit.inputs.Agree f.circuit.inputs) fun e' k => Made k e') ∧
    (Expression.ite e f g).Runs n (e.size = 1 ∧ f.size = g.size ∧
      e.circuit.inputs.Agree f.circuit.inputs ∧ e.circuit.inputs.Agree g.circuit.inputs ∧
      f.circuit.inputs.Agree g.circuit.inputs) fun e' k => Made k e' := by
  obtain ⟨size, words, F, r⟩ := he.usable
  obtain ⟨size', words', F', r'⟩ := hf.usable
  obtain ⟨size'', words'', F'', r''⟩ := hg.usable
  rw [size_eq r, size_eq r', size_eq r'', ← compatible_iff r.inputs r'.inputs,
    ← compatible_iff r.inputs r''.inputs, ← compatible_iff r'.inputs r''.inputs,
    ← compatible_append_iff]
  refine ⟨fun op => ?_, fun op => ?_, fun op value => ?_, ?_, ?_⟩
  · exact (op.apply_builds r).result.imp fun _ _ _ run => he.unary run
  · exact (op.apply_builds r (operand_expression_runs r')).result.imp
      fun _ _ _ run => he.binary hf run
  · refine ((op.apply_builds r (operand_int_runs r value)).result.imp
      fun _ _ _ run => he.binaryInt run).of_iff ?_
    exact iff_true_intro ⟨rfl, compatible_nil words⟩
  · exact (concat_builds r r').result.imp fun _ _ _ run => he.concat hf run
  · exact (ite_builds r r' r'').result.imp fun _ _ _ run => he.ite hf hg run

/-- Every input word is an expression. -/
theorem exists_atom (input : String) (width : Nat) (signed : Bool) (n : Nat) :
    ∃ e k, (atom width (.name input) signed).result n = (.ok e, k) ∧ n ≤ k ∧
      e.circuit.Realizes k [(input, width)] fun env => (env input).toBitVec width := by
  have builds := atom_name_builds (n := n) input width signed
  obtain ⟨e, k, run⟩ := builds.exists_iff.2 trivial
  obtain ⟨le, r, -⟩ := builds.elim run
  exact ⟨e, k, run, le, r⟩

/-- Two inputs of two bits, of which one has a name that is drawn. Their outputs clash, and the sum is
built; there is no choice between them, since the first one is no test. -/
theorem Made.returns_iff_fit_sum : ∃ n e f, Made n e ∧ Made n f ∧ e.output = f.output ∧
    (∃ e' k, (BinaryOp.add.apply e (.expression f)).result n = (.ok e', k)) ∧
    ¬ ∃ e' k, (Expression.ite e f f).result n = (.ok e', k) := by
  have old (n : Nat) : Old n "o" := fun k _ h => by
    simpa [freshName] using congrArg (·.toList.head?) h
  obtain ⟨e, n, he, -, re⟩ := exists_atom "__fresh_1" 2 false 0
  obtain ⟨f, k, hf, le, rf⟩ := exists_atom "y" 2 false n
  obtain ⟨re, oute⟩ := withOutput_realizes (re.mono le) (old k)
  obtain ⟨rf, outf⟩ := withOutput_realizes rf (old k)
  have made : Made k (e.withOutput "o") := .withOutput (.later (.atom he) le) (old k)
  have made' : Made k (f.withOutput "o") := .withOutput (.atom hf) (old k)
  obtain ⟨-, binary, -, -, choice⟩ := made.returns_iff_fit made' made'
  refine ⟨k, _, _, made, made', oute.trans outf.symm, ?_, ?_⟩
  · refine ((binary .add).exists_iff).2 ⟨(size_eq re).trans (size_eq rf).symm, ?_⟩
    rw [← compatible_iff re.inputs rf.inputs]
    simp +contextual [Compatible]
  · rw [choice.exists_iff, size_eq re]
    simp

/-- Names can be taken where operands fit. An output that clashes gets a drawn name even where that is
the name of the other output. A latch that belongs to no word is not looked for, and it is in its own
way where a circuit stands beside its copy. -/
theorem operators_fail_on_taken_names :
    (∃ e, ((withOutput · "__fresh_2") <$> atom 1 (.name "x") false).result 0 = (.ok e, 1) ∧
      ∃ f, ((withOutput · "__fresh_2") <$> atom 1 (.name "y") false).result 1 = (.ok f, 2) ∧
      e.size = f.size ∧ e.circuit.inputs.Agree f.circuit.inputs ∧
      ((e.add (.expression f)).result 2).1 = .error (.violated .duplicateOutput)) ∧
    ∃ g, g.Reachable ∧ ∃ c, WordCircuit.ofGraph g ∅ (NameMap.ofPairs [("y", 1)]) ∅ = .ok c ∧
      ∃ e, ofCircuit c false = .ok e ∧ e.size = (e.withOutput "z").size ∧
      e.circuit.inputs.Agree (e.withOutput "z").circuit.inputs ∧
      ((e.add (.expression (e.withOutput "z"))).result 0).1 =
        .error (.violated (.duplicateLatch "l")) := by
  simp only [← Bundle.agreesWith_iff]
  constructor
  · decide +kernel
  · obtain ⟨g, hg, run⟩ : ∃ g, Build.graph ([.latch "l" false, .output "y[0]" (.positive 1)].forM
        Growth.build) = .ok g ∧ ∃ c, WordCircuit.ofGraph g ∅ (NameMap.ofPairs [("y", 1)]) ∅ = .ok c ∧
        ∃ e, ofCircuit c false = .ok e ∧ e.size = (e.withOutput "z").size ∧
        e.circuit.inputs.agreesWith (e.withOutput "z").circuit.inputs = true ∧
        ((e.add (.expression (e.withOutput "z"))).result 0).1 =
          .error (.violated (.duplicateLatch "l")) := by
      decide +kernel
    exact ⟨g, Graph.reachable_of_growths hg, run⟩

end Expression

end AndInverter
