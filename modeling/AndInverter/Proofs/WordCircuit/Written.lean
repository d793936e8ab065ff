import AndInverter.Proofs.Aiger.Faithful
import AndInverter.Proofs.WordCircuit.Rebundle
import AndInverter.Proofs.WordCircuit.Simulate
import AndInverter.Proofs.WordGate.Wiring

/-! Circuits over words in files. A file has the names of bits and says nothing of words, and what is
read has its nodes in another order; still the words are found again, since a bit is read as the one
that its name was printed for. -/

namespace AndInverter

namespace Aiger

variable {g : Graph}

/-- A text is read just if its numbers have 32 bits. -/
theorem exists_readText_iff (wf : g.WellFormed)
    (named : ∀ kind, ∀ name ∈ g.names kind, Nameable name) :
    (∃ b, readText (writeText g) = .ok b) ↔
      g.nodes.size ≤ 2 ^ 31 ∧ g.outputs.size < UInt32.size := by
  constructor
  · rintro ⟨b, h⟩
    refine ⟨?_, outputs_lt_of_readText named h⟩
    rw [readText, lines_writeText fun kind name hname => (named kind name hname).line] at h
    obtain ⟨f, listed, -⟩ := exists_file h
    exact size_le_of_isListed wf.toEvaluable listed
  · rintro ⟨nodes, outputs⟩
    obtain ⟨b, h, -⟩ := exists_readText wf nodes outputs named
    exact ⟨b, h⟩

/-- A bracket at its end makes the name of a bit a line. -/
theorem nameable_bitName {root : String} (feed : '\n' ∉ root.toList) (i : Nat) :
    Nameable (Word.bitName root i) := by
  have chars : (Word.bitName root i).toList = (root.toList ++ '[' :: i.repr.toList) ++ [']'] := by
    simp [Word.bitName, toString]
  refine ⟨fun h => ?_, fun h => ?_, ?_⟩
  · simp [h] at chars
  · rw [chars] at h
    simp only [List.mem_append, List.mem_cons, List.not_mem_nil, or_false] at h
    rcases h with (h | h | h) | h
    · exact feed h
    · exact absurd h (by decide)
    · exact absurd (isDigit_of_mem_repr h) (by decide)
    · exact absurd h (by decide)
  · rw [chars, List.getLast?_concat]
    decide

end Aiger

namespace WordCircuit

variable {c : WordCircuit}

/-! ### The words that are found -/

theorem Exact.nameable (exact : c.Exact)
    (feed : ∀ kind, ∀ name ∈ c.words kind, '\n' ∉ name.toList) :
    ∀ kind, ∀ n ∈ c.graph.names kind, Aiger.Nameable n := by
  intro kind n hn
  obtain ⟨name, i, rfl⟩ := (((exact_iff.1 exact).2 kind n).1 hn).exists_eq
  exact Aiger.nameable_bitName (feed kind name (((exact_iff.1 exact).2 kind _).1 hn).mem) i

/-- A word has no more bits than there are objects. -/
theorem Exact.size_le (exact : c.Exact) {kind : Kind} {name : String} {size : Nat}
    (h : (c.words kind)[name]? = some size) : size ≤ (c.graph.names kind).length := by
  have distinct : (Word.bitNames name size).Nodup :=
    List.nodup_range.map fun i j heq => (Word.bitName_inj.1 heq).2
  have objects : Word.bitNames name size ⊆ c.graph.names kind := by
    intro n hn
    obtain ⟨i, hi, rfl⟩ := List.mem_map.1 hn
    exact ((exact_iff.1 exact).2 kind _).2 ⟨name, size, i, h, List.mem_range.1 hi, rfl⟩
  have le := (distinct.subperm objects).length_le
  rwa [Word.bitNames, List.length_map, List.length_range] at le

theorem length_names_le {g : Graph} (ev : g.Evaluable) (nodes : g.nodes.size ≤ 2 ^ 31)
    (outputs : g.outputs.size < UInt32.size) (kind : Kind) :
    (g.names kind).length ≤ UInt64.size := by
  have sizes := Aiger.sizes_eq ev
  have size32 : UInt32.size = 2 ^ 32 := rfl
  have size64 : UInt64.size = 2 ^ 64 := rfl
  rw [Graph.maxId] at sizes
  cases kind <;> rw [Graph.names, Std.ExtTreeMap.length_keys] <;> omega

/-- The objects of the graph spell the words of the circuit and no others. -/
theorem Exact.areBits (exact : c.Exact)
    (pos : ∀ kind (name : String) size, (c.words kind)[name]? = some size → 1 ≤ size)
    (nodes : c.graph.nodes.size ≤ 2 ^ 31) (outputs : c.graph.outputs.size < UInt32.size)
    (kind : Kind) : AreBits (c.graph.names kind) (c.words kind).IsWord where
  functional _ _ _ hi hj := Option.some.inj (hi.symm.trans hj)
  sizes root size h := ⟨pos kind root size h,
    (exact.size_le h).trans (length_names_le exact.wf.toEvaluable nodes outputs kind)⟩
  mem := (exact_iff.1 exact).2 kind

/-! ### Another graph under the same words -/

/-- Steps that are the same make runs that are. -/
theorem runFrom_congr {d : WordCircuit}
    (same : ∀ inputs state, d.eval inputs (some state) = c.eval inputs (some state))
    (inputs : List WordValuation) (state : WordValuation) :
    d.runFrom state inputs = c.runFrom state inputs := by
  induction inputs generalizing state with
  | nil => rfl
  | cons values later ih =>
    rw [runFrom, runFrom, same]
    simp only [ih]

section WithGraph
variable (exact : c.Exact) {b : Graph}
  (steps : ∀ {inputs state step}, c.graph.eval inputs state = .ok step →
    b.eval inputs state = .ok step)
include exact steps

/-- Words that can be split are enough for a step, so a graph that takes the same steps does as
well. -/
theorem Exact.eval_withGraph (inputs : WordValuation) (state : Option WordValuation) :
    WordCircuit.eval { c with graph := b } inputs state = c.eval inputs state := by
  rw [eval, eval]
  cases hblast : c.inputs.blast inputs with
  | error fault => rfl
  | ok values =>
    cases hstate : state.mapM fun state => c.latches.blastPartial state with
    | error fault => rfl
    | ok bits =>
      obtain ⟨step, hstep⟩ : ∃ step, c.graph.eval values bits = .ok step :=
        exact.wf.toEvaluable.exists_eval_ok_iff.2 (exact.mem_of_blast hblast)
      simp only [except_ok_bind, hstep, steps hstep]

theorem Exact.simulate_withGraph (initial : b.initialState = c.graph.initialState)
    (inputs : List WordValuation) (start : Option WordValuation) :
    WordCircuit.simulate { c with graph := b } inputs start = c.simulate inputs start := by
  have initial : WordCircuit.initialState { c with graph := b } = c.initialState :=
    congrArg c.latches.unblast initial
  rw [simulate, simulate, initial]
  exact runFrom_congr (fun inputs state => exact.eval_withGraph steps inputs (some state)) _ _

end WithGraph

/-! ### Files -/

/-- Writes the graph and finds the words of what is read. -/
def reread (c : WordCircuit) : Except Fault WordCircuit := do
  rebundle (← Aiger.readText (Aiger.writeText c.graph))

theorem words_withGraph (c : WordCircuit) (b : Graph) (kind : Kind) :
    WordCircuit.words { c with graph := b } kind = c.words kind := by
  cases kind <;> rfl

/-- What is read has the words that its graph was written with. -/
theorem Exact.rebundle_eq (exact : c.Exact)
    (pos : ∀ kind (name : String) size, (c.words kind)[name]? = some size → 1 ≤ size)
    (feed : ∀ kind, ∀ name ∈ c.words kind, '\n' ∉ name.toList) {b : Graph}
    (h : Aiger.readText (Aiger.writeText c.graph) = .ok b) :
    b.WellFormed ∧ (∃ defs, (Aiger.File.ofGraph c.graph).IsGraph defs b) ∧
      rebundle b = .ok { c with graph := b } := by
  have named := exact.nameable feed
  obtain ⟨-, wf', isGraph⟩ :=
    Aiger.isGraph_of_isLine exact.wf (fun kind name hn => (named kind name hn).line) h
  obtain ⟨nodes, outputs⟩ := (Aiger.exists_readText_iff exact.wf named).1 ⟨b, h⟩
  refine ⟨wf', isGraph, rebundle_eq_ok_iff.2 ⟨rfl, fun kind => ?_⟩⟩
  obtain ⟨defs, isGraph⟩ := isGraph
  rw [Aiger.names_eq exact.wf isGraph, words_withGraph]
  exact (exact.areBits pos nodes outputs kind).spelled

/-- A circuit is written and read again without its words, which are found by the names of the bits. The
text is read just if its numbers have 32 bits, and then the circuit has the same words in all three
kinds, starts in the same state and, whatever it is given, runs the same way or fails with the same
fault. Words may have any sizes but zero and any names without a line feed. -/
theorem Exact.reread_runs {c : WordCircuit} (exact : c.Exact)
    (pos : ∀ kind (name : String) size, (c.words kind)[name]? = some size → 1 ≤ size)
    (feed : ∀ kind, ∀ name ∈ c.words kind, '\n' ∉ name.toList) :
    ((∃ d, c.reread = .ok d) ↔
      c.graph.nodes.size ≤ 2 ^ 31 ∧ c.graph.outputs.size < UInt32.size) ∧
    ∀ d, c.reread = .ok d →
      d.Exact ∧ (d.inputs = c.inputs ∧ d.outputs = c.outputs ∧ d.latches = c.latches) ∧
      d.initialState = c.initialState ∧
      ∀ inputs start, d.simulate inputs start = c.simulate inputs start := by
  refine ⟨?_, fun d hd => ?_⟩
  · rw [← Aiger.exists_readText_iff exact.wf (exact.nameable feed)]
    constructor
    · rintro ⟨d, hd⟩
      obtain ⟨b, hb, -⟩ := except_bind_eq_ok_iff.1 hd
      exact ⟨b, hb⟩
    · rintro ⟨b, hb⟩
      obtain ⟨-, -, run⟩ := exact.rebundle_eq pos feed hb
      exact ⟨_, except_bind_eq_ok_iff.2 ⟨b, hb, run⟩⟩
  · obtain ⟨b, hb, hrun⟩ := except_bind_eq_ok_iff.1 hd
    obtain ⟨wf', ⟨defs, isGraph⟩, run⟩ := exact.rebundle_eq pos feed hb
    obtain rfl := Except.ok.inj (run.symm.trans hrun)
    have initial := Aiger.initialState_eq exact.wf wf' isGraph
    refine ⟨exact_iff.2 ⟨wf', fun kind n => ?_⟩, ⟨rfl, rfl, rfl⟩,
      congrArg c.latches.unblast initial,
      exact.simulate_withGraph (Aiger.eval_of_eval exact.wf wf' isGraph) initial⟩
    rw [words_withGraph, Aiger.names_eq exact.wf isGraph]
    exact (exact_iff.1 exact).2 kind n

/-- The bits of a word of eleven bits, of a word that is named like one of them, of a latch without a
name and of an output with a carriage return in its name. -/
def elevenBits : List Growth :=
  (Word.bitNames "x" 11).map .input ++
    [.input "x[0][0]", .latch "[0]" true, .setNext "[0]" (.positive 1),
      .and (.positive 2) (.positive 12), .output "y\r[0]" (.positive 14)]

/-- By name the bit `x[10]` comes before `x[2]`. -/
theorem Exact.reread_runs_eleven : ∃ g c d,
    Build.graph (elevenBits.forM Growth.build) = .ok g ∧
    ofGraph g (NameMap.ofPairs [("x", 11), ("x[0]", 1)]) (NameMap.ofPairs [("y\r", 1)])
      (NameMap.ofPairs [("", 1)]) = .ok c ∧
    (g.names .input)[2]? = some "x[10]" ∧ c.reread = .ok d ∧ d.inputs = c.inputs ∧
    ∀ inputs start, d.simulate inputs start = c.simulate inputs start := by
  obtain ⟨g, hg, hname, c, hc, nodes, outputs, objects, pos, feed⟩ : ∃ g,
      Build.graph (elevenBits.forM Growth.build) = .ok g ∧
      (g.names .input)[2]? = some "x[10]" ∧
      ∃ c, ofGraph g (NameMap.ofPairs [("x", 11), ("x[0]", 1)]) (NameMap.ofPairs [("y\r", 1)])
        (NameMap.ofPairs [("", 1)]) = .ok c ∧
      c.graph.nodes.size ≤ 2 ^ 31 ∧ c.graph.outputs.size < UInt32.size ∧
      (∀ kind ∈ [Kind.input, .latch, .output], ∀ n ∈ g.names kind, n ∈ (c.words kind).bitNames) ∧
      (∀ kind ∈ [Kind.input, .latch, .output], ∀ word ∈ (c.words kind).toList, 1 ≤ word.2) ∧
      ∀ kind ∈ [Kind.input, .latch, .output], ∀ word ∈ (c.words kind).toList,
        '\n' ∉ word.1.toList := by
    decide +kernel
  have every (kind : Kind) : kind ∈ [Kind.input, .latch, .output] := by cases kind <;> simp
  have exact : c.Exact := ofGraph_exact (Graph.reachable_of_growths hg).wellFormed hc
    fun kind n hn => Bundle.mem_bitNames_iff.1 (objects kind (every kind) n hn)
  obtain ⟨accepted, same⟩ := exact.reread_runs
    (fun kind name size h => pos kind (every kind) (name, size)
      (Std.ExtTreeMap.mem_toList_iff_getElem?_eq_some.2 h))
    fun kind name hn => by
      obtain ⟨size, h⟩ := mem_iff_exists_getElem?.1 hn
      exact feed kind (every kind) (name, size) (Std.ExtTreeMap.mem_toList_iff_getElem?_eq_some.2 h)
  obtain ⟨d, hd⟩ := accepted.2 ⟨nodes, outputs⟩
  obtain ⟨-, ⟨inputs, -⟩, -, runs⟩ := same d hd
  exact ⟨g, c, d, hg, hc, hname, hd, inputs, runs⟩

/-- A constant of so many bits is written with a number of outputs that is not read. -/
theorem reread_limit : ∃ c, WordGate.sourceBits "y" (List.replicate UInt32.size false) = .ok c ∧
    c.Exact ∧ (∀ kind (name : String) size, (c.words kind)[name]? = some size → 1 ≤ size) ∧
    (∀ kind, ∀ name ∈ c.words kind, '\n' ∉ name.toList) ∧ ∀ d, c.reread ≠ .ok d := by
  obtain ⟨c, hc, gives⟩ := WordGate.sourceBits_gives "y" (List.replicate UInt32.size false)
  have outputs := gives.outputs
  rw [List.length_replicate] at outputs
  have exact := gives.exact
  have feed : ∀ kind, ∀ name ∈ c.words kind, '\n' ∉ name.toList := by
    intro kind name hn
    cases kind with
    | output =>
      rw [words, outputs] at hn
      obtain rfl := NameMap.mem_singleton_iff.1 hn
      decide
    | input => simp [words, gives.inputs] at hn
    | latch => simp [words, gives.latches] at hn
  refine ⟨c, hc, exact, fun kind name size h => ?_, feed, fun d hd => ?_⟩
  · cases kind with
    | output =>
      rw [words, outputs, NameMap.getElem?_singleton] at h
      split at h <;> cases h
      decide
    | input => simp [words, gives.inputs] at h
    | latch => simp [words, gives.latches] at h
  · obtain ⟨b, hb, -⟩ := except_bind_eq_ok_iff.1 hd
    have few := Aiger.outputs_lt_of_readText (exact.nameable feed) hb
    -- Every bit of the word is an output.
    have bits : Word.bitNames "y" UInt32.size ⊆ c.graph.outputs.keys := by
      intro n hn
      obtain ⟨i, hi, rfl⟩ := List.mem_map.1 hn
      rw [Std.ExtTreeMap.mem_keys, exact.outputs, Bundle.hasBit_bitName_iff, outputs]
      exact ⟨_, by simp, List.mem_range.1 hi⟩
    have distinct : (Word.bitNames "y" UInt32.size).Nodup :=
      List.nodup_range.map fun _ _ h => (Word.bitName_inj.1 h).2
    have many := (List.subperm_of_subset distinct bits).length_le
    rw [Std.ExtTreeMap.length_keys, Word.bitNames, List.length_map, List.length_range] at many
    omega

end WordCircuit

end AndInverter
