import AndInverter.Proofs.Graph.Parallel
import AndInverter.Proofs.Graph.Sequence
import AndInverter.Proofs.WordCircuit.Compose
import AndInverter.Proofs.WordCircuit.Feedback
import AndInverter.Proofs.WordCircuit.Relabel
import AndInverter.Proofs.WordGate.Component

/-! Operations on words are operations on bits. Names of words tell all about the names of bits, so what
is checked of the words need not be checked of the bits again. -/

namespace AndInverter

namespace WordCircuit

variable {c d e : WordCircuit}

/-- One circuit after the other: the graph is that of the checked operation on bits, and words keep
their sizes. -/
structure IsSeq (c d e : WordCircuit) : Prop where
  exact : e.Exact
  graph : c.graph.seq d.graph = .ok e.graph
  inputs : ∀ (n : String) size, e.inputs[n]? = some size ↔
    c.inputs[n]? = some size ∨ n ∉ c.outputs ∧ d.inputs[n]? = some size
  outputs : ∀ (n : String) size, e.outputs[n]? = some size ↔
    d.outputs[n]? = some size ∨ n ∉ d.inputs ∧ c.outputs[n]? = some size
  latches : ∀ (n : String) size, e.latches[n]? = some size ↔
    c.latches[n]? = some size ∨ d.latches[n]? = some size

/-- Circuits side by side. -/
structure IsPar (c d e : WordCircuit) : Prop where
  exact : e.Exact
  graph : c.graph.par d.graph = .ok e.graph
  inputs : ∀ (n : String) size, e.inputs[n]? = some size ↔
    c.inputs[n]? = some size ∨ d.inputs[n]? = some size
  outputs : ∀ (n : String) size, e.outputs[n]? = some size ↔
    c.outputs[n]? = some size ∨ d.outputs[n]? = some size
  latches : ∀ (n : String) size, e.latches[n]? = some size ↔
    c.latches[n]? = some size ∨ d.latches[n]? = some size

/-- A circuit with renamed words: every bit of a word goes with the word. -/
structure IsRelabel (c : WordCircuit) (kind : Kind) (new : Renaming) (e : WordCircuit) : Prop where
  exact : e.Exact
  graph : c.graph.relabel kind (bitRenaming (c.words kind) new) = .ok e.graph
  bits : ∀ (n : String) size, (c.words kind)[n]? = some size → ∀ i < size,
    (bitRenaming (c.words kind) new).apply (Word.bitName n i) = Word.bitName (new.apply n) i
  words : ∀ (n : String) size, (e.words kind)[n]? = some size ↔
    ∃ old : String, new.apply old = n ∧ (c.words kind)[old]? = some size
  others : ∀ kind' ≠ kind, e.words kind' = c.words kind'

theorem graph_of_chain (h : c.chain d = .ok e) : c.graph.chain d.graph = .ok e.graph := by
  obtain ⟨g, hg, heq⟩ := except_bind_eq_ok_iff.1 h
  rw [hg, ← Except.ok.inj heq]

theorem graph_of_beside (h : c.beside d = .ok e) : c.graph.beside d.graph = .ok e.graph := by
  obtain ⟨g, hg, heq⟩ := except_bind_eq_ok_iff.1 h
  rw [hg, ← Except.ok.inj heq]

theorem requireInterface_safe (c d : WordCircuit) :
    Safe (c.requireInterface d) fun _ => Bundle.Agree c.outputs d.inputs := by
  have name (n : String) : Safe
      (if (c.outputs[n]?).getD 0 = (d.inputs[n]?).getD 0 then (.ok () : Except Fault Unit)
        else .error (.word (.interfaceSize n ((c.outputs[n]?).getD 0) ((d.inputs[n]?).getD 0))))
      fun _ => (c.outputs[n]?).getD 0 = (d.inputs[n]?).getD 0 := by
    split
    next h => exact .pure h
    next => exact .word _
  apply (Safe.forM name).imp
  intro _ all n i j hi hj
  have := all n (mem_interface_iff.2
    ⟨mem_iff_exists_getElem?.2 ⟨i, hi⟩, mem_iff_exists_getElem?.2 ⟨j, hj⟩⟩)
  simpa [hi, hj] using this

theorem Exact.seq_blast (hc : c.Exact) (hd : d.Exact) : Safe (c.seq d) (c.IsSeq d) := by
  rw [seq]
  apply (requireInterface_safe c d).bind
  intro _ fits
  dsimp only
  cases hlatch : c.latches.firstShared d.latches with
  | some name => exact .circuit _
  | none =>
    cases hout : NameMap.firstShared (NameMap.without c.outputs (c.interface d)) d.outputs with
    | some name => exact .circuit _
    | none =>
      cases hagree : c.inputs.agreesWith (NameMap.without d.inputs (c.interface d)) with
      | false => exact .word _
      | true =>
        have latches := NameMap.firstShared_eq_none_iff.1 hlatch
        have kept := NameMap.firstShared_eq_none_iff.1 hout
        have agree := Bundle.agreesWith_iff.1 hagree
        have stays (n : String) (hn : n ∈ c.outputs) (hin : n ∉ d.inputs) : n ∉ d.outputs := by
          obtain ⟨size, h⟩ := mem_iff_exists_getElem?.1 hn
          exact kept n (mem_iff_exists_getElem?.2 ⟨size, kept_words_iff.2 ⟨hin, h⟩⟩)
        obtain ⟨e, heq, exact, inputs, outputs, latchWords, -⟩ :=
          hc.exists_chain hd fits latches stays agree
        refine .of_eq heq ⟨exact, ?_, fun n size => ?_, fun n size => ?_, fun n size => ?_⟩
        · rw [Graph.seq_eq, Graph.seqObstacle_eq_none_iff.2
            ⟨fun n hn hn' => ((hc.latches n).1 hn).apart latches ((hd.latches n).1 hn'),
              hc.kept_bits_apart hd fits stays⟩]
          exact graph_of_chain heq
        · rw [inputs, Bundle.getElem?_merge_eq_some_iff agree, free_words_iff]
        · rw [outputs, Bundle.getElem?_merge_eq_some_iff
            (Bundle.Agree.of_apart fun n hn hn' => kept n hn' hn), kept_words_iff]
        · rw [latchWords, Bundle.getElem?_merge_eq_some_iff (.of_apart latches)]

theorem Exact.par_blast (hc : c.Exact) (hd : d.Exact) : Safe (c.par d) (c.IsPar d) := by
  rw [par]
  cases hout : c.outputs.firstShared d.outputs with
  | some name => exact .circuit _
  | none =>
    cases hlatch : c.latches.firstShared d.latches with
    | some name => exact .circuit _
    | none =>
      cases hagree : c.inputs.agreesWith d.inputs with
      | false => exact .word _
      | true =>
        have outputs := NameMap.firstShared_eq_none_iff.1 hout
        have latches := NameMap.firstShared_eq_none_iff.1 hlatch
        have agree := Bundle.agreesWith_iff.1 hagree
        obtain ⟨e, heq, exact, inputWords, outputWords, latchWords, -⟩ :=
          hc.exists_beside hd outputs latches agree
        refine .of_eq heq ⟨exact, ?_, fun n size => ?_, fun n size => ?_, fun n size => ?_⟩
        · rw [Graph.par_eq, Graph.parObstacle_eq_none_iff.2
            ⟨fun n hn hn' => ((hc.outputs n).1 hn).apart outputs ((hd.outputs n).1 hn'),
              fun n hn hn' => ((hc.latches n).1 hn).apart latches ((hd.latches n).1 hn')⟩]
          exact graph_of_beside heq
        · rw [inputWords, Bundle.getElem?_merge_eq_some_iff agree]
        · rw [outputWords, Bundle.getElem?_merge_eq_some_iff (.of_apart outputs)]
        · rw [latchWords, Bundle.getElem?_merge_eq_some_iff (.of_apart latches)]

theorem Exact.relabel_blast (hc : c.Exact) (kind : Kind) (new : Renaming) :
    Safe (c.relabel kind new) (c.IsRelabel kind new) := by
  rw [relabel]
  cases hclash : firstClash [] new.apply (c.words kind).keys with
  | some name => exact .word _
  | none =>
    have inj : ∀ a ∈ c.words kind, ∀ b ∈ c.words kind, new.apply a = new.apply b → a = b := by
      intro a ha b hb heq
      exact List.inj_on_of_nodup_map (firstClash_eq_none_iff.1 hclash).2
        (Std.ExtTreeMap.mem_keys.2 ha) (Std.ExtTreeMap.mem_keys.2 hb) heq
    have bits := (exact_iff.1 hc).2 kind
    apply Safe.pure
    refine ⟨hc.rename inj, ?_, fun n size h i hi => bitRenaming_apply h hi, fun n size => ?_,
      fun kind' hne => by rw [words_rename, if_neg hne]⟩
    · rw [graph_rename]
      exact Graph.relabel_eq_rename fun a ha b hb =>
        (renamed_bits inj).1 a ((bits a).1 ha) b ((bits b).1 hb)
    · rw [words_rename, if_pos rfl, NameMap.getElem?_rename_eq_some_iff inj]

/-- Whatever an operation on words gives is what the checked operation on their bits gives: the graph is
the same, it has just the bits of the words again, and words keep their sizes. What an operation does
not give it refuses, so no precondition of the operations on graphs is ever broken. -/
theorem Exact.operations_on_bits (hc : c.Exact) (hd : d.Exact) :
    Safe (c.seq d) (c.IsSeq d) ∧ Safe (c.par d) (c.IsPar d) ∧
    (∀ kind new, Safe (c.relabel kind new) (c.IsRelabel kind new)) ∧
    ∀ inputs outputs initials latches keepOutputs,
      Safe (c.feedback inputs outputs initials latches keepOutputs)
        (c.IsFeedback inputs outputs initials latches keepOutputs) :=
  ⟨hc.seq_blast hd, hc.par_blast hd, hc.relabel_blast, hc.feedback_blast⟩

/-- A wire behind a counter: the word that leads from one to the other is an input of the first one as
well, and a name with brackets is as good as any other. -/
theorem Exact.operations_on_bits_counter : ∃ c d e f, WordGate.inc 2 "x[0]" "y" = .ok c ∧
    WordGate.identity 2 "y" "x[0]" = .ok d ∧ c.seq d = .ok e ∧ c.IsSeq d e ∧
    e.feedback ["x[0]"] ["x[0]"] none none true = .ok f ∧
    e.IsFeedback ["x[0]"] ["x[0]"] none none true f := by
  obtain ⟨c, hc, d, hd, e, he, f, hf, -⟩ : ∃ c, WordGate.inc 2 "x[0]" "y" = .ok c ∧
      ∃ d, WordGate.identity 2 "y" "x[0]" = .ok d ∧ ∃ e, c.seq d = .ok e ∧
      ∃ f, e.feedback ["x[0]"] ["x[0]"] none none true = .ok f ∧ f.inputs.keys = [] := by
    decide +kernel
  have exactC : c.Exact := @Component.exact c (.unary .inc 2 "x[0]" "y") hc
  have exactD : d.Exact := @Component.exact d (.unary .identity 2 "y" "x[0]") hd
  have isSeq := (exactC.operations_on_bits exactD).1.elim he
  obtain ⟨-, -, -, feedback⟩ := isSeq.exact.operations_on_bits isSeq.exact
  exact ⟨c, d, e, f, hc, hd, he, isSeq, hf, (feedback _ _ _ _ _).elim hf⟩

end WordCircuit

end AndInverter
