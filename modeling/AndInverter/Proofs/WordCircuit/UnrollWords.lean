import AndInverter.Proofs.WordCircuit.Blast
import AndInverter.Proofs.WordCircuit.Unroll

/-! The words of an unrolled circuit. It reads each input word at each step, and each latch word at the
start if it does not start from the initial values; it shows each output word after each step that is
kept, and each latch word with them unless latches are hidden; and it has no latches. All words are found
again by their bits, so those without bits are not. -/

namespace AndInverter.WordCircuit

variable {c U : WordCircuit} {horizon : Nat} {options : UnrollOptions}

/-- Unrolling keeps each word that has a bit, at all its times and with its size, and makes no other
words. -/
theorem Exact.unroll_keeps_words (exact : c.Exact) (run : c.unroll horizon options = .ok U) :
    (∀ (n : String) size, U.inputs[n]? = some size ↔ 0 < size ∧
      ((∃ x, ∃ t < horizon, c.inputs[x]? = some size ∧ n = timed x t) ∨
        options.fromInitial = false ∧ ∃ l : String, c.latches[l]? = some size ∧ n = timed l 0)) ∧
    (∀ (n : String) size, U.outputs[n]? = some size ↔ 0 < size ∧
      ∃ y, ∃ t < horizon, (options.lastOnly → t + 1 = horizon) ∧
        (c.outputs[y]? = some size ∨ options.hideLatches = false ∧ c.latches[y]? = some size) ∧
        n = timed y (t + 1)) ∧
    U.latches = ∅ := by
  obtain ⟨G, unrolls⟩ := exact.unrolls_of_unroll run
  refine ⟨fun n size => ?_, fun n size => ?_, ?_⟩
  · rw [unrolls.inputs]
    constructor
    · rintro ⟨x, t, ⟨positive, ⟨ht, hx⟩ | ⟨free, rfl, hl⟩⟩, rfl⟩
      · exact ⟨positive, .inl ⟨x, t, ht, hx, rfl⟩⟩
      · exact ⟨positive, .inr ⟨free, x, hl, rfl⟩⟩
    · rintro ⟨positive, ⟨x, t, ht, hx, rfl⟩ | ⟨free, l, hl, rfl⟩⟩
      · exact ⟨x, t, ⟨positive, .inl ⟨ht, hx⟩⟩, rfl⟩
      · exact ⟨l, 0, ⟨positive, .inr ⟨free, rfl, hl⟩⟩, rfl⟩
  · rw [unrolls.outputs]
    constructor
    · rintro ⟨y, _, ⟨positive, ⟨t, ht, rfl, kept⟩, hy⟩, rfl⟩
      exact ⟨positive, y, t, ht, kept, hy, rfl⟩
    · rintro ⟨positive, y, t, ht, kept, hy, rfl⟩
      exact ⟨y, t + 1, ⟨positive, ⟨t, ht, rfl, kept⟩, hy⟩, rfl⟩
  · exact Std.ExtTreeMap.eq_empty_iff_forall_not_mem.2 unrolls.latches

/-- A counter of two bits reads the word it is started from, and shows each step with its next state. -/
theorem Exact.unroll_keeps_words_counter : ∃ c d U,
    WordGate.inc 2 "x" "y" = .ok c ∧ c.feedback ["x"] ["y"] none (some ["l"]) true = .ok d ∧
    d.Exact ∧ d.unroll 2 ⟨false, false, false⟩ = .ok U ∧
    U.inputs[timed "l" 0]? = some 2 ∧ U.outputs[timed "y" 1]? = some 2 ∧
    U.outputs[timed "l" 2]? = some 2 ∧ U.latches = ∅ := by
  obtain ⟨c, hc, d, hd, houtput, hlatch, small, G, hG, -⟩ :
      ∃ c, WordGate.inc 2 "x" "y" = .ok c ∧
      ∃ d, c.feedback ["x"] ["y"] none (some ["l"]) true = .ok d ∧
        d.outputs["y"]? = some 2 ∧ d.latches["l"]? = some 2 ∧
        (∀ kind ∈ [Kind.input, .latch, .output], ∀ word ∈ (d.words kind).toList,
          word.2 < UInt64.size) ∧
        ∃ G, d.graph.unroll 2 ⟨false, false, false⟩ = .ok G ∧ True := by
    decide +kernel
  have exactC : c.Exact := @Component.exact c (.unary .inc 2 "x" "y") hc
  have exact : d.Exact := ((exactC.feedback_blast _ _ _ _ _).elim hd).exact
  have addressable : d.Addressable :=
    addressable_iff.2 fun kind => small kind (by cases kind <;> decide)
  obtain ⟨U, hU, -⟩ := exact.exists_unroll addressable hG
  obtain ⟨inputs, outputs, latches⟩ := exact.unroll_keeps_words hU
  refine ⟨c, d, U, hc, hd, exact, hU, (inputs _ _).2 ⟨Nat.two_pos, .inr ⟨rfl, "l", hlatch, rfl⟩⟩,
    (outputs _ _).2 ⟨Nat.two_pos, "y", 0, Nat.two_pos, nofun, .inl houtput, rfl⟩,
    (outputs _ _).2 ⟨Nat.two_pos, "l", 1, Nat.one_lt_two, nofun, .inr ⟨rfl, hlatch⟩, rfl⟩, latches⟩

/-- The words of an identity on no bits are lost. -/
theorem unroll_drops_empty_word : ∃ c, WordGate.identity 0 "x" "y" = .ok c ∧ c.Exact ∧
    c.inputs["x"]? = some 0 ∧ c.outputs["y"]? = some 0 ∧
    ∃ U, c.unroll 1 ⟨true, true, false⟩ = .ok U ∧
      U.inputs[timed "x" 0]? = none ∧ U.outputs[timed "y" 1]? = none := by
  obtain ⟨c, hc, run⟩ : ∃ c, WordGate.identity 0 "x" "y" = .ok c ∧
      c.inputs["x"]? = some 0 ∧ c.outputs["y"]? = some 0 ∧
      ∃ U, c.unroll 1 ⟨true, true, false⟩ = .ok U ∧
        U.inputs[timed "x" 0]? = none ∧ U.outputs[timed "y" 1]? = none := by
    decide +kernel
  exact ⟨c, hc, @Component.exact c (.unary .identity 0 "x" "y") hc, run⟩

end AndInverter.WordCircuit
