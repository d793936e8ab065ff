import AndInverter.Proofs.WordCircuit.Compose
import AndInverter.Proofs.WordGate.Rules

/-! Gates for wiring, shifts and logic compute functions of words, whatever the size of the words is and
also where several input words are one. -/

namespace AndInverter.WordGate

open Word (ofBitVec toBitVec)

/-- The output words of the first gate are the input words of the second. -/
def chained (first second : Except Fault WordCircuit) : Except Fault WordCircuit := do
  (← first).seq (← second)

theorem chained_gives {first second : Except Fault WordCircuit} {inputs between outputs : Bundle}
    {F G : (String → Word) → String → Word}
    (h : ∃ c, first = .ok c ∧ c.Gives inputs between F)
    (h' : ∃ c, second = .ok c ∧ c.Gives between outputs G) :
    ∃ c, chained first second = .ok c ∧ c.Gives inputs outputs fun env => G (F env) := by
  obtain ⟨c, rfl, gives⟩ := h
  obtain ⟨d, rfl, gives'⟩ := h'
  exact gives.exists_seq gives'

theorem reverse_reverse (width : Nat) (input middle output : String) :
    Evaluates (chained (reverse width input middle) (reverse width middle output))
      ((∅ : Bundle).insert input width) ((∅ : Bundle).insert output width)
      fun x z => z output = x input := by
  refine evaluates_of_gives (chained_gives (reverse_maps width input middle)
    (reverse_maps width middle output)) fun x fits => ?_
  have size : (x input).length = width := fits input width (by simp)
  rw [Word.toBitVec_ofBitVec, ← Word.reverse_ofBitVec, ← Word.reverse_ofBitVec, List.reverse_reverse,
    Word.ofBitVec_toBitVec size]

/-! ### Shifts -/

end AndInverter.WordGate
