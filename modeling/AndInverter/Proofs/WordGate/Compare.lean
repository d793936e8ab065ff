import AndInverter.Proofs.WordGate.Operators
import AndInverter.Proofs.WordGate.Values

/-! Gates for comparisons decide the order of integers, unsigned ones and signed ones in two's
complement. -/

namespace AndInverter.WordGate

/-- The gate has one output bit, which tells for two words of one size whether `R` holds of them. They
may be one word. -/
def Decides (gate : Nat → String → String → String → Except Fault WordCircuit)
    (R : Word → Word → Prop) [DecidableRel R] : Prop :=
  ∀ width left right output, Evaluates (gate width left right output)
    (((∅ : Bundle).insert left width).insert right width) ((∅ : Bundle).insert output 1)
    fun x z => z output = [decide (R (x left) (x right))]

variable {gate : Nat → String → String → String → Except Fault WordCircuit}
  {R : Word → Word → Prop} [DecidableRel R]

theorem decides_of_joins {op : ∀ width, BitVec width → BitVec width → Bool}
    (joins : ∀ width left right output, Joins (gate width left right output) left right output
      fun x y => BitVec.ofBool (op width x y))
    (h : ∀ (width : Nat) (x y : Word), x.length = width → y.length = width →
      op width (x.toBitVec width) (y.toBitVec width) = decide (R x y)) : Decides gate R := by
  intro width left right output
  refine (joins width left right output).evaluates fun x z hx hy value => ?_
  rw [value, Word.ofBitVec_ofBool, h width _ _ hx hy]

/-- Gates for comparisons decide equality and order of the integers that words stand for. -/
theorem comparisons_exact :
    Decides eq (fun x y => x = y) ∧ Decides ne (fun x y => x ≠ y) ∧
    Decides unsignedLt (fun x y => x.toNat < y.toNat) ∧
    Decides unsignedLe (fun x y => x.toNat ≤ y.toNat) ∧
    Decides unsignedGt (fun x y => x.toNat > y.toNat) ∧
    Decides unsignedGe (fun x y => x.toNat ≥ y.toNat) ∧
    Decides signedLt (fun x y => x.toInt < y.toInt) ∧
    Decides signedLe (fun x y => x.toInt ≤ y.toInt) ∧
    Decides signedGt (fun x y => x.toInt > y.toInt) ∧
    Decides signedGe (fun x y => x.toInt ≥ y.toInt) := by
  refine ⟨decides_of_joins eq_joins ?eq, decides_of_joins ne_joins ?ne,
    decides_of_joins unsignedLt_joins ?_, decides_of_joins unsignedLe_joins ?_,
    decides_of_joins unsignedGt_joins ?_, decides_of_joins unsignedGe_joins ?_,
    decides_of_joins signedLt_joins ?_, decides_of_joins signedLe_joins ?_,
    decides_of_joins signedGt_joins ?_, decides_of_joins signedGe_joins ?_⟩
  all_goals intro width x y hx hy
  case eq => exact decide_eq_decide.2 (Word.toBitVec_inj hx hy)
  case ne =>
    rw [decide_not]
    exact congrArg (!·) (decide_eq_decide.2 (Word.toBitVec_inj hx hy))
  all_goals
    simp only [BitVec.ult, BitVec.ule, BitVec.slt, BitVec.sle, Word.toNat_toBitVec hx,
      Word.toNat_toBitVec hy, Word.toInt_toBitVec hx, Word.toInt_toBitVec hy]

end AndInverter.WordGate
