import AndInverter.Proofs.Aiger.Consistent
import AndInverter.Proofs.Graph.Gate

/-! The literals of the variables of a file, and who is to blame where one cannot be defined or
looked up. -/

namespace AndInverter

/-- The text is at fault, and the condition does not hold. -/
def Fault.Blames (condition : Prop) (fault : Fault) : Prop := fault.IsReading ∧ ¬ condition

theorem Fault.Blames.reading {condition : Prop} (h : ¬ condition) (cause : ReadingRefusal) :
    Fault.Blames condition (.reading cause) :=
  ⟨.inr ⟨cause, rfl⟩, h⟩

namespace Aiger

open Build (Spec)

/-- The literal of the graph for a literal of the file, false for one that is not defined. -/
def Definitions.literal (defs : Definitions) (l : Literal) : Literal :=
  let r := (defs[l.id]?).getD (.ofBool false)
  if l.negated then -r else r

namespace Definitions

variable {defs : Definitions}

theorem resolve_cases (defs : Definitions) (l : Literal) :
    (l.id ∈ defs ∧ defs.resolve l = .ok (defs.literal l)) ∨
      (l.id ∉ defs ∧ defs.resolve l = .error (.reading (.undefinedVariable l.id))) := by
  rw [resolve, literal]
  cases h : defs[l.id]? with
  | none => exact .inr ⟨not_mem_iff_getElem?.2 h, rfl⟩
  | some r => exact .inl ⟨mem_iff_exists_getElem?.2 ⟨r, h⟩, rfl⟩

theorem define_cases (defs : Definitions) (var : Nat) (l : Literal) :
    (var ∉ defs ∧ defs.define var l = .ok (defs.insert var l)) ∨
      (var ∈ defs ∧ defs.define var l = .error (.reading (.duplicateVariable var))) := by
  rw [define]
  by_cases h : var ∈ defs
  · exact .inr ⟨h, if_pos (Std.ExtTreeMap.mem_iff_contains.1 h)⟩
  · exact .inl ⟨h, if_neg (mt Std.ExtTreeMap.mem_iff_contains.2 h)⟩

theorem literal_id_eq {l : Literal} {r : Literal} (h : defs[l.id]? = some r) :
    (defs.literal l).id = r.id := by
  rw [literal, h]
  cases l.negated <;> rfl

/-- The value of a literal of the file is that of the literal in the graph. -/
theorem under_literal {v : Nat → Bool} (l : Literal) :
    (defs.literal l).under v = l.under fun var => (defs.literal (.positive var)).under v := by
  rcases l with ⟨id, _ | _⟩ <;> simp [literal, Literal.under, Literal.apply, Literal.positive]

theorem literal_insert {var : Nat} {l r : Literal} (hl : l.id ∈ defs) (hvar : var ∉ defs) :
    literal (defs.insert var r) l = defs.literal l := by
  have hne : var ≠ l.id := fun heq => hvar (heq ▸ hl)
  simp [literal, Std.ExtTreeMap.getElem?_insert, hne]

end Definitions

/-- A definition that must be new. -/
theorem define_spec {g : Graph} {defs : Definitions} {var : Nat} {l : Literal}
    {ok : Definitions → Graph → Prop} {condition : Prop} (wf : g.WellFormed)
    (twice : var ∈ defs → ¬ condition) (good : var ∉ defs → ok (defs.insert var l) g) :
    Spec (liftM (defs.define var l) : Build Definitions) g ok (Fault.Blames condition) := by
  refine Spec.lift wf (fun a h => ?_) (fun fault h => ?_) <;>
    rcases Definitions.define_cases defs var l with ⟨hvar, heq⟩ | ⟨hvar, heq⟩ <;>
    rw [heq] at h <;> cases h
  · exact good hvar
  · exact .reading (twice hvar) _

/-- A literal that must be known. -/
theorem resolve_spec {g : Graph} {defs : Definitions} {l : Literal} {condition : Prop}
    (wf : g.WellFormed) (unknown : l.id ∉ defs → ¬ condition) :
    Spec (liftM (defs.resolve l) : Build Literal) g
      (fun r h => g = h ∧ l.id ∈ defs ∧ r = defs.literal l) (Fault.Blames condition) := by
  refine Spec.lift wf (fun a h => ?_) (fun fault h => ?_) <;>
    rcases Definitions.resolve_cases defs l with ⟨hl, heq⟩ | ⟨hl, heq⟩ <;>
    rw [heq] at h <;> cases h
  · exact ⟨rfl, hl, rfl⟩
  · exact .reading (unknown hl) _

end Aiger

end AndInverter
