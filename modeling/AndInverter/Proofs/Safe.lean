import AndInverter.Proofs.Except
import Mathlib.Data.List.Forall2

/-! Computations that never break a precondition. What they cannot do they refuse. -/

namespace AndInverter

/-- The computation gives what `ok` says, or refuses its arguments. -/
def Safe {α : Type} (x : Except Fault α) (ok : α → Prop) : Prop :=
  match x with
  | .ok a => ok a
  | .error fault => ∃ cause, fault = .refused cause

namespace Safe

variable {α β : Type} {x : Except Fault α} {ok ok' : α → Prop}

theorem pure {a : α} (h : ok a) : Safe (.ok a) ok := h

theorem circuit (cause : CircuitRefusal) : Safe (.error (.circuit cause)) ok := ⟨_, rfl⟩

theorem word (cause : WordRefusal) : Safe (.error (.word cause)) ok := ⟨_, rfl⟩

theorem of_eq {a : α} (heq : x = .ok a) (h : ok a) : Safe x ok := by
  rw [heq]
  exact h

theorem elim {a : α} (safe : Safe x ok) (heq : x = .ok a) : ok a := by
  rwa [heq] at safe

theorem imp (safe : Safe x ok) (h : ∀ a, ok a → ok' a) : Safe x ok' := by
  cases x with
  | ok a => exact h a safe
  | error fault => exact safe

theorem bind {f : α → Except Fault β} {next : β → Prop} (first : Safe x ok)
    (then_ : ∀ a, ok a → Safe (f a) next) : Safe (x >>= f) next := by
  cases x with
  | ok a => exact then_ a first
  | error fault => exact first

/-- A test in front of a computation. -/
theorem guarded {c : Prop} [Decidable c] {cause : Refusal} (safe : ¬ c → Safe x ok) :
    Safe (if c then (throw (.refused cause) : Except Fault PUnit) >>= fun _ => x else x) ok := by
  by_cases h : c
  · rw [if_pos h]
    exact ⟨cause, rfl⟩
  · rw [if_neg h]
    exact safe h

theorem forM {f : α → Except Fault Unit} {xs : List α} {Good : α → Prop}
    (step : ∀ a, Safe (f a) fun _ => Good a) : Safe (xs.forM f) fun _ => ∀ a ∈ xs, Good a := by
  induction xs with
  | nil => exact pure (by simp)
  | cons a xs ih =>
    refine (step a).bind fun _ good => ih.imp fun _ all => ?_
    exact List.forall_mem_cons.2 ⟨good, all⟩

theorem foldlM {f : β → α → Except Fault β} {xs : List α} {b : β} (Inv : List α → β → Prop)
    (step : ∀ done a b, Inv done b → Safe (f b a) (Inv (done ++ [a]))) (start : Inv [] b) :
    Safe (xs.foldlM f b) (Inv xs) := by
  -- The steps still to take, from any point on.
  have later (ys : List α) : ∀ (done : List α) (b : β), Inv done b →
      Safe (ys.foldlM f b) (Inv (done ++ ys)) := by
    induction ys with
    | nil =>
      intro done b inv
      rw [List.append_nil]
      exact inv
    | cons y ys ih =>
      intro done b inv
      rw [List.foldlM_cons, List.append_cons]
      exact (step done y b inv).bind fun b' inv' => ih (done ++ [y]) b' inv'
  exact later xs [] b start

theorem mapM {f : α → Except Fault β} {xs : List α} {Good : α → β → Prop}
    (step : ∀ a ∈ xs, Safe (f a) (Good a)) : Safe (xs.mapM f) fun bs => List.Forall₂ Good xs bs := by
  induction xs with
  | nil => exact List.Forall₂.nil
  | cons a xs ih =>
    rw [List.forall_mem_cons] at step
    rw [List.mapM_cons]
    refine step.1.bind fun b good => (ih step.2).bind fun bs all => ?_
    exact List.Forall₂.cons good all

end Safe

end AndInverter
