import AndInverter.Fault

/-! Computations that may fail: how a bind goes on, and folds whose steps keep an invariant. -/

namespace AndInverter

variable {ε α β : Type}

@[simp] theorem except_pure (a : α) : (pure a : Except ε α) = .ok a := rfl

@[simp] theorem except_throw (e : ε) : (throw e : Except ε α) = .error e := rfl

@[simp] theorem except_ok_bind (a : α) (f : α → Except ε β) : (Except.ok a >>= f) = f a := rfl

@[simp] theorem except_error_bind (e : ε) (f : α → Except ε β) :
    (Except.error e >>= f) = .error e := rfl

@[simp] theorem promised_some (a : α) : Fault.promised (some a) = .ok a := rfl

@[simp] theorem promised_none : Fault.promised (none : Option α) = .error .inconsistent := rfl

theorem promised_eq_ok_iff {x : Option α} {a : α} : Fault.promised x = .ok a ↔ x = some a := by
  cases x <;> simp

instance decidableExistsOk {x : Except ε α} {p : α → Prop} [DecidablePred p] :
    Decidable (∃ a, x = .ok a ∧ p a) :=
  match x with
  | .ok a => decidable_of_iff (p a) (by simp)
  | .error _ => isFalse (by simp)

instance decidableEqError {x : Except ε α} {e : ε} [DecidableEq ε] : Decidable (x = .error e) :=
  match x with
  | .ok _ => isFalse nofun
  | .error e' => decidable_of_iff (e' = e) (by simp)

/-- A bind that succeeds is two steps that do. -/
theorem except_bind_eq_ok_iff {x : Except ε α} {f : α → Except ε β} {b : β} :
    (x >>= f) = .ok b ↔ ∃ a, x = .ok a ∧ f a = .ok b := by
  cases x <;> simp

/-- A fold of steps that keep an invariant or fail in a known way. -/
theorem foldlM_except_cases {f : β → α → Except ε β} {xs : List α}
    (Inv : Nat → β → Prop) (Bad : ε → Prop)
    (step : ∀ k b x, xs[k]? = some x → Inv k b →
      (∃ b', f b x = .ok b' ∧ Inv (k + 1) b') ∨ ∃ e, f b x = .error e ∧ Bad e)
    {b : β} (start : Inv 0 b) :
    (∃ b', xs.foldlM f b = .ok b' ∧ Inv xs.length b') ∨ ∃ e, xs.foldlM f b = .error e ∧ Bad e := by
  -- The steps still to take, from any point on.
  have later (ys : List α) : ∀ (k : Nat) (b : β), (∀ i, ys[i]? = xs[k + i]?) → Inv k b →
      (∃ b', ys.foldlM f b = .ok b' ∧ Inv (k + ys.length) b') ∨
        ∃ e, ys.foldlM f b = .error e ∧ Bad e := by
    induction ys with
    | nil => exact fun k b _ h => .inl ⟨b, rfl, h⟩
    | cons y ys ih =>
      intro k b hys h
      rcases step k b y (by simpa using (hys 0).symm) h with ⟨b', hb, h'⟩ | ⟨e, he, bad⟩
      · have hrest := ih (k + 1) b' (fun i => by
          have := hys (i + 1)
          rwa [List.getElem?_cons_succ, show k + (i + 1) = k + 1 + i by omega] at this) h'
        rw [List.length_cons, show k + (ys.length + 1) = k + 1 + ys.length by omega]
        simpa [List.foldlM_cons, hb] using hrest
      · exact .inr ⟨e, by simp [List.foldlM_cons, he], bad⟩
  simpa using later xs 0 b (by simp) start

end AndInverter
