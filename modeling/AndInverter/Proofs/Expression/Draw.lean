import AndInverter.Expression.Join
import AndInverter.Proofs.Name

/-! Steps that draw names. Every step is specified from a count of names drawn so far: just where its
arguments fit it ends, with no lower count, and otherwise it turns them down. -/

namespace AndInverter

/-- What operators answer to arguments that do not fit. -/
def Fault.IsMisuse : Fault → Prop
  | .violated (.unfitConstant _) | .violated (.invalidSlice _ _ _) | .violated .zeroRepeat
  | .violated .wideCondition | .violated .branchSizes | .violated .operandSizes
  | .violated .sharedInputSizes => True
  | _ => False

namespace Draw

/-- The name that is drawn at a count. -/
def freshName (n : Nat) : String := "__fresh_" ++ toString n

/-- The name is not drawn at any count from `n` on. -/
def Old (n : Nat) (name : String) : Prop := ∀ k, n ≤ k → name ≠ freshName k

theorem freshName_inj {n k : Nat} : freshName n = freshName k ↔ n = k := by
  refine ⟨fun h => ?_, fun h => h ▸ rfl⟩
  exact Nat.repr_inj.1 (String.append_right_inj _ |>.1 h)

theorem Old.mono {n k : Nat} {name : String} (old : Old n name) (h : n ≤ k) : Old k name :=
  fun m hm => old m (Nat.le_trans h hm)

theorem old_freshName (n : Nat) : Old (n + 1) (freshName n) := by
  intro k hk h
  have := freshName_inj.1 h
  omega

theorem Old.ne_freshName {n : Nat} {name : String} (old : Old n name) : name ≠ freshName n :=
  old n (Nat.le_refl n)

variable {α β : Type} {n : Nat}

/-- The result of a step and the count after it. -/
def result (d : Draw α) (n : Nat) : Except Fault α × Nat := (ExceptT.run d).run n

/-- From this count on the step ends as `ok` says if its arguments fit. If not, it turns them down. -/
def Runs (d : Draw α) (n : Nat) (fits : Prop) (ok : α → Nat → Prop) : Prop :=
  match d.result n with
  | (.ok a, k) => fits ∧ n ≤ k ∧ ok a k
  | (.error fault, _) => ¬ fits ∧ fault.IsMisuse

instance decidableExistsResult {r : Except Fault α × Nat} {k : Nat} {p : α → Prop}
    [DecidablePred p] : Decidable (∃ a, r = (.ok a, k) ∧ p a) :=
  match r with
  | (.ok a, m) => decidable_of_iff (m = k ∧ p a) (by simp [and_assoc])
  | (.error _, _) => isFalse (by simp)

variable {fits first : Prop} {ok : α → Nat → Prop} {ok' : β → Nat → Prop}

theorem Runs.elim {d : Draw α} (runs : d.Runs n fits ok) {a : α} {k : Nat}
    (heq : d.result n = (.ok a, k)) : n ≤ k ∧ ok a k := by
  rw [Runs, heq] at runs
  exact runs.2

/-- A step ends just where its arguments fit. -/
theorem Runs.exists_iff {d : Draw α} (runs : d.Runs n fits ok) :
    (∃ a k, d.result n = (.ok a, k)) ↔ fits := by
  rw [Runs] at runs
  rcases hd : d.result n with ⟨fault | a, k⟩ <;> rw [hd] at runs
  · exact iff_of_false (by simp) runs.1
  · exact iff_of_true ⟨a, k, rfl⟩ runs.1

/-- The step ends with its result. -/
theorem Runs.result {d : Draw α} (runs : d.Runs n fits ok) :
    d.Runs n fits fun a k => d.result n = (.ok a, k) := by
  rw [Runs] at runs ⊢
  rcases hd : d.result n with ⟨fault | a, k⟩ <;> rw [hd] at runs
  · exact runs
  · exact ⟨runs.1, runs.2.1, rfl⟩

theorem Runs.pure {a : α} (post : ok a n) : (pure a : Draw α).Runs n True ok :=
  ⟨trivial, Nat.le_refl n, post⟩

/-- The first step asks for a part of what all steps ask for. -/
theorem Runs.bind {d : Draw α} {f : α → Draw β} (runs : d.Runs n first ok) (part : fits → first)
    (then_ : ∀ a k, n ≤ k → first → ok a k → (f a).Runs k fits ok') :
    (d >>= f).Runs n fits ok' := by
  have unfold : (d >>= f).result n =
      ExceptT.bindCont f (d.result n).1 (d.result n).2 := rfl
  rw [Runs, unfold]
  rw [Runs] at runs
  rcases hd : d.result n with ⟨fault | a, k⟩
  · rw [hd] at runs
    exact ⟨fun h => runs.1 (part h), runs.2⟩
  · rw [hd] at runs
    have rest : (f a).Runs k fits ok' := then_ a k runs.2.1 runs.1 runs.2.2
    show match (f a).result k with
      | (.ok b, m) => fits ∧ n ≤ m ∧ ok' b m
      | (.error fault, _) => ¬ fits ∧ fault.IsMisuse
    rw [Runs] at rest
    rcases hf : (f a).result k with ⟨fault | b, m⟩
    · rwa [hf] at rest
    · rw [hf] at rest
      exact ⟨rest.1, Nat.le_trans runs.2.1 rest.2.1, rest.2.2⟩

theorem Runs.imp {d : Draw α} {ok' : α → Nat → Prop} (runs : d.Runs n fits ok)
    (h : ∀ a k, n ≤ k → ok a k → ok' a k) : d.Runs n fits ok' := by
  rw [Runs] at runs ⊢
  rcases hd : d.result n with ⟨_ | a, k⟩
  · rwa [hd] at runs
  · rw [hd] at runs
    exact ⟨runs.1, runs.2.1, h a k runs.2.1 runs.2.2⟩

theorem Runs.of_iff {d : Draw α} (runs : d.Runs n first ok) (h : first ↔ fits) :
    d.Runs n fits ok :=
  propext h ▸ runs

/-- Arguments that are known to fit. -/
theorem Runs.given {d : Draw α} (runs : d.Runs n True ok) (h : fits) : d.Runs n fits ok :=
  runs.of_iff (iff_of_true trivial h)

theorem throw_runs {fault : Fault} (misuse : fault.IsMisuse) (unfit : ¬ fits) :
    (throw fault : Draw α).Runs n fits ok :=
  ⟨unfit, misuse⟩

theorem throw_bind_runs {fault : Fault} {f : α → Draw β} (misuse : fault.IsMisuse)
    (unfit : ¬ fits) : (throw fault >>= f).Runs n fits ok' :=
  ⟨unfit, misuse⟩

theorem lift_runs {x : Except Fault α} {a : α} (heq : x = .ok a) (post : ok a n) :
    (liftM x : Draw α).Runs n True ok := by
  subst heq
  exact ⟨trivial, Nat.le_refl n, post⟩

theorem lift_bind {x : Except Fault α} {a : α} {f : α → Draw β} (heq : x = .ok a)
    (rest : (f a).Runs n fits ok') : ((liftM x : Draw α) >>= f).Runs n fits ok' := by
  subst heq
  exact rest

theorem lift_error_bind {x : Except Fault α} {fault : Fault} {f : α → Draw β}
    (heq : x = .error fault) (misuse : fault.IsMisuse) (unfit : ¬ fits) :
    ((liftM x : Draw α) >>= f).Runs n fits ok' := by
  subst heq
  exact ⟨unfit, misuse⟩

/-- A name is drawn, and the rest goes on from the next count. -/
theorem fresh_bind {f : String → Draw β} (rest : (f (freshName n)).Runs (n + 1) fits ok') :
    (fresh >>= f).Runs n fits ok' := by
  have runs : fresh.Runs n True fun name k => name = freshName n ∧ k = n + 1 :=
    ⟨trivial, Nat.le_succ n, rfl, rfl⟩
  refine runs.bind (fun _ => trivial) ?_
  rintro _ _ - - ⟨rfl, rfl⟩
  exact rest

end Draw

end AndInverter
