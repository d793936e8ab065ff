import AndInverter.Layering
import Mathlib.Data.List.Perm.Basic

/-! Peeling off layers. Every item is in one layer or blocked, an item comes after those it depends
on, and nothing is blocked where dependencies go down. -/

namespace AndInverter.Layering

variable {α : Type}

/-- Each item comes after all it depends on, of which those in `done` are there from the start. -/
def InOrder (deps : α → List α) : (done items : List α) → Prop
  | _, [] => True
  | done, item :: items => (∀ d ∈ deps item, d ∈ done) ∧ InOrder deps (item :: done) items

theorem InOrder.mono {deps : α → List α} {done done' items : List α} (order : InOrder deps done items)
    (sub : ∀ d ∈ done, d ∈ done') : InOrder deps done' items := by
  induction items generalizing done done' with
  | nil => trivial
  | cons item items ih =>
    refine ⟨fun d hd => sub d (order.1 d hd), ih order.2 fun d hd => ?_⟩
    rcases List.mem_cons.1 hd with rfl | hd
    · exact List.mem_cons_self
    · exact List.mem_cons_of_mem _ (sub d hd)

/-- Items without further dependencies can stand first, in any order. -/
theorem InOrder.append {deps : α → List α} {done layer items : List α}
    (ready : ∀ item ∈ layer, ∀ d ∈ deps item, d ∈ done)
    (order : InOrder deps (done ++ layer) items) : InOrder deps done (layer ++ items) := by
  induction layer generalizing done with
  | nil => simpa using order
  | cons item layer ih =>
    refine ⟨ready item List.mem_cons_self, ih (fun i hi d hd => ?_) (order.mono fun d hd => ?_)⟩
    · exact List.mem_cons_of_mem _ (ready i (List.mem_cons_of_mem _ hi) d hd)
    · simp only [List.cons_append, List.mem_append, List.mem_cons] at hd ⊢
      exact or_left_comm.1 hd

/-- The first layer, and what waits after it. -/
def ready (waiting : List (α × List α)) : List α := (waiting.filter (·.2.isEmpty)).map (·.1)

theorem mem_ready_iff {waiting : List (α × List α)} {item : α} :
    item ∈ ready waiting ↔ (item, []) ∈ waiting := by
  simp [ready, List.isEmpty_iff]

/-- If items wait only for waiting items of lower rank, one of them waits for nothing. -/
theorem exists_mem_ready {rank : α → Nat} {waiting : List (α × List α)}
    (down : ∀ item ds, (item, ds) ∈ waiting → ∀ d ∈ ds,
      rank d < rank item ∧ ∃ ds', (d, ds') ∈ waiting) (hne : waiting ≠ []) :
    ∃ item, item ∈ ready waiting := by
  have below (n : Nat) : ∀ item ds, (item, ds) ∈ waiting → rank item < n →
      ∃ item, item ∈ ready waiting := by
    induction n with
    | zero => exact fun _ _ _ h => absurd h (Nat.not_lt_zero _)
    | succ n ih =>
      intro item ds hmem hlt
      cases ds with
      | nil => exact ⟨item, mem_ready_iff.2 hmem⟩
      | cons d ds =>
        obtain ⟨hrank, ds', hd⟩ := down item (d :: ds) hmem d List.mem_cons_self
        exact ih d ds' hd (by omega)
  obtain ⟨⟨item, ds⟩, hmem⟩ := List.exists_mem_of_ne_nil waiting hne
  exact below _ item ds hmem (Nat.lt_succ_self _)

variable [BEq α]

def rest (waiting : List (α × List α)) : List (α × List α) :=
  (waiting.filter (!·.2.isEmpty)).map fun (item, deps) =>
    (item, deps.filter (!(ready waiting).contains ·))

theorem peel_succ (fuel : Nat) (waiting : List (α × List α)) : peel (fuel + 1) waiting =
    if (ready waiting).isEmpty then ⟨[], waiting⟩
    else ⟨ready waiting :: (peel fuel (rest waiting)).layers, (peel fuel (rest waiting)).blocked⟩ :=
  rfl

theorem map_fst_rest (waiting : List (α × List α)) :
    (rest waiting).map Prod.fst = (waiting.filter (!·.2.isEmpty)).map Prod.fst := by
  rw [rest, List.map_map]
  rfl

theorem ready_append_rest_perm (waiting : List (α × List α)) :
    (ready waiting ++ (rest waiting).map Prod.fst).Perm (waiting.map Prod.fst) := by
  rw [map_fst_rest, ready, ← List.map_append]
  exact (List.filter_append_perm _ waiting).map Prod.fst

/-- Every item is in one place. -/
theorem peel_perm (fuel : Nat) (waiting : List (α × List α)) :
    ((peel fuel waiting).layers.flatten ++ (peel fuel waiting).blocked.map Prod.fst).Perm
      (waiting.map Prod.fst) := by
  induction fuel generalizing waiting with
  | zero => simp [peel]
  | succ fuel ih =>
    rw [peel_succ]
    split
    · simp
    · rw [List.flatten_cons, List.append_assoc]
      exact ((ih (rest waiting)).append_left _).trans (ready_append_rest_perm waiting)

theorem mem_rest_iff {waiting : List (α × List α)} {item : α} {deps : List α} :
    (item, deps) ∈ rest waiting ↔ ∃ old, (item, old) ∈ waiting ∧ old ≠ [] ∧
      deps = old.filter (!(ready waiting).contains ·) := by
  simp only [rest, List.mem_map, List.mem_filter, Prod.exists, Prod.mk.injEq]
  constructor
  · rintro ⟨item, old, ⟨h, hne⟩, rfl, rfl⟩
    exact ⟨old, h, by simpa using hne, rfl⟩
  · rintro ⟨old, h, hne, rfl⟩
    exact ⟨item, old, ⟨h, by simpa using hne⟩, rfl, rfl⟩

/-- The layers after the first have the items that depend on something, each of them once. -/
theorem peel_drop_perm {fuel : Nat} {waiting : List (α × List α)}
    (blocked : (peel (fuel + 1) waiting).blocked = []) :
    ((peel (fuel + 1) waiting).layers.drop 1).flatten.Perm
      ((waiting.filter (!·.2.isEmpty)).map Prod.fst) := by
  rw [peel_succ] at blocked ⊢
  split
  next hready =>
    rw [if_pos hready] at blocked
    simp [show waiting = [] from blocked]
  next hready =>
    rw [if_neg hready] at blocked
    have := peel_perm fuel (rest waiting)
    rwa [show (peel fuel (rest waiting)).blocked = [] from blocked, List.map_nil, List.append_nil,
      map_fst_rest] at this

variable [LawfulBEq α]

/-- An item stands after all it depends on, where an item waits for what is not done yet. -/
theorem peel_inOrder {deps : α → List α} (fuel : Nat) {waiting : List (α × List α)} {done : List α}
    (waits : ∀ item ds, (item, ds) ∈ waiting → ∀ d ∈ deps item, d ∈ done ∨ d ∈ ds) :
    InOrder deps done (peel fuel waiting).layers.flatten := by
  induction fuel generalizing waiting done with
  | zero => trivial
  | succ fuel ih =>
    rw [peel_succ]
    split
    · trivial
    · refine .append (fun item hi d hd => ?_) (ih fun item ds h d hd => ?_)
      · exact (waits item [] (mem_ready_iff.1 hi) d hd).resolve_right List.not_mem_nil
      · obtain ⟨old, hold, -, rfl⟩ := mem_rest_iff.1 h
        rcases waits item old hold d hd with hdone | hwait
        · exact .inl (List.mem_append_left _ hdone)
        · by_cases hready : d ∈ ready waiting
          · exact .inl (List.mem_append_right _ hready)
          · exact .inr (List.mem_filter.2 ⟨hwait, by simpa using hready⟩)

theorem down_rest {rank : α → Nat} {waiting : List (α × List α)}
    (down : ∀ item ds, (item, ds) ∈ waiting → ∀ d ∈ ds,
      rank d < rank item ∧ ∃ ds', (d, ds') ∈ waiting) :
    ∀ item ds, (item, ds) ∈ rest waiting → ∀ d ∈ ds,
      rank d < rank item ∧ ∃ ds', (d, ds') ∈ rest waiting := by
  intro item ds hmem d hd
  obtain ⟨old, hold, -, rfl⟩ := mem_rest_iff.1 hmem
  obtain ⟨hd, hready⟩ := List.mem_filter.1 hd
  obtain ⟨hrank, ds', hd'⟩ := down item old hold d hd
  have hne : ds' ≠ [] := by
    rintro rfl
    simp [mem_ready_iff.2 hd'] at hready
  exact ⟨hrank, _, mem_rest_iff.2 ⟨ds', hd', hne, rfl⟩⟩

/-- Where dependencies go down, each round peels off an item at least, so none is left. -/
theorem peel_blocked (rank : α → Nat) (fuel : Nat) {waiting : List (α × List α)}
    (enough : waiting.length ≤ fuel)
    (down : ∀ item ds, (item, ds) ∈ waiting → ∀ d ∈ ds,
      rank d < rank item ∧ ∃ ds', (d, ds') ∈ waiting) :
    (peel fuel waiting).blocked = [] := by
  induction fuel generalizing waiting with
  | zero => simpa [peel] using enough
  | succ fuel ih =>
    rw [peel_succ]
    split
    next hready =>
      rw [List.isEmpty_iff] at hready
      refine Classical.byContradiction fun hne => ?_
      obtain ⟨item, hitem⟩ := exists_mem_ready down hne
      simp [hready] at hitem
    next hready =>
      refine ih ?_ (down_rest down)
      have hlen := (ready_append_rest_perm waiting).length_eq
      rw [List.length_append, List.length_map, List.length_map] at hlen
      have := List.length_pos_iff.2 (mt List.isEmpty_iff.2 hready)
      omega

/-- They are in order after the items that depend on nothing. -/
theorem peel_drop_inOrder {deps : α → List α} {fuel : Nat} {waiting : List (α × List α)}
    (waits : ∀ item ds, (item, ds) ∈ waiting → ∀ d ∈ deps item, d ∈ ds) :
    InOrder deps (ready waiting) ((peel (fuel + 1) waiting).layers.drop 1).flatten := by
  rw [peel_succ]
  split
  · trivial
  · refine peel_inOrder fuel fun item ds hmem d hd => ?_
    obtain ⟨old, hold, -, rfl⟩ := mem_rest_iff.1 hmem
    by_cases hready : d ∈ ready waiting
    · exact .inl hready
    · exact .inr (List.mem_filter.2 ⟨waits item old hold d hd, by simpa using hready⟩)

end AndInverter.Layering
