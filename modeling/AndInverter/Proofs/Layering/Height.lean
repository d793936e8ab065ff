import AndInverter.Proofs.Layering.Levels
import Mathlib.Data.Nat.SuccPred
import Mathlib.Order.SuccPred.Archimedean

/-! Heights. The height of an item is the length of the longest chain of dependencies that starts
from it. An item has a height exactly if no such chain reaches a cycle, and peeling off layers puts
the items of height `k` into layer `k`. -/

namespace AndInverter.Layering

variable {α : Type} {r : α → α → Prop} {v w : α}

/-! ### Chains -/

/-- A chain of `n` steps leads from the first item to the second. -/
inductive Chain (r : α → α → Prop) : Nat → α → α → Prop where
  | nil (v : α) : Chain r 0 v v
  | cons {n : Nat} {v w u : α} : r v w → Chain r n w u → Chain r (n + 1) v u

def HasChain (r : α → α → Prop) (v : α) (n : Nat) : Prop := ∃ w, Chain r n v w

/-- The longest chains from the item have `k` steps. -/
def IsHeight (r : α → α → Prop) (v : α) (k : Nat) : Prop := IsGreatest {n | HasChain r v n} k

/-- No chain from the item reaches a cycle. -/
def Clear (r : α → α → Prop) (v : α) : Prop :=
  ∀ w, Relation.ReflTransGen r v w → ¬ Relation.TransGen r w w

theorem hasChain_zero (r : α → α → Prop) (v : α) : HasChain r v 0 := ⟨v, .nil v⟩

theorem hasChain_succ_iff {n : Nat} : HasChain r v (n + 1) ↔ ∃ w, r v w ∧ HasChain r w n := by
  constructor
  · rintro ⟨u, h⟩
    cases h with
    | cons first later => exact ⟨_, first, u, later⟩
  · rintro ⟨w, first, u, later⟩
    exact ⟨u, .cons first later⟩

theorem Chain.snoc {n : Nat} {u : α} (h : Chain r n v w) (last : r w u) : Chain r (n + 1) v u := by
  induction h with
  | nil v => exact .cons last (.nil u)
  | cons first _ ih => exact .cons first (ih last)

theorem isHeight_zero_iff : IsHeight r v 0 ↔ ∀ w, ¬ r v w := by
  constructor
  · intro h w hw
    exact Nat.not_succ_le_zero 0 (h.2 (hasChain_succ_iff.2 ⟨w, hw, hasChain_zero r w⟩))
  · refine fun h => ⟨hasChain_zero r v, fun n hn => ?_⟩
    cases n with
    | zero => exact Nat.le_refl 0
    | succ n =>
      obtain ⟨w, hw, -⟩ := hasChain_succ_iff.1 hn
      exact absurd hw (h w)

/-- Where each item of a set has a step to another one, chains have any length. -/
theorem hasChain_of_step {P : α → Prop} (step : ∀ v, P v → ∃ w, r v w ∧ P w) (n : Nat) (hv : P v) :
    HasChain r v n := by
  induction n generalizing v with
  | zero => exact hasChain_zero r v
  | succ n ih =>
    obtain ⟨w, hvw, hw⟩ := step v hv
    exact hasChain_succ_iff.2 ⟨w, hvw, ih hw⟩

theorem not_isHeight_of_step {P : α → Prop} (step : ∀ v, P v → ∃ w, r v w ∧ P w) (hv : P v)
    (k : Nat) : ¬ IsHeight r v k :=
  fun h => Nat.not_succ_le_self k (h.2 (hasChain_of_step step (k + 1) hv))

/-- An item from which a cycle is reached has a step to such an item. -/
theorem exists_step_to_cycle (hv : ¬ Clear r v) : ∃ w, r v w ∧ ¬ Clear r w := by
  simp only [Clear, not_forall, not_not] at hv ⊢
  obtain ⟨u, reach, cycle⟩ := hv
  rcases Relation.ReflTransGen.cases_head reach with rfl | ⟨w, first, later⟩
  · obtain ⟨w, first, later⟩ := Relation.TransGen.head'_iff.1 cycle
    exact ⟨w, first, w, .refl, .tail' later first⟩
  · exact ⟨w, first, u, later, cycle⟩

theorem IsHeight.clear {k : Nat} (h : IsHeight r v k) : Clear r v :=
  Classical.byContradiction fun hv =>
    not_isHeight_of_step (fun _ => exists_step_to_cycle) hv k h

/-- Chains are no longer than the rank of their first item. -/
theorem HasChain.le_rank {rank : α → Nat} (down : ∀ v w, r v w → rank w < rank v) {n : Nat}
    (h : HasChain r v n) : n ≤ rank v := by
  induction n generalizing v with
  | zero => exact Nat.zero_le _
  | succ n ih =>
    obtain ⟨w, hvw, hw⟩ := hasChain_succ_iff.1 h
    exact Nat.lt_of_le_of_lt (ih hw) (down v w hvw)

theorem exists_isHeight_of_le {bound : Nat} (le : ∀ n, HasChain r v n → n ≤ bound) :
    ∃ k, IsHeight r v k :=
  BddAbove.exists_isGreatest_of_nonempty ⟨bound, le⟩ ⟨0, hasChain_zero r v⟩

theorem HasChain.reached {u : α} {n : Nat} (reach : Relation.ReflTransGen r u v)
    (h : HasChain r v n) : HasChain (fun a b => r a b ∧ Relation.ReflTransGen r u a) v n := by
  induction n generalizing v with
  | zero => exact hasChain_zero _ v
  | succ n ih =>
    obtain ⟨w, hvw, hw⟩ := hasChain_succ_iff.1 h
    exact hasChain_succ_iff.2 ⟨w, ⟨hvw, reach⟩, ih (reach.tail hvw) hw⟩

/-- Over finitely many items, one that is clear of cycles has a height. -/
theorem Clear.exists_isHeight {items : List α} (fin : ∀ v w, r v w → w ∈ items) (clear : Clear r v) :
    ∃ k, IsHeight r v k := by
  -- Only what is reached from the item is known to be on no cycle.
  let reached : α → α → Prop := fun a b => r a b ∧ Relation.ReflTransGen r v a
  have acyclic (u : α) : ¬ Relation.TransGen reached u u := by
    intro cycle
    obtain ⟨w, first, -⟩ := Relation.TransGen.head'_iff.1 cycle
    exact clear u first.2 (cycle.lift id fun _ _ h => h.1)
  obtain ⟨rank, down⟩ := exists_rank acyclic items
  exact exists_isHeight_of_le fun n hn =>
    (hn.reached .refl).le_rank fun a b h => down a b (fin a b h.1) h

/-- A longest chain ends where no step is left. -/
theorem IsHeight.to_end {k : Nat} (h : IsHeight r v k) :
    IsGreatest {n | ∃ w, (∀ u, ¬ r w u) ∧ Chain r n v w} k := by
  obtain ⟨w, hw⟩ := h.1
  refine ⟨⟨w, fun u hu => ?_, hw⟩, ?_⟩
  · exact Nat.not_succ_le_self k (h.2 ⟨u, hw.snoc hu⟩)
  · rintro n ⟨w, -, hn⟩
    exact h.2 ⟨w, hn⟩

/-! ### Heights in what waits -/

variable {waiting : List (α × List α)}

theorem depends_iff_of_mem (once : (waiting.map Prod.fst).Nodup) {ds : List α}
    (hv : (v, ds) ∈ waiting) : Depends waiting v w ↔ w ∈ ds := by
  refine ⟨?_, fun hw => ⟨ds, hv, hw⟩⟩
  rintro ⟨ds', hv', hw⟩
  rwa [(Prod.mk.inj (List.inj_on_of_nodup_map once hv hv' rfl)).2]

theorem exists_depends_iff (once : (waiting.map Prod.fst).Nodup) (hv : v ∈ waiting.map Prod.fst) :
    (∃ w, Depends waiting v w) ↔ v ∉ ready waiting := by
  obtain ⟨⟨v, ds⟩, hmem, rfl⟩ := List.mem_map.1 hv
  simp only [depends_iff_of_mem once hmem]
  constructor
  · rintro ⟨w, hw⟩
    exact not_mem_ready once hmem (List.ne_nil_of_mem hw)
  · refine fun hready => List.exists_mem_of_ne_nil ds ?_
    rintro rfl
    exact hready (mem_ready_iff.2 hmem)

variable [BEq α] [LawfulBEq α]

theorem depends_rest_iff : Depends (rest waiting) v w ↔ Depends waiting v w ∧ w ∉ ready waiting := by
  constructor
  · rintro ⟨ds, hv, hw⟩
    obtain ⟨old, hold, -, rfl⟩ := mem_rest_iff.1 hv
    obtain ⟨hw, hready⟩ := List.mem_filter.1 hw
    exact ⟨⟨old, hold, hw⟩, by simpa using hready⟩
  · rintro ⟨⟨ds, hv, hw⟩, hready⟩
    refine ⟨_, mem_rest_iff.2 ⟨ds, hv, List.ne_nil_of_mem hw, rfl⟩, ?_⟩
    exact List.mem_filter.2 ⟨hw, by simpa using hready⟩

omit [LawfulBEq α] in
/-- What still waits is what is not ready. -/
theorem mem_map_rest_iff (once : (waiting.map Prod.fst).Nodup) :
    v ∈ (rest waiting).map Prod.fst ↔ v ∈ waiting.map Prod.fst ∧ v ∉ ready waiting := by
  have perm := ready_append_rest_perm waiting
  have apart := (List.nodup_append.1 (perm.nodup_iff.2 once)).2.2
  rw [← perm.mem_iff, List.mem_append]
  constructor
  · exact fun h => ⟨.inr h, fun hready => apart v hready v h rfl⟩
  · exact fun ⟨h, hready⟩ => h.resolve_left hready

/-- Chains of what still waits are one step shorter. -/
theorem hasChain_rest_iff (once : (waiting.map Prod.fst).Nodup)
    (items : ∀ v w, Depends waiting v w → w ∈ waiting.map Prod.fst) (hv : v ∈ waiting.map Prod.fst)
    (n : Nat) : HasChain (Depends waiting) v (n + 1) ↔
      v ∉ ready waiting ∧ HasChain (Depends (rest waiting)) v n := by
  induction n generalizing v with
  | zero =>
    rw [hasChain_succ_iff, ← exists_depends_iff once hv]
    simp only [hasChain_zero, and_true]
  | succ n ih =>
    rw [hasChain_succ_iff, hasChain_succ_iff (r := Depends (rest waiting)),
      ← exists_depends_iff once hv]
    simp only [depends_rest_iff, and_assoc]
    constructor
    · rintro ⟨w, hvw, hw⟩
      exact ⟨⟨w, hvw⟩, w, hvw, (ih (items v w hvw)).1 hw⟩
    · rintro ⟨-, w, hvw, hw⟩
      exact ⟨w, hvw, (ih (items v w hvw)).2 hw⟩

theorem isHeight_rest_iff (once : (waiting.map Prod.fst).Nodup)
    (items : ∀ v w, Depends waiting v w → w ∈ waiting.map Prod.fst) (hv : v ∈ waiting.map Prod.fst)
    (k : Nat) : IsHeight (Depends waiting) v (k + 1) ↔
      v ∉ ready waiting ∧ IsHeight (Depends (rest waiting)) v k := by
  have shorter := hasChain_rest_iff once items hv
  constructor
  · intro h
    obtain ⟨hready, hk⟩ := (shorter k).1 h.1
    exact ⟨hready, hk, fun n hn => Nat.le_of_succ_le_succ (h.2 ((shorter n).2 ⟨hready, hn⟩))⟩
  · rintro ⟨hready, hk, le⟩
    refine ⟨(shorter k).2 ⟨hready, hk⟩, fun n hn => ?_⟩
    cases n with
    | zero => exact Nat.zero_le _
    | succ n => exact Nat.succ_le_succ (le ((shorter n).1 hn).2)

/-- Layer `k` has the items of height `k`. -/
theorem mem_peel_iff (fuel : Nat) (once : (waiting.map Prod.fst).Nodup)
    (items : ∀ v w, Depends waiting v w → w ∈ waiting.map Prod.fst)
    (enough : waiting.length ≤ fuel) (k : Nat) :
    v ∈ (peel fuel waiting).layers.getD k [] ↔
      v ∈ waiting.map Prod.fst ∧ IsHeight (Depends waiting) v k := by
  induction fuel generalizing waiting k with
  | zero =>
    obtain rfl : waiting = [] := List.length_eq_zero_iff.1 (Nat.le_zero.1 enough)
    simp [peel]
  | succ fuel ih =>
    rw [peel_succ]
    split
    next none =>
      -- Every item waits for another one, so chains have any length.
      have step (u : α) (hu : u ∈ waiting.map Prod.fst) :
          ∃ w, Depends waiting u w ∧ w ∈ waiting.map Prod.fst := by
        have hready : u ∉ ready waiting := by simp [List.isEmpty_iff.1 none]
        obtain ⟨w, hw⟩ := (exists_depends_iff once hu).2 hready
        exact ⟨w, hw, items u w hw⟩
      simpa using fun hv => not_isHeight_of_step step hv k
    next some =>
      cases k with
      | zero =>
        rw [List.getD_cons_zero, isHeight_zero_iff]
        constructor
        · intro hready
          have hv : v ∈ waiting.map Prod.fst := List.mem_map.2 ⟨_, mem_ready_iff.1 hready, rfl⟩
          exact ⟨hv, fun w hw => (exists_depends_iff once hv).1 ⟨w, hw⟩ hready⟩
        · rintro ⟨hv, h⟩
          refine Classical.byContradiction fun hready => ?_
          obtain ⟨w, hw⟩ := (exists_depends_iff once hv).2 hready
          exact h w hw
      | succ k =>
        have hlen := (ready_append_rest_perm waiting).length_eq
        rw [List.length_append, List.length_map, List.length_map] at hlen
        have pos := List.length_pos_iff.2 (mt List.isEmpty_iff.2 some)
        have itemsRest (u w : α) (h : Depends (rest waiting) u w) :
            w ∈ (rest waiting).map Prod.fst := by
          obtain ⟨huw, hready⟩ := depends_rest_iff.1 h
          exact (mem_map_rest_iff once).2 ⟨items u w huw, hready⟩
        rw [List.getD_cons_succ, ih (nodup_rest once) itemsRest (by omega), mem_map_rest_iff once,
          and_assoc]
        exact and_congr_right fun hv => (isHeight_rest_iff once items hv k).symm

end AndInverter.Layering
