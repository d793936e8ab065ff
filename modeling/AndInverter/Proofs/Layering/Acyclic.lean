import AndInverter.Proofs.Layering
import Mathlib.Data.Finset.Card
import Mathlib.Data.List.Nodup
import Mathlib.Logic.Relation

/-! Layers and cycles. The layers of a relation have every item, each of them once and after those it
depends on, exactly where no item depends on itself. -/

namespace AndInverter

theorem nodup_eraseDups {α : Type} [BEq α] [LawfulBEq α] (xs : List α) : xs.eraseDups.Nodup := by
  match xs with
  | [] => simp
  | x :: xs =>
    rw [List.eraseDups_cons, List.nodup_cons]
    exact ⟨by simp, nodup_eraseDups _⟩
termination_by xs.length
decreasing_by
  have := List.length_filter_le (fun y => !y == x) xs
  simp only [List.length_cons]
  omega

namespace Layering

variable {α : Type}

/-! ### Lists in order -/

namespace InOrder

variable {deps : α → List α} {done items : List α}

/-- What holds of an item whenever it holds of all that the item depends on holds of all items. -/
theorem forall_mem {P : α → Prop} (order : InOrder deps done items) (start : ∀ d ∈ done, P d)
    (step : ∀ item ∈ items, (∀ d ∈ deps item, P d) → P item) : ∀ item ∈ items, P item := by
  induction items generalizing done with
  | nil => simp
  | cons item items ih =>
    have first : P item := step item List.mem_cons_self fun d hd => start d (order.1 d hd)
    intro x hx
    rcases List.mem_cons.1 hx with rfl | hx
    · exact first
    · refine ih order.2 ?_ (fun y hy => step y (List.mem_cons_of_mem _ hy)) x hx
      intro d hd
      rcases List.mem_cons.1 hd with rfl | hd
      · exact first
      · exact start d hd

/-- What an item depends on stands in front of it. -/
theorem mem_take (order : InOrder deps done items) {k : Nat} {item : α}
    (hk : items[k]? = some item) {d : α} (hd : d ∈ deps item) : d ∈ done ∨ d ∈ items.take k := by
  induction items generalizing done k with
  | nil => simp at hk
  | cons first items ih =>
    cases k with
    | zero =>
      obtain rfl : first = item := by simpa using hk
      exact .inl (order.1 d hd)
    | succ k =>
      rcases ih order.2 hk with hdone | hitems
      · rcases List.mem_cons.1 hdone with rfl | hdone
        · exact .inr (by simp)
        · exact .inl hdone
      · exact .inr (by simp [hitems])

/-- In a list in order nothing depends on itself. -/
theorem not_transGen (order : InOrder deps [] items) (once : items.Nodup) {r : α → α → Prop}
    (sub : ∀ v w, r v w → v ∈ items ∧ w ∈ deps v) (v : α) : ¬ Relation.TransGen r v v := by
  classical
  have step (v w : α) (h : r v w) : items.idxOf w < items.idxOf v := by
    obtain ⟨hv, hw⟩ := sub v w h
    have hlt := List.idxOf_lt_length_iff.2 hv
    have hat : items[items.idxOf v]? = some v := by
      rw [List.getElem?_eq_getElem hlt, List.getElem_idxOf hlt]
    have hmem := (order.mem_take hat hw).resolve_left List.not_mem_nil
    obtain ⟨k, hk, rfl⟩ := List.mem_take_iff_getElem.1 hmem
    rw [List.Nodup.idxOf_getElem once]
    omega
  have run (w : α) (h : Relation.TransGen r v w) : items.idxOf w < items.idxOf v := by
    induction h with
    | single h => exact step _ _ h
    | tail _ h ih => exact Nat.lt_trans (step _ _ h) ih
  exact fun h => Nat.lt_irrefl _ (run v h)

end InOrder

/-- Over finitely many items, a relation without cycles goes down in rank: count what is reached. -/
theorem exists_rank {r : α → α → Prop} (acyclic : ∀ v, ¬ Relation.TransGen r v v)
    (items : List α) : ∃ rank : α → Nat, ∀ v w, w ∈ items → r v w → rank w < rank v := by
  classical
  refine ⟨fun v => (items.toFinset.filter fun w => Relation.TransGen r v w).card, ?_⟩
  intro v w hw h
  refine Finset.card_lt_card (Finset.ssubset_iff_subset_ne.2 ⟨?_, ?_⟩)
  · intro u hu
    rw [Finset.mem_filter] at hu ⊢
    exact ⟨hu.1, .head h hu.2⟩
  · intro heq
    have here : w ∈ items.toFinset.filter fun u => Relation.TransGen r v u :=
      Finset.mem_filter.2 ⟨List.mem_toFinset.2 hw, .single h⟩
    rw [← heq] at here
    exact acyclic w (Finset.mem_filter.1 here).2

/-! ### The layers of a relation -/

variable [BEq α] {graph : List (α × List α)}

theorem fromLeaves_perm (graph : List (α × List α)) :
    ((fromLeaves graph).layers.flatten ++ (fromLeaves graph).blocked.map Prod.fst).Perm
      ((closed graph).map Prod.fst) :=
  peel_perm _ _

/-- If nothing is blocked, all items are in layers. -/
theorem mem_layers_of_blocked (blocked : (fromLeaves graph).blocked = []) {item : α} {ds : List α}
    (h : (item, ds) ∈ closed graph) : item ∈ (fromLeaves graph).layers.flatten := by
  have perm := fromLeaves_perm graph
  rw [blocked, List.map_nil, List.append_nil] at perm
  exact perm.mem_iff.2 (List.mem_map.2 ⟨_, h, rfl⟩)

variable [LawfulBEq α]

/-- The first item is listed with the second among those it depends on. -/
def Depends (graph : List (α × List α)) (v w : α) : Prop := ∃ ds, (v, ds) ∈ graph ∧ w ∈ ds

theorem mem_closed_iff {item : α} {ds : List α} : (item, ds) ∈ closed graph ↔
    (item, ds) ∈ graph ∨ ds = [] ∧ item ∉ graph.map Prod.fst ∧ ∃ v, Depends graph v item := by
  simp only [closed, List.mem_append, List.mem_map, List.mem_eraseDups, List.mem_filter,
    List.mem_flatMap, Prod.exists, Prod.mk.injEq, Depends, Bool.not_eq_true', List.contains_eq_mem,
    decide_eq_false_iff_not]
  refine or_congr_right ⟨?_, ?_⟩
  · rintro ⟨item, ⟨⟨v, vs, hv, hitem⟩, hnew⟩, rfl, rfl⟩
    exact ⟨rfl, hnew, v, vs, hv, hitem⟩
  · rintro ⟨rfl, hnew, v, vs, hv, hitem⟩
    exact ⟨item, ⟨⟨v, vs, hv, hitem⟩, hnew⟩, rfl, rfl⟩

theorem depends_closed {v w : α} : Depends (closed graph) v w ↔ Depends graph v w := by
  constructor
  · rintro ⟨ds, hv, hw⟩
    rcases mem_closed_iff.1 hv with hv | ⟨rfl, -⟩
    · exact ⟨ds, hv, hw⟩
    · cases hw
  · rintro ⟨ds, hv, hw⟩
    exact ⟨ds, mem_closed_iff.2 (.inl hv), hw⟩

/-- What is depended on is an item. -/
theorem exists_mem_closed {v w : α} (h : Depends graph v w) : ∃ ds, (w, ds) ∈ closed graph := by
  by_cases hw : w ∈ graph.map Prod.fst
  · obtain ⟨⟨w, ds⟩, hmem, rfl⟩ := List.mem_map.1 hw
    exact ⟨ds, mem_closed_iff.2 (.inl hmem)⟩
  · exact ⟨[], mem_closed_iff.2 (.inr ⟨rfl, hw, v, h⟩)⟩

theorem nodup_closed (once : (graph.map Prod.fst).Nodup) : ((closed graph).map Prod.fst).Nodup := by
  rw [closed, List.map_append, List.map_map]
  refine once.append ?_ ?_
  · rw [show Prod.fst ∘ (fun item : α => (item, ([] : List α))) = id from rfl, List.map_id]
    exact nodup_eraseDups _
  · intro item hitem hleaf
    simp only [List.mem_map, List.mem_eraseDups, List.mem_filter, Function.comp_apply] at hleaf
    obtain ⟨_, ⟨-, hnew⟩, rfl⟩ := hleaf
    simp [hitem] at hnew

/-- The layers list no item twice. -/
theorem nodup_layers (once : (graph.map Prod.fst).Nodup) :
    (fromLeaves graph).layers.flatten.Nodup :=
  ((fromLeaves_perm graph).nodup_iff.2 (nodup_closed once)).sublist (List.sublist_append_left _ _)

/-- Every item is in a layer after those of all it depends on. -/
theorem layers_inOrder {deps : α → List α}
    (waits : ∀ item ds, (item, ds) ∈ closed graph → ∀ d ∈ deps item, d ∈ ds) :
    InOrder deps [] (fromLeaves graph).layers.flatten :=
  peel_inOrder _ fun item ds h d hd => .inr (waits item ds h d hd)

/-- Nothing is blocked where no item depends on itself. -/
theorem blocked_eq_nil (acyclic : ∀ v, ¬ Relation.TransGen (Depends graph) v v) :
    (fromLeaves graph).blocked = [] := by
  obtain ⟨rank, down⟩ := exists_rank acyclic ((closed graph).map Prod.fst)
  refine peel_blocked rank _ (Nat.le_refl _) ?_
  intro item ds hitem d hd
  have depends : Depends graph item d := depends_closed.1 ⟨ds, hitem, hd⟩
  obtain ⟨ds', hd'⟩ := exists_mem_closed depends
  exact ⟨down item d (List.mem_map.2 ⟨_, hd', rfl⟩) depends, ds', hd'⟩

end Layering

end AndInverter
