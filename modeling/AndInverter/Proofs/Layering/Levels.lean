import AndInverter.Proofs.Layering.Acyclic

/-! The level of an item is the number of its layer: that of an item which depends on nothing is `0`,
that of any other one greater than the greatest level among those it depends on. The layers one after
the other list the items by level, and within a level as they are given. -/

namespace AndInverter.Layering

variable {α : Type}

/-- An item is above all it depends on, and just above one of them unless it has level `0`. -/
structure IsLevel (graph : List (α × List α)) (level : α → Nat) : Prop where
  below : ∀ item ds, (item, ds) ∈ graph → ∀ d ∈ ds, level d < level item
  step : ∀ item ds, (item, ds) ∈ graph → level item ≠ 0 → ∃ d ∈ ds, level item = level d + 1

/-- By level first, then as `r` says. -/
def ByLevel (level : α → Nat) (r : α → α → Prop) (v w : α) : Prop :=
  level v < level w ∨ level v = level w ∧ r v w

theorem isLevel_nil (level : α → Nat) : IsLevel [] level := ⟨by simp, by simp⟩

variable {waiting : List (α × List α)} {layers : List (List α)} {item : α}

/-- What waits for something is not ready. -/
theorem not_mem_ready (once : (waiting.map Prod.fst).Nodup) {ds : List α}
    (h : (item, ds) ∈ waiting) (hne : ds ≠ []) : item ∉ ready waiting := by
  intro hready
  have := List.inj_on_of_nodup_map once h (mem_ready_iff.1 hready) rfl
  exact hne (Prod.mk.inj this).2

variable [BEq α]

/-- The number of the layer with the item. -/
def level (layers : List (List α)) (item : α) : Nat := layers.findIdx (·.contains item)

theorem nodup_rest (once : (waiting.map Prod.fst).Nodup) :
    ((rest waiting).map Prod.fst).Nodup := by
  rw [map_fst_rest]
  exact once.sublist (List.filter_sublist.map _)

variable [LawfulBEq α]

theorem level_of_mem {layer : List α} (h : item ∈ layer) : level (layer :: layers) item = 0 := by
  simp [level, List.findIdx_cons, h]

theorem level_of_not_mem {layer : List α} (h : item ∉ layer) :
    level (layer :: layers) item = level layers item + 1 := by
  simp [level, List.findIdx_cons, h]

/-- Levels after the first layer are one less than those of the whole. -/
theorem IsLevel.cons (once : (waiting.map Prod.fst).Nodup)
    (later : IsLevel (rest waiting) (level layers)) :
    IsLevel waiting (level (ready waiting :: layers)) := by
  have inRest {item : α} {ds : List α} (h : (item, ds) ∈ waiting) (hne : ds ≠ []) :
      (item, ds.filter (!(ready waiting).contains ·)) ∈ rest waiting :=
    mem_rest_iff.2 ⟨ds, h, hne, rfl⟩
  have inFilter {d : α} {ds : List α} (hd : d ∈ ds) (hready : d ∉ ready waiting) :
      d ∈ ds.filter (!(ready waiting).contains ·) := by
    simp [hd, hready]
  constructor
  · intro item ds h d hd
    have hne := List.ne_nil_of_mem hd
    rw [level_of_not_mem (not_mem_ready once h hne)]
    by_cases hready : d ∈ ready waiting
    · rw [level_of_mem hready]
      exact Nat.succ_pos _
    · rw [level_of_not_mem hready]
      exact Nat.succ_lt_succ (later.below item _ (inRest h hne) d (inFilter hd hready))
  · intro item ds h hlevel
    have hitem : item ∉ ready waiting := fun hready => hlevel (level_of_mem hready)
    have hne : ds ≠ [] := by
      rintro rfl
      exact hitem (mem_ready_iff.2 h)
    rw [level_of_not_mem hitem]
    by_cases hzero : level layers item = 0
    · -- It waits for nothing after the first layer, so all it depends on is in there.
      obtain ⟨d, hd⟩ := List.exists_mem_of_ne_nil ds hne
      have hready : d ∈ ready waiting := by
        refine Classical.byContradiction fun hready => ?_
        have := later.below item _ (inRest h hne) d (inFilter hd hready)
        omega
      exact ⟨d, hd, by rw [level_of_mem hready, hzero]⟩
    · obtain ⟨d, hd, heq⟩ := later.step item _ (inRest h hne) hzero
      obtain ⟨hd, hready⟩ := List.mem_filter.1 hd
      have hready : d ∉ ready waiting := by simpa using hready
      exact ⟨d, hd, by rw [level_of_not_mem hready, heq]⟩

theorem peel_isLevel (fuel : Nat) (once : (waiting.map Prod.fst).Nodup)
    (blocked : (peel fuel waiting).blocked = []) :
    IsLevel waiting (level (peel fuel waiting).layers) := by
  induction fuel generalizing waiting with
  | zero =>
    obtain rfl : waiting = [] := blocked
    exact isLevel_nil _
  | succ fuel ih =>
    rw [peel_succ] at blocked ⊢
    split
    next hready =>
      rw [if_pos hready] at blocked
      obtain rfl : waiting = [] := blocked
      exact isLevel_nil _
    next hready =>
      rw [if_neg hready] at blocked
      exact .cons once (ih (nodup_rest once) blocked)

/-- Layer by layer, items stand by level. -/
theorem peel_pairwise {r : α → α → Prop} (fuel : Nat) (once : (waiting.map Prod.fst).Nodup)
    (given : (waiting.map Prod.fst).Pairwise r) :
    (peel fuel waiting).layers.flatten.Pairwise (ByLevel (level (peel fuel waiting).layers) r) := by
  induction fuel generalizing waiting with
  | zero => exact .nil
  | succ fuel ih =>
    rw [peel_succ]
    split
    · exact .nil
    · have later : ∀ item ∈ (peel fuel (rest waiting)).layers.flatten, item ∉ ready waiting := by
        intro item hitem hready
        have hrest := (peel_perm fuel (rest waiting)).mem_iff.1 (List.mem_append_left _ hitem)
        have apart := (List.nodup_append.1 ((ready_append_rest_perm waiting).nodup_iff.2 once)).2.2
        exact apart item hready item hrest rfl
      have givenRest : ((rest waiting).map Prod.fst).Pairwise r := by
        rw [map_fst_rest]
        exact given.sublist (List.filter_sublist.map _)
      have givenReady : (ready waiting).Pairwise r := given.sublist (List.filter_sublist.map _)
      rw [List.flatten_cons]
      apply List.pairwise_append.2
      refine ⟨?_, ?_, ?_⟩
      · refine givenReady.imp_of_mem fun hv hw h => .inr ⟨?_, h⟩
        rw [level_of_mem hv, level_of_mem hw]
      · refine (ih (nodup_rest once) givenRest).imp_of_mem fun hv hw h => ?_
        rw [ByLevel, level_of_not_mem (later _ hv), level_of_not_mem (later _ hw)]
        exact h.imp Nat.succ_lt_succ fun h => ⟨congrArg Nat.succ h.1, h.2⟩
      · intro v hv w hw
        rw [ByLevel, level_of_mem hv, level_of_not_mem (later w hw)]
        exact .inl (Nat.succ_pos _)

/-- Items that are added stand after those of the relation. -/
theorem closed_pairwise {graph : List (α × List α)} {r : α → α → Prop}
    (given : (graph.map Prod.fst).Pairwise r)
    (added : ∀ v w, v ∉ graph.map Prod.fst ∨ w ∉ graph.map Prod.fst → r v w) :
    ((closed graph).map Prod.fst).Pairwise r := by
  rw [closed, List.map_append]
  have new (item : α) (h : item ∈ (((graph.flatMap Prod.snd).filter
      (!(graph.map Prod.fst).contains ·)).eraseDups.map fun item => (item, ([] : List α))).map
      Prod.fst) : item ∉ graph.map Prod.fst := by
    simp only [List.mem_map, List.mem_eraseDups, List.mem_filter] at h
    obtain ⟨_, ⟨_, ⟨-, hnew⟩, rfl⟩, rfl⟩ := h
    simpa using hnew
  apply List.pairwise_append.2
  refine ⟨given, ?_, ?_⟩
  · exact List.pairwise_of_forall_mem_list fun v hv w _ => added v w (.inl (new v hv))
  · intro v _ w hw
    exact added v w (.inr (new w hw))

end AndInverter.Layering
