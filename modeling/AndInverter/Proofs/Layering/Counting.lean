import AndInverter.Proofs.Layering.Layered
import Mathlib.Logic.Function.Basic

/-! Layers by counting. Each item that has to wait has a count of the edges to it from items that are
still to come. The items of a layer are gone through one by one, and for each edge from one of them
the count at its other end goes down; an item whose count gets to zero is in the next layer. In
whatever order edges and items come, this ends, and its layers are those that are peeled off. -/

namespace AndInverter.Layering

variable {α : Type}

structure Counting (α : Type) where
  /-- For each item that waits, the number of edges to it from items that are still to come. -/
  blocked : α → Option Nat
  successors : α → List α
  ready : List α

namespace Counting

def take (c : Counting α) : Counting α := { c with ready := [] }

@[simp] theorem take_blocked (c : Counting α) : c.take.blocked = c.blocked := rfl

@[simp] theorem take_successors (c : Counting α) : c.take.successors = c.successors := rfl

@[simp] theorem take_ready (c : Counting α) : c.take.ready = [] := rfl

section Definitions

variable [DecidableEq α]

def addEdge (c : Counting α) (edge : α × α) : Counting α :=
  let counted := Function.update c.blocked edge.2 (some ((c.blocked edge.2).getD 0 + 1))
  { c with
    blocked := Function.update counted edge.1 (some ((counted edge.1).getD 0))
    successors := Function.update c.successors edge.1 (c.successors edge.1 ++ [edge.2]) }

def ofNodes (nodes : List α) : Counting α :=
  ⟨fun x => if x ∈ nodes then some 0 else none, fun _ => [], []⟩

/-- Counts of all nodes and ends of edges, where `items` is the order in which items are listed. -/
def ofEdges (nodes : List α) (edges : List (α × α)) (items : List α) : Counting α :=
  let counted := edges.foldl addEdge (ofNodes nodes)
  { counted with
    blocked := fun x => (counted.blocked x).filter (0 < ·)
    ready := items.filter (counted.blocked · = some 0) }

/-- An edge to the item is from one that has come. -/
def release (c : Counting α) (item : α) : Counting α :=
  match c.blocked item with
  | none => c
  | some n =>
    if n - 1 = 0 then
      { c with blocked := Function.update c.blocked item none, ready := c.ready ++ [item] }
    else
      { c with blocked := Function.update c.blocked item (some (n - 1)) }

def forget (c : Counting α) (item : α) : Counting α :=
  { c with successors := Function.update c.successors item [] }

/-- The item comes: all edges from it are released, and not kept. -/
def emit (c : Counting α) (item : α) : Counting α :=
  (c.successors item).foldl release (c.forget item)

/-- The next layer, unless there is none. -/
def next (c : Counting α) : Option (List α × Counting α) :=
  if c.ready.isEmpty then none else some (c.ready, c.ready.foldl emit c.take)

/-- All layers one after the other, until there is no next one. -/
inductive Runs : Counting α → List (List α) → Counting α → Prop where
  | done {c : Counting α} : c.next = none → Runs c [] c
  | step {c d e : Counting α} {layer : List α} {layers : List (List α)} :
      c.next = some (layer, d) → Runs d layers e → Runs c (layer :: layers) e

end Definitions

/-- Some items have not come. -/
def Cyclic (c : Counting α) : Prop := ∃ item n, c.blocked item = some n

/-- What is ready does not wait, and what waits does so for something. -/
structure Valid (c : Counting α) : Prop where
  pos : ∀ item n, c.blocked item = some n → 0 < n
  nodup : c.ready.Nodup
  apart : ∀ item ∈ c.ready, c.blocked item = none

variable [DecidableEq α] {c : Counting α}

/-! ### One edge -/

theorem release_of_none {item : α} (h : c.blocked item = none) : c.release item = c := by
  simp [release, h]

theorem release_of_one {item : α} (h : c.blocked item = some 1) : c.release item =
    { c with blocked := Function.update c.blocked item none, ready := c.ready ++ [item] } := by
  simp [release, h]

theorem release_of_more {item : α} {n : Nat} (h : c.blocked item = some (n + 2)) :
    c.release item = { c with blocked := Function.update c.blocked item (some (n + 1)) } := by
  simp [release, h]

/-- The three cases of a release. -/
theorem release_cases (valid : c.Valid) (item : α) :
    c.blocked item = none ∧ c.release item = c ∨
    c.blocked item = some 1 ∧ c.release item =
      { c with blocked := Function.update c.blocked item none, ready := c.ready ++ [item] } ∨
    ∃ n, c.blocked item = some (n + 2) ∧
      c.release item = { c with blocked := Function.update c.blocked item (some (n + 1)) } := by
  match h : c.blocked item with
  | none => exact .inl ⟨rfl, release_of_none h⟩
  | some 0 => exact absurd (valid.pos item 0 h) (Nat.lt_irrefl 0)
  | some 1 => exact .inr (.inl ⟨rfl, release_of_one h⟩)
  | some (n + 2) => exact .inr (.inr ⟨n, rfl, release_of_more h⟩)

theorem Valid.release (valid : c.Valid) (item : α) : (c.release item).Valid := by
  obtain ⟨-, heq⟩ | ⟨hone, heq⟩ | ⟨n, hmore, heq⟩ := release_cases valid item
  · rwa [heq]
  · rw [heq]
    refine ⟨fun x m hx => ?_, ?_, fun x hx => ?_⟩
    · rcases eq_or_ne x item with rfl | hne
      · simp at hx
      · exact valid.pos x m (by simpa [hne] using hx)
    · refine List.nodup_append.2 ⟨valid.nodup, List.nodup_singleton item, fun x hx y hy hxy => ?_⟩
      obtain rfl : y = item := List.mem_singleton.1 hy
      rw [hxy] at hx
      simp [valid.apart y hx] at hone
    · rcases eq_or_ne x item with rfl | hne
      · simp
      · have : x ∈ c.ready := by simpa [hne] using hx
        simpa [hne] using valid.apart x this
  · rw [heq]
    refine ⟨fun x m hx => ?_, valid.nodup, fun x hx => ?_⟩
    · rcases eq_or_ne x item with rfl | hne
      · simp at hx
        omega
      · exact valid.pos x m (by simpa [hne] using hx)
    · have hne : x ≠ item := by
        rintro rfl
        simp [valid.apart x hx] at hmore
      simpa [hne] using valid.apart x hx

theorem blocked_release (valid : c.Valid) (item x : α) (n : Nat) :
    (c.release item).blocked x = some n ↔
      0 < n ∧ c.blocked x = some (n + if item = x then 1 else 0) := by
  have pos : c.blocked x = some n → 0 < n := valid.pos x n
  obtain ⟨hnone, heq⟩ | ⟨hone, heq⟩ | ⟨m, hmore, heq⟩ := release_cases valid item
  all_goals
    rw [heq]
    rcases eq_or_ne item x with rfl | hne
  · simp [hnone]
  · simpa [hne] using pos
  · simp [hone]
    omega
  · simpa [hne, hne.symm] using pos
  · simp [hmore]
    omega
  · simpa [hne, hne.symm] using pos

theorem mem_ready_release (valid : c.Valid) (item x : α) :
    x ∈ (c.release item).ready ↔ x ∈ c.ready ∨ item = x ∧ c.blocked x = some 1 := by
  obtain ⟨hnone, heq⟩ | ⟨hone, heq⟩ | ⟨m, hmore, heq⟩ := release_cases valid item
  all_goals rw [heq]
  · refine (or_iff_left ?_).symm
    rintro ⟨rfl, h⟩
    simp [hnone] at h
  · rw [List.mem_append, List.mem_singleton]
    refine or_congr_right ⟨?_, fun h => h.1.symm⟩
    rintro rfl
    exact ⟨rfl, hone⟩
  · refine (or_iff_left ?_).symm
    rintro ⟨rfl, h⟩
    simp [hmore] at h

theorem successors_release (c : Counting α) (item : α) :
    (c.release item).successors = c.successors := by
  rw [release]
  split
  · rfl
  · split <;> rfl

theorem release_forget (c : Counting α) (x item : α) :
    (c.forget x).release item = (c.release item).forget x := by
  have same : (c.forget x).blocked = c.blocked := rfl
  rw [release, release, same]
  split
  · rfl
  · split <;> rfl

/-! ### The edges from a layer -/

theorem successors_foldl_release (c : Counting α) (xs : List α) :
    (xs.foldl release c).successors = c.successors := by
  induction xs generalizing c with
  | nil => rfl
  | cons x xs ih => rw [List.foldl_cons, ih, successors_release]

theorem foldl_release_forget (c : Counting α) (x : α) (xs : List α) :
    xs.foldl release (c.forget x) = (xs.foldl release c).forget x := by
  induction xs generalizing c with
  | nil => rfl
  | cons y xs ih => rw [List.foldl_cons, List.foldl_cons, release_forget, ih]

theorem Valid.foldl_release (valid : c.Valid) (xs : List α) :
    (xs.foldl Counting.release c).Valid := by
  induction xs generalizing c with
  | nil => exact valid
  | cons x xs ih => exact ih (valid.release x)

/-- Counts go down by the number of edges. -/
theorem blocked_foldl_release (valid : c.Valid) (xs : List α) (x : α) (n : Nat) :
    (xs.foldl release c).blocked x = some n ↔ 0 < n ∧ c.blocked x = some (n + xs.count x) := by
  induction xs generalizing c with
  | nil => simpa using valid.pos x n
  | cons y xs ih =>
    rw [List.foldl_cons, ih (valid.release y), blocked_release valid, List.count_cons,
      ← Nat.add_assoc]
    simp only [beq_iff_eq]
    exact and_congr_right fun hn => and_iff_right (Nat.add_pos_left hn _)

/-- An item is ready once there are as many edges as it waits for. -/
theorem mem_ready_foldl_release (valid : c.Valid) (xs : List α) (x : α) :
    x ∈ (xs.foldl release c).ready ↔
      x ∈ c.ready ∨ ∃ n, c.blocked x = some n ∧ n ≤ xs.count x := by
  induction xs generalizing c with
  | nil =>
    refine (or_iff_left ?_).symm
    rintro ⟨n, hn, hle⟩
    exact Nat.not_lt_of_le hle (valid.pos x n hn)
  | cons y xs ih =>
    rw [List.foldl_cons, ih (valid.release y), mem_ready_release valid, or_assoc, List.count_cons]
    simp only [blocked_release valid, beq_iff_eq]
    refine or_congr_right ⟨?_, ?_⟩
    · rintro (⟨rfl, hone⟩ | ⟨n, ⟨-, hn⟩, hle⟩)
      · exact ⟨1, hone, by simp⟩
      · exact ⟨_, hn, by omega⟩
    · rintro ⟨n, hn, hle⟩
      have pos := valid.pos x n hn
      by_cases hy : y = x
      · rw [if_pos hy] at hle ⊢
        by_cases hone : n = 1
        · exact .inl ⟨hy, hone ▸ hn⟩
        · refine .inr ⟨n - 1, ⟨by omega, ?_⟩, by omega⟩
          rwa [Nat.sub_add_cancel pos]
      · rw [if_neg hy] at hle ⊢
        exact .inr ⟨n, ⟨pos, hn⟩, hle⟩

/-- Going through a layer releases the ends of all edges from it. -/
theorem foldl_emit (c : Counting α) {layer : List α} (once : layer.Nodup) :
    layer.foldl emit c = layer.foldl forget ((layer.flatMap c.successors).foldl release c) := by
  induction layer generalizing c with
  | nil => rfl
  | cons item layer ih =>
    obtain ⟨hitem, once⟩ := List.nodup_cons.1 once
    have same : layer.flatMap (c.emit item).successors = layer.flatMap c.successors := by
      refine List.flatMap_congr fun x hx => ?_
      rw [emit, successors_foldl_release]
      exact Function.update_of_ne (ne_of_mem_of_not_mem hx hitem) _ _
    rw [List.foldl_cons, ih _ once, same, emit, foldl_release_forget, foldl_release_forget,
      List.foldl_cons, List.flatMap_cons, List.foldl_append]

theorem blocked_foldl_forget (c : Counting α) (layer : List α) :
    (layer.foldl forget c).blocked = c.blocked := by
  induction layer generalizing c with
  | nil => rfl
  | cons item layer ih => exact ih _

theorem ready_foldl_forget (c : Counting α) (layer : List α) :
    (layer.foldl forget c).ready = c.ready := by
  induction layer generalizing c with
  | nil => rfl
  | cons item layer ih => exact ih _

theorem successors_foldl_forget (c : Counting α) (layer : List α) (x : α) :
    (layer.foldl forget c).successors x = if x ∈ layer then [] else c.successors x := by
  induction layer generalizing c with
  | nil => simp
  | cons item layer ih =>
    rw [List.foldl_cons, ih]
    by_cases hx : x = item <;> simp [forget, hx]

/-! ### Counts of what waits -/

/-- The counts are those of what waits. -/
structure Counts (waiting : List (α × List α)) (c : Counting α) : Prop where
  blocked : ∀ x n, c.blocked x = some n ↔ 0 < n ∧ ∃ ds, (x, ds) ∈ waiting ∧ ds.length = n
  successors : ∀ x ds, (x, ds) ∈ waiting → ∀ y, (c.successors y).count x = ds.count y
  ready : c.ready.Perm (Layering.ready waiting)

variable {waiting : List (α × List α)}

/-- An entry more to look for, which was not looked for before. -/
theorem length_filter_contains_cons {y : α} {layer : List α} (hy : y ∉ layer) (ds : List α) :
    (ds.filter ((y :: layer).contains ·)).length =
      ds.count y + (ds.filter (layer.contains ·)).length := by
  induction ds with
  | nil => rfl
  | cons d ds ih =>
    rw [List.filter_cons, List.filter_cons, List.count_cons]
    by_cases hd : d = y
    · subst hd
      simp only [List.contains_eq_mem, List.mem_cons, true_or, decide_true, if_true, hy,
        decide_false, beq_self_eq_true, List.length_cons] at ih ⊢
      rw [ih]
      simp
      omega
    · by_cases hlayer : d ∈ layer
      · simp [hd, hlayer] at ih ⊢
        omega
      · simpa [hd, hlayer] using ih

/-- The edges from a layer to an item are the entries of the item that are in the layer. -/
theorem count_flatMap_successors {f : α → List α} {x : α} {ds layer : List α} (once : layer.Nodup)
    (count : ∀ y, (f y).count x = ds.count y) :
    (layer.flatMap f).count x = (ds.filter (layer.contains ·)).length := by
  induction layer with
  | nil => simp
  | cons y layer ih =>
    obtain ⟨hy, once⟩ := List.nodup_cons.1 once
    rw [List.flatMap_cons, List.count_append, count, ih once, length_filter_contains_cons hy]

namespace Counts

theorem valid (counts : Counts waiting c) (once : (waiting.map Prod.fst).Nodup) : c.Valid := by
  refine ⟨fun x n hn => ((counts.blocked x n).1 hn).1, ?_, fun x hx => ?_⟩
  · exact counts.ready.nodup_iff.2 (once.sublist (List.filter_sublist.map _))
  · refine Option.eq_none_iff_forall_ne_some.2 fun n hn => ?_
    obtain ⟨hpos, ds, hmem, hlen⟩ := (counts.blocked x n).1 hn
    have hne : ds ≠ [] := List.ne_nil_of_length_pos (hlen ▸ hpos)
    exact not_mem_ready once hmem hne (counts.ready.mem_iff.1 hx)

/-- The counts after a layer are those of what waits after it. -/
theorem next (counts : Counts waiting c) (once : (waiting.map Prod.fst).Nodup)
    (some : ¬ (Layering.ready waiting).isEmpty) :
    ∃ d, c.next = .some (c.ready, d) ∧ Counts (rest waiting) d := by
  have valid := counts.valid once
  have hready : ¬ c.ready.isEmpty := by
    rwa [List.isEmpty_iff_length_eq_zero, counts.ready.length_eq, ← List.isEmpty_iff_length_eq_zero]
  have inLayer (x : α) : x ∈ c.ready ↔ x ∈ Layering.ready waiting := counts.ready.mem_iff
  -- What an item still waits for are the entries that are not in the layer.
  have left {x : α} {ds : List α} (hmem : (x, ds) ∈ waiting) : ds.length =
      (c.ready.flatMap c.successors).count x +
        (ds.filter (!(Layering.ready waiting).contains ·)).length := by
    rw [count_flatMap_successors valid.nodup (counts.successors x ds hmem)]
    simp only [List.contains_eq_mem, inLayer]
    exact List.length_eq_length_filter_add _
  have fresh : c.take.Valid := ⟨valid.pos, List.nodup_nil, by simp⟩
  refine ⟨_, if_neg hready, ?_⟩
  rw [foldl_emit _ valid.nodup, take_successors]
  refine ⟨fun x n => ?_, fun x ds hmem y => ?_, ?_⟩
  · rw [blocked_foldl_forget, blocked_foldl_release fresh, take_blocked, counts.blocked]
    refine and_congr_right fun hn => ?_
    constructor
    · rintro ⟨-, ds, hmem, hlen⟩
      have := left hmem
      exact ⟨_, mem_rest_iff.2 ⟨ds, hmem, List.ne_nil_of_length_pos (by omega), rfl⟩, by omega⟩
    · rintro ⟨ds, hmem, hlen⟩
      obtain ⟨old, hold, -, rfl⟩ := mem_rest_iff.1 hmem
      have := left hold
      exact ⟨by omega, old, hold, by omega⟩
  · obtain ⟨old, hold, -, rfl⟩ := mem_rest_iff.1 hmem
    rw [successors_foldl_forget, successors_foldl_release, take_successors]
    by_cases hy : y ∈ c.ready
    · have : y ∈ Layering.ready waiting := (inLayer y).1 hy
      rw [if_pos hy, List.count_nil, eq_comm, List.count_eq_zero]
      simp [this]
    · have : y ∉ Layering.ready waiting := mt (inLayer y).2 hy
      rw [if_neg hy, counts.successors x old hold, List.count_filter (by simpa using this)]
  · have nodup : (Layering.ready (rest waiting)).Nodup :=
      (nodup_rest once).sublist (List.filter_sublist.map _)
    rw [ready_foldl_forget]
    refine (List.perm_ext_iff_of_nodup (fresh.foldl_release _).nodup nodup).2 fun x => ?_
    rw [mem_ready_foldl_release fresh, mem_ready_iff, mem_rest_iff]
    simp only [take_ready, take_blocked, List.not_mem_nil, false_or, counts.blocked]
    constructor
    · rintro ⟨n, ⟨hn, ds, hmem, hlen⟩, hle⟩
      have := left hmem
      exact ⟨ds, hmem, List.ne_nil_of_length_pos (by omega), (List.length_eq_zero_iff.1 (by omega)).symm⟩
    · rintro ⟨old, hold, hne, hnil⟩
      have := left hold
      rw [← hnil, List.length_nil] at this
      exact ⟨_, ⟨List.length_pos_iff.2 hne, old, hold, rfl⟩, by omega⟩

/-- Layer by layer the run goes on as what waits is peeled off. -/
theorem exists_runs (fuel : Nat) (counts : Counts waiting c) (once : (waiting.map Prod.fst).Nodup)
    (enough : waiting.length ≤ fuel) :
    ∃ layers d, Runs c layers d ∧ List.Forall₂ List.Perm layers (peel fuel waiting).layers ∧
      (d.Cyclic ↔ (peel fuel waiting).isCyclic = true) := by
  induction fuel generalizing waiting c with
  | zero =>
    obtain rfl : waiting = [] := List.length_eq_zero_iff.1 (Nat.le_zero.1 enough)
    have none : c.next = none := if_pos (List.isEmpty_iff.2 counts.ready.eq_nil)
    refine ⟨[], c, .done none, .nil, ?_⟩
    simp [Cyclic, counts.blocked, peel, isCyclic]
  | succ fuel ih =>
    rw [peel_succ]
    split
    next none =>
      rw [List.isEmpty_iff] at none
      have last : c.next = .none :=
        if_pos (List.isEmpty_iff.2 (none ▸ counts.ready).eq_nil)
      refine ⟨[], c, .done last, .nil, ?_⟩
      rw [isCyclic_iff, Cyclic]
      refine exists_congr fun x => ?_
      simp only [counts.blocked, List.mem_map, Prod.exists, exists_and_right, exists_eq_right]
      constructor
      · rintro ⟨n, -, ds, hmem, -⟩
        exact ⟨ds, hmem⟩
      · rintro ⟨ds, hmem⟩
        have hne : ds ≠ [] := by
          rintro rfl
          simpa [none] using mem_ready_iff.2 hmem
        exact ⟨_, List.length_pos_iff.2 hne, ds, hmem, rfl⟩
    next some =>
      obtain ⟨d, hnext, counts'⟩ := counts.next once some
      have shorter := (ready_append_rest_perm waiting).length_eq
      rw [List.length_append, List.length_map, List.length_map] at shorter
      have pos := List.length_pos_iff.2 (mt List.isEmpty_iff.2 some)
      obtain ⟨layers, e, run, perm, cyclic⟩ := ih counts' (nodup_rest once) (by omega)
      exact ⟨_, e, .step hnext run, .cons counts.ready perm, cyclic⟩

end Counts

end Counting

end AndInverter.Layering
