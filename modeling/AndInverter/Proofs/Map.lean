import AndInverter.Graph.Eval
import Mathlib.Data.List.Forall2

/-! Maps given by lists of pairs with different keys, and the maps back from numbers to names. -/

namespace AndInverter

theorem forall₂_exists_getElem? {α β : Type} {R : α → β → Prop} {xs : List α} {ys : List β}
    (all : List.Forall₂ R xs ys) {i : Nat} {x : α} (hx : xs[i]? = some x) :
    ∃ y, ys[i]? = some y ∧ R x y := by
  induction all generalizing i with
  | nil => cases hx
  | @cons a b as bs hab _ ih =>
    cases i with
    | zero =>
      cases hx
      exact ⟨b, rfl, hab⟩
    | succ i => exact ih hx

theorem forall₂_exists_of_mem {α β : Type} {R : α → β → Prop} {xs : List α} {ys : List β}
    (all : List.Forall₂ R xs ys) {x : α} (hx : x ∈ xs) : ∃ y ∈ ys, R x y := by
  obtain ⟨i, hi⟩ := List.mem_iff_getElem?.1 hx
  obtain ⟨y, hy, hxy⟩ := forall₂_exists_getElem? all hi
  exact ⟨y, List.mem_of_getElem? hy, hxy⟩

section Map
variable {κ α : Type} {cmp : κ → κ → Ordering} [Std.TransCmp cmp]

theorem values_eq_map_snd (m : Std.ExtTreeMap κ α cmp) : m.values = m.toList.map (·.2) := by
  rcases m with ⟨⟨m⟩⟩
  induction m using Quotient.inductionOn with
  | _ m =>
    rcases m with ⟨m, wf⟩
    show Std.DTreeMap.Internal.Impl.values m = (Std.DTreeMap.Internal.Impl.Const.toList m).map (·.2)
    rw [Std.DTreeMap.Internal.Impl.values_eq_map_snd,
      Std.DTreeMap.Internal.Impl.Const.toList_eq_toListModel_map]
    simp

theorem length_values (m : Std.ExtTreeMap κ α cmp) : m.values.length = m.keys.length := by
  rw [values_eq_map_snd, ← Std.ExtTreeMap.map_fst_toList_eq_keys, List.length_map, List.length_map]

theorem mem_iff_exists_getElem? {m : Std.ExtTreeMap κ α cmp} {k : κ} :
    k ∈ m ↔ ∃ a, m[k]? = some a := by
  rw [Std.ExtTreeMap.mem_iff_isSome_getElem?, Option.isSome_iff_exists]

theorem not_mem_iff_getElem? {m : Std.ExtTreeMap κ α cmp} {k : κ} : k ∉ m ↔ m[k]? = none := by
  rw [Std.ExtTreeMap.mem_iff_isSome_getElem?]
  cases m[k]? <;> simp

theorem contains_eq_false_iff {m : Std.ExtTreeMap κ α cmp} {k : κ} :
    m.contains k = false ↔ k ∉ m := by
  rw [Std.ExtTreeMap.mem_iff_contains, Bool.not_eq_true]

theorem nodup_map_fst_toList (m : Std.ExtTreeMap κ α cmp) : (m.toList.map Prod.fst).Nodup := by
  rw [Std.ExtTreeMap.map_fst_toList_eq_keys]
  exact m.nodup_keys

/-- Keys and values have the positions of their entries. -/
theorem getElem?_toList_iff {m : Std.ExtTreeMap κ α cmp} {i : Nat} {k : κ} {a : α} :
    m.toList[i]? = some (k, a) ↔ m.keys[i]? = some k ∧ m.values[i]? = some a := by
  rw [← Std.ExtTreeMap.map_fst_toList_eq_keys, values_eq_map_snd, List.getElem?_map,
    List.getElem?_map]
  cases m.toList[i]? with
  | none => simp
  | some e => simp [Prod.ext_iff]

variable [Std.LawfulEqCmp cmp]

theorem exists_position {m : Std.ExtTreeMap κ α cmp} {k : κ} {a : α} (h : m[k]? = some a) :
    ∃ i : Nat, m.keys[i]? = some k ∧ m.values[i]? = some a := by
  rw [← Std.ExtTreeMap.mem_toList_iff_getElem?_eq_some] at h
  obtain ⟨i, hi⟩ := List.mem_iff_getElem?.1 h
  exact ⟨i, getElem?_toList_iff.1 hi⟩

theorem exists_key {m : Std.ExtTreeMap κ α cmp} {i : Nat} {a : α} (h : m.values[i]? = some a) :
    ∃ k : κ, m.keys[i]? = some k ∧ m[k]? = some a := by
  have hlt := (List.getElem?_eq_some_iff.1 h).1
  rw [length_values] at hlt
  have hkey := List.getElem?_eq_getElem hlt
  have hentry := getElem?_toList_iff.2 ⟨hkey, h⟩
  exact ⟨_, hkey, Std.ExtTreeMap.mem_toList_iff_getElem?_eq_some.1 (List.mem_of_getElem? hentry)⟩

/-- A key and its value stand at the same position. -/
theorem getElem?_values {m : Std.ExtTreeMap κ α cmp} {i : Nat} {k : κ} (h : m.keys[i]? = some k) :
    m.values[i]? = m[k]? := by
  have hlt := length_values m ▸ (List.getElem?_eq_some_iff.1 h).1
  have hvalue := List.getElem?_eq_getElem hlt
  obtain ⟨k', hkey, hk'⟩ := exists_key hvalue
  obtain rfl := Option.some.inj (hkey.symm.trans h)
  rw [hvalue, hk']

/-- Maps with the same keys list them in the same order. -/
theorem keys_eq {β : Type} {m : Std.ExtTreeMap κ α cmp} {n : Std.ExtTreeMap κ β cmp}
    (same : ∀ k, k ∈ m ↔ k ∈ n) : m.keys = n.keys := by
  have perm : m.keys.Perm n.keys := by
    refine (List.perm_ext_iff_of_nodup m.nodup_keys n.nodup_keys).2 fun k => ?_
    rw [Std.ExtTreeMap.mem_keys, Std.ExtTreeMap.mem_keys, same]
  have apart (a b : κ) (hab : cmp a b = .lt) (hba : cmp b a = .lt) : a = b :=
    absurd hba (Std.OrientedCmp.not_lt_of_lt hab)
  exact perm.eq_of_pairwise (fun a b _ _ => apart a b) Std.ExtTreeMap.ordered_keys
    Std.ExtTreeMap.ordered_keys

theorem mem_values_iff {m : Std.ExtTreeMap κ α cmp} {a : α} :
    a ∈ m.values ↔ ∃ k : κ, m[k]? = some a := by
  simp [values_eq_map_snd]

/-- A map that is one to one lists every value once. -/
theorem nodup_values {m : Std.ExtTreeMap κ α cmp}
    (inj : ∀ {j k : κ} {a : α}, m[j]? = some a → m[k]? = some a → j = k) : m.values.Nodup := by
  rw [values_eq_map_snd]
  refine List.pairwise_map.2 ((List.pairwise_map.1 (nodup_map_fst_toList m)).imp_of_mem ?_)
  rintro ⟨j, a⟩ ⟨k, b⟩ hj hk hne rfl
  rw [Std.ExtTreeMap.mem_toList_iff_getElem?_eq_some] at hj hk
  exact hne (inj hj hk)

/-- A map with further entries has none but these and its own. -/
theorem mem_of_getElem?_insertMany {l : List (κ × α)} {m : Std.ExtTreeMap κ α cmp} {k : κ} {a : α}
    (h : (m.insertMany l)[k]? = some a) : m[k]? = some a ∨ (k, a) ∈ l := by
  induction l generalizing m with
  | nil => exact .inl (by simpa using h)
  | cons e l ih =>
    rcases e with ⟨k', b⟩
    rw [Std.ExtTreeMap.insertMany_cons] at h
    rcases ih h with first | later
    · rw [Std.ExtTreeMap.getElem?_insert] at first
      split at first
      next heq =>
        obtain rfl := Std.LawfulEqCmp.eq_of_compare heq
        obtain rfl := Option.some.inj first
        exact .inr List.mem_cons_self
      next => exact .inl first
    · exact .inr (List.mem_cons_of_mem _ later)

variable [BEq κ] [LawfulBEq κ] [Std.LawfulBEqCmp cmp]

/-- A map made of pairs with different keys has just these pairs. -/
theorem getElem?_ofList_eq_some_iff {l : List (κ × α)} (distinct : (l.map Prod.fst).Nodup)
    {k : κ} {a : α} : (Std.ExtTreeMap.ofList l cmp)[k]? = some a ↔ (k, a) ∈ l := by
  have apart : l.Pairwise fun x y => ¬ cmp x.1 y.1 = .eq :=
    (List.pairwise_map.1 distinct).imp fun hne heq => hne (Std.LawfulEqCmp.eq_of_compare heq)
  constructor
  · intro h
    have hk : k ∈ l.map Prod.fst := List.contains_iff_mem.1
      (Std.ExtTreeMap.mem_ofList.1 (mem_iff_exists_getElem?.2 ⟨a, h⟩))
    obtain ⟨⟨k', b⟩, hb, rfl⟩ := List.mem_map.1 hk
    rw [Std.ExtTreeMap.getElem?_ofList_of_mem Std.ReflCmp.compare_self apart hb] at h
    exact Option.some.inj h ▸ hb
  · exact Std.ExtTreeMap.getElem?_ofList_of_mem Std.ReflCmp.compare_self apart

end Map

namespace NameMap

variable {α β : Type}

theorem getElem?_ofPairs_eq_some_iff {l : List (String × α)} (distinct : (l.map Prod.fst).Nodup)
    {name : String} {a : α} : (ofPairs l)[name]? = some a ↔ (name, a) ∈ l :=
  getElem?_ofList_eq_some_iff distinct

theorem getElem?_insert (m : NameMap α) (name : String) (a : α) (n : String) :
    (m.insert name a)[n]? = if n = name then some a else m[n]? := by
  rw [Std.ExtTreeMap.getElem?_insert]
  simp only [Std.LawfulEqCmp.compare_eq_iff_eq, eq_comm (a := name)]

theorem getElem?_singleton {name n : String} {a : α} :
    ((∅ : NameMap α).insert name a)[n]? = if n = name then some a else none := by
  rw [getElem?_insert, Std.ExtTreeMap.getElem?_empty]

theorem mem_insert_iff {m : NameMap α} {name : String} {a : α} {n : String} :
    n ∈ m.insert name a ↔ n = name ∨ n ∈ m := by
  rw [Std.ExtTreeMap.mem_insert, Std.LawfulEqCmp.compare_eq_iff_eq, eq_comm]

theorem mem_singleton_iff {name n : String} {a : α} :
    n ∈ (∅ : NameMap α).insert name a ↔ n = name := by
  rw [mem_insert_iff]
  simp

theorem merge_empty (m : NameMap α) : m.merge ∅ = m := by
  refine Std.ExtTreeMap.ext_getElem? fun n => ?_
  rw [getElem?_merge, Std.ExtTreeMap.getElem?_empty, Option.none_or]

theorem empty_merge (m : NameMap α) : NameMap.merge ∅ m = m := by
  refine Std.ExtTreeMap.ext_getElem? fun n => ?_
  rw [getElem?_merge, Std.ExtTreeMap.getElem?_empty, Option.or_none]

theorem merge_singleton (m : NameMap α) (name : String) (a : α) :
    m.merge ((∅ : NameMap α).insert name a) = m.insert name a := by
  refine Std.ExtTreeMap.ext_getElem? fun n => ?_
  rw [getElem?_merge, getElem?_singleton, getElem?_insert]
  split <;> simp

theorem getElem?_without_eq_some_iff {m : NameMap α} {names : List String} {name : String} {a : α} :
    (m.without names)[name]? = some a ↔ name ∉ names ∧ m[name]? = some a := by
  rw [getElem?_without, ite_eq_iff]
  simp

/-- The map of the images of entries whose new names are all different. -/
theorem getElem?_rename_eq_some_iff {m : NameMap α} {f : String → String}
    (inj : ∀ a ∈ m, ∀ b ∈ m, f a = f b → a = b) {name : String} {a : α} :
    (m.rename f)[name]? = some a ↔ ∃ old : String, f old = name ∧ m[old]? = some a := by
  rw [rename, getElem?_ofPairs_eq_some_iff]
  · simp only [List.mem_map, Prod.exists, Prod.mk.injEq,
      Std.ExtTreeMap.mem_toList_iff_getElem?_eq_some]
    constructor
    · rintro ⟨old, b, hb, rfl, rfl⟩
      exact ⟨old, rfl, hb⟩
    · rintro ⟨old, rfl, h⟩
      exact ⟨old, a, h, rfl, rfl⟩
  · rw [List.map_map]
    refine List.pairwise_map.2 ((List.pairwise_map.1 (nodup_map_fst_toList m)).imp_of_mem ?_)
    rintro ⟨a, x⟩ ⟨b, y⟩ ha hb hne heq
    rw [Std.ExtTreeMap.mem_toList_iff_getElem?_eq_some] at ha hb
    exact hne (inj a (mem_iff_exists_getElem?.2 ⟨x, ha⟩) b (mem_iff_exists_getElem?.2 ⟨y, hb⟩) heq)

theorem rename_singleton {name : String} {a : α} {f : String → String} :
    NameMap.rename ((∅ : NameMap α).insert name a) f = (∅ : NameMap α).insert (f name) a := by
  have only : ∀ n ∈ (∅ : NameMap α).insert name a, n = name := fun _ => mem_singleton_iff.1
  refine Std.ExtTreeMap.ext_getElem? fun n => Option.ext fun x => ?_
  rw [getElem?_rename_eq_some_iff fun n hn m hm _ => (only n hn).trans (only m hm).symm,
    getElem?_singleton]
  constructor
  · rintro ⟨old, rfl, h⟩
    obtain rfl := only old (mem_iff_exists_getElem?.2 ⟨x, h⟩)
    rwa [if_pos rfl, ← getElem?_singleton.trans (if_pos rfl)]
  · intro h
    split at h
    next heq => exact ⟨name, heq.symm, by rw [getElem?_singleton, if_pos rfl, h]⟩
    next => cases h

theorem getElem?_filter_key {m : NameMap α} {p : String → Bool} {name : String} :
    (m.filter fun name _ => p name)[name]? = if p name then m[name]? else none := by
  rw [Std.ExtTreeMap.getElem?_filter']
  cases m[name]? <;> by_cases h : p name <;> simp [h]

/-- `firstShared` finds nothing exactly where the maps have no name in common. -/
theorem firstShared_eq_none_iff {left : NameMap α} {right : NameMap β} :
    left.firstShared right = none ↔ ∀ name ∈ left, name ∉ right := by
  simp [firstShared, List.find?_eq_none]

/-- `traverse` keeps the names, and is defined on all values. -/
theorem mem_traverse_iff {m : NameMap α} {f : α → Option β} {n : NameMap β}
    (h : m.traverse f = some n) {name : String} : name ∈ n ↔ name ∈ m := by
  have := congrArg Option.isSome (traverse_eq_some_iff.1 h name)
  rw [Option.isSome_map, Option.isSome_map] at this
  rw [Std.ExtTreeMap.mem_iff_isSome_getElem?, Std.ExtTreeMap.mem_iff_isSome_getElem?, this]

theorem isSome_of_traverse {m : NameMap α} {f : α → Option β} {n : NameMap β}
    (h : m.traverse f = some n) {name : String} {a : α} (ha : m[name]? = some a) :
    (f a).isSome := by
  obtain ⟨b, hb⟩ := mem_iff_exists_getElem?.1
    ((mem_traverse_iff h).2 (mem_iff_exists_getElem?.2 ⟨a, ha⟩))
  have := traverse_eq_some_iff.1 h name
  rw [ha, hb, Option.map_some, Option.map_some] at this
  rw [Option.some.inj this, Option.isSome_some]

/-- `traverse` is defined where the function is defined on all values. -/
theorem exists_traverse {m : NameMap α} {f : α → Option β} {g : String → Option β}
    (h : ∀ (name : String) a, m[name]? = some a → ∃ b, f a = some b ∧ g name = some b)
    (none : ∀ name, name ∉ m → g name = none) :
    ∃ n : NameMap β, m.traverse f = some n ∧ ∀ name : String, n[name]? = g name := by
  have defined (name : String) : (m[name]?).map f = ((m.filterMap fun _ a => f a)[name]?).map some := by
    cases hm : m[name]? with
    | none => simp [hm]
    | some a =>
      obtain ⟨b, hb, -⟩ := h name a hm
      simp [hm, hb]
  refine ⟨m.filterMap fun _ a => f a, traverse_eq_some_iff.2 defined, fun name => ?_⟩
  cases hm : m[name]? with
  | none => simp [hm, none name (not_mem_iff_getElem?.2 hm)]
  | some a =>
    obtain ⟨b, hb, hg⟩ := h name a hm
    simp [hm, hb, hg]

section Entries
variable {m : NameMap α} {entries : List (String × β)} {R : String × α → String × β → Prop}

theorem map_fst_of_forall₂ (all : List.Forall₂ R m.toList entries) (names : ∀ a b, R a b → b.1 = a.1) :
    entries.map Prod.fst = m.toList.map Prod.fst :=
  List.forall₂_eq_eq_eq ▸ List.forall₂_map_left_iff.2
    (List.forall₂_map_right_iff.2 (all.imp names).flip)

/-- The map of entries made one by one from those of another map, under the same names. -/
theorem exists_getElem?_ofPairs (all : List.Forall₂ R m.toList entries)
    (names : ∀ a b, R a b → b.1 = a.1) {name : String} {a : α} (ha : m[name]? = some a) :
    ∃ b, (ofPairs entries)[name]? = some b ∧ R (name, a) (name, b) := by
  obtain ⟨⟨name', b⟩, hb, hrel⟩ :=
    forall₂_exists_of_mem all (Std.ExtTreeMap.mem_toList_iff_getElem?_eq_some.2 ha)
  obtain rfl : name' = name := names _ _ hrel
  have distinct := map_fst_of_forall₂ all names ▸ nodup_map_fst_toList m
  exact ⟨b, (getElem?_ofPairs_eq_some_iff distinct).2 hb, hrel⟩

theorem mem_of_mem_ofPairs (all : List.Forall₂ R m.toList entries)
    (names : ∀ a b, R a b → b.1 = a.1) {name : String} (h : name ∈ ofPairs entries) : name ∈ m := by
  have hname := List.contains_iff_mem.1 (Std.ExtTreeMap.mem_ofList.1 h)
  rw [map_fst_of_forall₂ all names, Std.ExtTreeMap.map_fst_toList_eq_keys] at hname
  exact Std.ExtTreeMap.mem_keys.1 hname

end Entries

end NameMap

/-- Nothing clashes where all images are new and different. -/
theorem firstClash_eq_none_iff {taken : List String} {image : String → String}
    {names : List String} : firstClash taken image names = none ↔
      (∀ name ∈ names, image name ∉ taken) ∧ (names.map image).Nodup := by
  induction names generalizing taken with
  | nil => simp [firstClash]
  | cons name names ih =>
    by_cases h : image name ∈ taken
    · simp [firstClash, h]
    · simp only [firstClash, List.contains_eq_mem, decide_eq_true_eq, h, if_false, ih]
      rw [List.forall_mem_cons, List.map_cons, List.nodup_cons]
      simp only [List.mem_cons, List.mem_map, not_or, not_exists, not_and]
      constructor
      · rintro ⟨apart, distinct⟩
        exact ⟨⟨h, fun n hn => (apart n hn).2⟩, fun n hn => (apart n hn).1, distinct⟩
      · rintro ⟨⟨-, apart⟩, new, distinct⟩
        exact ⟨fun n hn => ⟨new n hn, apart n hn⟩, distinct⟩

/-- A number gets no name but one of its own. -/
theorem NodeNames.getElem?_of_ofMap {names : NameMap Nat} {i : Nat} {name : String}
    (h : (NodeNames.ofMap names)[i]? = some name) : names[name]? = some i := by
  rw [NodeNames.ofMap, Std.ExtTreeMap.ofList_eq_insertMany_empty] at h
  obtain ⟨⟨name', j⟩, hmem, heq⟩ :=
    List.mem_map.1 ((mem_of_getElem?_insertMany h).resolve_left (by simp))
  obtain ⟨rfl, rfl⟩ := Prod.mk.inj heq
  exact Std.ExtTreeMap.mem_toList_iff_getElem?_eq_some.1 hmem

/-- The name of a number, where no number has two names. -/
theorem NodeNames.getElem?_ofMap {names : NameMap Nat}
    (inj : ∀ {a b : String} {i : Nat}, names[a]? = some i → names[b]? = some i → a = b)
    {i : Nat} {name : String} : (NodeNames.ofMap names)[i]? = some name ↔ names[name]? = some i := by
  rw [NodeNames.ofMap, getElem?_ofList_eq_some_iff]
  · simp only [List.mem_map, Prod.exists, Prod.mk.injEq,
      Std.ExtTreeMap.mem_toList_iff_getElem?_eq_some]
    constructor
    · rintro ⟨a, j, h, rfl, rfl⟩
      exact h
    · exact fun h => ⟨name, i, h, rfl, rfl⟩
  · rw [List.map_map]
    refine List.pairwise_map.2 ((List.pairwise_map.1 (nodup_map_fst_toList names)).imp_of_mem ?_)
    rintro ⟨a, i⟩ ⟨b, j⟩ ha hb hne rfl
    rw [Std.ExtTreeMap.mem_toList_iff_getElem?_eq_some] at ha hb
    exact hne (inj ha hb)

end AndInverter
