import AndInverter.Proofs.Map

/-! Maps that are made by numbering: a list of different keys, each with a value that its position
gives. -/

namespace AndInverter

theorem concat_getElem?_iff {α : Type} {xs : List α} {x y : α} {i : Nat} :
    (xs ++ [x])[i]? = some y ↔ xs[i]? = some y ∨ i = xs.length ∧ x = y := by
  rw [List.getElem?_append]
  split
  next hlt => simp [Nat.ne_of_lt hlt]
  next hge =>
    rw [List.getElem?_eq_none (Nat.le_of_not_lt hge)]
    by_cases hi : i = xs.length
    · simp [hi]
    · have : i - xs.length ≠ 0 := by omega
      simp [hi, this]

variable {κ α : Type} {cmp : κ → κ → Ordering} [Std.TransCmp cmp]

/-- The map gives the key at position `i` the value `f i`, and has no other keys. -/
structure Enumerates (keys : List κ) (f : Nat → α) (m : Std.ExtTreeMap κ α cmp) : Prop where
  once : keys.Nodup
  entry : ∀ {k : κ} {a : α}, m[k]? = some a ↔ ∃ i, keys[i]? = some k ∧ a = f i

namespace Enumerates

variable {keys : List κ} {f : Nat → α} {m : Std.ExtTreeMap κ α cmp}

theorem empty : Enumerates [] f (∅ : Std.ExtTreeMap κ α cmp) := ⟨.nil, by simp⟩

theorem getElem? (h : Enumerates keys f m) {i : Nat} {k : κ} (hi : keys[i]? = some k) :
    m[k]? = some (f i) :=
  h.entry.2 ⟨i, hi, rfl⟩

theorem mem_iff (h : Enumerates keys f m) {k : κ} : k ∈ m ↔ k ∈ keys := by
  rw [mem_iff_exists_getElem?, List.mem_iff_getElem?]
  constructor
  · rintro ⟨a, ha⟩
    obtain ⟨i, hi, -⟩ := h.entry.1 ha
    exact ⟨i, hi⟩
  · rintro ⟨i, hi⟩
    exact ⟨f i, h.getElem? hi⟩

theorem congr {f' : Nat → α} (h : Enumerates keys f m) (same : ∀ i < keys.length, f i = f' i) :
    Enumerates keys f' m := by
  refine ⟨h.once, fun {k a} => h.entry.trans (exists_congr fun i => and_congr_right fun hi => ?_)⟩
  rw [same i (List.getElem?_eq_some_iff.1 hi).1]

variable [Std.LawfulEqCmp cmp]

/-- A new key takes the next position. -/
theorem push (h : Enumerates keys f m) {k : κ} (new : k ∉ keys) :
    Enumerates (keys ++ [k]) f (m.insert k (f keys.length)) := by
  have once : (keys ++ [k]).Nodup := by
    rw [List.nodup_append]
    refine ⟨h.once, by simp, fun a ha b hb heq => new ?_⟩
    rwa [← List.mem_singleton.1 hb, ← heq]
  refine ⟨once, fun {k' a} => ?_⟩
  rw [Std.ExtTreeMap.getElem?_insert]
  simp only [concat_getElem?_iff]
  by_cases heq : k = k'
  · subst heq
    have fresh (i : Nat) : keys[i]? ≠ some k := fun hi => new (List.mem_of_getElem? hi)
    rw [if_pos Std.ReflCmp.compare_self]
    simp [fresh, eq_comm (a := a)]
  · simp [heq, h.entry]

/-- The keys and the values determine the map. -/
theorem unique {m' : Std.ExtTreeMap κ α cmp} (h : Enumerates keys f m) (h' : Enumerates keys f m') :
    m = m' :=
  Std.ExtTreeMap.ext_getElem? fun _ => Option.ext fun _ => h.entry.trans h'.entry.symm

/-- Every map enumerates its keys and values. -/
theorem of_map (m : Std.ExtTreeMap κ α cmp) (default : α) :
    Enumerates m.keys (fun i => (m.values[i]?).getD default) m := by
  refine ⟨Std.ExtTreeMap.nodup_keys, fun {k a} => ⟨fun h => ?_, ?_⟩⟩
  · obtain ⟨i, hkey, hvalue⟩ := exists_position h
    exact ⟨i, hkey, by rw [hvalue, Option.getD_some]⟩
  · rintro ⟨i, hkey, rfl⟩
    have hlt := length_values m ▸ (List.getElem?_eq_some_iff.1 hkey).1
    have hvalue := List.getElem?_eq_getElem hlt
    have hentry := getElem?_toList_iff.2 ⟨hkey, hvalue⟩
    rw [hvalue, Option.getD_some]
    exact Std.ExtTreeMap.mem_toList_iff_getElem?_eq_some.1 (List.mem_of_getElem? hentry)

theorem values_eq (h : Enumerates m.keys f m) : m.values = (List.range m.keys.length).map f := by
  have length := length_values m
  refine List.ext_getElem (by simp [length]) fun i hi hi' => ?_
  have hkey := List.getElem?_eq_getElem (l := m.keys) (i := i) (length ▸ hi)
  have := (h.getElem? hkey).symm.trans ((of_map m m.values[i]).getElem? hkey)
  rw [List.getElem?_eq_getElem hi, Option.getD_some] at this
  simpa using (Option.some.inj this).symm

end Enumerates

end AndInverter
