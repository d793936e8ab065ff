import Std.Data.ExtTreeMap

/-! Finite maps keyed by names. Names are compared by code points, and a map lists its entries
in that order. Two maps are equal exactly when they agree on every name. -/

namespace AndInverter

abbrev NameMap (α : Type) := Std.ExtTreeMap String α compare

/-- Values of named bits. -/
abbrev Valuation := NameMap Bool

/-- New names of some old ones; a name that is not listed stays. -/
abbrev Renaming := NameMap String

namespace NameMap

variable {α β : Type}

/-- Of several pairs with the same name the last one stays. -/
def ofPairs (pairs : List (String × α)) : NameMap α :=
  Std.ExtTreeMap.ofList pairs compare

/-- Renames every entry. Where two entries meet, the one whose old name is greater stays. -/
def rename (m : NameMap α) (f : String → String) : NameMap α :=
  ofPairs (m.toList.map fun (name, value) => (f name, value))

/-- Applies a partial function to every value, if it is defined on all of them. -/
def traverse (m : NameMap α) (f : α → Option β) : Option (NameMap β) :=
  if m.toList.all fun (_, value) => (f value).isSome then
    some (m.filterMap fun _ value => f value)
  else
    none

def restrict (m : NameMap α) (names : List String) : NameMap α :=
  m.filter fun name _ => names.contains name

def without (m : NameMap α) (names : List String) : NameMap α :=
  m.filter fun name _ => !names.contains name

/-- Both maps together; on shared names the entry of `right` stays. -/
def merge (left right : NameMap α) : NameMap α :=
  left ∪ right

/-- The first name of `left`, in name order, that `right` has as well. -/
def firstShared (left : NameMap α) (right : NameMap β) : Option String :=
  left.keys.find? right.contains

theorem getElem?_merge (left right : NameMap α) (name : String) :
    (left.merge right)[name]? = right[name]?.or left[name]? :=
  Std.ExtTreeMap.getElem?_union

theorem getElem?_restrict (m : NameMap α) (names : List String) (name : String) :
    (m.restrict names)[name]? = if name ∈ names then m[name]? else none := by
  by_cases h : name ∈ names <;> cases hm : m[name]? <;> simp [restrict, h, hm]

theorem getElem?_without (m : NameMap α) (names : List String) (name : String) :
    (m.without names)[name]? = if name ∈ names then none else m[name]? := by
  by_cases h : name ∈ names <;> cases hm : m[name]? <;> simp [without, h, hm]

/-- `traverse` gives the map with the same names whose values are those of `f`. -/
theorem traverse_eq_some_iff {m : NameMap α} {f : α → Option β} {n : NameMap β} :
    m.traverse f = some n ↔ ∀ name : String, (m[name]?).map f = (n[name]?).map some := by
  have entries : (∀ entry ∈ m.toList, (f entry.2).isSome) ↔
      ∀ (name : String) (a : α), m[name]? = some a → (f a).isSome := by
    simp [Std.ExtTreeMap.mem_toList_iff_getElem?_eq_some]
  have values (name : String) : (m.filterMap fun _ a => f a)[name]? = m[name]?.bind f := by
    simp
  constructor
  · intro h name
    simp only [traverse, List.all_eq_true] at h
    split at h
    · rename_i defined
      rw [← Option.some.inj h, values]
      cases hm : m[name]? with
      | none => rfl
      | some a =>
        obtain ⟨b, hb⟩ := Option.isSome_iff_exists.1 (entries.1 defined name a hm)
        simp [hb]
    · simp at h
  · intro h
    have defined : ∀ entry ∈ m.toList, (f entry.2).isSome := by
      refine entries.2 fun name a hm => ?_
      have := h name
      rw [hm] at this
      cases hn : n[name]? <;> simp_all
    simp only [traverse, List.all_eq_true]
    rw [if_pos defined]
    refine congrArg some (Std.ExtTreeMap.ext_getElem? fun name => ?_)
    rw [values]
    have := h name
    cases hm : m[name]? <;> cases hn : n[name]? <;> simp_all

end NameMap

/-- The new name of `name`. -/
def Renaming.apply (new : Renaming) (name : String) : String :=
  (new[name]?).getD name

/-- The first name whose image is taken: by `taken`, or as the image of an earlier name. -/
def firstClash (taken : List String) (image : String → String) : List String → Option String
  | [] => none
  | name :: names =>
    if taken.contains (image name) then some name
    else firstClash (image name :: taken) image names

end AndInverter
