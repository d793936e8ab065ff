import AndInverter.Proofs.Graph.Reachable
import Mathlib.Data.Option.Defs

/-! Renaming changes names and nothing else. A run of the renamed graph is the run of the graph with
new names in its inputs, states and outputs, and a renaming can be undone. -/

namespace AndInverter

/-- Where a name goes by pairs of old and new names. The last pair of a name counts. -/
def renamedBy (pairs : List (String × String)) (name : String) : String :=
  pairs.foldl (fun image (old, new) => if old = name then new else image) name

theorem Renaming.apply_insert (new : Renaming) (old image name : String) :
    Renaming.apply (new.insert old image) name = if old = name then image else new.apply name := by
  rw [Renaming.apply, NameMap.getElem?_insert]
  split
  next h => rw [if_pos h.symm, Option.getD_some]
  next h => rw [if_neg (Ne.symm h), Renaming.apply]

theorem Renaming.apply_ofPairs (pairs : List (String × String)) (name : String) :
    Renaming.apply (NameMap.ofPairs pairs) name = renamedBy pairs name := by
  -- The pairs still to come, on top of any renaming.
  have later (new : Renaming) : Renaming.apply (new.insertMany pairs) name =
      pairs.foldl (fun image (old, new) => if old = name then new else image) (new.apply name) := by
    induction pairs generalizing new with
    | nil => rw [Std.ExtTreeMap.insertMany_nil, List.foldl_nil]
    | cons pair pairs ih =>
      rw [Std.ExtTreeMap.insertMany_cons, ih, Renaming.apply_insert, List.foldl_cons]
  have start : Renaming.apply ∅ name = name := by
    rw [Renaming.apply, Std.ExtTreeMap.getElem?_empty, Option.getD_none]
  rw [NameMap.ofPairs, Std.ExtTreeMap.ofList_eq_insertMany_empty, later, start, renamedBy]

/-- A list with one pair for a name sends the name where the pair says. -/
theorem renamedBy_of_mem {pairs : List (String × String)} (distinct : (pairs.map Prod.fst).Nodup)
    {old new : String} (h : (old, new) ∈ pairs) : renamedBy pairs old = new := by
  rw [← Renaming.apply_ofPairs, Renaming.apply, (NameMap.getElem?_ofPairs_eq_some_iff distinct).2 h,
    Option.getD_some]

theorem firstClash_congr {taken names : List String} {image image' : String → String}
    (same : ∀ name ∈ names, image' name = image name) :
    firstClash taken image' names = firstClash taken image names := by
  induction names generalizing taken with
  | nil => rfl
  | cons name names ih =>
    rw [List.forall_mem_cons] at same
    rw [firstClash, firstClash, same.1, ih same.2]

theorem mem_of_firstClash {taken names : List String} {image : String → String} {name : String}
    (h : firstClash taken image names = some name) : name ∈ names := by
  induction names generalizing taken with
  | nil => cases h
  | cons other names ih =>
    rw [firstClash] at h
    split at h
    · cases h
      exact List.mem_cons_self
    · exact List.mem_cons_of_mem _ (ih h)

section Undone

variable {p q : String → Prop} {f back : String → String}

/-- Names that can be sent back keep apart. -/
theorem inj_of_undone (undone : ∀ a, p a → back (f a) = a) :
    ∀ a, p a → ∀ b, p b → f a = f b → a = b := by
  intro a ha b hb heq
  rw [← undone a ha, heq, undone b hb]

/-- And they keep apart on the way back. -/
theorem inj_back_of_undone (undone : ∀ a, p a → back (f a) = a)
    (image : ∀ a, q a → ∃ old, p old ∧ f old = a) :
    ∀ a, q a → ∀ b, q b → back a = back b → a = b := by
  intro a ha b hb heq
  obtain ⟨old, hold, rfl⟩ := image a ha
  obtain ⟨old', hold', rfl⟩ := image b hb
  rw [undone old hold, undone old' hold'] at heq
  rw [heq]

end Undone

namespace NameMap

variable {α : Type} {m : NameMap α} {f : String → String}

/-- The entries of one map stand in the other under their new names, and nothing else does. -/
def IsRenamed (f : String → String) (m n : NameMap α) : Prop :=
  ∀ (name : String) (a : α), n[name]? = some a ↔ ∃ old, f old = name ∧ m[old]? = some a

theorem isRenamed_rename (inj : ∀ a ∈ m, ∀ b ∈ m, f a = f b → a = b) :
    IsRenamed f m (m.rename f) :=
  fun _ _ => getElem?_rename_eq_some_iff inj

theorem isRenamed_id (m : NameMap α) : IsRenamed id m m := by
  intro name a
  simp

theorem IsRenamed.eq_rename {n : NameMap α} (renamed : IsRenamed f m n)
    (inj : ∀ a ∈ m, ∀ b ∈ m, f a = f b → a = b) : n = m.rename f :=
  Std.ExtTreeMap.ext_getElem? fun name => Option.ext fun a =>
    (renamed name a).trans (isRenamed_rename inj name a).symm

theorem IsRenamed.mem_iff {n : NameMap α} (renamed : IsRenamed f m n) {name : String} :
    name ∈ n ↔ ∃ old ∈ m, f old = name := by
  simp only [mem_iff_exists_getElem?, renamed name]
  constructor
  · rintro ⟨a, old, heq, h⟩
    exact ⟨old, ⟨a, h⟩, heq⟩
  · rintro ⟨old, ⟨a, h⟩, heq⟩
    exact ⟨a, old, heq, h⟩

/-- Maps of what is computed from renamed entries. -/
theorem isRenamed_of_map {β : Type} {p q : NameMap β} {x y : String → Option α} (k : α → β)
    (renamed : ∀ name a, y name = some a ↔ ∃ old, f old = name ∧ x old = some a)
    (hp : ∀ name : String, p[name]? = (x name).map k)
    (hq : ∀ name : String, q[name]? = (y name).map k) : IsRenamed f p q := by
  intro name b
  simp only [hp, hq, Option.map_eq_some_iff, renamed]
  exact ⟨fun ⟨a, ⟨old, heq, ha⟩, hb⟩ => ⟨old, heq, a, ha, hb⟩,
    fun ⟨old, heq, a, ha, hb⟩ => ⟨a, ⟨old, heq, ha⟩, hb⟩⟩

/-- An entry stands under its new name. -/
theorem IsRenamed.getElem?_of_mem {n : NameMap α} (renamed : IsRenamed f m n) {name : String}
    (h : name ∈ m) : n[f name]? = m[name]? := by
  obtain ⟨a, ha⟩ := mem_iff_exists_getElem?.1 h
  rw [ha, renamed]
  exact ⟨name, rfl, ha⟩

theorem rename_congr {f' : String → String} (same : ∀ name ∈ m, f' name = f name) :
    m.rename f' = m.rename f := by
  refine congrArg ofPairs (List.map_congr_left fun ⟨name, a⟩ h => Prod.ext (same name ?_) rfl)
  exact mem_iff_exists_getElem?.2 ⟨a, Std.ExtTreeMap.mem_toList_iff_getElem?_eq_some.1 h⟩

/-- A renaming is undone by one that sends every new name back. -/
theorem rename_rename {back : String → String} (undone : ∀ name ∈ m, back (f name) = name) :
    (m.rename f).rename back = m := by
  have renamed := isRenamed_rename (inj_of_undone undone)
  have injBack : ∀ a ∈ m.rename f, ∀ b ∈ m.rename f, back a = back b → a = b :=
    inj_back_of_undone undone fun _ => renamed.mem_iff.1
  refine (IsRenamed.eq_rename (fun name a => ?_) injBack).symm
  constructor
  · intro h
    have hname := mem_iff_exists_getElem?.2 ⟨a, h⟩
    exact ⟨f name, undone name hname, (renamed.getElem?_of_mem hname).trans h⟩
  · rintro ⟨_, rfl, h⟩
    obtain ⟨old, rfl, hold⟩ := (renamed _ a).1 h
    rwa [undone old (mem_iff_exists_getElem?.2 ⟨a, hold⟩)]

end NameMap

/-- New names for the objects of one kind; those of other kinds stay. -/
def onKind (kind : Kind) (f : String → String) (kind' : Kind) : String → String :=
  if kind' = kind then f else id

/-- The values of these names stand under the new names. -/
def IsMoved (names : List String) (f : String → String) (values moved : Valuation) : Prop :=
  ∀ name ∈ names, moved[f name]? = values[name]?

def Step.rename (new : Kind → String → String) (step : Step) : Step :=
  ⟨step.outputs.rename (new .output), step.latches.rename (new .latch)⟩

/-- A missing input is missing under its new name. -/
def Fault.rename (new : Kind → String → String) : Fault → Fault
  | .refused (.circuit (.missingInput name)) => .circuit (.missingInput (new .input name))
  | fault => fault

/-- The steps of a run, or what stopped it, with new names. -/
def renameRun (new : Kind → String → String) :
    Except Fault (List Step) → Except Fault (List Step)
  | .ok steps => .ok (steps.map (Step.rename new))
  | .error fault => .error (fault.rename new)

namespace Graph

/-- The second graph is the first one with other names. -/
structure IsRenamed (new : Kind → String → String) (g h : Graph) : Prop where
  nodes : h.nodes = g.nodes
  inputs : NameMap.IsRenamed (new .input) g.inputs h.inputs
  latches : NameMap.IsRenamed (new .latch) g.latches h.latches
  outputs : NameMap.IsRenamed (new .output) g.outputs h.outputs
  inj : ∀ kind, ∀ a ∈ g.names kind, ∀ b ∈ g.names kind, new kind a = new kind b → a = b

theorem isRenamed_rename {g : Graph} {kind : Kind} {new : Renaming}
    (inj : ∀ a ∈ g.names kind, ∀ b ∈ g.names kind, new.apply a = new.apply b → a = b) :
    IsRenamed (onKind kind new.apply) g (g.rename kind new) := by
  have every : ∀ kind', ∀ a ∈ g.names kind', ∀ b ∈ g.names kind',
      onKind kind new.apply kind' a = onKind kind new.apply kind' b → a = b := by
    intro kind' a ha b hb heq
    rw [onKind] at heq
    split at heq
    next h => exact inj a (h ▸ ha) b (h ▸ hb) heq
    next => exact heq
  have renamed {α : Type} {m : NameMap α}
      (inj : ∀ a ∈ m.keys, ∀ b ∈ m.keys, new.apply a = new.apply b → a = b) :
      NameMap.IsRenamed new.apply m (m.rename new.apply) :=
    NameMap.isRenamed_rename (by simpa only [Std.ExtTreeMap.mem_keys] using inj)
  cases kind with
  | input => exact ⟨rfl, renamed inj, NameMap.isRenamed_id _, NameMap.isRenamed_id _, every⟩
  | latch => exact ⟨rfl, NameMap.isRenamed_id _, renamed inj, NameMap.isRenamed_id _, every⟩
  | output => exact ⟨rfl, NameMap.isRenamed_id _, NameMap.isRenamed_id _, renamed inj, every⟩

namespace IsRenamed

variable {new : Kind → String → String} {g h : Graph} (renamed : IsRenamed new g h)
include renamed

theorem solution {v : Nat → Bool} (hv : g.Solution v) : h.Solution v :=
  ⟨hv.zero, fun hi => hv.gate (renamed.nodes ▸ hi)⟩

theorem latch?_eq_some_iff (evg : g.Evaluable) (evh : h.Evaluable) {name : String} {l : Latch} :
    h.latch? name = some l ↔ ∃ old, new .latch old = name ∧ g.latch? old = some l := by
  simp only [evh.latch?_eq_some_iff, evg.latch?_eq_some_iff, renamed.nodes, renamed.latches name l.id]
  exact ⟨fun ⟨⟨old, heq, hold⟩, hl⟩ => ⟨old, heq, hold, hl⟩,
    fun ⟨old, heq, hold, hl⟩ => ⟨⟨old, heq, hold⟩, hl⟩⟩

theorem initial_eq (evg : g.Evaluable) (evh : h.Evaluable) {name : String} (hn : name ∈ g.latches) :
    h.initial (new .latch name) = g.initial name := by
  obtain ⟨l, hl⟩ := evg.mem_latches_iff.1 hn
  rw [initial, initial, hl, (renamed.latch?_eq_some_iff evg evh).2 ⟨name, rfl, hl⟩]

theorem inj_on {α : Type} {m : NameMap α} {kind : Kind}
    (same : ∀ name, name ∈ m ↔ name ∈ g.names kind) :
    ∀ a ∈ m, ∀ b ∈ m, new kind a = new kind b → a = b :=
  fun a ha b hb => renamed.inj kind a ((same a).1 ha) b ((same b).1 hb)

theorem initialState_eq (evg : g.Evaluable) (evh : h.Evaluable) :
    h.initialState = g.initialState.rename (new .latch) := by
  have initials : NameMap.IsRenamed (new .latch) g.initialState h.initialState :=
    NameMap.isRenamed_of_map Latch.init (fun _ _ => renamed.latch?_eq_some_iff evg evh)
      g.getElem?_initialState h.getElem?_initialState
  exact initials.eq_rename (renamed.inj_on fun name =>
    evg.mem_initialState_iff.trans Std.ExtTreeMap.mem_keys.symm)

section Step
variable {values moved state state' : Valuation}
  (hvalues : IsMoved (g.names .input) (new .input) values moved)
  (hstate : IsMoved (g.names .latch) (new .latch) state state')
include hvalues hstate

/-- The solution stays, and gives the same values under new names. -/
theorem eval_ok (evg : g.Evaluable) (evh : h.Evaluable) {step : Step}
    (run : g.eval values (some state) = .ok step) :
    h.eval moved (some state') = .ok (step.rename new) := by
  obtain ⟨v, hv⟩ := evg.eval_eq_ok_iff.1 run
  have inputs : ∀ name ∈ h.inputs, h.inputValue v name = moved[name]? := by
    intro name hname
    obtain ⟨old, hold, rfl⟩ := renamed.inputs.mem_iff.1 hname
    rw [inputValue, renamed.inputs.getElem?_of_mem hold, hvalues old (Std.ExtTreeMap.mem_keys.2 hold),
      ← hv.inputs old hold, inputValue]
  have latches : ∀ name ∈ h.latches,
      h.latchValue v name = (h.initial name).map fun init => (state'[name]?).getD init := by
    intro name hname
    obtain ⟨old, hold, rfl⟩ := renamed.latches.mem_iff.1 hname
    rw [latchValue, renamed.latches.getElem?_of_mem hold, hstate old (Std.ExtTreeMap.mem_keys.2 hold),
      renamed.initial_eq evg evh hold, ← latchValue]
    exact hv.latches old
  have states (name : String) : h.latchValue v name =
      (h.initial name).map fun init => (((some state').getD ∅)[name]?).getD init :=
    evh.latchValue_eq latches name
  obtain ⟨step', hok, hv'⟩ :=
    evh.exists_eval_of_solution (renamed.solution hv.solution) inputs states
  have outputs := NameMap.isRenamed_of_map _ renamed.outputs hv.outputs hv'.outputs
  have nexts := NameMap.isRenamed_of_map _ (fun _ _ => renamed.latch?_eq_some_iff evg evh)
    hv.nexts hv'.nexts
  rw [hok, Step.rename, ← outputs.eq_rename (renamed.inj_on fun name => ?_),
    ← nexts.eq_rename (renamed.inj_on fun name => ?_)]
  · exact (hv.mem_latches_iff evg name).trans Std.ExtTreeMap.mem_keys.symm
  · exact (hv.mem_outputs_iff name).trans Std.ExtTreeMap.mem_keys.symm

omit hstate in
theorem firstMissing {name : String} (missing : g.FirstMissing values name) :
    h.FirstMissing moved (new .input name) := by
  obtain ⟨i, hi, absent, before⟩ := missing
  have moved_iff {n : String} (hn : n ∈ g.inputs) : new .input n ∈ moved ↔ n ∈ values := by
    rw [mem_iff_exists_getElem?, mem_iff_exists_getElem?, hvalues n (Std.ExtTreeMap.mem_keys.2 hn)]
  have named {n : String} {j : Nat} (h : g.inputs[n]? = some j) : n ∈ g.inputs :=
    mem_iff_exists_getElem?.2 ⟨j, h⟩
  refine ⟨i, (renamed.inputs _ _).2 ⟨name, rfl, hi⟩, mt (moved_iff (named hi)).1 absent, ?_⟩
  intro other j hj hlt
  obtain ⟨old, rfl, hold⟩ := (renamed.inputs _ _).1 hj
  exact (moved_iff (named hold)).2 (before old j hold hlt)

omit hstate in
theorem eval_error (evg : g.Evaluable) (evh : h.Evaluable) {fault : Fault}
    (run : g.eval values (some state) = .error fault) :
    h.eval moved (some state') = .error (fault.rename new) := by
  obtain ⟨name, missing, rfl⟩ := evg.eval_eq_error_iff.1 run
  exact evh.eval_eq_error_iff.2 ⟨_, renamed.firstMissing hvalues missing, rfl⟩

end Step

theorem isMoved_latches {inputs : Valuation} {state : Option Valuation} {step : Step}
    (run : g.eval inputs state = .ok step) :
    IsMoved (g.names .latch) (new .latch) step.latches (step.rename new).latches := by
  have same (name : String) : name ∈ step.latches ↔ name ∈ g.names .latch :=
    (latches_of_eval run name).1.trans Std.ExtTreeMap.mem_keys.symm
  intro name hn
  exact (NameMap.isRenamed_rename (renamed.inj_on same)).getElem?_of_mem ((same name).2 hn)

/-- Renamed states lead to renamed states. -/
theorem runFrom_eq (evg : g.Evaluable) (evh : h.Evaluable) {inputs inputs' : List Valuation}
    (hinputs : List.Forall₂ (IsMoved (g.names .input) (new .input)) inputs inputs')
    {state state' : Valuation} (hstate : IsMoved (g.names .latch) (new .latch) state state') :
    h.runFrom state' inputs' = renameRun new (g.runFrom state inputs) := by
  induction hinputs generalizing state state' with
  | nil => rfl
  | cons hvalues _ ih =>
    rw [runFrom, runFrom]
    cases run : g.eval _ (some state) with
    | ok step =>
      rw [renamed.eval_ok hvalues hstate evg evh run, except_ok_bind, except_ok_bind,
        ih (renamed.isMoved_latches run)]
      cases g.runFrom step.latches _ <;> rfl
    | error fault =>
      rw [renamed.eval_error hvalues evg evh run]
      rfl

theorem simulate_eq (evg : g.Evaluable) (evh : h.Evaluable) {inputs inputs' : List Valuation}
    (hinputs : List.Forall₂ (IsMoved (g.names .input) (new .input)) inputs inputs')
    {state state' : Option Valuation}
    (hstate : Option.Rel (IsMoved (g.names .latch) (new .latch)) state state') :
    h.simulate inputs' state' = renameRun new (g.simulate inputs state) := by
  cases hstate with
  | some hstate => exact renamed.runFrom_eq evg evh hinputs hstate
  | none =>
    refine renamed.runFrom_eq evg evh hinputs fun name hn => ?_
    rw [Option.getD_none, Option.getD_none, getElem?_initialState, getElem?_initialState,
      renamed.initial_eq evg evh (Std.ExtTreeMap.mem_keys.1 hn)]

end IsRenamed

/-- The new names of other names do not matter. -/
theorem relabel_congr {g : Graph} {kind : Kind} {new new' : Renaming}
    (same : ∀ name ∈ g.names kind, new'.apply name = new.apply name) :
    g.relabel kind new' = g.relabel kind new := by
  have renamed : g.rename kind new' = g.rename kind new := by
    have on {α : Type} {m : NameMap α} (same : ∀ name ∈ m.keys, new'.apply name = new.apply name) :
        m.rename new'.apply = m.rename new.apply :=
      NameMap.rename_congr fun name hn => same name (Std.ExtTreeMap.mem_keys.2 hn)
    cases kind with
    | input => rw [rename, rename, on same]
    | latch => rw [rename, rename, on same]
    | output => rw [rename, rename, on same]
  rw [relabel, relabel, firstClash_congr same, renamed]
  cases clash : firstClash [] new.apply (g.names kind) with
  | none => rfl
  | some name => simp only [same name (mem_of_firstClash clash)]

/-- A renaming is undone by one that sends every new name back. -/
theorem relabel_rename {g : Graph} {kind : Kind} {new back : Renaming}
    (undone : ∀ name ∈ g.names kind, back.apply (new.apply name) = name) :
    (g.rename kind new).relabel kind back = .ok g := by
  have injBack : ∀ a ∈ (g.rename kind new).names kind, ∀ b ∈ (g.rename kind new).names kind,
      back.apply a = back.apply b → a = b :=
    inj_back_of_undone undone fun _ => (mem_names_rename_iff (inj_of_undone undone)).1
  have on {α : Type} {m : NameMap α} (undone : ∀ name ∈ m.keys, back.apply (new.apply name) = name) :
      (m.rename new.apply).rename back.apply = m :=
    NameMap.rename_rename fun name hn => undone name (Std.ExtTreeMap.mem_keys.2 hn)
  rw [relabel_eq_rename injBack]
  cases kind with
  | input => rw [rename, rename, on undone]
  | latch => rw [rename, rename, on undone]
  | output => rw [rename, rename, on undone]

/-- What renaming by pairs of old and new names does to a reachable graph. It is refused exactly where
two names of the kind would meet, and pairs for other names change nothing. Otherwise nodes and gate
table stay, names of other kinds stay, and every object of the kind stands under its new name. Given
the same values under new names, a run gives the same values under new names, or misses the same input.
Pairs that send the new names back give the graph again. -/
theorem relabel_renames {g : Graph} (reachable : g.Reachable) (kind : Kind)
    (pairs : List (String × String)) :
    ((∃ h, g.relabel kind (NameMap.ofPairs pairs) = .ok h) ↔
      ∀ a ∈ g.names kind, ∀ b ∈ g.names kind, renamedBy pairs a = renamedBy pairs b → a = b) ∧
    (∀ pairs', (∀ name ∈ g.names kind, renamedBy pairs' name = renamedBy pairs name) →
      g.relabel kind (NameMap.ofPairs pairs') = g.relabel kind (NameMap.ofPairs pairs)) ∧
    ∀ h, g.relabel kind (NameMap.ofPairs pairs) = .ok h →
      h.gateTable = g.gateTable ∧
      (∀ kind' ≠ kind, h.names kind' = g.names kind') ∧
      IsRenamed (onKind kind (renamedBy pairs)) g h ∧
      (∀ name ∈ g.latches, h.initial (onKind kind (renamedBy pairs) .latch name) = g.initial name) ∧
      (∀ inputs inputs' state state',
        List.Forall₂ (IsMoved (g.names .input) (onKind kind (renamedBy pairs) .input))
          inputs inputs' →
        Option.Rel (IsMoved (g.names .latch) (onKind kind (renamedBy pairs) .latch))
          state state' →
        h.simulate inputs' state' =
          renameRun (onKind kind (renamedBy pairs)) (g.simulate inputs state)) ∧
      (∀ back, (∀ name ∈ g.names kind, renamedBy back (renamedBy pairs name) = name) →
        h.relabel kind (NameMap.ofPairs back) = .ok g) ∧
      h.relabel kind (NameMap.ofPairs ((g.names kind).map fun name => (renamedBy pairs name, name))) =
        .ok g := by
  have image : Renaming.apply (NameMap.ofPairs pairs) = renamedBy pairs :=
    funext (Renaming.apply_ofPairs pairs)
  refine ⟨⟨fun ⟨h, run⟩ => image ▸ (eq_rename_of_relabel run).2,
    fun inj => ⟨_, relabel_eq_rename (image ▸ inj)⟩⟩, fun pairs' same => ?_, fun h run => ?_⟩
  · exact relabel_congr (by simpa only [Renaming.apply_ofPairs] using same)
  obtain ⟨rfl, inj⟩ := eq_rename_of_relabel run
  have wf := reachable.wellFormed
  have wf' := wf.relabel run
  have renamed := isRenamed_rename inj
  rw [image] at inj renamed
  have undone (back : List (String × String))
      (sends : ∀ name ∈ g.names kind, renamedBy back (renamedBy pairs name) = name) :
      (g.rename kind (NameMap.ofPairs pairs)).relabel kind (NameMap.ofPairs back) = .ok g :=
    relabel_rename (by simpa only [Renaming.apply_ofPairs] using sends)
  refine ⟨by cases kind <;> rfl, fun kind' other => names_rename_of_ne g _ other, renamed,
    fun name hn => renamed.initial_eq wf.toEvaluable wf'.toEvaluable hn,
    fun inputs inputs' state state' hinputs hstate =>
      renamed.simulate_eq wf.toEvaluable wf'.toEvaluable hinputs hstate,
    undone, undone _ fun name hn => renamedBy_of_mem ?_ (List.mem_map.2 ⟨name, hn, rfl⟩)⟩
  rw [List.map_map]
  exact (g.nodup_names kind).map_on inj

/-- The two inputs of a graph swap their names, and swap them again. -/
theorem relabel_renames_swap : ∃ (g h : Graph) (steps : List Step), g.Reachable ∧
    g.relabel .input (NameMap.ofPairs [("a", "b"), ("b", "a")]) = .ok h ∧
    h.relabel .input (NameMap.ofPairs [("a", "b"), ("b", "a")]) = .ok g ∧
    g.simulate [NameMap.ofPairs [("a", true), ("b", false)]] none = .ok steps ∧
    h.simulate [NameMap.ofPairs [("b", true), ("a", false)]] none =
      renameRun (onKind .input (renamedBy [("a", "b"), ("b", "a")])) (.ok steps) := by
  obtain ⟨g, hg, h, hrun, ⟨steps, hsteps, -⟩, moved, undone⟩ :
      ∃ g, Build.graph ([.input "a", .input "b", .latch "q" true, .setNext "q" (.positive 1),
        .output "y" (.positive 2)].forM Growth.build) = .ok g ∧
      ∃ h, g.relabel .input (NameMap.ofPairs [("a", "b"), ("b", "a")]) = .ok h ∧
      (∃ steps, g.simulate [NameMap.ofPairs [("a", true), ("b", false)]] none = .ok steps ∧
        steps.length = 1) ∧
      (∀ name ∈ g.names .input, (NameMap.ofPairs [("b", true), ("a", false)])[
        renamedBy [("a", "b"), ("b", "a")] name]? =
          (NameMap.ofPairs [("a", true), ("b", false)])[name]?) ∧
      ∀ name ∈ g.names .input, renamedBy [("a", "b"), ("b", "a")]
        (renamedBy [("a", "b"), ("b", "a")] name) = name := by
    decide +kernel
  have reachable := reachable_of_growths hg
  obtain ⟨-, -, renamed⟩ := relabel_renames reachable .input [("a", "b"), ("b", "a")]
  obtain ⟨-, -, -, -, runs, back, -⟩ := renamed h hrun
  refine ⟨g, h, steps, reachable, hrun, back _ undone, hsteps, ?_⟩
  rw [← hsteps]
  exact runs _ _ none none (.cons moved .nil) .none

end Graph

end AndInverter
