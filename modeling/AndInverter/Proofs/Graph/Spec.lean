import AndInverter.Proofs.Except
import AndInverter.Proofs.Graph.Extends
import Mathlib.Data.List.Forall2

/-! Specifications of steps of construction: what a step gives and when it may fail. That the
representation invariant is kept and the graph only grows is part of every specification. -/

namespace AndInverter

namespace Build

variable {α β : Type}

/-- From `g` the step ends in a well-formed graph that extends `g` and with a result as `ok` says, or
in a fault as `err` says. -/
def Spec (build : Build α) (g : Graph) (ok : α → Graph → Prop) (err : Fault → Prop) : Prop :=
  match build g with
  | .ok (a, h) => h.WellFormed ∧ g.Extends h ∧ ok a h
  | .error fault => err fault

/-- The step succeeds. -/
abbrev Runs (build : Build α) (g : Graph) (ok : α → Graph → Prop) : Prop :=
  build.Spec g ok fun _ => False

variable {g : Graph} {build : Build α} {ok : α → Graph → Prop} {err : Fault → Prop}

theorem Spec.of_eq {a : α} {h : Graph} (heq : build g = .ok (a, h)) (wf : h.WellFormed)
    (ext : g.Extends h) (post : ok a h) : build.Spec g ok err := by
  rw [Spec, heq]
  exact ⟨wf, ext, post⟩

/-- The specification says what holds of every way the step may end. -/
theorem Spec.of_run
    (good : ∀ a h, build g = .ok (a, h) → h.WellFormed ∧ g.Extends h ∧ ok a h)
    (bad : ∀ fault, build g = .error fault → err fault) : build.Spec g ok err := by
  rw [Spec]
  cases heq : build g with
  | ok result => exact good _ _ heq
  | error fault => exact bad fault heq

theorem Spec.elim {a : α} {h : Graph} (spec : build.Spec g ok err) (heq : build g = .ok (a, h)) :
    h.WellFormed ∧ g.Extends h ∧ ok a h := by
  rwa [Spec, heq] at spec

theorem Runs.exists (runs : build.Runs g ok) :
    ∃ a h, build g = .ok (a, h) ∧ h.WellFormed ∧ g.Extends h ∧ ok a h := by
  rw [Runs, Spec] at runs
  cases heq : build g with
  | ok result => exact ⟨result.1, result.2, rfl, by rwa [heq] at runs⟩
  | error fault => rw [heq] at runs; exact runs.elim

/-- A step that succeeds builds a graph from nothing. -/
theorem Runs.exists_graph {build : Build Unit} {ok : Graph → Prop}
    (runs : build.Runs .empty fun _ => ok) :
    ∃ g, Build.graph build = .ok g ∧ g.WellFormed ∧ ok g := by
  obtain ⟨_, g, heq, wf, _, post⟩ := runs.exists
  exact ⟨g, by simp [Build.graph, StateT.run, heq], wf, post⟩

theorem Spec.mono {ok' : α → Graph → Prop} {err' : Fault → Prop} (spec : build.Spec g ok err)
    (hok : ∀ a h, h.WellFormed → g.Extends h → ok a h → ok' a h)
    (herr : ∀ fault, err fault → err' fault) : build.Spec g ok' err' := by
  rw [Spec] at spec ⊢
  cases heq : build g with
  | ok result =>
    rw [heq] at spec
    exact ⟨spec.1, spec.2.1, hok _ _ spec.1 spec.2.1 spec.2.2⟩
  | error fault => exact herr _ (by rwa [heq] at spec)

theorem Spec.imp {ok' : α → Graph → Prop} (spec : build.Spec g ok err)
    (hok : ∀ a h, h.WellFormed → g.Extends h → ok a h → ok' a h) : build.Spec g ok' err :=
  spec.mono hok fun _ h => h

theorem Spec.pure {a : α} (wf : g.WellFormed) (post : ok a g) :
    Spec (pure a : Build α) g ok err :=
  .of_eq rfl wf (.refl g) post

theorem Spec.bind {f : α → Build β} {ok' : β → Graph → Prop} (first : build.Spec g ok err)
    (then_ : ∀ a h, h.WellFormed → g.Extends h → ok a h → (f a).Spec h ok' err) :
    (build >>= f).Spec g ok' err := by
  have unfold : (build >>= f) g = build g >>= fun r => f r.1 r.2 := rfl
  rw [Spec, unfold]
  cases heq : build g with
  | error fault => rwa [Spec, heq] at first
  | ok result =>
    obtain ⟨wf, ext, post⟩ := first.elim heq
    have second := then_ result.1 result.2 wf ext post
    rw [except_ok_bind]
    cases heq' : f result.1 result.2 with
    | error fault => rwa [Spec, heq'] at second
    | ok result' =>
      obtain ⟨wf', ext', post'⟩ := second.elim heq'
      exact ⟨wf', ext.trans ext', post'⟩

/-- A bind whose first part changes nothing. -/
theorem Spec.bind_of_eq {f : α → Build β} {a : α} {ok' : β → Graph → Prop}
    (heq : build g = .ok (a, g)) (next : (f a).Spec g ok' err) :
    (build >>= f).Spec g ok' err := by
  have unfold : (build >>= f) g = f a g := by
    show (build g >>= fun r => f r.1 r.2) = _
    rw [heq, except_ok_bind]
  rwa [Spec, unfold]

theorem Spec.discard {ok : Graph → Prop} (spec : build.Spec g (fun _ => ok) err) :
    (discard build).Spec g (fun _ => ok) err :=
  spec.bind fun _ _ wf _ post => .pure wf post

theorem Spec.lift {x : Except Fault α} (wf : g.WellFormed) (good : ∀ a, x = .ok a → ok a g)
    (bad : ∀ fault, x = .error fault → err fault) : Spec (liftM x : Build α) g ok err := by
  cases x with
  | ok a => exact .of_eq rfl wf (.refl g) (good a rfl)
  | error fault => exact bad fault rfl

/-- A test in front of a step. -/
theorem Spec.guarded {c : Prop} [Decidable c] {fault : Fault} (bad : c → err fault)
    (good : ¬ c → build.Spec g ok err) :
    Spec (if c then (throw fault : Build PUnit) >>= fun _ => build else build) g ok err := by
  split
  next h => exact bad h
  next h => exact good h

theorem promised_eq {x : Option α} {a : α} (h : x = some a) :
    (liftM (Fault.promised x) : Build α) g = .ok (a, g) := by
  subst h
  rfl

theorem Spec.foldlM {f : β → α → Build β} {xs : List α} (Inv : Nat → β → Graph → Prop)
    (step : ∀ k b x h, xs[k]? = some x → h.WellFormed → g.Extends h → Inv k b h →
      (f b x).Spec h (Inv (k + 1)) err)
    (wf : g.WellFormed) {b : β} (start : Inv 0 b g) :
    Spec (xs.foldlM f b) g (Inv xs.length) err := by
  -- The steps still to take, from any point on.
  have later (ys : List α) : ∀ (k : Nat) (b : β) (h : Graph), (∀ i, ys[i]? = xs[k + i]?) →
      h.WellFormed → g.Extends h → Inv k b h →
      Spec (ys.foldlM f b) h (Inv (k + ys.length)) err := by
    induction ys with
    | nil => exact fun k b h _ wf _ inv => .pure wf inv
    | cons y ys ih =>
      intro k b h hys wf ext inv
      rw [List.foldlM_cons, List.length_cons, show k + (ys.length + 1) = k + 1 + ys.length by omega]
      refine (step k b y h (by simpa using (hys 0).symm) wf ext inv).bind fun b' h' wf' ext' inv' => ?_
      refine ih (k + 1) b' h' (fun i => ?_) wf' (ext.trans ext') inv'
      have := hys (i + 1)
      rwa [List.getElem?_cons_succ, show k + (i + 1) = k + 1 + i by omega] at this
  simpa using later xs 0 b g (by simp) wf (.refl g) start

theorem Spec.forM {f : α → Build Unit} {xs : List α} (Inv : List α → Graph → Prop)
    (step : ∀ done x rest h, xs = done ++ x :: rest → h.WellFormed → g.Extends h → Inv done h →
      (f x).Spec h (fun _ => Inv (done ++ [x])) err)
    (wf : g.WellFormed) (start : Inv [] g) : Spec (xs.forM f) g (fun _ => Inv xs) err := by
  -- The steps still to take, from any point on.
  have later (ys : List α) : ∀ (done : List α) (h : Graph), xs = done ++ ys → h.WellFormed →
      g.Extends h → Inv done h → Spec (ys.forM f) h (fun _ => Inv xs) err := by
    induction ys with
    | nil =>
      intro done h hxs wf _ inv
      rw [List.append_nil] at hxs
      exact .pure wf (hxs ▸ inv)
    | cons y ys ih =>
      intro done h hxs wf ext inv
      refine (step done y ys h hxs wf ext inv).bind fun _ h' wf' ext' inv' => ?_
      exact ih (done ++ [y]) h' (by simp [hxs]) wf' (ext.trans ext') inv'
  exact later xs [] g rfl wf (.refl g) start

/-- Results that stay right while the graph grows, one for each element. -/
theorem Spec.mapM {f : α → Build β} {xs : List α} (Inv : List α → Graph → Prop)
    (Post : α → β → Graph → Prop)
    (mono : ∀ x b g h, Post x b g → g.Extends h → Post x b h)
    (step : ∀ done x rest h, xs = done ++ x :: rest → h.WellFormed → g.Extends h → Inv done h →
      (f x).Spec h (fun b h' => Inv (done ++ [x]) h' ∧ Post x b h') err)
    (wf : g.WellFormed) (start : Inv [] g) :
    Spec (xs.mapM f) g (fun bs h => Inv xs h ∧ List.Forall₂ (Post · · h) xs bs) err := by
  have later (ys : List α) : ∀ (done : List α) (h : Graph), xs = done ++ ys → h.WellFormed →
      g.Extends h → Inv done h →
      Spec (ys.mapM f) h (fun bs h' => Inv xs h' ∧ List.Forall₂ (Post · · h') ys bs) err := by
    induction ys with
    | nil =>
      intro done h hxs wf _ inv
      rw [List.append_nil] at hxs
      exact .pure wf ⟨hxs ▸ inv, .nil⟩
    | cons y ys ih =>
      intro done h hxs wf ext inv
      rw [List.mapM_cons]
      refine (step done y ys h hxs wf ext inv).bind fun b h' wf' ext' ⟨inv', post⟩ => ?_
      refine (ih (done ++ [y]) h' (by simp [hxs]) wf' (ext.trans ext') inv').bind
        fun bs h'' wf'' ext'' ⟨inv'', posts⟩ => ?_
      exact .pure wf'' ⟨inv'', .cons (mono _ _ _ _ post ext'') posts⟩
  exact later xs [] g rfl wf (.refl g) start

end Build

end AndInverter
