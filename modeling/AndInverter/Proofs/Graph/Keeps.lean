import AndInverter.Aiger.Read
import AndInverter.Graph.Compact
import AndInverter.Graph.Compose
import AndInverter.Graph.Feedback
import AndInverter.Graph.Relabel
import AndInverter.Graph.Unroll
import AndInverter.Proofs.Graph.Gate

/-! Whatever its arguments, a step of construction that ends well keeps the representation
invariant and only adds to the graph: a step that could break it checks its arguments first. -/

namespace AndInverter

namespace Build

variable {α β : Type}

theorem bind_eq_ok_iff {build : Build α} {f : α → Build β} {g h : Graph} {b : β} :
    (build >>= f) g = .ok (b, h) ↔ ∃ a k, build g = .ok (a, k) ∧ f a k = .ok (b, h) := by
  have unfold : (build >>= f) g = build g >>= fun r => f r.1 r.2 := rfl
  rw [unfold, except_bind_eq_ok_iff, Prod.exists]

theorem map_eq_ok_iff {build : Build α} {f : α → β} {g h : Graph} {b : β} :
    (f <$> build) g = .ok (b, h) ↔ ∃ a, build g = .ok (a, h) ∧ f a = b := by
  refine (bind_eq_ok_iff (f := fun a => pure (f a))).trans ⟨?_, ?_⟩
  · rintro ⟨a, _, run, ⟨⟩⟩
    exact ⟨a, run, rfl⟩
  · rintro ⟨a, run, rfl⟩
    exact ⟨a, h, run, rfl⟩

theorem discard_eq_ok_iff {build : Build α} {g h : Graph} :
    discard build g = .ok ((), h) ↔ ∃ a, build g = .ok (a, h) :=
  map_eq_ok_iff.trans (by simp)

/-- From a well-formed graph the step comes to none but well-formed graphs that extend it. -/
def Keeps (build : Build α) : Prop :=
  ∀ (g h : Graph) (a : α), g.WellFormed → build g = .ok (a, h) → h.WellFormed ∧ g.Extends h

namespace Keeps

theorem of_spec {build : Build α} {ok : Graph → α → Graph → Prop} {err : Graph → Fault → Prop}
    (spec : ∀ {g : Graph}, g.WellFormed → build.Spec g (ok g) (err g)) : build.Keeps := by
  intro g h a wf run
  obtain ⟨wf', ext, -⟩ := (spec wf).elim run
  exact ⟨wf', ext⟩

theorem pure (a : α) : Keeps (Pure.pure a : Build α) := by
  rintro g h a wf ⟨⟩
  exact ⟨wf, .refl g⟩

theorem lift (x : Except Fault α) : Keeps (liftM x : Build α) := by
  intro g h a wf run
  cases x with
  | ok b => cases run; exact ⟨wf, .refl g⟩
  | error fault => cases run

theorem throw (fault : Fault) : Keeps (MonadExcept.throw fault : Build α) := by
  rintro g h a wf ⟨⟩

theorem get : Keeps (MonadState.get : Build Graph) := by
  rintro g h a wf ⟨⟩
  exact ⟨wf, .refl g⟩

theorem bind {build : Build α} {f : α → Build β} (first : build.Keeps)
    (then_ : ∀ a, (f a).Keeps) : (build >>= f).Keeps := by
  intro g h b wf run
  obtain ⟨a, k, hfirst, hthen⟩ := bind_eq_ok_iff.1 run
  obtain ⟨wf', ext⟩ := first g k a wf hfirst
  obtain ⟨wf'', ext'⟩ := then_ a k h b wf' hthen
  exact ⟨wf'', ext.trans ext'⟩

theorem map {build : Build α} {f : α → β} (keeps : build.Keeps) : (f <$> build).Keeps :=
  keeps.bind fun a => pure (f a)

theorem discard {build : Build α} (keeps : build.Keeps) : Keeps (discard build) :=
  keeps.map

theorem ite {c : Prop} [Decidable c] {build build' : Build α} (keeps : build.Keeps)
    (keeps' : build'.Keeps) : Keeps (if c then build else build') := by
  split
  · exact keeps
  · exact keeps'

theorem foldlM {f : β → α → Build β} (keeps : ∀ b a, (f b a).Keeps) (as : List α) (b : β) :
    Keeps (as.foldlM f b) := by
  induction as generalizing b with
  | nil => exact pure b
  | cons a as ih => exact (keeps b a).bind fun b' => ih b'

theorem forM {f : α → Build Unit} (keeps : ∀ a, (f a).Keeps) (as : List α) :
    Keeps (as.forM f) := by
  induction as with
  | nil => exact pure ()
  | cons a as ih => exact (keeps a).bind fun _ => ih

theorem mapM {f : α → Build β} (keeps : ∀ a, (f a).Keeps) (as : List α) :
    Keeps (as.mapM f) := by
  induction as with
  | nil => exact pure []
  | cons a as ih =>
    rw [List.mapM_cons]
    exact (keeps a).bind fun b => ih.bind fun bs => pure (b :: bs)

/-! ### The steps -/

theorem input (name : String) : (Build.input name).Keeps :=
  of_spec fun wf => input_runs wf name

theorem latch (name : String) (init : Bool) : (Build.latch name init).Keeps := by
  intro g h l wf run
  by_cases hname : name ∈ g.latches
  · simp [Build.latch, hname] at run
  · obtain ⟨wf', ext, -⟩ := (latch_runs wf hname init).elim run
    exact ⟨wf', ext⟩

theorem setNext (name : String) (next : Literal) : (Build.setNext name next).Keeps := by
  intro g h u wf run
  obtain ⟨_, hreq, run'⟩ := except_bind_eq_ok_iff.1 run
  cases hname : g.latches[name]? with
  | none =>
    rw [hname] at run'
    cases run'
  | some id =>
    have mem := mem_iff_exists_getElem?.2 ⟨id, hname⟩
    obtain ⟨wf', ext, -⟩ := (setNext_runs wf mem (Graph.requireNode_eq_ok_iff.1 hreq)).elim run
    exact ⟨wf', ext⟩

theorem output (name : String) (l : Literal) : (Build.output name l).Keeps := by
  intro g h u wf run
  obtain ⟨_, hreq, run'⟩ := except_bind_eq_ok_iff.1 run
  have new : name ∉ g.outputs := by
    intro hname
    simp [hname] at run'
  obtain ⟨wf', ext, -⟩ := (output_runs wf new (Graph.requireNode_eq_ok_iff.1 hreq)).elim run
  exact ⟨wf', ext⟩

theorem and (a b : Literal) : (Build.and a b).Keeps := by
  intro g h l wf run
  obtain ⟨ha, hb⟩ := has_of_and run
  obtain ⟨wf', ext, -⟩ := (and_runs wf ha hb).elim run
  exact ⟨wf', ext⟩

theorem or (a b : Literal) : (Build.or a b).Keeps :=
  (and _ _).bind fun _ => pure _

theorem xor (a b : Literal) : (Build.xor a b).Keeps :=
  (and _ _).bind fun _ => (and _ _).bind fun _ => or _ _

theorem xnor (a b : Literal) : (Build.xnor a b).Keeps :=
  (xor _ _).bind fun _ => pure _

theorem mux (a b c : Literal) : (Build.mux a b c).Keeps :=
  (and _ _).bind fun _ => (and _ _).bind fun _ => or _ _

theorem andAll (ls : List Literal) : (Build.andAll ls).Keeps := foldlM and ls _

theorem orAll (ls : List Literal) : (Build.orAll ls).Keeps := foldlM or ls _

theorem xorAll (ls : List Literal) : (Build.xorAll ls).Keeps := foldlM xor ls _

theorem outputs (ls : NameMap Literal) : (Build.outputs ls).Keeps :=
  forM (fun _ => output _ _) _

theorem setNexts (nexts : NameMap Literal) : (Build.setNexts nexts).Keeps :=
  forM (fun _ => setNext _ _) _

/-! ### Copies -/

theorem embed (source : Graph) {bind : Leaf → Build Literal} (keeps : ∀ leaf, (bind leaf).Keeps) :
    (Build.embed source bind).Keeps := by
  refine Keeps.bind (foldlM (fun images entry => Keeps.bind ?_ fun _ => pure _) _ _) fun _ => lift _
  cases entry.1 with
  | zero => exact pure _
  | input => exact (lift _).bind fun _ => keeps _
  | latch next init => exact (lift _).bind fun _ => keeps _
  | and left right => exact (lift _).bind fun _ => (lift _).bind fun _ => and _ _

theorem embedDriven (drivers : NameMap Literal) (source : Graph) :
    (Build.embedDriven drivers source).Keeps := by
  refine Keeps.bind (embed source fun leaf => ?_) fun _ => (setNexts _).bind fun _ => pure _
  cases leaf with
  | input name =>
    rw [bindDriven]
    split
    · exact pure _
    · exact input name
  | latch name init => exact latch name init

theorem unrollStep (source : Graph) (options : UnrollOptions) (t : Nat) (last : Bool)
    (state : NameMap Literal) : (Build.unrollStep source options t last state).Keeps := by
  have timed (ls : NameMap Literal) : (timedOutputs ls (t + 1)).Keeps := forM (fun _ => output _ _) _
  refine Keeps.bind (embed source fun leaf => ?_) fun step => ?_
  · cases leaf with
    | input name => exact input _
    | latch name init => exact lift _
  · exact ite ((timed _).bind fun _ => ite ((timed _).bind fun _ => pure _) (pure _)) (pure _)

theorem unrollFrom (source : Graph) (options : UnrollOptions) (count t : Nat)
    (state : NameMap Literal) : (Build.unrollFrom source options count t state).Keeps := by
  induction count generalizing t state with
  | zero => exact pure _
  | succ count ih => exact (unrollStep source options t _ state).bind fun next => ih (t + 1) next

end Keeps

/-- What is built from nothing is well-formed. -/
theorem Keeps.graph {build : Build Unit} (keeps : build.Keeps) {g : Graph}
    (h : Build.graph build = .ok g) : g.WellFormed := by
  obtain ⟨⟨u, k⟩, run, heq⟩ := except_bind_eq_ok_iff.1 h
  exact Except.ok.inj heq ▸ (keeps .empty k u Graph.wellFormed_empty run).1

end Build

end AndInverter
