import AndInverter.Proofs.Graph.Keeps
import AndInverter.Proofs.WordGate.Basic
import AndInverter.WordGate.Arithmetic
import AndInverter.WordGate.Compare
import AndInverter.WordGate.Logic
import AndInverter.WordGate.Wiring

/-! Whatever its arguments, a gate that can be made has no objects but the bits of its words: a step
that could add others fails. -/

namespace AndInverter

namespace Build

variable {α β : Type}

/-- The step comes from a well-formed graph to none but well-formed graphs with the same named
objects. -/
def Quiet (build : Build α) : Prop :=
  ∀ g : Graph, g.WellFormed → build.Spec g (fun _ h => g.SameNames h) fun _ => True

namespace Quiet

theorem pure (a : α) : Quiet (Pure.pure a : Build α) :=
  fun _ wf => .pure wf (.refl _)

theorem bind {build : Build α} {f : α → Build β} (first : build.Quiet)
    (then_ : ∀ a, (f a).Quiet) : (build >>= f).Quiet := by
  intro g wf
  apply (first g wf).bind
  intro a h wf' _ same
  exact (then_ a h wf').imp fun _ _ _ _ same' => same.trans same'

theorem lift (x : Except Fault α) : Quiet (liftM x : Build α) :=
  fun g wf => .lift wf (fun _ _ => .refl g) fun _ _ => trivial

theorem foldlM {f : β → α → Build β} (quiet : ∀ b a, (f b a).Quiet) (as : List α) (b : β) :
    Quiet (as.foldlM f b) := by
  induction as generalizing b with
  | nil => exact pure b
  | cons a as ih => exact (quiet b a).bind fun b' => ih b'

theorem mapM {f : α → Build β} (quiet : ∀ a, (f a).Quiet) (as : List α) : Quiet (as.mapM f) := by
  induction as with
  | nil => exact pure []
  | cons a as ih =>
    rw [List.mapM_cons]
    exact (quiet a).bind fun b => ih.bind fun bs => pure (b :: bs)

/-! ### Gates inside a graph -/

theorem and (a b : Literal) : (Build.and a b).Quiet := by
  intro g wf
  rw [Spec]
  cases run : Build.and a b g with
  | error fault => trivial
  | ok result =>
    obtain ⟨_, ha, run'⟩ := except_bind_eq_ok_iff.1 run
    obtain ⟨_, hb, -⟩ := except_bind_eq_ok_iff.1 run'
    obtain ⟨wf', ext, -, same⟩ := (and_runs wf (Graph.requireNode_eq_ok_iff.1 ha)
      (Graph.requireNode_eq_ok_iff.1 hb)).elim run
    exact ⟨wf', ext, same⟩

theorem or (a b : Literal) : (Build.or a b).Quiet :=
  (and _ _).bind fun _ => pure _

theorem xor (a b : Literal) : (Build.xor a b).Quiet :=
  (and _ _).bind fun _ => (and _ _).bind fun _ => or _ _

theorem xnor (a b : Literal) : (Build.xnor a b).Quiet :=
  (xor _ _).bind fun _ => pure _

theorem mux (a b c : Literal) : (Build.mux a b c).Quiet :=
  (and _ _).bind fun _ => (and _ _).bind fun _ => or _ _

theorem andAll (ls : List Literal) : (Build.andAll ls).Quiet := foldlM and ls _

theorem orAll (ls : List Literal) : (Build.orAll ls).Quiet := foldlM or ls _

theorem xorAll (ls : List Literal) : (Build.xorAll ls).Quiet := foldlM xor ls _

theorem fullAdder (a b carry : Literal) : (Build.fullAdder a b carry).Quiet :=
  (xor _ _).bind fun _ => (xor _ _).bind fun _ => (and _ _).bind fun _ => (and _ _).bind fun _ =>
    (or _ _).bind fun _ => pure _

theorem rippleAdd (xs ys : List Literal) (carry : Literal) :
    (Build.rippleAdd xs ys carry).Quiet := by
  induction xs, ys, carry using Build.rippleAdd.induct with
  | case1 x xs y ys carry ih =>
    rw [Build.rippleAdd]
    exact (fullAdder _ _ _).bind fun sum => (ih sum.2).bind fun _ => pure _
  | case2 xs ys carry =>
    rw [Build.rippleAdd.eq_2 _ _ _ ‹_›]
    exact pure _

theorem rippleSub (xs ys : List Literal) : (Build.rippleSub xs ys).Quiet := rippleAdd _ _ _

theorem negative (xs : List Literal) : (Build.negative xs).Quiet :=
  (rippleSub _ _).bind fun _ => pure _

theorem lessUnsigned (xs ys : List Literal) : (Build.lessUnsigned xs ys).Quiet :=
  (rippleSub _ _).bind fun _ => pure _

theorem lessSigned (xs ys : List Literal) : (Build.lessSigned xs ys).Quiet := lessUnsigned _ _

theorem bitwise {gate : Literal → Literal → Build Literal} (quiet : ∀ a b, (gate a b).Quiet)
    (xs ys : List Literal) : (Build.bitwise gate xs ys).Quiet :=
  mapM (fun (bits : Literal × Literal) => quiet bits.1 bits.2) (xs.zip ys)

theorem equal (xs ys : List Literal) : (Build.equal xs ys).Quiet :=
  (bitwise xnor xs ys).bind fun _ => andAll _

theorem magnitude (xs : List Literal) : (Build.magnitude xs).Quiet := by
  rw [Build.magnitude]
  split
  · exact pure _
  · exact (negative xs).bind fun _ => bitwise (mux _) _ _

theorem single {bit : Build Literal} (quiet : bit.Quiet) : (WordGate.single bit).Quiet :=
  quiet.bind fun _ => pure _

end Quiet

/-- Outputs that could be added all stand on nodes of the graph. -/
theorem has_of_forM_output {entries : List (String × Literal)} {g h : Graph}
    (run : (entries.forM fun (name, l) => output name l) g = .ok ((), h)) :
    ∀ e ∈ entries, g.Has e.2 := by
  induction entries generalizing g with
  | nil => simp
  | cons e entries ih =>
    obtain ⟨_, k, first, later⟩ := bind_eq_ok_iff.1 run
    obtain ⟨_, has, named⟩ := except_bind_eq_ok_iff.1 first
    have nodes : k.nodes = g.nodes := by
      split at named
      · cases named
      · cases named
        rfl
    intro e' he'
    rcases List.mem_cons.1 he' with rfl | he'
    · exact Graph.requireNode_eq_ok_iff.1 has
    · simpa only [Graph.Has, nodes] using ih later e' he'

end Build

namespace WordBuild

variable {α β : Type} {c d : WordCircuit}

theorem bind_eq_ok_iff {build : WordBuild α} {f : α → WordBuild β} {b : β} :
    (build >>= f) c = .ok (b, d) ↔ ∃ a e, build c = .ok (a, e) ∧ f a e = .ok (b, d) := by
  have unfold : (build >>= f) c = build c >>= fun r => f r.1 r.2 := rfl
  rw [unfold, except_bind_eq_ok_iff, Prod.exists]

/-- The step comes from an exact circuit to none but exact circuits. -/
def Keeps (build : WordBuild α) : Prop :=
  ∀ (c d : WordCircuit) (a : α), c.Exact → build c = .ok (a, d) → d.Exact

namespace Keeps

theorem bind {build : WordBuild α} {f : α → WordBuild β} (first : build.Keeps)
    (then_ : ∀ a, (f a).Keeps) : (build >>= f).Keeps := by
  intro c d b exact run
  obtain ⟨a, e, hfirst, hthen⟩ := bind_eq_ok_iff.1 run
  exact then_ a e d b (first c e a exact hfirst) hthen

theorem pure (a : α) : Keeps (Pure.pure a : WordBuild α) := by
  rintro c d a exact ⟨⟩
  exact exact

theorem lift (x : Except Fault α) : Keeps (liftM x : WordBuild α) := by
  intro c d a exact run
  cases x with
  | ok b => cases run; exact exact
  | error fault => cases run

theorem discard {build : WordBuild α} (keeps : build.Keeps) : Keeps (discard build) :=
  keeps.bind fun _ => pure _

theorem forM {f : α → WordBuild Unit} (keeps : ∀ a, (f a).Keeps) (as : List α) :
    Keeps (as.forM f) := by
  induction as with
  | nil => exact pure ()
  | cons a as ih => exact (keeps a).bind fun _ => ih

theorem of_runs {build : WordBuild α} {ok : α → WordCircuit → Prop} {a : α} (runs : build.Runs c ok)
    (run : build c = .ok (a, d)) : d.Exact := by
  obtain ⟨_, _, run', exact, -⟩ := runs
  cases run.symm.trans run'
  exact exact

theorem bits {build : Build α} (quiet : build.Quiet) : (WordBuild.bits build).Keeps := by
  intro c d a exact run
  obtain ⟨⟨_, g⟩, hg, ⟨⟩⟩ := except_bind_eq_ok_iff.1 run
  obtain ⟨wf, -, same⟩ := (quiet c.graph exact.wf).elim hg
  exact exact.of_sameNames wf same

theorem input (name : String) (size : Nat) : (WordBuild.input name size).Keeps := by
  intro c d xs exact run
  by_cases agree : ∀ old, c.inputs[name]? = some old → old = size
  · exact of_runs (input_runs exact agree) run
  · simp only [not_forall] at agree
    obtain ⟨old, hold, other⟩ := agree
    obtain ⟨_, _, hget, run⟩ := bind_eq_ok_iff.1 run
    cases hget
    simp only [hold, ne_eq, other, not_false_eq_true, if_true] at run
    obtain ⟨_, _, hthrow, -⟩ := bind_eq_ok_iff.1 run
    cases hthrow

theorem output (name : String) (word : List Literal) : (WordBuild.output name word).Keeps := by
  intro c d u exact run
  by_cases new : name ∈ c.outputs
  · obtain ⟨_, _, hget, run⟩ := bind_eq_ok_iff.1 run
    cases hget
    simp only [Std.ExtTreeMap.contains_iff_mem.2 new, if_true] at run
    obtain ⟨_, _, hthrow, -⟩ := bind_eq_ok_iff.1 run
    cases hthrow
  · have run' := run
    rw [output_eq word new] at run'
    obtain ⟨⟨_, g⟩, hg, -⟩ := except_bind_eq_ok_iff.1 run'
    have has := Build.has_of_forM_output hg
    refine of_runs (output_runs exact new fun l hl => ?_) run
    have length : word.length ≤ (Word.bitNames name word.length).length := by simp [Word.bitNames]
    rw [← List.map_snd_zip length] at hl
    obtain ⟨e, he, rfl⟩ := List.mem_map.1 hl
    exact has e he

end Keeps

/-- A circuit made from nothing is exact. -/
theorem Keeps.exact {build : WordBuild Unit} (keeps : build.Keeps)
    (h : WordBuild.circuit build = .ok c) : c.Exact := by
  obtain ⟨⟨u, d⟩, run, heq⟩ := except_bind_eq_ok_iff.1 h
  exact Except.ok.inj heq ▸ keeps .empty d u WordCircuit.exact_empty run

end WordBuild

end AndInverter
