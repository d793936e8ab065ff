import AndInverter.Proofs.Graph.Reachable

/-! Gates over literals of a graph. Whether they are folded, shared or new, the literal that is made has
the value of the gate under every valuation of the leaves, and nothing that was there changes. A
conjunction that was made once is found again however the graph has grown. -/

namespace AndInverter

/-- A gate with its arguments. -/
inductive Connective where
  | and (left right : Literal)
  | or (left right : Literal)
  | xor (left right : Literal)
  | xnor (left right : Literal)
  | mux (test thenCase elseCase : Literal)
  | andAll (ls : List Literal)
  | orAll (ls : List Literal)
  | xorAll (ls : List Literal)

namespace Connective

def arguments : Connective → List Literal
  | and left right | or left right | xor left right | xnor left right => [left, right]
  | mux test thenCase elseCase => [test, thenCase, elseCase]
  | andAll ls | orAll ls | xorAll ls => ls

def build : Connective → Build Literal
  | and left right => Build.and left right
  | or left right => Build.or left right
  | xor left right => Build.xor left right
  | xnor left right => Build.xnor left right
  | mux test thenCase elseCase => Build.mux test thenCase elseCase
  | andAll ls => Build.andAll ls
  | orAll ls => Build.orAll ls
  | xorAll ls => Build.xorAll ls

/-- The Boolean function, given the values of literals. -/
def denote (value : Literal → Bool) : Connective → Bool
  | and left right => value left && value right
  | or left right => value left || value right
  | xor left right => value left ^^ value right
  | xnor left right => value left == value right
  | mux test thenCase elseCase => if value test then value thenCase else value elseCase
  | andAll ls => (ls.map value).foldl (· && ·) true
  | orAll ls => (ls.map value).foldl (· || ·) false
  | xorAll ls => (ls.map value).foldl (· ^^ ·) false

/-- The gate as a step of growth. -/
def growth : Connective → Growth
  | and left right => .and left right
  | or left right => .or left right
  | xor left right => .xor left right
  | xnor left right => .xnor left right
  | mux test thenCase elseCase => .mux test thenCase elseCase
  | andAll ls => .andAll ls
  | orAll ls => .orAll ls
  | xorAll ls => .xorAll ls

variable {g h : Graph} {r : Literal}

theorem build_growth (gate : Connective) : gate.growth.build = discard gate.build := by
  cases gate <;> rfl

theorem reachable_of_build {gate : Connective} (reachable : g.Reachable)
    (run : gate.build g = .ok (r, h)) : h.Reachable := by
  refine reachable.grow gate.growth ?_
  rw [build_growth]
  exact Build.discard_eq_ok_iff.2 ⟨r, run⟩

/-- A gate over literals of the graph is made, and it computes its function. -/
theorem build_runs (gate : Connective) (wf : g.WellFormed) (known : ∀ l ∈ gate.arguments, g.Has l) :
    gate.build.Runs g fun r h =>
      h.Computes r (fun v => gate.denote (·.under v)) ∧ g.SameNames h := by
  have pair {a b : Literal} (known : ∀ l ∈ [a, b], g.Has l) : g.Has a ∧ g.Has b := by
    simpa using known
  cases gate with
  | and left right => exact Build.and_runs wf (pair known).1 (pair known).2
  | or left right => exact Build.or_runs wf (pair known).1 (pair known).2
  | xor left right => exact Build.xor_runs wf (pair known).1 (pair known).2
  | xnor left right => exact Build.xnor_runs wf (pair known).1 (pair known).2
  | mux test thenCase elseCase =>
    obtain ⟨htest, hcases⟩ := List.forall_mem_cons.1 known
    exact Build.mux_runs wf htest (pair hcases).1 (pair hcases).2
  | andAll ls => exact Build.foldGate_runs (fun wf => Build.and_runs wf) wf known true
  | orAll ls => exact Build.foldGate_runs (fun wf => Build.or_runs wf) wf known false
  | xorAll ls => exact Build.foldGate_runs (fun wf => Build.xor_runs wf) wf known false

end Connective

namespace Graph

variable {g h k : Graph} {a b l r : Literal}

/-! ### Values of literals -/

/-- The value of a literal in one step. -/
def literalValue (g : Graph) (inputs : Valuation) (state : Option Valuation) (l : Literal) :
    Except Fault Bool := do
  Fault.promised (l.value? (← g.nodeValues inputs (state.getD ∅)))

section Values
variable {inputs : Valuation} {state : Option Valuation}

/-- The solution over the given leaves says the values of literals. -/
theorem Evaluable.literalValue_eq (ev : g.Evaluable) {v : Nat → Bool} {step : Step}
    (his : g.IsStep v inputs (state.getD ∅) step) (hl : g.Has l) :
    g.literalValue inputs state l = .ok (l.under v) := by
  have given (name : String) (i : Nat) (hi : g.inputs[name]? = some i) :
      inputs[name]? = some (v i) := by
    rw [← his.inputs name (mem_iff_exists_getElem?.2 ⟨i, hi⟩), inputValue, hi, Option.map_some]
  rcases ev.nodeValues_cases his.solution (fun name i hi => by rw [given name i hi]; rfl)
    his.latches with ⟨values, hok, valued⟩ | ⟨_, -, name, ⟨i, hi, absent, -⟩, -⟩
  · simp [literalValue, hok, Literal.value?, valued.value _ hl, Literal.under]
  · exact absurd (mem_iff_exists_getElem?.2 ⟨_, given name i hi⟩) absent

theorem Evaluable.literalValue_eq_error (ev : g.Evaluable) {name : String}
    (missing : g.FirstMissing inputs name) :
    g.literalValue inputs state l = .error (.circuit (.missingInput name)) := by
  rw [literalValue, ev.nodeValues_eq_error_iff.2 ⟨name, missing, rfl⟩, except_error_bind]

end Values

/-! ### Gates that are added -/

/-- `h` is `g` with a literal for the gate, whose arguments are literals of `g`. -/
structure Adds (g h : Graph) (gate : Connective) (r : Literal) : Prop where
  reachable : h.Reachable
  has : h.Has r
  inputs : h.inputs = g.inputs
  latches : h.latches = g.latches
  latch? : h.latch? = g.latch?
  outputs : h.outputs = g.outputs
  kept : ∀ l, g.Has l → h.Has l ∧
    ∀ inputs state, h.literalValue inputs state l = g.literalValue inputs state l
  eval : ∀ inputs state, h.eval inputs state = g.eval inputs state
  value : ∀ (inputs : Valuation) state, (∀ name ∈ g.inputs, name ∈ inputs) →
    ∃ value : Literal → Bool, (∀ l, g.Has l → g.literalValue inputs state l = .ok (value l)) ∧
      h.literalValue inputs state r = .ok (gate.denote value)

/-- A step of a later graph with the same named objects is one of this graph. -/
theorem SameNames.isStep (same : g.SameNames h) (evg : g.Evaluable) (evh : h.Evaluable)
    (ext : g.Extends h) {v : Nat → Bool} {inputs state : Valuation} {step : Step}
    (his : h.IsStep v inputs state step) : g.IsStep v inputs state step where
  solution := ext.solution his.solution
  inputs name hn := by
    rw [← ext.inputValue v hn]
    exact his.inputs name (same.inputs ▸ hn)
  latches name := by
    have value := his.latches name
    rwa [latchValue, initial, evh.getElem?_latches, same.latch?, ← evg.getElem?_latches] at value
  outputs name := by rw [his.outputs, outputValue, same.outputs]; rfl
  nexts name := by rw [his.nexts, nextValue, same.latch?]; rfl

theorem SameNames.adds {gate : Connective} (same : g.SameNames h) (wfg : g.WellFormed)
    (ext : g.Extends h) (reachable : h.Reachable)
    (comp : h.Computes r fun v => gate.denote (·.under v)) : g.Adds h gate r := by
  have wfh := reachable.wellFormed
  have missing (inputs : Valuation) (name : String) :
      g.FirstMissing inputs name ↔ h.FirstMissing inputs name := by
    rw [FirstMissing, FirstMissing, same.inputs]
  refine ⟨reachable, comp.1, same.inputs, ?_, same.latch?, same.outputs,
    fun l hl => ⟨ext.has hl, fun inputs state => ?_⟩, fun inputs state => ?_,
    fun inputs state covered => ?_⟩
  · refine Std.ExtTreeMap.ext_getElem? fun name => ?_
    rw [wfh.getElem?_latches, wfg.getElem?_latches, same.latch?]
  · cases run : h.eval inputs state with
    | ok step =>
      obtain ⟨v, his⟩ := wfh.eval_eq_ok_iff.1 run
      rw [wfh.literalValue_eq his (ext.has hl),
        wfg.literalValue_eq (same.isStep wfg.toEvaluable wfh.toEvaluable ext his) hl]
    | error fault =>
      obtain ⟨name, first, -⟩ := wfh.eval_eq_error_iff.1 run
      rw [wfh.literalValue_eq_error first,
        wfg.literalValue_eq_error ((missing inputs name).2 first)]
  · refine (wfh.eval_eq_eval wfg.toEvaluable (fun name => (missing inputs name).symm)
      fun step run => ?_).symm
    obtain ⟨v, his⟩ := wfh.eval_eq_ok_iff.1 run
    exact wfg.eval_eq_ok_iff.2 ⟨v, same.isStep wfg.toEvaluable wfh.toEvaluable ext his⟩
  · obtain ⟨step, run⟩ := wfh.exists_eval_ok_iff.2 (same.inputs ▸ covered)
    obtain ⟨v, his⟩ := wfh.eval_eq_ok_iff.1 run
    refine ⟨(·.under v), fun l hl => ?_, ?_⟩
    · exact wfg.literalValue_eq (same.isStep wfg.toEvaluable wfh.toEvaluable ext his) hl
    · rw [wfh.literalValue_eq his comp.1, comp.2 v his.solution]

/-! ### Gates that are found again -/

/-- The order of the arguments does not matter. -/
theorem conj_comm (g : Graph) (a b : Literal) : g.conj a b = g.conj b a := by
  rcases eq_or_ne a b with rfl | hne
  · rfl
  have fold : b = .ofBool false ∨ a = .ofBool false ∨ b = -a ↔
      a = .ofBool false ∨ b = .ofBool false ∨ a = -b := by
    have opposite : b = -a ↔ a = -b := by
      constructor <;> rintro rfl <;> rw [Literal.neg_neg]
    rw [opposite, or_left_comm]
  have order : b.raw ≤ a.raw ↔ ¬ a.raw ≤ b.raw := by
    have := mt Literal.raw_inj.1 hne
    omega
  unfold conj
  simp only [fold, order, hne, hne.symm, or_false]
  split_ifs with _ atrue btrue
  all_goals first | rfl | exact absurd (atrue.trans btrue.symm) hne

theorem addGate_of_getElem? (h : g.gateTable[(a, b)]? = some r) : g.addGate a b = (r, g) := by
  rw [addGate, h]

theorem getElem?_gateTable_addGate (g : Graph) (a b : Literal) :
    (g.addGate a b).2.gateTable[(a, b)]? = some (g.addGate a b).1 := by
  cases h : g.gateTable[(a, b)]? with
  | some gate => simp only [addGate, h]
  | none => simp only [addGate, h, Std.ExtTreeMap.getElem?_insert_self]

/-- A gate that was added stays where it is. -/
theorem addGate_again (wf : (g.addGate a b).2.WellFormed) (wfk : k.WellFormed)
    (ext : (g.addGate a b).2.Extends k) : k.addGate a b = ((g.addGate a b).1, k) := by
  obtain ⟨i, hr, hi⟩ := wf.table.1 (getElem?_gateTable_addGate g a b)
  exact addGate_of_getElem? (wfk.table.2 ⟨i, hr, ext.gate hi⟩)

/-- A conjunction that was made is found again. -/
theorem conj_again (wf : (g.conj a b).2.WellFormed) (wfk : k.WellFormed)
    (ext : (g.conj a b).2.Extends k) : k.conj a b = ((g.conj a b).1, k) := by
  unfold conj at wf ext ⊢
  split_ifs at wf ext ⊢
  · rfl
  · rfl
  · rfl
  · exact addGate_again wf wfk ext
  · exact addGate_again wf wfk ext

/-- Gates over literals of a graph are made, have their values, and leave everything else as it is; and
once a conjunction has been made the same literal is found for its arguments in either order, by a graph
that stays the same, whatever steps it has grown by in between. -/
theorem gates_sound (reachable : g.Reachable) :
    (∀ gate : Connective, (∀ l ∈ gate.arguments, g.Has l) →
      ∃ r h, gate.build g = .ok (r, h) ∧ g.Adds h gate r) ∧
    ∀ a b r h, Build.and a b g = .ok (r, h) →
      ∀ (steps : List Growth) k, steps.forM Growth.build h = .ok ((), k) →
        Build.and a b k = .ok (r, k) ∧ Build.and b a k = .ok (r, k) := by
  have wf := reachable.wellFormed
  refine ⟨fun gate known => ?_, fun a b r h run steps k grown => ?_⟩
  · obtain ⟨r, h, run, -, ext, comp, same⟩ := (gate.build_runs wf known).exists
    exact ⟨r, h, run, same.adds wf ext (Connective.reachable_of_build reachable run) comp⟩
  · obtain ⟨_, ha, run'⟩ := except_bind_eq_ok_iff.1 run
    obtain ⟨_, hb, made⟩ := except_bind_eq_ok_iff.1 run'
    obtain ⟨rfl, rfl⟩ : (g.conj a b).1 = r ∧ (g.conj a b).2 = h := Prod.mk.inj (Except.ok.inj made)
    obtain ⟨wfh, exth⟩ := Build.Keeps.and a b g _ _ wf run
    obtain ⟨wfk, extk⟩ := Build.Keeps.forM Growth.keeps steps _ k () wfh grown
    have known {l : Literal} (hl : g.requireNode l = .ok ()) : k.Has l :=
      extk.has (exth.has (requireNode_eq_ok_iff.1 hl))
    have again := conj_again wfh wfk extk
    exact ⟨(Build.and_eq (known ha) (known hb)).trans (congrArg _ again),
      (Build.and_eq (known hb) (known ha)).trans (congrArg _ ((conj_comm k b a).trans again))⟩

/-- Over two inputs: a gate of three conjunctions, and a conjunction that is found again after an input
and a gate were added. -/
theorem gates_sound_inputs : ∃ g, Graph.sink ["a", "b"] = .ok g ∧
    (∃ r h, Build.xor (.positive 1) (.positive 2) g = .ok (r, h) ∧
      g.Adds h (.xor (.positive 1) (.positive 2)) r) ∧
    ∃ r h k, Build.and (.positive 1) (.positive 2) g = .ok (r, h) ∧
      [Growth.input "c", .or (.positive 2) (.positive 4)].forM Growth.build h = .ok ((), k) ∧
      Build.and (.positive 2) (.positive 1) k = .ok (r, k) := by
  obtain ⟨g, hg, size, made⟩ : ∃ g, Graph.sink ["a", "b"] = .ok g ∧ g.nodes.size = 3 ∧
      ∃ made, Build.and (.positive 1) (.positive 2) g = .ok made ∧
        ∃ grown, [Growth.input "c", .or (.positive 2) (.positive 4)].forM Growth.build made.2 =
          .ok grown ∧ True := by
    decide +kernel
  obtain ⟨⟨r, h⟩, run, ⟨_, k⟩, grown, -⟩ := made
  obtain ⟨gates, again⟩ := gates_sound (.sink hg)
  have known : ∀ l ∈ [Literal.positive 1, .positive 2], g.Has l := by
    simp [Has, size, Literal.positive]
  exact ⟨g, hg, gates (.xor (.positive 1) (.positive 2)) known, r, h, k, run, grown,
    (again _ _ r h run _ k grown).2⟩

end Graph

end AndInverter
