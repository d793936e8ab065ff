import AndInverter.Proofs.Graph.Relabel
import AndInverter.Proofs.Word.Unblast
import AndInverter.Proofs.WordCircuit.Rebundle
import AndInverter.Proofs.WordCircuit.Simulate

/-! Runs of a graph as runs over words of one bit. Lifting a graph renames all its objects at once, each
to the first bit of a word that has its old name, so no two of them meet. -/

namespace AndInverter

/-- Every value as a word of one bit. -/
def bitWords (values : Valuation) : WordValuation := values.map fun _ bit => [bit]

theorem getElem?_bitWords (values : Valuation) (name : String) :
    (bitWords values)[name]? = (values[name]?).map fun bit => [bit] :=
  Std.ExtTreeMap.getElem?_map

def Step.bitWords (step : Step) : WordStep :=
  ⟨AndInverter.bitWords step.outputs, AndInverter.bitWords step.latches⟩

theorem exists_of_mapM_error {ε α β : Type} {f : α → Except ε β} {xs : List α} {e : ε}
    (h : xs.mapM f = .error e) : ∃ x ∈ xs, f x = .error e := by
  induction xs with
  | nil => cases h
  | cons x xs ih =>
    rw [List.mapM_cons] at h
    cases hx : f x with
    | error e' =>
      rw [hx] at h
      cases h
      exact ⟨x, List.mem_cons_self, hx⟩
    | ok y =>
      cases hxs : xs.mapM f with
      | ok ys => simp [hx, hxs] at h
      | error e' =>
        obtain rfl : e' = e := by simpa [hx, hxs] using h
        obtain ⟨x', hx', herr⟩ := ih hxs
        exact ⟨x', List.mem_cons_of_mem _ hx', herr⟩

namespace WordCircuit

/-- The name of the only bit of a word. -/
def onlyBit (name : String) : String := Word.bitName name 0

theorem onlyBit_inj {a b : String} (h : onlyBit a = onlyBit b) : a = b := (Word.bitName_inj.1 h).1

/-! ### Words of one bit -/

section Words
variable {names : List String} (distinct : names.Nodup)
include distinct

theorem covers_bitWords_iff {values : Valuation} :
    Bundle.Covers (bitWords values) (liftedWords names) ↔ ∀ n ∈ names, n ∈ values := by
  constructor
  · intro covers n hn
    obtain ⟨word, hword, -⟩ :=
      covers n 1 ((getElem?_liftedWords_eq_some_iff distinct).2 ⟨hn, rfl⟩)
    rw [getElem?_bitWords, Option.map_eq_some_iff] at hword
    obtain ⟨bit, hbit, -⟩ := hword
    exact mem_iff_exists_getElem?.2 ⟨bit, hbit⟩
  · intro covered name size h
    obtain ⟨hname, rfl⟩ := (getElem?_liftedWords_eq_some_iff distinct).1 h
    obtain ⟨bit, hbit⟩ := mem_iff_exists_getElem?.1 (covered name hname)
    exact ⟨[bit], by rw [getElem?_bitWords, hbit, Option.map_some], rfl⟩

theorem allows_bitWords (values : Valuation) : (liftedWords names).Allows (bitWords values) := by
  intro name size word h hword
  obtain ⟨-, rfl⟩ := (getElem?_liftedWords_eq_some_iff distinct).1 h
  rw [getElem?_bitWords, Option.map_eq_some_iff] at hword
  obtain ⟨bit, -, rfl⟩ := hword
  rfl

/-- A word of one bit is split into its bit. -/
theorem isMoved_of_split {values split : Valuation}
    (read : ∀ (name : String) size, (liftedWords names)[name]? = some size →
      ∀ i < size, split[Word.bitName name i]? = ((bitWords values)[name]?).bind (·[i]?)) :
    IsMoved names onlyBit values split := by
  intro name hname
  have bit := read name 1 ((getElem?_liftedWords_eq_some_iff distinct).2 ⟨hname, rfl⟩) 0 Nat.one_pos
  rw [onlyBit, bit, getElem?_bitWords]
  cases values[name]? <;> rfl

theorem unblast_rename {values : Valuation} (same : ∀ n, n ∈ values ↔ n ∈ names) :
    (liftedWords names).unblast (values.rename onlyBit) = bitWords values := by
  have renamed : NameMap.IsRenamed onlyBit values (values.rename onlyBit) :=
    NameMap.isRenamed_rename fun _ _ _ _ => onlyBit_inj
  refine Std.ExtTreeMap.ext_getElem? fun name => ?_
  rw [getElem?_bitWords]
  by_cases hname : name ∈ values
  · obtain ⟨bit, hbit⟩ := mem_iff_exists_getElem?.1 hname
    have moved : (values.rename onlyBit)[Word.bitName name 0]? = some bit :=
      (renamed.getElem?_of_mem hname).trans hbit
    have found := (getElem?_liftedWords_eq_some_iff distinct).2 ⟨(same name).1 hname, rfl⟩
    rw [Bundle.getElem?_unblast found, hbit]
    · simp [moved]
    · rintro i hi
      rw [Nat.lt_one_iff.1 hi]
      exact mem_iff_exists_getElem?.2 ⟨bit, moved⟩
  · rw [not_mem_iff_getElem?.1 hname, Option.map_none, Option.eq_none_iff_forall_ne_some]
    intro word hword
    obtain ⟨size, h, -⟩ := Bundle.getElem?_unblast_eq_some_iff.1 hword
    exact hname ((same name).2 ((getElem?_liftedWords_eq_some_iff distinct).1 h).1)

/-- What cannot be split lacks a word. -/
theorem missing_of_blast_error {values : Valuation} {fault : Fault}
    (h : (liftedWords names).blast (bitWords values) = .error fault) :
    ∃ n ∈ names, n ∉ values ∧ fault = .word (.missingValue n) := by
  rw [Bundle.blast] at h
  cases run : (liftedWords names).toList.mapM (Bundle.blastWord (bitWords values)) with
  | ok words => simp [run] at h
  | error fault' =>
    obtain rfl : fault' = fault := by simpa [run] using h
    obtain ⟨⟨n, size⟩, hn, hword⟩ := exists_of_mapM_error run
    rw [Std.ExtTreeMap.mem_toList_iff_getElem?_eq_some] at hn
    obtain ⟨hname, rfl⟩ := (getElem?_liftedWords_eq_some_iff distinct).1 hn
    rw [Bundle.blastWord, getElem?_bitWords] at hword
    cases hvalue : values[n]? with
    | none =>
      refine ⟨n, hname, not_mem_iff_getElem?.2 hvalue, ?_⟩
      simpa [hvalue, eq_comm] using hword
    | some bit => simp [hvalue] at hword

end Words

/-! ### The graph -/

variable {g : Graph}

/-- Objects of all kinds are renamed, and no two names meet. -/
theorem isRenamed_lift (g : Graph) : Graph.IsRenamed (fun _ => onlyBit) g (lift g).graph := by
  have renamed {α : Type} {m : NameMap α} (names : List String) (keys : m.keys = names)
      (distinct : names.Nodup) :
      NameMap.IsRenamed onlyBit m (m.rename (liftedNames names).apply) := by
    have same : ∀ name ∈ m, (liftedNames names).apply name = onlyBit name := fun name hname =>
      liftedNames_apply distinct (keys ▸ Std.ExtTreeMap.mem_keys.2 hname)
    rw [NameMap.rename_congr same]
    exact NameMap.isRenamed_rename fun _ _ _ _ => onlyBit_inj
  exact ⟨rfl, renamed _ rfl (g.nodup_names .input), renamed _ rfl (g.nodup_names .latch),
    renamed _ rfl (g.nodup_names .output), fun _ _ _ _ _ => onlyBit_inj⟩

theorem initialState_lift (wf : g.WellFormed) :
    (lift g).initialState = bitWords g.initialState := by
  have wf' := (lift_exact wf).wf
  rw [initialState, (isRenamed_lift g).initialState_eq wf.toEvaluable wf'.toEvaluable]
  exact unblast_rename (g.nodup_names .latch) fun n =>
    wf.mem_initialState_iff.trans Std.ExtTreeMap.mem_keys.symm

/-! ### Runs -/

/-- A step over bits, one word for each of them. -/
theorem eval_lift (wf : g.WellFormed) {values state : Valuation} {step : Step}
    (run : g.eval values (some state) = .ok step) :
    (lift g).eval (bitWords values) (some (bitWords state)) = .ok step.bitWords := by
  have covers := (covers_bitWords_iff (g.nodup_names .input)).2 fun n hn =>
    wf.exists_eval_ok_iff.1 ⟨step, run⟩ n (Std.ExtTreeMap.mem_keys.1 hn)
  obtain ⟨split, hsplit, inputs⟩ := Bundle.exists_blast covers
  obtain ⟨split', hsplit', latches⟩ :=
    Bundle.exists_blastPartial (allows_bitWords (g.nodup_names .latch) state)
  have step' := (isRenamed_lift g).eval_ok (isMoved_of_split (g.nodup_names .input) inputs)
    (isMoved_of_split (g.nodup_names .latch) latches) wf.toEvaluable (lift_exact wf).wf.toEvaluable
    run
  have outputs (n : String) : n ∈ step.outputs ↔ n ∈ g.names .output := by
    obtain ⟨v, isStep⟩ := wf.eval_eq_ok_iff.1 run
    exact (isStep.mem_outputs_iff n).trans Std.ExtTreeMap.mem_keys.symm
  have nexts (n : String) : n ∈ step.latches ↔ n ∈ g.names .latch :=
    (Graph.latches_of_eval run n).1.trans Std.ExtTreeMap.mem_keys.symm
  refine eval_eq_ok_iff.2 ⟨split, split', _, hsplit, hsplit', step', ?_⟩
  rw [readStep, Step.bitWords, ← unblast_rename (g.nodup_names .output) outputs,
    ← unblast_rename (g.nodup_names .latch) nexts]
  rfl

/-- A step that lacks an input lacks a word. -/
theorem eval_lift_error (wf : g.WellFormed) {values state : Valuation} {fault : Fault}
    (run : g.eval values (some state) = .error fault) (state' : WordValuation) :
    ∃ n ∈ g.inputs, n ∉ values ∧
      (lift g).eval (bitWords values) (some state') = .error (.word (.missingValue n)) := by
  cases hsplit : (lift g).inputs.blast (bitWords values) with
  | ok split =>
    have covered := (covers_bitWords_iff (g.nodup_names .input)).1
      (Bundle.exists_blast_iff.1 ⟨split, hsplit⟩)
    obtain ⟨step, hstep⟩ : ∃ step, g.eval values (some state) = .ok step :=
      wf.toEvaluable.exists_eval_ok_iff.2 fun n hn => covered n (Std.ExtTreeMap.mem_keys.2 hn)
    rw [run] at hstep
    cases hstep
  | error fault' =>
    obtain ⟨n, hn, absent, rfl⟩ := missing_of_blast_error (g.nodup_names .input) hsplit
    exact ⟨n, Std.ExtTreeMap.mem_keys.1 hn, absent, by rw [eval, hsplit, except_error_bind]⟩

theorem runFrom_lift (wf : g.WellFormed) {inputs : List Valuation} {state : Valuation}
    {steps : List Step} (run : g.runFrom state inputs = .ok steps) :
    (lift g).runFrom (bitWords state) (inputs.map bitWords) = .ok (steps.map Step.bitWords) := by
  induction inputs generalizing state steps with
  | nil =>
    cases run
    rfl
  | cons values later ih =>
    obtain ⟨step, hstep, run⟩ := except_bind_eq_ok_iff.1 run
    obtain ⟨rest, hrest, ⟨⟩⟩ := except_bind_eq_ok_iff.1 run
    rw [List.map_cons, runFrom, eval_lift wf hstep, except_ok_bind, Step.bitWords, ih hrest]
    rfl

theorem runFrom_lift_error (wf : g.WellFormed) {inputs : List Valuation} {state : Valuation}
    {fault : Fault} (run : g.runFrom state inputs = .error fault) :
    ∃ n, g.LeftOut inputs n ∧ (lift g).runFrom (bitWords state) (inputs.map bitWords) =
      .error (.word (.missingValue n)) := by
  induction inputs generalizing state fault with
  | nil => cases run
  | cons values later ih =>
    rw [Graph.runFrom] at run
    rw [List.map_cons, runFrom]
    cases hstep : g.eval values (some state) with
    | ok step =>
      rw [hstep, except_ok_bind] at run
      cases hlater : g.runFrom step.latches later with
      | ok steps => simp [hlater] at run
      | error fault' =>
        obtain ⟨n, left, hn⟩ := ih hlater
        refine ⟨n, left.cons (wf.exists_eval_ok_iff.1 ⟨step, hstep⟩), ?_⟩
        rw [eval_lift wf hstep, except_ok_bind, Step.bitWords, hn, except_error_bind]
    | error fault' =>
      obtain ⟨n, hn, absent, herr⟩ := eval_lift_error wf hstep (bitWords state)
      exact ⟨n, ⟨[], values, later, rfl, by simp, hn, absent⟩, by rw [herr, except_error_bind]⟩

theorem simulate_lift (wf : g.WellFormed) (inputs : List WordValuation)
    (start : Option Valuation) : (lift g).simulate inputs (start.map bitWords) =
      (lift g).runFrom (bitWords (start.getD g.initialState)) inputs := by
  cases start with
  | none => rw [simulate, Option.map_none, Option.getD_none, Option.getD_none, initialState_lift wf]
  | some state => rfl

/-- A lifted graph has a word of one bit for each object, whatever the objects are called, and its graph
is the old one with the names of these bits. Given words of one bit it runs as the graph runs on
these bits, from any start. Where the graph stops for want of an input, the circuit stops at the same
step for want of a word; which of the missing ones is said may differ. -/
theorem lift_preserves_runs {g : Graph} (reachable : g.Reachable) :
    (lift g).Exact ∧
    (∀ kind name size,
      ((lift g).words kind)[name]? = some size ↔ name ∈ g.names kind ∧ size = 1) ∧
    Graph.IsRenamed (fun _ name => Word.bitName name 0) g (lift g).graph ∧
    (lift g).initialState = bitWords g.initialState ∧
    ∀ inputs start,
      (∀ steps, g.simulate inputs start = .ok steps →
        (lift g).simulate (inputs.map bitWords) (start.map bitWords) =
          .ok (steps.map Step.bitWords)) ∧
      ∀ fault, g.simulate inputs start = .error fault →
        ∃ a b, g.LeftOut inputs a ∧ fault = .circuit (.missingInput a) ∧ g.LeftOut inputs b ∧
          (lift g).simulate (inputs.map bitWords) (start.map bitWords) =
            .error (.word (.missingValue b)) := by
  have wf := reachable.wellFormed
  refine ⟨lift_exact wf, fun kind name size => ?_, isRenamed_lift g, initialState_lift wf,
    fun inputs start => ⟨fun steps run => ?_, fun fault run => ?_⟩⟩
  · cases kind <;> exact getElem?_liftedWords_eq_some_iff (g.nodup_names _)
  · rw [simulate_lift wf]
    exact runFrom_lift wf run
  · obtain ⟨a, left, rfl⟩ := wf.toEvaluable.exists_leftOut run
    obtain ⟨b, left', hb⟩ := runFrom_lift_error wf run
    exact ⟨a, b, left, rfl, left', by rw [simulate_lift wf, hb]⟩

/-- Names that look like bits of one another, among them those of a latch and an output. -/
theorem lift_preserves_runs_brackets : ∃ g steps,
    Build.graph ([.input "x", .input "x[0]", .latch "x[0][0]" true, .and (.positive 1) (.positive 2),
      .setNext "x[0][0]" (.positive 4), .output "x" (.positive 3), .output "x[0]" (.positive 4)].forM
        Growth.build) = .ok g ∧
    (lift g).inputs["x[0]"]? = some 1 ∧ (lift g).graph.names .input = ["x[0]", "x[0][0]"] ∧
    g.simulate [NameMap.ofPairs [("x", true), ("x[0]", false)]] none = .ok steps ∧
    (lift g).simulate ([NameMap.ofPairs [("x", true), ("x[0]", false)]].map bitWords) none =
      .ok (steps.map Step.bitWords) := by
  obtain ⟨g, hg, hname, hnames, steps, hsteps, -⟩ : ∃ g,
      Build.graph ([.input "x", .input "x[0]", .latch "x[0][0]" true,
        .and (.positive 1) (.positive 2), .setNext "x[0][0]" (.positive 4),
        .output "x" (.positive 3), .output "x[0]" (.positive 4)].forM Growth.build) = .ok g ∧
      "x[0]" ∈ g.names .input ∧ (lift g).graph.names .input = ["x[0]", "x[0][0]"] ∧
      ∃ steps, g.simulate [NameMap.ofPairs [("x", true), ("x[0]", false)]] none = .ok steps ∧
        steps.length = 1 := by
    decide +kernel
  obtain ⟨-, words, -, -, runs⟩ := lift_preserves_runs (Graph.reachable_of_growths hg)
  exact ⟨g, steps, hg, (words .input "x[0]" 1).2 ⟨hname, rfl⟩, hnames, hsteps,
    (runs _ none).1 steps hsteps⟩

end WordCircuit

end AndInverter
