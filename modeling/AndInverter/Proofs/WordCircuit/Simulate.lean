import AndInverter.Proofs.Graph.Reachable
import AndInverter.Proofs.WordCircuit.Exact

/-! Runs over words against runs over bits. A run over words hands its state on as words, so it is a run
over bits where the words of the latches carry all latches. -/

namespace AndInverter

namespace WordCircuit

/-- Every latch is a bit of a latch word, all of whose bits are there. -/
def CarriesLatches (c : WordCircuit) : Prop :=
  ∀ n ∈ c.graph.latches, ∃ (name : String) (size i : Nat), c.latches[name]? = some size ∧
    i < size ∧ n = Word.bitName name i ∧ ∀ j < size, Word.bitName name j ∈ c.graph.latches

/-- A step over bits, read as words. -/
def readStep (c : WordCircuit) (step : Step) : WordStep :=
  ⟨c.outputs.unblast step.outputs, c.latches.unblast step.latches⟩

variable {c : WordCircuit}

theorem Exact.carriesLatches (exact : c.Exact) : c.CarriesLatches := by
  intro n hn
  obtain ⟨name, size, i, h, hi, rfl⟩ := (exact.latches n).1 hn
  exact ⟨name, size, i, h, hi, rfl, fun j hj => (exact.latches _).2 ⟨name, size, j, h, hj, rfl⟩⟩

/-- A step over words is a step over bits from the same values. -/
theorem eval_eq_ok_iff {inputs state : WordValuation} {step : WordStep} :
    c.eval inputs (some state) = .ok step ↔ ∃ values bits one, c.inputs.blast inputs = .ok values ∧
      c.latches.blastPartial state = .ok bits ∧ c.graph.eval values (some bits) = .ok one ∧
      c.readStep one = step := by
  have state_eq : (some state).mapM (fun state => c.latches.blastPartial state) =
      c.latches.blastPartial state >>= fun bits => .ok (some bits) := by
    show some <$> c.latches.blastPartial state = _
    cases c.latches.blastPartial state <;> rfl
  rw [eval, state_eq]
  simp only [except_bind_eq_ok_iff, except_pure, Except.ok.injEq]
  constructor
  · rintro ⟨values, hvalues, _, ⟨bits, hbits, rfl⟩, one, hone, rfl⟩
    exact ⟨values, bits, one, hvalues, hbits, hone, rfl⟩
  · rintro ⟨values, bits, one, hvalues, hbits, hone, rfl⟩
    exact ⟨values, hvalues, _, ⟨bits, hbits, rfl⟩, one, hone, rfl⟩

/-- Values of all latches, put together to words and split again, are there once more. -/
theorem CarriesLatches.blastPartial_unblast (carries : c.CarriesLatches) {state bits : Valuation}
    (known : ∀ n ∈ c.graph.latches, n ∈ state)
    (h : c.latches.blastPartial (c.latches.unblast state) = .ok bits) :
    ∀ n ∈ c.graph.latches, bits[n]? = state[n]? := by
  intro n hn
  obtain ⟨name, size, i, hname, hi, rfl, all⟩ := carries n hn
  have word := Bundle.getElem?_unblast hname fun j hj => known _ (all j hj)
  have kept : (c.latches.filter fun name _ => (c.latches.unblast state).contains name)[name]? =
      some size := by
    rw [NameMap.getElem?_filter_key, if_pos, hname]
    exact Std.ExtTreeMap.mem_iff_contains.1 (mem_iff_exists_getElem?.2 ⟨_, word⟩)
  obtain ⟨value, hvalue⟩ := mem_iff_exists_getElem?.1 (known _ hn)
  rw [Bundle.getElem?_of_blast h kept hi, word, hvalue]
  simp [hi, hvalue]

/-- Where the words of a state stand for the values of all latches, a run over words is a run over
bits. -/
theorem CarriesLatches.exists_run (carries : c.CarriesLatches) {inputs : List WordValuation}
    {state : WordValuation} {bits : Valuation}
    (same : ∀ split, c.latches.blastPartial state = .ok split →
      ∀ n ∈ c.graph.latches, split[n]? = bits[n]?)
    {trace : List WordStep} (hrun : c.runFrom state inputs = .ok trace) :
    ∃ values steps, inputs.mapM c.inputs.blast = .ok values ∧
      c.graph.runFrom bits values = .ok steps ∧ steps.map c.readStep = trace := by
  induction inputs generalizing state bits trace with
  | nil =>
    obtain rfl := Except.ok.inj hrun
    exact ⟨[], [], rfl, rfl, rfl⟩
  | cons first later ih =>
    obtain ⟨_, hstep, hlater⟩ := except_bind_eq_ok_iff.1 hrun
    obtain ⟨rest, hrest, heq⟩ := except_bind_eq_ok_iff.1 hlater
    obtain rfl := Except.ok.inj heq
    obtain ⟨values, split, one, hvalues, hsplit, hone, rfl⟩ := eval_eq_ok_iff.1 hstep
    rw [Graph.eval_congr (same split hsplit)] at hone
    have next (split' : Valuation)
        (h : c.latches.blastPartial (c.latches.unblast one.latches) = .ok split') :
        ∀ n ∈ c.graph.latches, split'[n]? = one.latches[n]? :=
      carries.blastPartial_unblast (fun n hn => (Graph.latches_of_eval hone n).1.2 hn) h
    obtain ⟨values', steps, hvalues', hsteps, htrace⟩ := ih next hrest
    refine ⟨values :: values', one :: steps, ?_, ?_, ?_⟩
    · simp [List.mapM_cons, hvalues, hvalues']
    · simp [Graph.runFrom, hone, hsteps]
    · rw [List.map_cons, htrace]

/-! ### Runs that succeed -/

/-- The initial value of a latch word. -/
theorem Exact.exists_initialWord (exact : c.Exact) {name : String} {size : Nat}
    (h : c.latches[name]? = some size) : ∃ word, c.initialState[name]? = some word ∧
      word.length = size ∧ ∀ i < size, word[i]? = c.graph.initial (Word.bitName name i) := by
  have all (i : Nat) (hi : i < size) : Word.bitName name i ∈ c.graph.initialState := by
    obtain ⟨latch, hlatch⟩ := exact.wf.toEvaluable.mem_latches_iff.1
      ((exact.latches _).2 ⟨name, size, i, h, hi, rfl⟩)
    rw [mem_iff_exists_getElem?, Graph.getElem?_initialState]
    exact ⟨latch.init, by rw [Graph.initial, hlatch, Option.map_some]⟩
  obtain ⟨word, hword, length, bits⟩ := Bundle.exists_unblast h all
  refine ⟨word, hword, length, fun i hi => ?_⟩
  rw [bits i hi, Graph.getElem?_initialState]

theorem Exact.allows_initialState (exact : c.Exact) : c.latches.Allows c.initialState := by
  intro name size word h hword
  obtain ⟨word', hword', length, -⟩ := exact.exists_initialWord h
  rwa [Option.some.inj (hword.symm.trans hword')]

/-- Words that can be split give every input a value. -/
theorem Exact.mem_of_blast (exact : c.Exact) {inputs : WordValuation} {values : Valuation}
    (h : c.inputs.blast inputs = .ok values) : ∀ n ∈ c.graph.inputs, n ∈ values := by
  intro n hn
  obtain ⟨name, size, i, hname, hi, rfl⟩ := (exact.inputs n).1 hn
  obtain ⟨word, hword, length⟩ := (Bundle.blast_safe c.inputs inputs).elim h name size hname
  rw [mem_iff_exists_getElem?, Bundle.getElem?_of_blast h hname hi, hword]
  exact ⟨word[i], List.getElem?_eq_getElem (length ▸ hi)⟩

/-- A step succeeds where all inputs have values and the state has words of the right sizes, and so has
the next state. -/
theorem Exact.exists_step (exact : c.Exact) {values state : WordValuation}
    (covers : Bundle.Covers values c.inputs) (allows : c.latches.Allows state) :
    ∃ step, c.eval values (some state) = .ok step ∧ c.latches.Allows step.latches := by
  obtain ⟨bits, hbits, -⟩ := Bundle.exists_blast covers
  obtain ⟨split, hsplit, -⟩ := Bundle.exists_blastPartial allows
  obtain ⟨one, hone⟩ : ∃ one, c.graph.eval bits (some split) = .ok one :=
    exact.wf.toEvaluable.exists_eval_ok_iff.2 (exact.mem_of_blast hbits)
  refine ⟨c.readStep one, eval_eq_ok_iff.2 ⟨bits, split, one, hbits, hsplit, hone, rfl⟩, ?_⟩
  intro name size word h hword
  obtain ⟨word', hword', length, -⟩ := Bundle.exists_unblast h fun i hi =>
    (Graph.latches_of_eval hone _).1.2 ((exact.latches _).2 ⟨name, size, i, h, hi, rfl⟩)
  rwa [Option.some.inj (hword.symm.trans hword')]

theorem Exact.exists_wordRun (exact : c.Exact) {inputs : List WordValuation} {state : WordValuation}
    (covers : ∀ values ∈ inputs, Bundle.Covers values c.inputs) (allows : c.latches.Allows state) :
    ∃ trace, c.runFrom state inputs = .ok trace ∧ trace.length = inputs.length := by
  induction inputs generalizing state with
  | nil => exact ⟨[], rfl, rfl⟩
  | cons values later ih =>
    obtain ⟨first, rest⟩ := List.forall_mem_cons.1 covers
    obtain ⟨step, hstep, allows'⟩ := exact.exists_step first allows
    obtain ⟨trace, htrace, length⟩ := ih rest allows'
    exact ⟨step :: trace, by simp [runFrom, hstep, htrace], by simp [length]⟩

/-! ### Runs over words as runs over bits -/

/-- The values of the latches before a first step over words are those before one over bits. -/
theorem CarriesLatches.same_start (carries : c.CarriesLatches) {values : Valuation}
    {state : Option Valuation} {one : Step} (hone : c.graph.eval values state = .ok one)
    {start : Option WordValuation} {bits : Option Valuation}
    (hbits : start.mapM c.latches.blastPartial = .ok bits) {split : Valuation}
    (hsplit : c.latches.blastPartial (start.getD c.initialState) = .ok split) :
    ∀ n ∈ c.graph.latches, split[n]? = (bits.getD c.graph.initialState)[n]? := by
  cases start with
  | none =>
    obtain rfl : none = bits := Except.ok.inj hbits
    exact carries.blastPartial_unblast
      (fun n hn => (Graph.latches_of_eval hone n).2 hn) hsplit
  | some words =>
    replace hbits : some <$> c.latches.blastPartial words = .ok bits := hbits
    replace hsplit : c.latches.blastPartial words = .ok split := hsplit
    rw [hsplit] at hbits
    obtain rfl : some split = bits := Except.ok.inj hbits
    exact fun _ _ => rfl

/-- A run over words is a run over bits: whenever it ends well, so does the run of the graph on the same
values split into bits, and its steps read as words are those of the run over words. -/
theorem CarriesLatches.simulate_refines (carries : c.CarriesLatches) {inputs : List WordValuation}
    {start : Option WordValuation} {trace : List WordStep}
    (hrun : c.simulate inputs start = .ok trace) :
    ∃ values, inputs.mapM c.inputs.blast = .ok values ∧
      (inputs ≠ [] → ∃ bits, start.mapM c.latches.blastPartial = .ok bits) ∧
      ∀ bits, start.mapM c.latches.blastPartial = .ok bits →
        ∃ steps, c.graph.simulate values bits = .ok steps ∧ steps.map c.readStep = trace := by
  cases inputs with
  | nil =>
    obtain rfl := Except.ok.inj hrun
    exact ⟨[], rfl, fun h => absurd rfl h, fun _ _ => ⟨[], rfl, rfl⟩⟩
  | cons first later =>
    obtain ⟨_, hstep, -⟩ := except_bind_eq_ok_iff.1 hrun
    obtain ⟨_, split, one, -, hsplit, hone, -⟩ := eval_eq_ok_iff.1 hstep
    obtain ⟨start', hstart⟩ : ∃ bits, start.mapM c.latches.blastPartial = .ok bits := by
      cases start with
      | none => exact ⟨none, rfl⟩
      | some words =>
        replace hsplit : c.latches.blastPartial words = .ok split := hsplit
        refine ⟨some split, ?_⟩
        show some <$> c.latches.blastPartial words = _
        rw [hsplit]
        rfl
    have run (bits : Option Valuation) (hbits : start.mapM c.latches.blastPartial = .ok bits) :
        ∃ values steps, (first :: later).mapM c.inputs.blast = .ok values ∧
          c.graph.simulate values bits = .ok steps ∧ steps.map c.readStep = trace :=
      carries.exists_run (fun _ h => carries.same_start hone hbits h) hrun
    obtain ⟨values, -, hvalues, -⟩ := run start' hstart
    refine ⟨values, hvalues, fun _ => ⟨start', hstart⟩, fun bits hbits => ?_⟩
    obtain ⟨values', steps, hvalues', hsteps, htrace⟩ := run bits hbits
    obtain rfl := Except.ok.inj (hvalues.symm.trans hvalues')
    exact ⟨steps, hsteps, htrace⟩

/-- A latch that is a word is carried from step to step. -/
theorem CarriesLatches.simulate_refines_latch : ∃ g c trace steps,
    Build.graph ([.latch "l[0]" false, .setNext "l[0]" (.ofBool true),
      .output "y[0]" (.positive 1)].forM Growth.build) = .ok g ∧
    ofGraph g ∅ (NameMap.ofPairs [("y", 1)]) (NameMap.ofPairs [("l", 1)]) = .ok c ∧
    c.simulate [∅, ∅] none = .ok trace ∧ c.graph.simulate [∅, ∅] none = .ok steps ∧
    steps.map c.readStep = trace := by
  obtain ⟨g, hg, c, hc, hlatches, hword, trace, hrun, hblast⟩ : ∃ g,
      Build.graph ([.latch "l[0]" false, .setNext "l[0]" (.ofBool true),
        .output "y[0]" (.positive 1)].forM Growth.build) = .ok g ∧ ∃ c,
      ofGraph g ∅ (NameMap.ofPairs [("y", 1)]) (NameMap.ofPairs [("l", 1)]) = .ok c ∧
      c.graph.latches.keys = [Word.bitName "l" 0] ∧ c.latches["l"]? = some 1 ∧
      ∃ trace, c.simulate [∅, ∅] none = .ok trace ∧
        ∃ values, [∅, ∅].mapM c.inputs.blast = .ok values ∧ values = [∅, ∅] := by decide +kernel
  have mem (n : String) : n ∈ c.graph.latches ↔ n = Word.bitName "l" 0 := by
    rw [← Std.ExtTreeMap.mem_keys, hlatches, List.mem_singleton]
  have carries : c.CarriesLatches := by
    intro n hn
    refine ⟨"l", 1, 0, hword, Nat.zero_lt_one, (mem n).1 hn, fun j hj => (mem _).2 ?_⟩
    rw [Nat.lt_one_iff.1 hj]
  obtain ⟨values, hvalues, -, runs⟩ := carries.simulate_refines hrun
  obtain ⟨values', hvalues', rfl⟩ := hblast
  obtain rfl := Except.ok.inj (hvalues.symm.trans hvalues')
  obtain ⟨steps, hsteps, htrace⟩ := runs none rfl
  exact ⟨g, c, trace, steps, hg, hc, hrun, hsteps, htrace⟩

/-- A latch that belongs to no word starts anew in every step over words, while a step over bits goes on
from its value. -/
theorem simulate_forgets_latch : ∃ g, g.Reachable ∧ ∃ c,
    ofGraph g ∅ (NameMap.ofPairs [("y", 1)]) ∅ = .ok c ∧ ∃ trace,
    c.simulate [∅, ∅] none = .ok trace ∧ ∃ steps, c.graph.simulate [∅, ∅] none = .ok steps ∧
    trace.map (·.outputs["y"]?) = [some [false], some [false]] ∧
    (steps.map c.readStep).map (·.outputs["y"]?) = [some [false], some [true]] := by
  obtain ⟨g, hg, run⟩ : ∃ g, Build.graph ([.latch "l" false, .setNext "l" (.ofBool true),
      .output "y[0]" (.positive 1)].forM Growth.build) = .ok g ∧ ∃ c,
      ofGraph g ∅ (NameMap.ofPairs [("y", 1)]) ∅ = .ok c ∧ ∃ trace,
      c.simulate [∅, ∅] none = .ok trace ∧ ∃ steps, c.graph.simulate [∅, ∅] none = .ok steps ∧
      trace.map (·.outputs["y"]?) = [some [false], some [false]] ∧
      (steps.map c.readStep).map (·.outputs["y"]?) = [some [false], some [true]] := by
    decide +kernel
  exact ⟨g, Graph.reachable_of_growths hg, run⟩

end WordCircuit

end AndInverter
