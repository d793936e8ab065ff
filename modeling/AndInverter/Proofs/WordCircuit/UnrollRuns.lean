import AndInverter.Proofs.WordCircuit.Blast
import AndInverter.Proofs.WordCircuit.Simulate
import AndInverter.Proofs.WordCircuit.Unroll

/-! One step of an unrolled circuit over words is a run of the circuit, as far as words have bits. -/

namespace AndInverter

/-- Values for different times can be put together, as no two names with a time are the same. -/
theorem exists_timed {α : Type} (value : String → Nat → Option α) (names : List (String × Nat)) :
    ∃ ρ : NameMap α, ∀ x t, (x, t) ∈ names → ρ[timed x t]? = value x t := by
  induction names with
  | nil => exact ⟨∅, by simp⟩
  | cons entry names ih =>
    obtain ⟨x, t⟩ := entry
    obtain ⟨ρ, hρ⟩ := ih
    have other {y : String} {s : Nat} (hne : (y, s) ≠ (x, t)) : timed y s ≠ timed x t :=
      fun heq => hne (Prod.ext (timed_inj.1 heq).1 (timed_inj.1 heq).2)
    cases hvalue : value x t with
    | none =>
      refine ⟨ρ.erase (timed x t), fun y s hmem => ?_⟩
      by_cases h : (y, s) = (x, t)
      · obtain ⟨rfl, rfl⟩ := Prod.mk.inj h
        rw [hvalue, Std.ExtTreeMap.getElem?_erase_self]
      · rw [Std.ExtTreeMap.getElem?_erase, if_neg, hρ y s ((List.mem_cons.1 hmem).resolve_left h)]
        simpa using (other h).symm
    | some a =>
      refine ⟨ρ.insert (timed x t) a, fun y s hmem => ?_⟩
      rw [NameMap.getElem?_insert]
      by_cases h : (y, s) = (x, t)
      · obtain ⟨rfl, rfl⟩ := Prod.mk.inj h
        rw [if_pos rfl, hvalue]
      · rw [if_neg (other h), hρ y s ((List.mem_cons.1 hmem).resolve_left h)]

namespace WordCircuit

variable {c U : WordCircuit} {options : UnrollOptions} {horizon : Nat} {G : Graph}

/-- The valuation `ρ` gives the input words of each step and the start of each latch word their values,
under names with the time. A latch word without a value in `start` has its initial value, and words
without bits need none. -/
structure Stamped (c : WordCircuit) (fromInitial : Bool) (inputs : List WordValuation)
    (start ρ : WordValuation) : Prop where
  inputs : ∀ (t : Nat) values, inputs[t]? = some values → ∀ (x : String) size,
    c.inputs[x]? = some size → 0 < size → ρ[timed x t]? = values[x]?
  start : fromInitial = false → ∀ (l : String) size, c.latches[l]? = some size → 0 < size →
    ρ[timed l 0]? = (start[l]?).or c.initialState[l]?

section Values
variable {v : Nat → Bool} {ρ : WordValuation} {step : WordStep}

theorem Unrolls.solution (unrolls : c.Unrolls options horizon G U) (hv : U.graph.Solution v) :
    G.Solution v :=
  ⟨hv.zero, fun h => hv.gate (unrolls.nodes ▸ h)⟩

/-- A bit that is read has the value that it has in the word of its time. -/
theorem Unrolls.readBit (unrolls : c.Unrolls options horizon G U) (exact : U.Exact)
    (hin : ∀ name ∈ U.inputs, ρ[name]? = some (U.inputWord v name)) {x : String} {t size i : Nat}
    (read : c.ReadAt options horizon x t size) (hi : i < size) :
    G.inputValue v (timed (Word.bitName x i) t) = (ρ[timed x t]?).bind (·[i]?) := by
  have hsize : U.inputs[timed x t]? = some size := (unrolls.inputs _ _).2 ⟨x, t, read, rfl⟩
  obtain ⟨id, hid⟩ := mem_iff_exists_getElem?.1
    ((exact.inputs _).2 ⟨timed x t, size, i, hsize, hi, rfl⟩)
  have value : U.graph.inputValue v (Word.bitName (timed x t) i) = some (v id) := by
    rw [Graph.inputValue, hid, Option.map_some]
  rw [hin _ (mem_iff_exists_getElem?.2 ⟨size, hsize⟩), Option.bind_some, inputWord, hsize,
    Option.getD_some, getElem?_readWord hi (by rw [value]; rfl), Graph.inputValue, Graph.inputValue,
    unrolls.inputBit]

/-- A word that is shown has the bits of the step before. -/
theorem Unrolls.shownWord (unrolls : c.Unrolls options horizon G U) (exact : U.Exact)
    (hout : ∀ name ∈ U.outputs, step.outputs[name]? = some (U.outputWord v name)) {y : String}
    {t size : Nat} (shown : c.ShownAt options horizon y t size) {words : Bundle} {bits : Valuation}
    (hy : words[y]? = some size)
    (same : ∀ i < size, G.outputValue v (timed (Word.bitName y i) t) = bits[Word.bitName y i]?) :
    ∃ word, (words.unblast bits)[y]? = some word ∧ step.outputs[timed y t]? = some word := by
  have hsize : U.outputs[timed y t]? = some size := (unrolls.outputs _ _).2 ⟨y, t, shown, rfl⟩
  have value (i : Nat) (hi : i < size) :
      U.graph.outputValue v (Word.bitName (timed y t) i) = bits[Word.bitName y i]? := by
    rw [← same i hi, Graph.outputValue, Graph.outputValue, unrolls.outputBit]
  have all (i : Nat) (hi : i < size) : Word.bitName y i ∈ bits := by
    obtain ⟨l, hl⟩ := mem_iff_exists_getElem?.1
      ((exact.outputs _).2 ⟨timed y t, size, i, hsize, hi, rfl⟩)
    rw [mem_iff_exists_getElem?, ← value i hi, Graph.outputValue, hl]
    exact ⟨l.under v, rfl⟩
  obtain ⟨word, hword, length, wordBits⟩ := Bundle.exists_unblast hy all
  refine ⟨word, hword, ?_⟩
  rw [hout _ (mem_iff_exists_getElem?.2 ⟨size, hsize⟩), outputWord, hsize, Option.getD_some]
  exact congrArg some (readWord_eq length fun i hi => by rw [value i hi, wordBits i hi])

/-- A step that is kept is shown word by word. -/
theorem Unrolls.shownStep (unrolls : c.Unrolls options horizon G U) (exact : c.Exact)
    (exactU : U.Exact)
    (hout : ∀ name ∈ U.outputs, step.outputs[name]? = some (U.outputWord v name)) {t : Nat}
    (lt : t < horizon) (kept : options.lastOnly → t + 1 = horizon) {one : Step}
    (outs : ∀ n ∈ c.graph.outputs, G.outputValue v (timed n (t + 1)) = one.outputs[n]?)
    (nexts : options.hideLatches = false →
      ∀ n ∈ c.graph.latches, G.outputValue v (timed n (t + 1)) = one.latches[n]?) :
    (∀ (y : String) size, c.outputs[y]? = some size → 0 < size →
      ∃ word, (c.readStep one).outputs[y]? = some word ∧
        step.outputs[timed y (t + 1)]? = some word) ∧
    (options.hideLatches = false → ∀ (l : String) size, c.latches[l]? = some size → 0 < size →
      ∃ word, (c.readStep one).latches[l]? = some word ∧
        step.outputs[timed l (t + 1)]? = some word) := by
  constructor
  · intro y size hy positive
    exact unrolls.shownWord exactU hout ⟨positive, ⟨t, lt, rfl, kept⟩, .inl hy⟩ hy fun i hi =>
      outs _ ((exact.outputs _).2 ⟨y, size, i, hy, hi, rfl⟩)
  · intro hshow l size hl positive
    exact unrolls.shownWord exactU hout ⟨positive, ⟨t, lt, rfl, kept⟩, .inr ⟨hshow, hl⟩⟩ hl
      fun i hi => nexts hshow _ ((exact.latches _).2 ⟨l, size, i, hl, hi, rfl⟩)

end Values

section Refine
variable {inputs : List WordValuation} {start ρ : WordValuation}

/-- Stamped values are values of all words that the unrolled circuit reads. -/
theorem Stamped.covers (stamped : c.Stamped options.fromInitial inputs start ρ) (exact : c.Exact)
    (unrolls : c.Unrolls options inputs.length G U)
    (covers : ∀ values ∈ inputs, Bundle.Covers values c.inputs) (allows : c.latches.Allows start) :
    Bundle.Covers ρ U.inputs := by
  intro n size h
  obtain ⟨x, t, ⟨positive, ⟨ht, hx⟩ | ⟨hfrom, rfl, hx⟩⟩, rfl⟩ := (unrolls.inputs n size).1 h
  · rw [stamped.inputs t _ (List.getElem?_eq_getElem ht) x size hx positive]
    exact covers _ (List.getElem_mem ht) x size hx
  · rw [stamped.start hfrom x size hx positive]
    cases hstart : start[x]? with
    | some word => exact ⟨word, rfl, allows x size word hx hstart⟩
    | none =>
      obtain ⟨word, hword, length, -⟩ := exact.exists_initialWord hx
      exact ⟨word, hword, length⟩

theorem Exact.exists_stamped (exact : c.Exact)
    (apart : options.fromInitial = false → ∀ n ∈ c.graph.latches, n ∉ c.graph.inputs)
    (inputs : List WordValuation) (start : WordValuation) :
    ∃ ρ, c.Stamped options.fromInitial inputs start ρ := by
  classical
  -- Words that are read at a step come first; no latch word that starts from an input is one of them.
  let value (x : String) (t : Nat) : Option Word :=
    if ∃ size, c.inputs[x]? = some size ∧ 0 < size then (inputs[t]?).bind (·[x]?)
    else (start[x]?).or c.initialState[x]?
  obtain ⟨ρ, hρ⟩ := exists_timed value
    (c.inputs.keys.product (List.range inputs.length) ++ c.latches.keys.product [0])
  refine ⟨ρ, fun t values ht x size hx positive => ?_, fun hfrom l size hl positive => ?_⟩
  · have lt : t < inputs.length := (List.getElem?_eq_some_iff.1 ht).1
    have known : x ∈ c.inputs.keys :=
      Std.ExtTreeMap.mem_keys.2 (mem_iff_exists_getElem?.2 ⟨size, hx⟩)
    rw [hρ x t (List.mem_append_left _ (List.pair_mem_product.2 ⟨known, List.mem_range.2 lt⟩))]
    simp only [value, if_pos (⟨size, hx, positive⟩ : ∃ size, c.inputs[x]? = some size ∧ 0 < size), ht,
      Option.bind_some]
  · have known : l ∈ c.latches.keys :=
      Std.ExtTreeMap.mem_keys.2 (mem_iff_exists_getElem?.2 ⟨size, hl⟩)
    have other : ¬ ∃ size, c.inputs[l]? = some size ∧ 0 < size := by
      rintro ⟨size', hin, positive'⟩
      obtain ⟨latch, input⟩ := exact.common_bit .latch .input positive hl positive' hin
      exact apart hfrom _ (Std.ExtTreeMap.mem_keys.1 latch) (Std.ExtTreeMap.mem_keys.1 input)
    rw [hρ l 0 (List.mem_append_right _ (List.pair_mem_product.2 ⟨known, List.mem_singleton_self 0⟩))]
    simp only [value, if_neg other]

/-- The state that a run starts from. -/
def startOf (c : WordCircuit) (fromInitial : Bool) (start : WordValuation) : WordValuation :=
  if fromInitial then c.initialState else start

theorem simulate_eq (c : WordCircuit) (fromInitial : Bool) (inputs : List WordValuation)
    (start : WordValuation) : c.simulate inputs (if fromInitial then none else some start) =
      c.runFrom (c.startOf fromInitial start) inputs := by
  cases fromInitial <;> rfl

theorem Exact.allows_startOf (exact : c.Exact) (fromInitial : Bool) (allows : c.latches.Allows start) :
    c.latches.Allows (c.startOf fromInitial start) := by
  cases fromInitial with
  | true => exact exact.allows_initialState
  | false => exact allows

/-- At each step the unrolled graph reads the bits of that step. -/
theorem Stamped.inputBit (stamped : c.Stamped options.fromInitial inputs start ρ) (exact : c.Exact)
    (unrolls : c.Unrolls options inputs.length G U) (exactU : U.Exact) {v : Nat → Bool}
    (hin : ∀ name ∈ U.inputs, ρ[name]? = some (U.inputWord v name)) {t : Nat} {words : WordValuation}
    {bits : Valuation} (hwords : inputs[t]? = some words) (hbits : c.inputs.blast words = .ok bits)
    {n : String} (hn : n ∈ c.graph.inputs) : G.inputValue v (timed n t) = bits[n]? := by
  obtain ⟨x, size, i, hx, hi, rfl⟩ := (exact.inputs _).1 hn
  have lt : t < inputs.length := (List.getElem?_eq_some_iff.1 hwords).1
  rw [unrolls.readBit exactU hin ⟨by omega, .inl ⟨lt, hx⟩⟩ hi,
    stamped.inputs t words hwords x size hx (by omega), Bundle.getElem?_of_blast hbits hx hi]

/-- A latch starts a run with the value that the unrolled graph starts it with. -/
theorem Exact.startBit (exact : c.Exact) (unrolls : c.Unrolls options horizon G U) (exactU : U.Exact)
    {v : Nat → Bool} (hin : ∀ name ∈ U.inputs, ρ[name]? = some (U.inputWord v name))
    (stamped : c.Stamped options.fromInitial inputs start ρ) (allows : c.latches.Allows start)
    {l : String} {size i : Nat} (hl : c.latches[l]? = some size) (hi : i < size) :
    (if options.fromInitial then c.graph.initial (Word.bitName l i)
      else G.inputValue v (timed (Word.bitName l i) 0)) =
      (c.graph.initial (Word.bitName l i)).map fun init =>
        (((c.startOf options.fromInitial start)[l]?).bind (·[i]?)).getD init := by
  obtain ⟨word, hword, length, bits⟩ := exact.exists_initialWord hl
  obtain ⟨init, hinit⟩ : ∃ init, c.graph.initial (Word.bitName l i) = some init :=
    ⟨word[i], (bits i hi).symm.trans (List.getElem?_eq_getElem (length ▸ hi))⟩
  rw [hinit, Option.map_some]
  cases hfrom : options.fromInitial with
  | true => rw [if_pos rfl, startOf, if_pos rfl, hword, Option.bind_some, bits i hi, hinit]; rfl
  | false =>
    simp only [Bool.false_eq_true, if_false, startOf]
    rw [unrolls.readBit exactU hin ⟨by omega, .inr ⟨hfrom, rfl, hl⟩⟩ hi,
      stamped.start hfrom l size hl (by omega)]
    cases hstart : start[l]? with
    | some given =>
      have hbit := List.getElem?_eq_getElem (l := given) (allows l size given hl hstart ▸ hi)
      rw [Option.some_or, Option.bind_some, hbit, Option.getD_some]
    | none => rw [Option.none_or, hword, Option.bind_some, bits i hi, hinit]; rfl

/-- Covered inputs are split step by step. -/
theorem forall₂_blast {b : Bundle} {values : List Valuation}
    (h : inputs.mapM b.blast = .ok values) :
    List.Forall₂ (fun words bits => b.blast words = .ok bits) inputs values := by
  refine (Safe.mapM fun words _ => ?_).elim h
  have safe := Bundle.blast_safe b words
  cases hbits : b.blast words with
  | ok bits => exact .pure rfl
  | error fault => rwa [hbits] at safe

/-- One step of the unrolled circuit shows the words of the run. -/
theorem Unrolls.exists_refined (unrolls : c.Unrolls options inputs.length G U) (exact : c.Exact)
    (exactU : U.Exact) (unrolling : c.graph.IsUnrolling options inputs.length G)
    (covers : ∀ values ∈ inputs, Bundle.Covers values c.inputs) (allows : c.latches.Allows start)
    (stamped : c.Stamped options.fromInitial inputs start ρ) {steps : List WordStep}
    (hrun : c.runFrom (c.startOf options.fromInitial start) inputs = .ok steps) :
    ∃ step, U.eval ρ none = .ok step ∧ ∀ t s, steps[t]? = some s →
      (options.lastOnly → t + 1 = inputs.length) →
      (∀ (y : String) size, c.outputs[y]? = some size → 0 < size →
        ∃ word, s.outputs[y]? = some word ∧ step.outputs[timed y (t + 1)]? = some word) ∧
      (options.hideLatches = false → ∀ (l : String) size, c.latches[l]? = some size → 0 < size →
        ∃ word, s.latches[l]? = some word ∧ step.outputs[timed l (t + 1)]? = some word) := by
  obtain ⟨v, step, hstep, hv, hin, hout⟩ :=
    exactU.exists_eval (stamped.covers exact unrolls covers allows)
  obtain ⟨split, hsplit, hbits⟩ :=
    Bundle.exists_blastPartial (exact.allows_startOf options.fromInitial allows)
  -- The run over words is a run over bits, and what solves the unrolled graph describes the latter.
  obtain ⟨values, ones, hvalues, hones, rfl⟩ := exact.carriesLatches.exists_run
    (fun split' h n _ => by rw [Except.ok.inj (h.symm.trans hsplit)]) hrun
  have blasted := forall₂_blast hvalues
  have readInput (s : Nat) (bits : Valuation) (hs : values[s]? = some bits) (x : String)
      (hx : x ∈ c.graph.inputs) : G.inputValue v (timed x (0 + s)) = bits[x]? := by
    obtain ⟨words, hwords, hblast⟩ := forall₂_exists_getElem? blasted.flip hs
    rw [Nat.zero_add, stamped.inputBit exact unrolls exactU hin hwords hblast hx]
  have startLatch (l : String) (hl : l ∈ c.graph.latches) :
      (if options.fromInitial then c.graph.initial l else G.inputValue v (timed l 0)) =
        (c.graph.initial l).map fun init => (split[l]?).getD init := by
    obtain ⟨l, size, i, hsize, hi, rfl⟩ := (exact.latches _).1 hl
    rw [exact.startBit unrolls exactU hin stamped allows hsize hi, ← hbits l size hsize i hi]
  have trace := unrolling.trace v (unrolls.solution hv)
  rw [blasted.length_eq] at trace
  obtain ⟨ones', hones', shown⟩ := trace.exists_runFrom exact.wf.toEvaluable readInput startLatch
  obtain rfl := Except.ok.inj (hones.symm.trans hones')
  refine ⟨step, hstep, fun t s ht kept => ?_⟩
  obtain ⟨one, hone, rfl⟩ := Option.map_eq_some_iff.1 (List.getElem?_map.symm.trans ht)
  have lt : t < inputs.length := by
    have := (List.getElem?_eq_some_iff.1 hone).1
    rwa [Graph.length_of_runFrom hones, ← blasted.length_eq] at this
  obtain ⟨outs, nexts⟩ := shown t one hone (by rwa [← blasted.length_eq])
  rw [Nat.zero_add] at outs nexts
  exact unrolls.shownStep exact exactU hout lt kept outs nexts

/-- Unrolling over words refines runs over words. Whenever the graph can be unrolled, so can the circuit.
Given words for all steps, one step of the unrolled circuit shows every output word of every step that is
kept, and the next value of every latch word unless latches are hidden, as the run gives them. Words must
have a bit: what has no bit has no name in the unrolled graph. -/
theorem Exact.unroll_refines_runs (exact : c.Exact) (addressable : c.Addressable)
    (hG : c.graph.unroll horizon options = .ok G) :
    ∃ U, c.unroll horizon options = .ok U ∧
      ∀ (inputs : List WordValuation) (start : WordValuation), inputs.length = horizon →
        (∀ values ∈ inputs, Bundle.Covers values c.inputs) → c.latches.Allows start →
        (∃ ρ, c.Stamped options.fromInitial inputs start ρ) ∧
        ∃ steps, c.simulate inputs (if options.fromInitial then none else some start) = .ok steps ∧
          steps.length = horizon ∧
          ∀ ρ, c.Stamped options.fromInitial inputs start ρ →
            ∃ step, U.eval ρ none = .ok step ∧ ∀ t s, steps[t]? = some s →
              (options.lastOnly → t + 1 = horizon) →
              (∀ (y : String) size, c.outputs[y]? = some size → 0 < size →
                ∃ word, s.outputs[y]? = some word ∧ step.outputs[timed y (t + 1)]? = some word) ∧
              (options.hideLatches = false →
                ∀ (l : String) size, c.latches[l]? = some size → 0 < size →
                  ∃ word, s.latches[l]? = some word ∧
                    step.outputs[timed l (t + 1)]? = some word) := by
  obtain ⟨U, hU, unrolls, unrolling⟩ := exact.exists_unroll addressable hG
  refine ⟨U, hU, fun inputs start hlen covers allows => ?_⟩
  subst hlen
  have free : c.graph.obstacle options = none := Graph.obstacle_of_unroll hG
  obtain ⟨steps, hrun, length⟩ :=
    exact.exists_wordRun covers (exact.allows_startOf options.fromInitial allows)
  refine ⟨exact.exists_stamped (Graph.obstacle_eq_none_iff.1 free).2 inputs start, steps,
    (c.simulate_eq _ _ _).trans hrun, length, fun ρ stamped => ?_⟩
  exact unrolls.exists_refined exact (exact_of_unroll hU) unrolling covers allows stamped hrun

end Refine

/-- A counter of two bits that shows what it counts to. -/
def twoBitCounter : Except Fault WordCircuit := do
  (← WordGate.inc 2 "x" "y").feedback ["x"] ["y"] none (some ["l"]) true

/-- A counter of two bits counts on from where it is started. -/
theorem Exact.unroll_refines_runs_counter : ∃ c d U ρ step,
    WordGate.inc 2 "x" "y" = .ok c ∧ c.feedback ["x"] ["y"] none (some ["l"]) true = .ok d ∧
    d.unroll 2 ⟨false, false, false⟩ = .ok U ∧
    d.Stamped false [∅, ∅] (NameMap.ofPairs [("l", [true, false])]) ρ ∧ U.eval ρ none = .ok step ∧
    step.outputs[timed "y" 2]? = some [true, true] ∧
    step.outputs[timed "l" 2]? = some [true, true] := by
  have words : ∃ d, twoBitCounter = .ok d ∧ d.inputs.toList = [] ∧
      d.outputs.toList = [("y", 2)] ∧ d.latches.toList = [("l", 2)] := by
    decide +kernel
  have unrolls : ∃ d, twoBitCounter = .ok d ∧
      ∃ G, d.graph.unroll 2 ⟨false, false, false⟩ = .ok G ∧ True := by
    decide +kernel
  have counts : ∃ d, twoBitCounter = .ok d ∧
      ∃ run, d.simulate [∅, ∅] (some (NameMap.ofPairs [("l", [true, false])])) = .ok run ∧
        run.map (·.outputs["y"]?) = [some [false, true], some [true, true]] ∧
        run.map (·.latches["l"]?) = [some [false, true], some [true, true]] := by
    decide +kernel
  obtain ⟨d, made, hin, hout, hlatch⟩ := words
  obtain ⟨_, made', G, hG, -⟩ := unrolls
  obtain rfl := Except.ok.inj (made.symm.trans made')
  obtain ⟨_, made', run, hrun, outs, nexts⟩ := counts
  obtain rfl := Except.ok.inj (made.symm.trans made')
  obtain ⟨c, hc, hd⟩ := except_bind_eq_ok_iff.1 made
  have exactC : c.Exact := @Component.exact c (.unary .inc 2 "x" "y") hc
  have exact : d.Exact := ((exactC.feedback_blast _ _ _ _ _).elim hd).exact
  have entry {kind : Kind} {entries : List (String × Nat)} (h : (d.words kind).toList = entries)
      (n : String) (size : Nat) : (d.words kind)[n]? = some size ↔ (n, size) ∈ entries := by
    rw [← Std.ExtTreeMap.mem_toList_iff_getElem?_eq_some, h]
  have input (n : String) (size : Nat) : d.inputs[n]? = some size ↔ False :=
    (@entry .input _ hin n size).trans (by simp)
  have output (n : String) (size : Nat) : d.outputs[n]? = some size ↔ n = "y" ∧ size = 2 :=
    (@entry .output _ hout n size).trans (by simp)
  have latch (n : String) (size : Nat) : d.latches[n]? = some size ↔ n = "l" ∧ size = 2 :=
    (@entry .latch _ hlatch n size).trans (by simp)
  have addressable : d.Addressable := by
    intro kind n size h
    cases kind with
    | input => exact ((input n size).1 h).elim
    | output => rw [((output n size).1 h).2]; decide
    | latch => rw [((latch n size).1 h).2]; decide
  obtain ⟨U, hU, refines⟩ := exact.unroll_refines_runs addressable hG
  have covers : ∀ values ∈ [(∅ : WordValuation), ∅], Bundle.Covers values d.inputs :=
    fun _ _ n size h => ((input n size).1 h).elim
  have allows : d.latches.Allows (NameMap.ofPairs [("l", [true, false])]) := by
    intro n size word hsize hword
    obtain ⟨rfl, rfl⟩ := (latch n size).1 hsize
    rw [show (NameMap.ofPairs [("l", [true, false])])["l"]? = some [true, false] by decide +kernel]
      at hword
    rw [← Option.some.inj hword]
    rfl
  obtain ⟨⟨ρ, stamped⟩, steps, hsteps, -, shown⟩ := refines [∅, ∅] _ rfl covers allows
  obtain rfl : run = steps := Except.ok.inj (hrun.symm.trans hsteps)
  obtain ⟨step, hstep, shown⟩ := shown ρ stamped
  have second {f : WordStep → Option Word} {a b : Option Word} (h : run.map f = [a, b]) :
      ∃ s, run[1]? = some s ∧ f s = b := by
    rw [← Option.map_eq_some_iff, ← List.getElem?_map, h]
    rfl
  obtain ⟨s, hs, outs⟩ := second outs
  obtain ⟨_, hs', nexts⟩ := second nexts
  obtain rfl := Option.some.inj (hs.symm.trans hs')
  obtain ⟨outputs, latches⟩ := shown 1 s hs fun _ => rfl
  obtain ⟨_, hy, shownY⟩ := outputs "y" 2 ((output _ _).2 ⟨rfl, rfl⟩) Nat.two_pos
  obtain ⟨_, hl, shownL⟩ := latches rfl "l" 2 ((latch _ _).2 ⟨rfl, rfl⟩) Nat.two_pos
  obtain rfl := Option.some.inj (hy.symm.trans outs)
  obtain rfl := Option.some.inj (hl.symm.trans nexts)
  exact ⟨c, d, U, ρ, step, hc, hd, hU, stamped, hstep, shownY, shownL⟩

/-- A latch word without bits has its value in every step of a run, and the unrolled circuit does not show
it. -/
theorem unroll_drops_empty_latch : ∃ c, WordGate.identity 0 "x" "y" = .ok c ∧ ∃ d,
    c.feedback ["x"] ["y"] none (some ["l"]) false = .ok d ∧ d.Exact ∧
    (∃ steps, d.simulate [∅] none = .ok steps ∧ steps.map (·.latches["l"]?) = [some []]) ∧
    ∃ U, d.unroll 1 ⟨true, false, false⟩ = .ok U ∧
    ∃ step, U.eval ∅ none = .ok step ∧ step.outputs[timed "l" 1]? = none := by
  obtain ⟨c, hc, d, hd, run⟩ : ∃ c, WordGate.identity 0 "x" "y" = .ok c ∧ ∃ d,
      c.feedback ["x"] ["y"] none (some ["l"]) false = .ok d ∧
      (∃ steps, d.simulate [∅] none = .ok steps ∧ steps.map (·.latches["l"]?) = [some []]) ∧
      ∃ U, d.unroll 1 ⟨true, false, false⟩ = .ok U ∧
      ∃ step, U.eval ∅ none = .ok step ∧ step.outputs[timed "l" 1]? = none := by
    decide +kernel
  have exact : c.Exact := @Component.exact c (.unary .identity 0 "x" "y") hc
  exact ⟨c, hc, d, hd, ((exact.feedback_blast _ _ _ _ _).elim hd).exact, run⟩

end WordCircuit

end AndInverter
