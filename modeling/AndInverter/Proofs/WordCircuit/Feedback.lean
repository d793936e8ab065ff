import AndInverter.Proofs.Graph.Feedback
import AndInverter.Proofs.Safe
import AndInverter.Proofs.WordCircuit.Exact
import AndInverter.WordCircuit.Feedback

/-! Loops over words. A loop over words is one loop for each of its bits, so closing it is the checked
operation on bits. -/

namespace AndInverter

/-- The bits of the words with the given names, one word after the other. -/
def Bundle.bitsOf (b : Bundle) (names : List String) : List String :=
  names.flatMap fun name => Word.bitNames name ((b[name]?).getD 0)

/-- Latches are named like the inputs and start at false where nothing else is said. -/
theorem Graph.feedback_getD (g : Graph) (ins outs : List String) (inits : Option (List Bool))
    (latches : Option (List String)) (keepOutputs : Bool) :
    g.feedback ins outs (some (inits.getD (List.replicate ins.length false)))
      (some (latches.getD ins)) keepOutputs = g.feedback ins outs inits latches keepOutputs := by
  simp only [feedback, loops, Option.getD_some]

theorem map_eq_map_of_forall₂ {α β γ : Type} {R : α → β → Prop} {f : α → γ} {g : β → γ} {xs : List α}
    {ys : List β} (all : List.Forall₂ R xs ys) (same : ∀ a b, R a b → f a = g b) :
    xs.map f = ys.map g := by
  induction all with
  | nil => rfl
  | cons first _ ih => rw [List.map_cons, List.map_cons, ih, same _ _ first]

namespace WordCircuit

variable {c : WordCircuit}

theorem loops_safe (ins outs : List String) (inits : Option (List Word))
    (latchNames : Option (List String)) : Safe (loops ins outs inits latchNames) fun ls =>
      ls.map (·.input) = ins ∧ ls.map (·.output) = outs ∧ ls.map (·.latch) = latchNames.getD ins ∧
        ls.map (·.init) = (inits.map (·.map some)).getD (List.replicate ins.length none) := by
  rw [loops]
  generalize latchNames.getD ins = latches
  generalize (inits.map (·.map some)).getD (List.replicate ins.length none) = inits
  apply Safe.guarded
  intro counts
  apply Safe.guarded
  intro initsLength
  simp only [Bool.or_eq_true, decide_eq_true_eq, not_or, not_not] at counts initsLength
  obtain ⟨outsLength, latchesLength⟩ := counts
  apply Safe.pure
  refine ⟨?_, ?_, ?_, ?_⟩
  all_goals
    rw [List.map_zipWith]
    apply List.ext_getElem
    · simp [← outsLength, ← latchesLength, initsLength]
    · intro i _ _
      simp

/-- The loop with the size that both of its words have in the circuit. -/
structure SizedAs (c : WordCircuit) (loop : WordLoop) (sized : SizedLoop) : Prop where
  input : loop.input = sized.input
  output : loop.output = sized.output
  latch : loop.latch = sized.latch
  init : loop.init.getD (List.replicate sized.size false) = sized.init
  length_init : sized.init.length = sized.size
  inputSize : c.inputs[sized.input]? = some sized.size
  outputSize : c.outputs[sized.output]? = some sized.size

/-- The loops so far have the sizes of their words, and their latches stand beside those of the
circuit. -/
structure SizedTo (c : WordCircuit) (done : List WordLoop) (state : Bundle × List SizedLoop) :
    Prop where
  loops : List.Forall₂ c.SizedAs done state.2
  latches : ∀ (n : String) size, state.1[n]? = some size ↔
    c.latches[n]? = some size ∨ ∃ loop ∈ state.2, loop.latch = n ∧ loop.size = size

theorem SizedTo.sizes {done : List WordLoop} {state : Bundle × List SizedLoop}
    (sizedTo : c.SizedTo done state) :
    (∀ loop ∈ state.2, c.inputs[loop.input]? = some loop.size) ∧
      ∀ loop ∈ state.2, c.outputs[loop.output]? = some loop.size := by
  constructor
  all_goals
    intro loop hloop
    obtain ⟨_, -, as⟩ := forall₂_exists_of_mem sizedTo.loops.flip hloop
  · exact as.inputSize
  · exact as.outputSize

theorem addLoop_safe {done : List WordLoop} {state : Bundle × List SizedLoop}
    (sizedTo : c.SizedTo done state) (loop : WordLoop) :
    Safe (c.addLoop state loop) (c.SizedTo (done ++ [loop])) := by
  rcases state with ⟨latches, sized⟩
  obtain ⟨hloops, hlatches⟩ := sizedTo
  rw [addLoop]
  cases hin : c.inputs[loop.input]? with
  | none => exact .circuit _
  | some size =>
    cases hout : c.outputs[loop.output]? with
    | none => exact .circuit _
    | some outputSize =>
      simp only
      apply Safe.guarded
      intro hsize
      apply Safe.guarded
      intro new
      apply Safe.guarded
      intro hinit
      apply Safe.pure
      rw [not_not] at hsize hinit
      subst hsize
      have fresh : latches[loop.latch]? = none := by
        rw [← not_mem_iff_getElem?, Std.ExtTreeMap.mem_iff_contains]
        exact new
      constructor
      case loops => exact List.rel_append hloops (.cons ⟨rfl, rfl, rfl, rfl, hinit, hin, hout⟩ .nil)
      case latches =>
        intro n size'
        simp only [NameMap.getElem?_insert, List.mem_append, List.mem_singleton, or_and_right, exists_or,
          exists_eq_left, ← or_assoc, ← hlatches]
        by_cases h : n = loop.latch
        · subst h
          simp [fresh]
        · simp [h, Ne.symm h]

theorem mem_bits_iff {sized : List SizedLoop} {word : SizedLoop → String} {n : String} :
    (n ∈ sized.flatMap fun loop => Word.bitNames (word loop) loop.size) ↔
      ∃ loop ∈ sized, ∃ i < loop.size, Word.bitName (word loop) i = n := by
  simp [Word.bitNames]

/-- Taking away the bits of words is taking away the words. -/
theorem hasBit_without_loops_iff {words : Bundle} {sized : List SizedLoop}
    {word : SizedLoop → String} (sizes : ∀ loop ∈ sized, words[word loop]? = some loop.size)
    {n : String} :
    (words.HasBit n ∧ n ∉ sized.flatMap fun loop => Word.bitNames (word loop) loop.size) ↔
      Bundle.HasBit (NameMap.without words (sized.map word)) n := by
  rw [mem_bits_iff]
  constructor
  · rintro ⟨hbit, other⟩
    obtain ⟨name, i, rfl⟩ := hbit.exists_eq
    refine Bundle.hasBit_without_iff.2 ⟨hbit, fun hname => other ?_⟩
    obtain ⟨loop, hloop, rfl⟩ := List.mem_map.1 hname
    obtain ⟨size, hsize, hi⟩ := Bundle.hasBit_bitName_iff.1 hbit
    obtain rfl := Option.some.inj ((sizes loop hloop).symm.trans hsize)
    exact ⟨loop, hloop, i, hi, rfl⟩
  · intro hbit
    obtain ⟨name, i, rfl⟩ := hbit.exists_eq
    obtain ⟨hbit, hname⟩ := Bundle.hasBit_without_iff.1 hbit
    refine ⟨hbit, ?_⟩
    rintro ⟨loop, hloop, j, -, heq⟩
    exact hname (List.mem_map.2 ⟨loop, hloop, (Word.bitName_inj.1 heq).1⟩)

/-- The bits of the words of loops. -/
theorem bitsOf_loops {words : Bundle} {sized : List SizedLoop} {word : SizedLoop → String}
    (sizes : ∀ loop ∈ sized, words[word loop]? = some loop.size) :
    words.bitsOf (sized.map word) =
      sized.flatMap fun loop => Word.bitNames (word loop) loop.size := by
  rw [Bundle.bitsOf, List.flatMap_map]
  refine List.flatMap_congr fun loop hloop => ?_
  rw [sizes loop hloop, Option.getD_some]

section Sized
variable {done : List WordLoop} {latchWords : Bundle} {sized : List SizedLoop}

/-- The initial values of the bits are those of the words, and zeros without any. -/
theorem SizedTo.initials (sizedTo : c.SizedTo done (latchWords, sized)) {inits : Option (List Word)}
    (hinits : done.map (·.init) = (inits.map (·.map some)).getD (List.replicate done.length none)) :
    sized.flatMap (·.init) = (inits.map List.flatten).getD (List.replicate
      (sized.flatMap fun loop => Word.bitNames loop.input loop.size).length false) := by
  have columns : List.Forall₂ (fun init (loop : SizedLoop) =>
      init.getD (List.replicate loop.size false) = loop.init) (done.map (·.init)) sized :=
    List.forall₂_map_left_iff.2 (sizedTo.loops.imp fun _ _ as => as.init)
  rw [hinits] at columns
  cases inits with
  | some words =>
    have given : words.map id = sized.map (·.init) :=
      map_eq_map_of_forall₂ (List.forall₂_map_left_iff.1 columns) fun _ _ h => h
    rw [List.flatMap_def, ← given, List.map_id]
    rfl
  | none =>
    have zeros (loop : SizedLoop) (hloop : loop ∈ sized) :
        loop.init = List.replicate loop.size false := by
      obtain ⟨init, hmem, hinit⟩ := forall₂_exists_of_mem columns.flip hloop
      rw [← hinit, List.eq_of_mem_replicate hmem, Option.getD_none]
    refine List.eq_replicate_iff.2 ⟨?_, fun bit hbit => ?_⟩
    · rw [List.length_flatMap, List.length_flatMap]
      refine congrArg List.sum (List.map_congr_left fun loop hloop => ?_)
      rw [zeros loop hloop, List.length_replicate, Word.bitNames, List.length_map, List.length_range]
    · obtain ⟨loop, hloop, hmem⟩ := List.mem_flatMap.1 hbit
      exact List.eq_of_mem_replicate (zeros loop hloop ▸ hmem)

/-- The bits of the new latches are those of the words named, or of the inputs. -/
theorem SizedTo.latchBits (sizedTo : c.SizedTo done (latchWords, sized))
    {latchNames : Option (List String)}
    (hnames : sized.map (·.latch) = latchNames.getD (sized.map (·.input))) :
    sized.flatMap (fun loop => Word.bitNames loop.latch loop.size) =
      (latchNames.map latchWords.bitsOf).getD
        (sized.flatMap fun loop => Word.bitNames loop.input loop.size) := by
  cases latchNames with
  | some names =>
    have sizes (loop : SizedLoop) (hloop : loop ∈ sized) : latchWords[loop.latch]? = some loop.size :=
      (sizedTo.latches _ _).2 (.inr ⟨loop, hloop, rfl, rfl⟩)
    rw [← bitsOf_loops sizes, hnames, Option.getD_some, Option.map_some, Option.getD_some]
  | none =>
    refine List.flatMap_congr fun loop hloop => ?_
    rw [List.map_inj_left.1 hnames loop hloop]

/-- Where the latch words come from. -/
theorem SizedTo.latchWords_iff (sizedTo : c.SizedTo done (latchWords, sized))
    {latchNames : Option (List String)}
    (hnames : sized.map (·.latch) = latchNames.getD (sized.map (·.input))) {n : String} {size : Nat} :
    latchWords[n]? = some size ↔ c.latches[n]? = some size ∨
      ∃ (k : Nat) (input : String), (latchNames.getD (sized.map (·.input)))[k]? = some n ∧
        (sized.map (·.input))[k]? = some input ∧ c.inputs[input]? = some size := by
  refine (sizedTo.latches n size).trans (or_congr_right ?_)
  rw [← hnames]
  simp only [List.getElem?_map, Option.map_eq_some_iff]
  constructor
  · rintro ⟨loop, hloop, rfl, rfl⟩
    obtain ⟨k, hk⟩ := List.mem_iff_getElem?.1 hloop
    exact ⟨k, loop.input, ⟨loop, hk, rfl⟩, ⟨loop, hk, rfl⟩, sizedTo.sizes.1 loop hloop⟩
  · rintro ⟨k, -, ⟨loop, hk, rfl⟩, ⟨other, hk', rfl⟩, hsize⟩
    obtain rfl := Option.some.inj (hk.symm.trans hk')
    have hloop := List.mem_of_getElem? hk
    exact ⟨loop, hloop, rfl, Option.some.inj ((sizedTo.sizes.1 loop hloop).symm.trans hsize)⟩

/-- Closed over the bits of the words, the loops leave no bit outside of a word. -/
theorem SizedTo.exact (sizedTo : c.SizedTo done (latchWords, sized)) (hc : c.Exact)
    {loops : List Loop} {keepOutputs : Bool} {g : Graph} (wf : g.WellFormed)
    (looped : c.graph.IsLooped loops keepOutputs g)
    (fed : loops.map (·.input) = sized.flatMap fun loop => Word.bitNames loop.input loop.size)
    (used : loops.map (·.output) = sized.flatMap fun loop => Word.bitNames loop.output loop.size)
    (new : loops.map (·.latch) = sized.flatMap fun loop => Word.bitNames loop.latch loop.size) :
    Exact ⟨g, NameMap.without c.inputs (sized.map (·.input)),
      if keepOutputs then c.outputs else NameMap.without c.outputs (sized.map (·.output)),
      latchWords⟩ := by
  have latches := sizedTo.latches
  constructor
  case wf => exact wf
  case inputs =>
    intro n
    rw [looped.inputs, fed, hc.inputs]
    exact hasBit_without_loops_iff sizedTo.sizes.1
  case outputs =>
    intro n
    rw [looped.outputs, used, hc.outputs]
    cases keepOutputs with
    | true => simp
    | false =>
      simp only [Bool.false_eq_true, false_or]
      exact hasBit_without_loops_iff sizedTo.sizes.2
  case latches =>
    intro n
    rw [looped.latches, new, hc.latches, mem_bits_iff]
    constructor
    · rintro (⟨name, size, i, h, hi, rfl⟩ | ⟨loop, hloop, i, hi, rfl⟩)
      · exact ⟨name, size, i, (latches name size).2 (.inl h), hi, rfl⟩
      · exact ⟨_, _, i, (latches _ _).2 (.inr ⟨loop, hloop, rfl, rfl⟩), hi, rfl⟩
    · rintro ⟨name, size, i, h, hi, rfl⟩
      rcases (latches name size).1 h with own | ⟨loop, hloop, rfl, rfl⟩
      · exact .inl ⟨name, size, i, own, hi, rfl⟩
      · exact .inr ⟨loop, hloop, i, hi, rfl⟩

end Sized

/-- What a loop over words does to the bits and to the words: the graph is that of the loops over their
bits, and words keep their sizes. -/
structure IsFeedback (c : WordCircuit) (ins outs : List String) (inits : Option (List Word))
    (latchNames : Option (List String)) (keepOutputs : Bool) (e : WordCircuit) : Prop where
  exact : e.Exact
  graph : c.graph.feedback (c.inputs.bitsOf ins) (c.outputs.bitsOf outs) (inits.map List.flatten)
    (latchNames.map e.latches.bitsOf) keepOutputs = .ok e.graph
  inputs : ∀ (n : String) size, e.inputs[n]? = some size ↔ n ∉ ins ∧ c.inputs[n]? = some size
  outputs : ∀ (n : String) size, e.outputs[n]? = some size ↔
    (keepOutputs = true ∨ n ∉ outs) ∧ c.outputs[n]? = some size
  latches : ∀ (n : String) size, e.latches[n]? = some size ↔ c.latches[n]? = some size ∨
    ∃ (k : Nat) (input : String), (latchNames.getD ins)[k]? = some n ∧ ins[k]? = some input ∧
      c.inputs[input]? = some size

/-- Closing loops over words closes the loops over their bits, or says what is wrong. -/
theorem Exact.feedback_blast (hc : c.Exact) (ins outs : List String) (inits : Option (List Word))
    (latchNames : Option (List String)) (keepOutputs : Bool) :
    Safe (c.feedback ins outs inits latchNames keepOutputs)
      (c.IsFeedback ins outs inits latchNames keepOutputs) := by
  have start : c.SizedTo [] (c.latches, []) := ⟨.nil, by simp⟩
  rw [feedback]
  apply (loops_safe ins outs inits latchNames).bind
  rintro wordLoops ⟨rfl, rfl, hnames, hinits⟩
  apply (Safe.foldlM c.SizedTo (fun _ loop _ sized => addLoop_safe sized loop) start).bind
  rintro ⟨latchWords, sized⟩ sizedTo
  rw [List.length_map] at hinits
  rw [map_eq_map_of_forall₂ sizedTo.loops fun _ _ as => as.input,
    map_eq_map_of_forall₂ sizedTo.loops fun _ _ as => as.latch] at hnames
  rw [map_eq_map_of_forall₂ sizedTo.loops fun _ _ as => as.input,
    map_eq_map_of_forall₂ sizedTo.loops fun _ _ as => as.output]
  dsimp only at hnames ⊢
  rw [sizedTo.initials hinits, sizedTo.latchBits hnames, Graph.feedback_getD]
  rcases Graph.feedback_cases hc.wf.toEvaluable
      (sized.flatMap fun loop => Word.bitNames loop.input loop.size)
      (sized.flatMap fun loop => Word.bitNames loop.output loop.size) (inits.map List.flatten)
      (latchNames.map latchWords.bitsOf) keepOutputs with
    ⟨-, loops, g, hg, wf, looped, fed, used, new, -⟩ | ⟨-, cause, herr⟩
  · rw [hg]
    apply Safe.pure
    constructor
    case exact =>
      exact sizedTo.exact hc wf looped fed used (new.trans (sizedTo.latchBits hnames).symm)
    case graph => rw [bitsOf_loops sizedTo.sizes.1, bitsOf_loops sizedTo.sizes.2, hg]
    case inputs => exact fun n size => NameMap.getElem?_without_eq_some_iff
    case outputs =>
      intro n size
      cases keepOutputs with
      | true => simp
      | false => simp [NameMap.getElem?_without_eq_some_iff]
    case latches => exact fun n size => sizedTo.latchWords_iff hnames
  · rw [herr]
    exact .circuit cause

end WordCircuit

end AndInverter
