import AndInverter.Proofs.Graph.Reachable
import AndInverter.Proofs.WordCircuit.Exact
import AndInverter.Proofs.WordCircuit.Group

/-! Circuits over a given graph. Its words are given, every object becomes a word of one bit, or the
words are found by the names of the objects. -/

namespace AndInverter

namespace WordCircuit

variable {c : WordCircuit} {g : Graph}

/-! ### Given words -/

/-- The check of the words passes where every bit is an object. -/
theorem requireBits_eq_ok_iff {kind : Kind} {words : Bundle} {u : Unit} :
    requireBits g kind words = .ok u ↔ ∀ n, words.HasBit n → n ∈ g.names kind := by
  have found : words.missingBit? (g.hasName kind) = none ↔
      ∀ n, words.HasBit n → n ∈ g.names kind := by
    simp only [Bundle.missingBit?, List.findSome?_eq_none_iff, Prod.forall,
      Word.missingBit?_eq_none_iff, Nat.zero_add, Graph.hasName_iff, Std.ExtTreeMap.mem_toList_iff_getElem?_eq_some]
    constructor
    · rintro all _ ⟨name, size, i, h, hi, rfl⟩
      exact all name size h i hi
    · intro all name size h i hi
      exact all _ ⟨name, size, i, h, hi, rfl⟩
  rw [← found, requireBits]
  cases words.missingBit? (g.hasName kind) <;> simp

/-- A circuit is made over words all of whose bits are objects. -/
theorem ofGraph_eq_ok_iff {inputs outputs latches : Bundle} :
    ofGraph g inputs outputs latches = .ok c ↔ c = ⟨g, inputs, outputs, latches⟩ ∧
      ∀ kind n, (c.words kind).HasBit n → n ∈ g.names kind := by
  constructor
  · intro run
    obtain ⟨_, hin, run⟩ := except_bind_eq_ok_iff.1 run
    obtain ⟨_, hout, run⟩ := except_bind_eq_ok_iff.1 run
    obtain ⟨_, hlatch, ⟨⟩⟩ := except_bind_eq_ok_iff.1 run
    refine ⟨rfl, fun kind => ?_⟩
    cases kind with
    | input => exact requireBits_eq_ok_iff.1 hin
    | output => exact requireBits_eq_ok_iff.1 hout
    | latch => exact requireBits_eq_ok_iff.1 hlatch
  · rintro ⟨rfl, bits⟩
    have given (kind : Kind) : requireBits g kind
        (WordCircuit.words ⟨g, inputs, outputs, latches⟩ kind) = .ok () :=
      requireBits_eq_ok_iff.2 (bits kind)
    rw [ofGraph, show requireBits g .input inputs = _ from given .input,
      show requireBits g .output outputs = _ from given .output,
      show requireBits g .latch latches = _ from given .latch]
    rfl

/-- The words are known to be there. The circuit is exact if they have all objects. -/
theorem ofGraph_exact {inputs outputs latches : Bundle} (wf : g.WellFormed)
    (run : ofGraph g inputs outputs latches = .ok c)
    (all : ∀ kind, ∀ n ∈ g.names kind, (c.words kind).HasBit n) : c.Exact := by
  obtain ⟨rfl, bits⟩ := ofGraph_eq_ok_iff.1 run
  exact exact_iff.2 ⟨wf, fun kind n => ⟨all kind n, bits kind n⟩⟩

/-! ### Words of one bit -/

theorem liftedNames_apply {names : List String} (distinct : names.Nodup) {n : String} (hn : n ∈ names) :
    (liftedNames names).apply n = Word.bitName n 0 := by
  have keys : (names.map fun name => (name, Word.bitName name 0)).map Prod.fst = names := by
    rw [List.map_map]
    exact List.map_id names
  have found : (liftedNames names)[n]? = some (Word.bitName n 0) :=
    (NameMap.getElem?_ofPairs_eq_some_iff (keys.symm ▸ distinct)).2 (List.mem_map.2 ⟨n, hn, rfl⟩)
  rw [Renaming.apply, found, Option.getD_some]

theorem getElem?_liftedWords_eq_some_iff {names : List String} (distinct : names.Nodup)
    {name : String} {size : Nat} :
    (liftedWords names)[name]? = some size ↔ name ∈ names ∧ size = 1 := by
  have keys : (names.map fun name => (name, 1)).map Prod.fst = names := by
    rw [List.map_map]
    exact List.map_id names
  rw [liftedWords, NameMap.getElem?_ofPairs_eq_some_iff (keys.symm ▸ distinct)]
  simp [eq_comm]

theorem hasBit_liftedWords_iff {names : List String} (distinct : names.Nodup) {n : String} :
    (liftedWords names).HasBit n ↔ ∃ old ∈ names, Word.bitName old 0 = n := by
  constructor
  · rintro ⟨name, size, i, h, hi, rfl⟩
    obtain ⟨hname, rfl⟩ := (getElem?_liftedWords_eq_some_iff distinct).1 h
    obtain rfl : i = 0 := by omega
    exact ⟨name, hname, rfl⟩
  · rintro ⟨old, hold, rfl⟩
    exact ⟨old, 1, 0, (getElem?_liftedWords_eq_some_iff distinct).2 ⟨hold, rfl⟩, Nat.one_pos, rfl⟩

/-- One kind of objects is lifted at a time. -/
theorem rename_liftedNames (wf : g.WellFormed) (kind : Kind) :
    (g.rename kind (liftedNames (g.names kind))).WellFormed ∧
      ∀ n, n ∈ (g.rename kind (liftedNames (g.names kind))).names kind ↔
        (liftedWords (g.names kind)).HasBit n := by
  have distinct := g.nodup_names kind
  have inj : ∀ a ∈ g.names kind, ∀ b ∈ g.names kind, (liftedNames (g.names kind)).apply a =
      (liftedNames (g.names kind)).apply b → a = b := by
    intro a ha b hb heq
    rw [liftedNames_apply distinct ha, liftedNames_apply distinct hb] at heq
    exact (Word.bitName_inj.1 heq).1
  refine ⟨wf.rename inj, fun n => ?_⟩
  rw [Graph.mem_names_rename_iff inj, hasBit_liftedWords_iff distinct]
  refine exists_congr fun old => and_congr_right fun hold => ?_
  rw [liftedNames_apply distinct hold]

theorem lift_exact (wf : g.WellFormed) : (lift g).Exact := by
  obtain ⟨wfIn, inputs⟩ := rename_liftedNames wf .input
  obtain ⟨wfOut, outputs⟩ := rename_liftedNames wfIn .output
  obtain ⟨wfLatch, latches⟩ := rename_liftedNames wfOut .latch
  refine exact_iff.2 ⟨wfLatch, fun kind n => ?_⟩
  cases kind with
  | input => exact inputs n
  | output => exact outputs n
  | latch => exact latches n

/-! ### Words found by the names of bits -/

theorem rebundle_safe (wf : g.WellFormed)
    (printed : ∀ kind, ∀ n ∈ g.names kind, Word.IsBitName n) : Safe (rebundle g) Exact := by
  apply (groupBits_safe (g.names .input)).bind
  intro inputs hin
  apply (groupBits_safe (g.names .output)).bind
  intro outputs hout
  apply (groupBits_safe (g.names .latch)).bind
  intro latches hlatch
  apply Safe.pure
  refine exact_iff.2 ⟨wf, fun kind => ?_⟩
  cases kind with
  | input => exact hin.mem_iff_hasBit (printed .input)
  | output => exact hout.mem_iff_hasBit (printed .output)
  | latch => exact hlatch.mem_iff_hasBit (printed .latch)

/-- A graph is accepted with the words whose bits its objects spell. -/
theorem rebundle_eq_ok_iff : rebundle g = .ok c ↔
    c.graph = g ∧ ∀ kind, Spelled (g.names kind) (c.words kind).IsWord := by
  constructor
  · intro run
    obtain ⟨inputs, hin, run⟩ := except_bind_eq_ok_iff.1 run
    obtain ⟨outputs, hout, run⟩ := except_bind_eq_ok_iff.1 run
    obtain ⟨latches, hlatch, ⟨⟩⟩ := except_bind_eq_ok_iff.1 run
    refine ⟨rfl, fun kind => ?_⟩
    cases kind with
    | input => exact (groupBits_eq_ok_iff (g.nodup_names .input)).1 hin
    | output => exact (groupBits_eq_ok_iff (g.nodup_names .output)).1 hout
    | latch => exact (groupBits_eq_ok_iff (g.nodup_names .latch)).1 hlatch
  · rintro ⟨rfl, spelled⟩
    have found (kind : Kind) : groupBits (c.graph.names kind) = .ok (c.words kind) :=
      (groupBits_eq_ok_iff (c.graph.nodup_names kind)).2 (spelled kind)
    rw [rebundle, found .input, found .output, found .latch]
    rfl

theorem exists_rebundle_iff : (∃ c, rebundle g = .ok c) ↔
    ∀ kind, ∃ words : Bundle, Spelled (g.names kind) words.IsWord := by
  constructor
  · rintro ⟨c, run⟩ kind
    exact ⟨_, (rebundle_eq_ok_iff.1 run).2 kind⟩
  · intro spelled
    choose words spelled using spelled
    refine ⟨⟨g, words .input, words .output, words .latch⟩, rebundle_eq_ok_iff.2 ⟨rfl, ?_⟩⟩
    rintro (_ | _ | _) <;> exact spelled _

/-- The words that are found can be laid over the graph just if all names are as they are printed. -/
theorem printed_iff_ofGraph (run : rebundle g = .ok c) :
    (∀ kind, ∀ n ∈ g.names kind, Word.IsBitName n) ↔
      ofGraph g c.inputs c.outputs c.latches = .ok c := by
  obtain ⟨rfl, spelled⟩ := rebundle_eq_ok_iff.1 run
  constructor
  · intro printed
    exact ofGraph_eq_ok_iff.2
      ⟨rfl, fun kind n => ((spelled kind).mem_iff_hasBit (printed kind) n).2⟩
  · intro again kind n hn
    -- The bit that the name is read as is an object as well, and it is read as the same one.
    obtain ⟨root, size, i, h, hi, hsplit⟩ := (spelled kind).read n hn
    have object := (ofGraph_eq_ok_iff.1 again).2 kind _ ⟨root, size, i, h, hi, rfl⟩
    have bound := Word.splitBit?_bitName root i
    rw [if_pos (Word.lt_of_splitBit? hsplit)] at bound
    exact ⟨root, i, (spelled kind).once n hn _ object (hsplit.trans bound.symm)⟩

/-- Which graphs are accepted, and with which words. Every object must be read as a bit, and the bits
of every word must be there once, in whatever spelling of their indices. Words all of whose bits, and
nothing else, are objects are found; these are the graphs that are accepted with names as they are
printed. Of an accepted graph the words found can be laid over it by themselves just if all names are
as printed, and then every object is one bit of one word. -/
theorem rebundle_accepts (g : Graph) :
    ((∃ c, rebundle g = .ok c) ↔
      ∀ kind, ∃ words : Bundle, Spelled (g.names kind) words.IsWord) ∧
    ((∀ kind, ∃ words : Bundle, AreBits (g.names kind) words.IsWord) ↔
      (∃ c, rebundle g = .ok c) ∧ ∀ kind, ∀ n ∈ g.names kind, Word.IsBitName n) ∧
    ∀ c, rebundle g = .ok c →
      c.graph = g ∧
      (∀ kind (words : Bundle), Spelled (g.names kind) words.IsWord ↔ words = c.words kind) ∧
      ((∀ kind, ∀ n ∈ g.names kind, Word.IsBitName n) ↔
        ofGraph g c.inputs c.outputs c.latches = .ok c) ∧
      ((∀ kind, ∀ n ∈ g.names kind, Word.IsBitName n) → ∀ kind,
        AreBits (g.names kind) (c.words kind).IsWord ∧
        ∀ n ∈ g.names kind, ∃! bit : String × Nat,
          (∃ size, (c.words kind).IsWord bit.1 size ∧ bit.2 < size) ∧
            n = Word.bitName bit.1 bit.2) := by
  refine ⟨exists_rebundle_iff, ⟨fun bits => ⟨?_, fun kind n hn => ?_⟩, ?_⟩, fun c run => ?_⟩
  · refine exists_rebundle_iff.2 fun kind => ?_
    obtain ⟨words, areBits⟩ := bits kind
    exact ⟨words, areBits.spelled⟩
  · obtain ⟨words, areBits⟩ := bits kind
    exact areBits.isBitName hn
  · rintro ⟨⟨c, run⟩, printed⟩ kind
    exact ⟨_, ((rebundle_eq_ok_iff.1 run).2 kind).areBits (printed kind)⟩
  · obtain ⟨same, spelled⟩ := rebundle_eq_ok_iff.1 run
    refine ⟨same, fun kind words => ⟨fun h => ?_, ?_⟩, printed_iff_ofGraph run,
      fun printed kind => ?_⟩
    · exact h.unique (spelled kind) (g.nodup_names kind)
    · rintro rfl
      exact spelled kind
    · have areBits := (spelled kind).areBits (printed kind)
      exact ⟨areBits, fun n hn => areBits.existsUnique_bit hn⟩

/-- An index with a leading zero is read, though no bit is named so: the word that is found cannot be
laid over the graph, and the name is no bit of it. -/
theorem rebundle_accepts_leadingZero : ∃ g, g.Reachable ∧ ∃ c, rebundle g = .ok c ∧
    c.inputs = NameMap.ofPairs [("x", 1)] ∧
    (∀ words : Bundle, ¬ ∀ n, n ∈ g.names .input ↔ words.HasBit n) ∧
    ofGraph g c.inputs c.outputs c.latches = .error (.word (.missingBit .input "x[0]")) := by
  obtain ⟨g, hg, names, c, run, words, again⟩ : ∃ g, Graph.sink ["x[00]"] = .ok g ∧
      g.names .input = ["x[00]"] ∧ ∃ c, rebundle g = .ok c ∧
      c.inputs = NameMap.ofPairs [("x", 1)] ∧
      ofGraph g c.inputs c.outputs c.latches = .error (.word (.missingBit .input "x[0]")) := by
    decide +kernel
  refine ⟨g, .sink hg, c, run, words, fun words bits => ?_, again⟩
  rw [names] at bits
  obtain ⟨root, size, i, h, hi, heq⟩ := (bits "x[00]").1 (List.mem_singleton.2 rfl)
  have read : Word.splitBit? "x[00]" = some ("x", 0) := by decide +kernel
  exact absurd (Word.eq_bitName_of_splitBit? ⟨root, i, heq⟩ read) (by decide +kernel)

end WordCircuit

end AndInverter
