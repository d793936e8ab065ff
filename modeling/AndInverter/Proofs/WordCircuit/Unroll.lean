import AndInverter.Proofs.Graph.Unroll
import AndInverter.Proofs.WordCircuit.Rebundle
import AndInverter.WordCircuit.Unroll

/-! Unrolled words. The time of a bit is moved in front of its index, which keeps all names different, so
the bits of a step are grouped to the words of the step. -/

namespace AndInverter

namespace WordCircuit

variable {c : WordCircuit} {g : Graph}

/-! ### Names with a time -/

/-- The mark is found where characters that do not end it follow. -/
theorem splitLast_append {mark front : List Char} {last : Char} (hmark : mark.reverse = last :: front)
    (rest : List Char) {ds : List Char} (apart : ∀ d ∈ ds, d ≠ last) (after : List Char) :
    splitLast mark (ds ++ (mark.reverse ++ rest)) after = some (rest, ds.reverse ++ after) := by
  induction ds generalizing after with
  | nil =>
    have found : mark.reverse.isPrefixOf (last :: (front ++ rest)) = true := by
      rw [← List.cons_append, ← hmark, List.isPrefixOf_iff_prefix]
      exact List.prefix_append _ _
    have dropped : (last :: (front ++ rest)).drop mark.length = rest := by
      rw [← List.cons_append, ← hmark, ← List.length_reverse, List.drop_left]
    rw [List.nil_append, hmark, List.cons_append, splitLast, if_pos found, dropped]
    rfl
  | cons d ds ih =>
    obtain ⟨hd, hds⟩ := List.forall_mem_cons.1 apart
    have no : mark.reverse.isPrefixOf (d :: (ds ++ (mark.reverse ++ rest))) = false := by
      rw [hmark, List.isPrefixOf_cons_cons, beq_false_of_ne hd.symm, Bool.false_and]
    rw [List.cons_append, splitLast, if_neg (by rw [no]; simp), ih hds]
    simp

/-- The time is moved in front of the index, whatever the name of the word. -/
theorem moveTime_timed (x : String) (i t : Nat) : moveTime (timed (Word.bitName x i) t) =
    if i < UInt64.size then some (Word.bitName (timed x t) i) else none := by
  have chars : (timed (Word.bitName x i) t).toList.reverse =
      t.repr.toList.reverse ++ ("##time_".toList.reverse ++ (Word.bitName x i).toList.reverse) := by
    simp [timed, toString]
  have apart : ∀ d ∈ t.repr.toList.reverse, d ≠ '_' := by
    intro d hd
    have digit := isDigit_of_mem_repr (List.mem_reverse.1 hd)
    rintro rfl
    exact absurd digit (by decide)
  have mark : "##time_".toList.reverse = '_' :: "##time".toList.reverse := rfl
  have split := splitLast_append mark (Word.bitName x i).toList.reverse apart []
  rw [List.reverse_reverse, List.append_nil] at split
  have digits : t.repr.toList.all Char.isDigit = true :=
    List.all_eq_true.2 fun _ => isDigit_of_mem_repr
  have nonempty : t.repr.toList.isEmpty = false := List.isEmpty_eq_false_iff.2 (repr_ne_nil t)
  simp only [moveTime, chars, split, Option.bind_eq_bind, Option.bind_some, nonempty, digits,
    Bool.not_true, Bool.or_self, Bool.false_eq_true, if_false, List.reverse_reverse,
    String.ofList_toList, Word.splitBit?_bitName]
  split <;> rfl

/-- The renaming moves the time of each of these names. -/
def Moves (new : Renaming) (names : List String) : Prop :=
  ∀ n ∈ names, ∃ x i t, n = timed (Word.bitName x i) t ∧ new.apply n = Word.bitName (timed x t) i

theorem Moves.apply {new : Renaming} {names : List String} (moves : Moves new names) {x : String}
    {i t : Nat} (h : timed (Word.bitName x i) t ∈ names) :
    new.apply (timed (Word.bitName x i) t) = Word.bitName (timed x t) i := by
  obtain ⟨x', i', t', heq, happly⟩ := moves _ h
  obtain ⟨hbit, rfl⟩ := timed_inj.1 heq
  obtain ⟨rfl, rfl⟩ := Word.bitName_inj.1 hbit
  exact happly

/-- No two names become one. -/
theorem Moves.inj {new : Renaming} {names : List String} (moves : Moves new names) :
    ∀ a ∈ names, ∀ b ∈ names, new.apply a = new.apply b → a = b := by
  intro a ha b hb heq
  obtain ⟨x, i, t, rfl, hx⟩ := moves a ha
  obtain ⟨y, j, s, rfl, hy⟩ := moves b hb
  obtain ⟨hword, rfl⟩ := Word.bitName_inj.1 (hx.symm.trans (heq.trans hy))
  obtain ⟨rfl, rfl⟩ := timed_inj.1 hword
  rfl

/-- What stood under the old name stands under the new one. -/
theorem Moves.getElem?_rename {α : Type} {new : Renaming} {m : NameMap α} (moves : Moves new m.keys)
    (x : String) (i t : Nat) : (NameMap.rename m new.apply)[Word.bitName (timed x t) i]? =
      m[timed (Word.bitName x i) t]? := by
  have key {n : String} {a : α} (h : m[n]? = some a) : n ∈ m.keys :=
    Std.ExtTreeMap.mem_keys.2 (mem_iff_exists_getElem?.2 ⟨a, h⟩)
  refine Option.ext fun a => ?_
  rw [NameMap.getElem?_rename_eq_some_iff fun a ha b hb =>
    moves.inj a (Std.ExtTreeMap.mem_keys.2 ha) b (Std.ExtTreeMap.mem_keys.2 hb)]
  constructor
  · rintro ⟨old, hmoved, h⟩
    obtain ⟨y, j, s, rfl, happly⟩ := moves old (key h)
    obtain ⟨hword, rfl⟩ := Word.bitName_inj.1 (happly.symm.trans hmoved)
    obtain ⟨rfl, rfl⟩ := timed_inj.1 hword
    exact h
  · intro h
    exact ⟨_, moves.apply (key h), h⟩

/-- Where all names are those of bits at a time, their times can be moved. -/
theorem exists_moveTimes {kind : Kind} (timedBits : ∀ n ∈ g.names kind, ∃ x i t,
    n = timed (Word.bitName x i) t ∧ i < UInt64.size) :
    ∃ new, moveTimes g kind = .ok (g.rename kind new) ∧ Moves new (g.names kind) := by
  let pairs := (g.names kind).map fun n => (n, (moveTime n).getD n)
  have keys : pairs.map Prod.fst = g.names kind := by
    rw [List.map_map]
    exact List.map_id _
  have moves : Moves (NameMap.ofPairs pairs) (g.names kind) := by
    intro n hn
    obtain ⟨x, i, t, rfl, hi⟩ := timedBits n hn
    have found : (NameMap.ofPairs pairs)[timed (Word.bitName x i) t]? =
        some (Word.bitName (timed x t) i) := by
      refine (NameMap.getElem?_ofPairs_eq_some_iff (keys ▸ g.nodup_names kind)).2 ?_
      exact List.mem_map.2 ⟨_, hn, by rw [moveTime_timed, if_pos hi, Option.getD_some]⟩
    exact ⟨x, i, t, rfl, by rw [Renaming.apply, found, Option.getD_some]⟩
  refine ⟨NameMap.ofPairs pairs, ?_, moves⟩
  rw [moveTimes, mapM_eq_ok fun n hn => ?_]
  · exact Graph.relabel_eq_rename moves.inj
  · obtain ⟨x, i, t, rfl, hi⟩ := timedBits n hn
    rw [moveTime_timed, if_pos hi]
    rfl

/-- The names are just the bits of the words at their times. -/
structure AreTimedBits (names : List String) (B : String → Nat → Nat → Prop) : Prop where
  functional : ∀ x t i j, B x t i → B x t j → i = j
  positive : ∀ x t size, B x t size → 0 < size
  mem : ∀ n, n ∈ names ↔ ∃ x t size i, B x t size ∧ i < size ∧ n = timed (Word.bitName x i) t

/-- Bits at different times become bits of the words of these times. -/
theorem AreTimedBits.moved {kind : Kind} {B : String → Nat → Nat → Prop} {new : Renaming}
    (bits : AreTimedBits (g.names kind) B) (small : ∀ x t size, B x t size → size ≤ UInt64.size)
    (moves : Moves new (g.names kind)) :
    AreBits ((g.rename kind new).names kind) fun n size => ∃ x t, B x t size ∧ n = timed x t where
  functional := by
    rintro root i j ⟨x, t, hi, rfl⟩ ⟨y, s, hj, heq⟩
    obtain ⟨rfl, rfl⟩ := timed_inj.1 heq
    exact bits.functional x t i j hi hj
  sizes := by
    rintro root size ⟨x, t, hB, rfl⟩
    exact ⟨bits.positive x t size hB, small x t size hB⟩
  mem n := by
    rw [Graph.mem_names_rename_iff moves.inj]
    constructor
    · rintro ⟨old, hold, rfl⟩
      obtain ⟨x, t, size, i, hB, hi, rfl⟩ := (bits.mem old).1 hold
      exact ⟨timed x t, size, i, ⟨x, t, hB, rfl⟩, hi, moves.apply hold⟩
    · rintro ⟨root, size, i, ⟨x, t, hB, rfl⟩, hi, rfl⟩
      have hold := (bits.mem _).2 ⟨x, t, size, i, hB, hi, rfl⟩
      exact ⟨_, hold, moves.apply hold⟩

/-- The times of the bits are moved, and the words at their times are found. -/
theorem AreTimedBits.exists_words {kind : Kind} {B : String → Nat → Nat → Prop}
    (bits : AreTimedBits (g.names kind) B) (small : ∀ x t size, B x t size → size ≤ UInt64.size) :
    ∃ new, moveTimes g kind = .ok (g.rename kind new) ∧ Moves new (g.names kind) ∧
      ∃ words, groupBits ((g.rename kind new).names kind) = .ok words ∧
        ∀ (n : String) size, words[n]? = some size ↔ ∃ x t, B x t size ∧ n = timed x t := by
  have timedBits : ∀ n ∈ g.names kind, ∃ x i t,
      n = timed (Word.bitName x i) t ∧ i < UInt64.size := by
    intro n hn
    obtain ⟨x, t, size, i, hB, hi, rfl⟩ := (bits.mem n).1 hn
    exact ⟨x, i, t, rfl, hi.trans_le (small x t size hB)⟩
  obtain ⟨new, run, moves⟩ := exists_moveTimes timedBits
  exact ⟨new, run, moves, (bits.moved small moves).exists_groupBits (Graph.nodup_names _ kind)⟩

/-- A bit whose time is moved is the bit of another word. -/
theorem isBitName_of_moveTime {n new : String} (h : moveTime n = some new) : Word.IsBitName new := by
  simp only [moveTime] at h
  obtain ⟨⟨bit, time⟩, -, h⟩ := Option.bind_eq_some_iff.1 h
  split at h
  · cases h
  · obtain ⟨⟨root, index⟩, -, h⟩ := Option.bind_eq_some_iff.1 h
    exact ⟨_, index, (Option.some.inj h).symm⟩

theorem exists_pairs_of_moveTimes {h : Graph} {kind : Kind} (run : moveTimes g kind = .ok h) :
    ∃ pairs, List.Forall₂ (fun name (pair : String × String) =>
        pair.1 = name ∧ moveTime name = some pair.2) (g.names kind) pairs ∧
      g.relabel kind (NameMap.ofPairs pairs) = .ok h := by
  obtain ⟨pairs, hpairs, run⟩ := except_bind_eq_ok_iff.1 run
  refine ⟨pairs, Safe.elim (Safe.mapM fun name _ => ?_) hpairs, run⟩
  cases hmove : moveTime name with
  | none => exact .word _
  | some new => exact .pure ⟨rfl, rfl⟩

theorem moveTimes_ok {h : Graph} {kind : Kind} (wf : g.WellFormed) (run : moveTimes g kind = .ok h) :
    h.WellFormed ∧ (∀ n ∈ h.names kind, Word.IsBitName n) ∧
      ∀ kind', kind' ≠ kind → h.names kind' = g.names kind' := by
  obtain ⟨pairs, all, run⟩ := exists_pairs_of_moveTimes run
  have keys : pairs.map Prod.fst = g.names kind :=
    (List.forall₂_eq_eq_eq ▸ List.forall₂_map_right_iff.2
      (all.imp fun _ _ pair => pair.1.symm) : g.names kind = _).symm
  obtain ⟨rfl, inj⟩ := Graph.eq_rename_of_relabel run
  refine ⟨wf.rename inj, fun n hn => ?_, fun kind' => Graph.names_rename_of_ne _ _⟩
  obtain ⟨old, hold, rfl⟩ := (Graph.mem_names_rename_iff inj).1 hn
  obtain ⟨⟨name, new⟩, hmem, hname, hmove⟩ := forall₂_exists_of_mem all hold
  obtain rfl : name = old := hname
  have found : (NameMap.ofPairs pairs)[name]? = some new :=
    (NameMap.getElem?_ofPairs_eq_some_iff (keys ▸ g.nodup_names kind)).2 hmem
  rw [Renaming.apply, found, Option.getD_some]
  exact isBitName_of_moveTime hmove

/-- Where the times of all bits could be moved, the words are not too large. -/
theorem AreTimedBits.le_of_moveTimes {h : Graph} {kind : Kind} {B : String → Nat → Nat → Prop}
    (bits : AreTimedBits (g.names kind) B) (run : moveTimes g kind = .ok h) (x : String) (t size : Nat)
    (hB : B x t size) : size ≤ UInt64.size := by
  have positive := bits.positive x t size hB
  have last := (bits.mem _).2 ⟨x, t, size, size - 1, hB, by omega, rfl⟩
  obtain ⟨pairs, all, -⟩ := exists_pairs_of_moveTimes run
  obtain ⟨_, -, -, hmove⟩ := forall₂_exists_of_mem all last
  rw [moveTime_timed] at hmove
  by_cases small : size - 1 < UInt64.size
  · omega
  · rw [if_neg small] at hmove
    cases hmove

/-- An unrolled circuit has no latches and no objects but bits of its words. -/
theorem exact_of_unroll {d : WordCircuit} {horizon : Nat} {options : UnrollOptions}
    (run : c.unroll horizon options = .ok d) : d.Exact := by
  obtain ⟨g, hg, run⟩ := except_bind_eq_ok_iff.1 run
  obtain ⟨g₁, h₁, run⟩ := except_bind_eq_ok_iff.1 run
  obtain ⟨g₂, h₂, run⟩ := except_bind_eq_ok_iff.1 run
  obtain ⟨g₃, h₃, run⟩ := except_bind_eq_ok_iff.1 run
  obtain ⟨wf₁, bits₁, same₁⟩ := moveTimes_ok (Graph.wellFormed_unroll hg) h₁
  obtain ⟨wf₂, bits₂, same₂⟩ := moveTimes_ok wf₁ h₂
  obtain ⟨wf₃, bits₃, same₃⟩ := moveTimes_ok wf₂ h₃
  refine (rebundle_safe wf₃ fun kind n hn => ?_).elim run
  cases kind with
  | input =>
    rw [same₃ .input nofun, same₂ .input nofun] at hn
    exact bits₁ n hn
  | output =>
    rw [same₃ .output nofun] at hn
    exact bits₂ n hn
  | latch => exact bits₃ n hn

/-! ### Words with a time -/

/-- Sizes are numbers of the machine. -/
def Addressable (c : WordCircuit) : Prop :=
  ∀ kind (n : String) size, (c.words kind)[n]? = some size → size < UInt64.size

theorem addressable_iff : c.Addressable ↔
    ∀ kind, ∀ word ∈ (c.words kind).toList, word.2 < UInt64.size := by
  simp only [Addressable, Prod.forall, Std.ExtTreeMap.mem_toList_iff_getElem?_eq_some]

/-- The word is read at the time: an input word of a step, or a latch word at the start. A word without
bits is not. -/
def ReadAt (c : WordCircuit) (options : UnrollOptions) (horizon : Nat) (x : String) (t size : Nat) :
    Prop :=
  0 < size ∧ (t < horizon ∧ c.inputs[x]? = some size ∨
    options.fromInitial = false ∧ t = 0 ∧ c.latches[x]? = some size)

/-- The word is shown at the time: an output word after a step, or a latch word with its next value. A
word without bits is not. -/
def ShownAt (c : WordCircuit) (options : UnrollOptions) (horizon : Nat) (y : String) (t size : Nat) :
    Prop :=
  0 < size ∧ (∃ s < horizon, t = s + 1 ∧ (options.lastOnly → s + 1 = horizon)) ∧
    (c.outputs[y]? = some size ∨ options.hideLatches = false ∧ c.latches[y]? = some size)

/-- `U` is the unrolled graph `G` with the times of all bits moved to their words. -/
structure Unrolls (c : WordCircuit) (options : UnrollOptions) (horizon : Nat) (G : Graph)
    (U : WordCircuit) : Prop where
  nodes : U.graph.nodes = G.nodes
  inputBit : ∀ x i t,
    U.graph.inputs[Word.bitName (timed x t) i]? = G.inputs[timed (Word.bitName x i) t]?
  outputBit : ∀ y i t,
    U.graph.outputs[Word.bitName (timed y t) i]? = G.outputs[timed (Word.bitName y i) t]?
  inputs : ∀ (n : String) size, U.inputs[n]? = some size ↔
    ∃ x t, c.ReadAt options horizon x t size ∧ n = timed x t
  outputs : ∀ (n : String) size, U.outputs[n]? = some size ↔
    ∃ y t, c.ShownAt options horizon y t size ∧ n = timed y t
  latches : ∀ n : String, n ∉ U.latches

section Words
variable {options : UnrollOptions} {horizon : Nat}

/-- A word of two kinds that is not empty has a bit of both kinds. -/
theorem Exact.common_bit (exact : c.Exact) (kind kind' : Kind) {n : String} {i j : Nat} (pi : 0 < i)
    (hi : (c.words kind)[n]? = some i) (pj : 0 < j) (hj : (c.words kind')[n]? = some j) :
    Word.bitName n 0 ∈ c.graph.names kind ∧ Word.bitName n 0 ∈ c.graph.names kind' :=
  ⟨((exact_iff.1 exact).2 kind _).2 ⟨n, i, 0, hi, pi, rfl⟩,
    ((exact_iff.1 exact).2 kind' _).2 ⟨n, j, 0, hj, pj, rfl⟩⟩

theorem Exact.readAt_functional (exact : c.Exact)
    (apart : options.fromInitial = false → ∀ n ∈ c.graph.latches, n ∉ c.graph.inputs) {x : String}
    {t i j : Nat} (hi : c.ReadAt options horizon x t i) (hj : c.ReadAt options horizon x t j) :
    i = j := by
  have differ (hfrom : options.fromInitial = false) {i j : Nat} (pi : 0 < i)
      (hi : c.latches[x]? = some i) (pj : 0 < j) (hj : c.inputs[x]? = some j) : False := by
    obtain ⟨latch, input⟩ := exact.common_bit .latch .input pi hi pj hj
    exact apart hfrom _ (Std.ExtTreeMap.mem_keys.1 latch) (Std.ExtTreeMap.mem_keys.1 input)
  obtain ⟨pi, ⟨-, hi⟩ | ⟨hfrom, -, hi⟩⟩ := hi <;> obtain ⟨pj, ⟨-, hj⟩ | ⟨hfrom', -, hj⟩⟩ := hj
  · exact Option.some.inj (hi.symm.trans hj)
  · exact (differ hfrom' pj hj pi hi).elim
  · exact (differ hfrom pi hi pj hj).elim
  · exact Option.some.inj (hi.symm.trans hj)

theorem Exact.shownAt_functional (exact : c.Exact)
    (apart : options.hideLatches = false → ∀ n ∈ c.graph.latches, n ∉ c.graph.outputs) {y : String}
    {t i j : Nat} (hi : c.ShownAt options horizon y t i) (hj : c.ShownAt options horizon y t j) :
    i = j := by
  have differ (hshow : options.hideLatches = false) {i j : Nat} (pi : 0 < i)
      (hi : c.latches[y]? = some i) (pj : 0 < j) (hj : c.outputs[y]? = some j) : False := by
    obtain ⟨latch, output⟩ := exact.common_bit .latch .output pi hi pj hj
    exact apart hshow _ (Std.ExtTreeMap.mem_keys.1 latch) (Std.ExtTreeMap.mem_keys.1 output)
  obtain ⟨pi, -, hi | ⟨hshow, hi⟩⟩ := hi <;> obtain ⟨pj, -, hj | ⟨hshow', hj⟩⟩ := hj
  · exact Option.some.inj (hi.symm.trans hj)
  · exact (differ hshow' pj hj pi hi).elim
  · exact (differ hshow pi hi pj hj).elim
  · exact Option.some.inj (hi.symm.trans hj)

/-- The inputs of an unrolled graph are the bits of the words that are read. -/
theorem Exact.unrolled_inputs (exact : c.Exact) {G : Graph}
    (unrolling : c.graph.IsUnrolling options horizon G)
    (apart : options.fromInitial = false → ∀ n ∈ c.graph.latches, n ∉ c.graph.inputs) :
    AreTimedBits (G.names .input) (c.ReadAt options horizon) where
  functional _ _ _ _ := exact.readAt_functional apart
  positive _ _ _ h := h.1
  mem n := by
    rw [show n ∈ G.names .input ↔ n ∈ G.inputs from Std.ExtTreeMap.mem_keys, unrolling.inputs]
    constructor
    · rintro (⟨t, ht, _, hx, rfl⟩ | ⟨hfrom, _, hl, rfl⟩)
      · obtain ⟨x, size, i, h, hi, rfl⟩ := (exact.inputs _).1 hx
        exact ⟨x, t, size, i, ⟨by omega, .inl ⟨ht, h⟩⟩, hi, rfl⟩
      · obtain ⟨l, size, i, h, hi, rfl⟩ := (exact.latches _).1 hl
        exact ⟨l, 0, size, i, ⟨by omega, .inr ⟨hfrom, rfl, h⟩⟩, hi, rfl⟩
    · rintro ⟨x, t, size, i, ⟨-, ⟨ht, h⟩ | ⟨hfrom, rfl, h⟩⟩, hi, rfl⟩
      · exact .inl ⟨t, ht, _, (exact.inputs _).2 ⟨x, size, i, h, hi, rfl⟩, rfl⟩
      · exact .inr ⟨hfrom, _, (exact.latches _).2 ⟨x, size, i, h, hi, rfl⟩, rfl⟩

/-- The outputs of an unrolled graph are the bits of the words that are shown. -/
theorem Exact.unrolled_outputs (exact : c.Exact) {G : Graph}
    (unrolling : c.graph.IsUnrolling options horizon G)
    (apart : options.hideLatches = false → ∀ n ∈ c.graph.latches, n ∉ c.graph.outputs) :
    AreTimedBits (G.names .output) (c.ShownAt options horizon) where
  functional _ _ _ _ := exact.shownAt_functional apart
  positive _ _ _ h := h.1
  mem n := by
    rw [show n ∈ G.names .output ↔ n ∈ G.outputs from Std.ExtTreeMap.mem_keys, unrolling.outputs]
    constructor
    · rintro ⟨s, hs, kept, _, hy | ⟨hshow, hl⟩, rfl⟩
      · obtain ⟨y, size, i, h, hi, rfl⟩ := (exact.outputs _).1 hy
        exact ⟨y, s + 1, size, i, ⟨by omega, ⟨s, hs, rfl, kept⟩, .inl h⟩, hi, rfl⟩
      · obtain ⟨l, size, i, h, hi, rfl⟩ := (exact.latches _).1 hl
        exact ⟨l, s + 1, size, i, ⟨by omega, ⟨s, hs, rfl, kept⟩, .inr ⟨hshow, h⟩⟩, hi, rfl⟩
    · rintro ⟨y, _, size, i, ⟨-, ⟨s, hs, rfl, kept⟩, h | ⟨hshow, h⟩⟩, hi, rfl⟩
      · exact ⟨s, hs, kept, _, .inl ((exact.outputs _).2 ⟨y, size, i, h, hi, rfl⟩), rfl⟩
      · exact ⟨s, hs, kept, _, .inr ⟨hshow, (exact.latches _).2 ⟨y, size, i, h, hi, rfl⟩⟩, rfl⟩

/-- An unrolled graph has no latches. -/
theorem unrolled_latches {G : Graph} (unrolling : c.graph.IsUnrolling options horizon G) :
    AreTimedBits (G.names .latch) fun _ _ _ => False where
  functional _ _ _ _ h := h.elim
  positive _ _ _ h := h.elim
  mem n := by
    simp only [false_and, exists_false, iff_false]
    exact fun hn => unrolling.latches n (Std.ExtTreeMap.mem_keys.1 hn)

theorem Exact.exists_unroll_of_small (exact : c.Exact) {G : Graph}
    (hG : c.graph.unroll horizon options = .ok G)
    (smallRead : ∀ x t size, c.ReadAt options horizon x t size → size ≤ UInt64.size)
    (smallShown : ∀ y t size, c.ShownAt options horizon y t size → size ≤ UInt64.size) :
    ∃ U, c.unroll horizon options = .ok U ∧ c.Unrolls options horizon G U ∧
      c.graph.IsUnrolling options horizon G := by
  have free := Graph.obstacle_of_unroll hG
  obtain ⟨shownApart, readApart⟩ := Graph.obstacle_eq_none_iff.1 free
  obtain ⟨G', hG', -, unrolling⟩ := exact.wf.toEvaluable.exists_unroll free horizon
  obtain rfl := Except.ok.inj (hG.symm.trans hG')
  -- Moving the times of one kind leaves the names of the others alone.
  obtain ⟨new₁, run₁, moves₁, inputs, hin, inputWords⟩ :=
    (exact.unrolled_inputs unrolling readApart).exists_words smallRead
  have shown := exact.unrolled_outputs unrolling shownApart
  obtain ⟨new₂, run₂, moves₂, outputs, hout, outputWords⟩ :=
    @AreTimedBits.exists_words (G.rename .input new₁) .output _ shown smallShown
  have held := unrolled_latches unrolling
  obtain ⟨new₃, run₃, -, latches, hlatch, latchWords⟩ :=
    @AreTimedBits.exists_words ((G.rename .input new₁).rename .output new₂) .latch _ held
      fun _ _ _ h => h.elim
  have words : rebundle (((G.rename .input new₁).rename .output new₂).rename .latch new₃) =
      .ok ⟨_, inputs, outputs, latches⟩ :=
    except_bind_eq_ok_iff.2 ⟨inputs, hin, except_bind_eq_ok_iff.2 ⟨outputs, hout,
      except_bind_eq_ok_iff.2 ⟨latches, hlatch, rfl⟩⟩⟩
  refine ⟨⟨((G.rename .input new₁).rename .output new₂).rename .latch new₃, inputs, outputs, latches⟩,
    ?_, ⟨rfl, moves₁.getElem?_rename, moves₂.getElem?_rename, inputWords, outputWords,
      fun n hn => ?_⟩, unrolling⟩
  · rw [unroll, hG, except_ok_bind, run₁, except_ok_bind, run₂, except_ok_bind, run₃, except_ok_bind,
      words]
  · obtain ⟨size, h⟩ := mem_iff_exists_getElem?.1 hn
    obtain ⟨_, _, h, -⟩ := (latchWords n size).1 h
    exact h

/-- Whenever the graph can be unrolled, so can the circuit. -/
theorem Exact.exists_unroll (exact : c.Exact) (addressable : c.Addressable) {G : Graph}
    (hG : c.graph.unroll horizon options = .ok G) :
    ∃ U, c.unroll horizon options = .ok U ∧ c.Unrolls options horizon G U ∧
      c.graph.IsUnrolling options horizon G := by
  refine exact.exists_unroll_of_small hG ?_ ?_
  · rintro x t size ⟨-, ⟨-, h⟩ | ⟨-, -, h⟩⟩
    · exact (addressable .input x size h).le
    · exact (addressable .latch x size h).le
  · rintro y t size ⟨-, -, h | ⟨-, h⟩⟩
    · exact (addressable .output y size h).le
    · exact (addressable .latch y size h).le

/-- What a circuit was unrolled to is its unrolled graph, grouped to words. -/
theorem Exact.unrolls_of_unroll (exact : c.Exact) {U : WordCircuit}
    (run : c.unroll horizon options = .ok U) : ∃ G, c.Unrolls options horizon G U := by
  obtain ⟨G, hG, moved⟩ := except_bind_eq_ok_iff.1 run
  obtain ⟨g₁, h₁, moved⟩ := except_bind_eq_ok_iff.1 moved
  obtain ⟨g₂, h₂, -⟩ := except_bind_eq_ok_iff.1 moved
  have free := Graph.obstacle_of_unroll hG
  obtain ⟨shownApart, readApart⟩ := Graph.obstacle_eq_none_iff.1 free
  obtain ⟨G', hG', -, unrolling⟩ := exact.wf.toEvaluable.exists_unroll free horizon
  obtain rfl := Except.ok.inj (hG.symm.trans hG')
  have read := exact.unrolled_inputs unrolling readApart
  have shown : AreTimedBits (g₁.names .output) (c.ShownAt options horizon) := by
    rw [(moveTimes_ok (Graph.wellFormed_unroll hG) h₁).2.2 .output nofun]
    exact exact.unrolled_outputs unrolling shownApart
  obtain ⟨U', hU', unrolls, -⟩ :=
    exact.exists_unroll_of_small hG (read.le_of_moveTimes h₁) (shown.le_of_moveTimes h₂)
  obtain rfl := Except.ok.inj (run.symm.trans hU')
  exact ⟨G, unrolls⟩

end Words

end WordCircuit

end AndInverter
