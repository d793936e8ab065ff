import AndInverter.Proofs.Aiger.Line
import AndInverter.Proofs.Map

/-! The lines of a file. A listing is made of the header, the parts that it announces, and the symbols
in front of a comment; the lines of a file are read just where they are a listing. -/

namespace AndInverter

/-- A reader after one whose result is a pair. -/
theorem Answers.bindPair {α β γ : Type} {x : Except Fault (α × γ)} {ok : α × γ → Prop}
    {f : α × γ → Except Fault β} {next : α → γ → β → Prop} (first : Answers x ok)
    (then_ : ∀ a c, ok (a, c) → Answers (f (a, c)) (next a c)) :
    Answers (x >>= f) fun b => ∃ a c, ok (a, c) ∧ next a c b := by
  have whole : Answers (x >>= f) fun b => ∃ r, ok r ∧ next r.1 r.2 b :=
    first.bind fun r h => then_ r.1 r.2 h
  exact whole.congr fun _ => Prod.exists

namespace Aiger

/-- The number of positions of a kind. -/
def File.count (f : File) : Kind → Nat
  | .input => f.inputs.length
  | .latch => f.latches.length
  | .output => f.outputs.length

/-- Lines of symbols and empty lines, with one symbol for a position at most. -/
structure IsSymbolTable (count : Kind → Nat) (lines : List String) (symbols : Symbols) :
    Prop where
  line : ∀ line ∈ lines, line = "" ∨ ∃ kind position name,
    IsSymbolLine line kind position name ∧ position < count kind
  once : lines.Pairwise fun line line' => ∀ kind position name name',
    IsSymbolLine line kind position name → ¬ IsSymbolLine line' kind position name'
  names : ∀ kind (position : Nat) name, (symbols.names kind)[position]? = some name ↔
    ∃ line ∈ lines, IsSymbolLine line kind position name

/-- The lines in front of the first one that begins with `c`. -/
def beforeComment (lines : List String) : List String :=
  lines.takeWhile fun line => line.toList.head? != some 'c'

/-- The lines list what the file holds. -/
def File.IsListed (f : File) (lines : List String) : Prop :=
  ∃ first inputs latches outputs gates later,
    lines = first :: (inputs ++ (latches ++ (outputs ++ (gates ++ later)))) ∧
    IsHeader ⟨f.max, inputs.length, latches.length, outputs.length, gates.length⟩ first ∧
    List.Forall₂ (IsInputLine f.max) inputs f.inputs ∧
    List.Forall₂ (IsLatchLine f.max) latches f.latches ∧
    List.Forall₂ (IsOutputLine f.max) outputs f.outputs ∧
    List.Forall₂ (IsGateLine f.max) gates f.gates ∧
    IsSymbolTable f.count (beforeComment later) f.symbols

/-! ### Parts -/

theorem readPart_answers {α : Type} {part : FilePart} {read : String → Except Fault α}
    {R : String → α → Prop} (reads : ∀ line, Answers (read line) (R line)) (count : Nat)
    (lines : List String) : Answers (readPart part read count lines) fun (as, rest) =>
      ∃ here, lines = here ++ rest ∧ here.length = count ∧ List.Forall₂ R here as := by
  induction count generalizing lines with
  | zero =>
    refine (Answers.pure ([], lines)).congr fun (as, rest) => ?_
    constructor
    · rintro ⟨⟩
      exact ⟨[], rfl, rfl, .nil⟩
    · rintro ⟨here, rfl, hlen, all⟩
      obtain rfl := List.length_eq_zero_iff.1 hlen
      cases all
      rfl
  | succ count ih =>
    cases lines with
    | nil =>
      refine (Answers.refuse _).congr fun (as, rest) => ?_
      refine ⟨False.elim, ?_⟩
      rintro ⟨here, heq, hlen, -⟩
      rw [(List.append_eq_nil_iff.1 heq.symm).1] at hlen
      cases hlen
    | cons line lines =>
      refine ((reads line).bind fun a _ => (ih lines).bindPair fun as rest _ =>
        Answers.pure (a :: as, rest)).congr fun (as, rest) => ?_
      constructor
      · rintro ⟨a, ha, as, rest, ⟨here, rfl, rfl, all⟩, ⟨⟩⟩
        exact ⟨line :: here, rfl, rfl, .cons ha all⟩
      · rintro ⟨here, heq, hlen, all⟩
        cases all with
        | nil => cases hlen
        | @cons _ a here as ha all =>
          obtain ⟨rfl, rfl⟩ := List.cons.inj heq
          exact ⟨a, ha, as, rest, ⟨here, rfl, Nat.succ.inj hlen, all⟩, rfl⟩

/-! ### Symbols -/

theorem Symbols.ext_names {s s' : Symbols} (h : ∀ kind, s.names kind = s'.names kind) :
    s = s' := by
  rcases s with ⟨inputs, latches, outputs⟩
  rcases s' with ⟨inputs', latches', outputs'⟩
  obtain rfl : inputs = inputs' := h .input
  obtain rfl : latches = latches' := h .latch
  obtain rfl : outputs = outputs' := h .output
  rfl

theorem Symbols.getElem?_names_insert (s : Symbols) (kind kind' : Kind) (position position' : Nat)
    (name : String) : ((s.insert kind position name).names kind')[position']? =
      if kind' = kind ∧ position' = position then some name else (s.names kind')[position']? := by
  have insert (m : Names) : (m.insert position name)[position']? =
      if position' = position then some name else m[position']? := by
    rw [Std.ExtTreeMap.getElem?_insert]
    simp only [Std.LawfulEqCmp.compare_eq_iff_eq, eq_comm (a := position)]
  cases kind <;> cases kind' <;> simp [Symbols.insert, Symbols.names, insert]

theorem Symbols.names_empty (kind : Kind) : Symbols.empty.names kind = ∅ := by
  cases kind <;> rfl

section Insert
variable {line : String} {kind : Kind} {position : Nat} {name : String} {start : Symbols}

/-- Another line names a position that is new still, if it is not that of the first line. -/
theorem IsSymbolLine.new_insert_iff (h : IsSymbolLine line kind position name)
    {count : Kind → Nat} {line' : String} :
    (∃ k p n, IsSymbolLine line' k p n ∧ p < count k ∧
      ((start.insert kind position name).names k)[p]? = none) ↔
    (∃ k p n, IsSymbolLine line' k p n ∧ p < count k ∧ (start.names k)[p]? = none) ∧
      ∀ k p n n', IsSymbolLine line k p n → ¬ IsSymbolLine line' k p n' := by
  constructor
  · rintro ⟨k, p, n, hline', hcount, hnone⟩
    rw [Symbols.getElem?_names_insert] at hnone
    split at hnone
    · cases hnone
    next hne =>
      refine ⟨⟨k, p, n, hline', hcount, hnone⟩, fun k' p' m m' h₁ h₂ => hne ?_⟩
      obtain ⟨rfl, rfl, -⟩ := h.unique h₁
      obtain ⟨rfl, rfl, -⟩ := hline'.unique h₂
      exact ⟨rfl, rfl⟩
  · rintro ⟨⟨k, p, n, hline', hcount, hnone⟩, apart⟩
    refine ⟨k, p, n, hline', hcount, ?_⟩
    rw [Symbols.getElem?_names_insert, if_neg, hnone]
    rintro ⟨rfl, rfl⟩
    exact apart _ _ _ _ h hline'

/-- The name that a line adds is the one it gives. -/
theorem IsSymbolLine.names_insert_iff (h : IsSymbolLine line kind position name)
    (hnone : (start.names kind)[position]? = none) {lines : List String} {k : Kind} {p : Nat}
    {n : String} :
    ((start.insert kind position name).names k)[p]? = some n ∨
        (∃ later ∈ lines, IsSymbolLine later k p n) ↔
      (start.names k)[p]? = some n ∨ ∃ later ∈ line :: lines, IsSymbolLine later k p n := by
  rw [Symbols.getElem?_names_insert, List.exists_mem_cons_iff, ← or_assoc]
  refine or_congr_left ?_
  split
  next hsame =>
    obtain ⟨rfl, rfl⟩ := hsame
    rw [hnone]
    constructor
    · rintro ⟨⟩
      exact .inr h
    · rintro (hn | hn)
      · cases hn
      · exact congrArg some (h.unique hn).2.2
  next hne =>
    have other : ¬ IsSymbolLine line k p n := fun h' => by
      obtain ⟨rfl, rfl, -⟩ := h.unique h'
      exact hne ⟨rfl, rfl⟩
    rw [or_iff_left other]

end Insert

/-- Symbols of positions that are new to those read before. -/
theorem foldSymbols_answers (count : Kind → Nat) (lines : List String) (start : Symbols) :
    Answers (lines.foldlM (readSymbol count) start) fun symbols =>
      (∀ line ∈ lines, ∃ kind position name, IsSymbolLine line kind position name ∧
        position < count kind ∧ (start.names kind)[position]? = none) ∧
      (lines.Pairwise fun line line' => ∀ kind position name name',
        IsSymbolLine line kind position name → ¬ IsSymbolLine line' kind position name') ∧
      ∀ kind (position : Nat) name, (symbols.names kind)[position]? = some name ↔
        (start.names kind)[position]? = some name ∨
          ∃ line ∈ lines, IsSymbolLine line kind position name := by
  induction lines generalizing start with
  | nil =>
    refine (Answers.pure start).congr fun symbols => ?_
    constructor
    · rintro rfl
      simp
    · rintro ⟨-, -, names⟩
      refine Symbols.ext_names fun kind => Std.ExtTreeMap.ext_getElem? fun position =>
        Option.ext fun name => ?_
      simpa using names kind position name
  | cons line lines ih =>
    refine ((readSymbol_answers count start line).bind fun next _ => ih next).congr fun symbols => ?_
    constructor
    · rintro ⟨_, ⟨kind, position, name, hline, hcount, hnew, rfl⟩, all, once, names⟩
      have hnone := not_mem_iff_getElem?.1 hnew
      simp only [hline.new_insert_iff] at all
      simp only [hline.names_insert_iff hnone] at names
      exact ⟨List.forall_mem_cons.2 ⟨⟨kind, position, name, hline, hcount, hnone⟩,
        fun later hmem => (all later hmem).1⟩,
        List.pairwise_cons.2 ⟨fun later hmem => (all later hmem).2, once⟩, names⟩
    · rintro ⟨all, once, names⟩
      obtain ⟨⟨kind, position, name, hline, hcount, hnone⟩, all⟩ := List.forall_mem_cons.1 all
      obtain ⟨apart, once⟩ := List.pairwise_cons.1 once
      refine ⟨_, ⟨kind, position, name, hline, hcount, not_mem_iff_getElem?.2 hnone, rfl⟩,
        fun later hmem => hline.new_insert_iff.2 ⟨all later hmem, apart later hmem⟩, once, ?_⟩
      simpa only [hline.names_insert_iff hnone] using names

/-- A symbol is no empty line. -/
theorem IsSymbolLine.isEmpty {line : String} {kind : Kind} {position : Nat} {name : String}
    (h : IsSymbolLine line kind position name) : line.isEmpty = false := by
  obtain ⟨digits, blank, hline, -⟩ := h
  rw [← Bool.not_eq_true, String.isEmpty_iff]
  rintro rfl
  simp at hline

theorem readSymbols_answers (count : Kind → Nat) (lines : List String) :
    Answers (readSymbols count lines) (IsSymbolTable count (beforeComment lines)) := by
  refine (foldSymbols_answers count _ Symbols.empty).congr fun symbols => ?_
  have listed (line : String) : line ∈ (beforeComment lines).filter (!·.isEmpty) ↔
      line ∈ beforeComment lines ∧ line.isEmpty = false := by simp
  have symbol (kind : Kind) (position : Nat) (name : String) :
      (∃ line, (line ∈ beforeComment lines ∧ line.isEmpty = false) ∧
        IsSymbolLine line kind position name) ↔
        ∃ line ∈ beforeComment lines, IsSymbolLine line kind position name := by
    constructor
    · rintro ⟨line, ⟨hmem, -⟩, h⟩
      exact ⟨line, hmem, h⟩
    · rintro ⟨line, hmem, h⟩
      exact ⟨line, ⟨hmem, h.isEmpty⟩, h⟩
  change ((∀ line ∈ (beforeComment lines).filter (!·.isEmpty), _) ∧
    ((beforeComment lines).filter (!·.isEmpty)).Pairwise _ ∧ ∀ kind (position : Nat) name,
      _ ↔ _ ∨ ∃ line ∈ (beforeComment lines).filter (!·.isEmpty), _) ↔ _
  simp only [symbol, listed, List.pairwise_filter, Symbols.names_empty, Std.ExtTreeMap.getElem?_empty,
    reduceCtorEq, false_or, and_true]
  constructor
  · rintro ⟨all, once, names⟩
    refine ⟨fun line hmem => ?_, once.imp fun h k p n n' h₁ h₂ => ?_, names⟩
    · by_cases hempty : line = ""
      · exact .inl hempty
      · exact .inr (all line ⟨hmem, by simpa using hempty⟩)
    · exact h (by simpa using h₁.isEmpty) (by simpa using h₂.isEmpty) k p n n' h₁ h₂
  · rintro ⟨all, once, names⟩
    refine ⟨fun line ⟨hmem, hne⟩ => ?_, once.imp fun h _ _ => h, names⟩
    rcases all line hmem with rfl | h
    · cases hne
    · exact h

/-! ### The whole file -/

theorem ofLines_answers (lines : List String) :
    Answers (File.ofLines lines) (·.IsListed lines) := by
  cases lines with
  | nil =>
    refine (Answers.refuse _).congr fun f => ⟨False.elim, ?_⟩
    rintro ⟨first, inputs, latches, outputs, gates, later, heq, -⟩
    cases heq
  | cons first lines =>
    refine ((readHeader_answers first).bind fun h _ =>
      (readPart_answers (readInput_answers h.max) h.inputs lines).bindPair fun inputs lines _ =>
      (readPart_answers (readLatch_answers h.max) h.latches lines).bindPair fun latches lines _ =>
      (readPart_answers (readOutput_answers h.max) h.outputs lines).bindPair fun outputs lines _ =>
      (readPart_answers (readGate_answers h.max) h.gates lines).bindPair fun gates lines _ =>
      (readSymbols_answers _ lines).bind fun symbols _ =>
      Answers.pure (⟨h.max, inputs, latches, outputs, gates, symbols⟩ : File)).congr fun f => ?_
    constructor
    · rintro ⟨h, header, _, _, ⟨inputs, rfl, hi, is⟩, _, _, ⟨latches, rfl, hl, ls⟩, _, _,
        ⟨outputs, rfl, ho, os⟩, _, _, ⟨gates, rfl, ha, as⟩, symbols, table, rfl⟩
      exact ⟨first, inputs, latches, outputs, gates, _, rfl, by rwa [hi, hl, ho, ha], is, ls, os, as,
        table⟩
    · rintro ⟨_, inputs, latches, outputs, gates, later, heq, header, is, ls, os, as, table⟩
      obtain ⟨rfl, rfl⟩ := List.cons.inj heq
      exact ⟨_, header, _, _, ⟨inputs, rfl, rfl, is⟩, _, _, ⟨latches, rfl, rfl, ls⟩, _, _,
        ⟨outputs, rfl, rfl, os⟩, _, _, ⟨gates, rfl, rfl, as⟩, f.symbols, table, rfl⟩

end Aiger

end AndInverter
