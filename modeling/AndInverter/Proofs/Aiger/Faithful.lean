import AndInverter.Proofs.Aiger.RoundTrip

/-! Names that are no lines. Any names can be written, but a line feed in a name ends its line, and a
carriage return at its end is taken for a part of the line's end. If the text can be read, the graph that
is read has the names that were written exactly where all of them are lines, and then it is the same
circuit; an empty name makes the text unreadable. -/

namespace AndInverter

/-! ### Ends of lines -/

namespace Text

theorem mem_of_mem_dropReturn {cs : List Char} {c : Char} (h : c ∈ dropReturn cs) : c ∈ cs := by
  unfold dropReturn at h
  split at h
  · exact List.mem_cons_of_mem _ h
  · exact h

theorem feed_not_mem_of_mem_linesFrom {front cs line : List Char} (hfront : '\n' ∉ front)
    (h : line ∈ linesFrom front cs) : '\n' ∉ line := by
  induction cs generalizing front with
  | nil =>
    rw [linesFrom] at h
    split at h
    · cases h
    · rw [List.mem_singleton.1 h, List.mem_reverse]
      exact hfront
  | cons c cs ih =>
    by_cases hc : c = '\n'
    · subst hc
      rw [linesFrom] at h
      rcases List.mem_cons.1 h with rfl | h
      · rw [List.mem_reverse]
        exact mt mem_of_mem_dropReturn hfront
      · exact ih List.not_mem_nil h
    · rw [linesFrom] at h
      · refine ih ?_ h
        rw [List.mem_cons, not_or]
        exact ⟨fun heq => hc heq.symm, hfront⟩
      · exact hc

/-- No line holds a line feed. -/
theorem feed_not_mem_of_mem_lines {s line : String} (h : line ∈ lines s) : '\n' ∉ line.toList := by
  obtain ⟨l, hl, rfl⟩ := List.mem_map.1 h
  rw [String.toList_ofList]
  exact feed_not_mem_of_mem_linesFrom List.not_mem_nil hl

/-- Nothing is taken off a line, or else a carriage return. -/
theorem chomp_cases (line : String) :
    line.toList.getLast? ≠ some '\r' ∧ chomp line = line ∨
      line.toList = (chomp line).toList ++ ['\r'] := by
  by_cases h : line.toList.getLast? = some '\r'
  · obtain ⟨front, hfront⟩ := List.getLast?_eq_some_iff.1 h
    exact .inr (by rw [toList_chomp_of_eq hfront, hfront])
  · exact .inl ⟨h, chomp_eq h⟩

end Text

namespace Aiger

open Text (IsLine chomp)

/-! ### Symbols that were written -/

/-- Taking a carriage return off a symbol takes it off the name. -/
theorem chomp_symbolLine (kind : Kind) (position : Nat) (name : String) :
    chomp (symbolLine (kind, position, name)) = symbolLine (kind, position, chomp name) := by
  rcases Text.chomp_cases name with ⟨last, heq⟩ | heq
  · rw [heq, Text.chomp_eq]
    rw [getLast?_symbolLine]
    cases hlast : name.toList.getLast? with
    | none => simp
    | some c => simpa [hlast] using last
  · apply String.toList_injective
    rw [toList_symbolLine]
    apply Text.toList_chomp_of_eq
    rw [toList_symbolLine, heq]
    simp

/-- A symbol that was written says one kind and one name. -/
theorem IsSymbolLine.of_symbolLine {k kind : Kind} {p position : Nat} {n name : String}
    (h : IsSymbolLine (symbolLine (k, p, n)) kind position name) : kind = k ∧ name = n := by
  obtain ⟨digits, blank, hline, decimal, hblank, -⟩ := h
  rw [toList_symbolLine, List.cons_append, List.cons_append, List.cons.injEq] at hline
  obtain ⟨hletter, hrest⟩ := hline
  have stop : ∀ c ∈ (blank :: name.toList).head?, ¬ c.isDigit := by
    rintro c ⟨⟩
    rcases hblank with rfl | rfl <;> simp
  have stop' : ∀ c ∈ (' ' :: n.toList).head?, ¬ c.isDigit := by
    rintro c ⟨⟩
    simp
  have after := (takeWhile_append_eq (p := Char.isDigit) decimal.isDigit stop).2
  rw [← hrest, (takeWhile_append_eq (p := Char.isDigit) (fun _ => isDigit_of_mem_repr) stop').2,
    List.cons.injEq] at after
  refine ⟨?_, (String.toList_injective after.2).symm⟩
  cases k <;> cases kind <;> first | rfl | exact absurd hletter (by decide)

/-! ### Names that are read -/

section Names
variable {g b : Graph} {text : String} {kind : Kind} {name : String}

/-- The name of a position without a symbol. -/
def defaultName (kind : Kind) (position : Nat) : String := kind.letter.toString ++ toString position

theorem isLine_defaultName (kind : Kind) (position : Nat) : IsLine (defaultName kind position) := by
  refine Text.isLine_of_forall fun c hc => ?_
  have chars : (defaultName kind position).toList = kind.letter :: position.repr.toList := by
    simp [defaultName, toString]
  rw [chars] at hc
  rcases List.mem_cons.1 hc with rfl | hc
  · cases kind <;> decide
  · constructor <;> rintro rfl <;> exact absurd (isDigit_of_mem_repr hc) (by decide)

/-- A name that is read stands in a symbol, or is the one of a position without a symbol. -/
theorem name_of_readText (h : readText text = .ok b) (hname : name ∈ b.names kind) :
    (∃ position, name = defaultName kind position) ∨
      ∃ line ∈ Text.lines text, ∃ position, IsSymbolLine line kind position name := by
  obtain ⟨f, listed, -, defs, isGraph⟩ := exists_isGraph h
  obtain ⟨position, hat⟩ := List.mem_iff_getElem?.1
    ((isGraph.hasName_iff kind name).1 (Graph.hasName_iff.2 hname))
  obtain ⟨-, rfl⟩ := f.getElem?_names_iff.1 hat
  obtain ⟨_, _, _, _, _, later, hlines, -, -, -, -, -, table⟩ := listed
  rw [Symbols.name]
  cases hsymbol : (f.symbols.names kind)[position]? with
  | none => exact .inl ⟨position, rfl⟩
  | some name =>
    obtain ⟨line, hline, symbol⟩ := (table.names kind position name).1 hsymbol
    refine .inr ⟨line, ?_, position, symbol⟩
    rw [hlines]
    simp [(List.takeWhile_sublist _).subset hline]

/-- No name that is read holds a line feed. -/
theorem feed_not_mem_name (h : readText text = .ok b) (hname : name ∈ b.names kind) :
    '\n' ∉ name.toList := by
  rcases name_of_readText h hname with ⟨position, rfl⟩ | ⟨line, hline, _, _, _, chars, -⟩
  · exact (isLine_defaultName kind position).feed
  · intro hfeed
    apply Text.feed_not_mem_of_mem_lines hline
    rw [chars]
    simp [hfeed]

/-- Where no name holds a line feed, each line loses a carriage return at its end. -/
theorem lines_writeText_chomp (feed : ∀ kind, ∀ name ∈ g.names kind, '\n' ∉ name.toList) :
    Text.lines (writeText g) = (writeLines g).map chomp := by
  refine Text.lines_join_chomp fun line hline => ?_
  rcases mem_writeLines_cases hline with rfl | ⟨n, ns, rfl⟩ | ⟨kind, position, name, hat, rfl⟩
  · exact (isLine_headerLine g).feed
  · exact (isLine_numbers _).feed
  · exact feed_not_mem_symbolLine (feed kind name (List.mem_of_getElem? hat)) kind position

/-- A header, or a line of numbers, is no symbol. -/
theorem not_isSymbolLine_headerLine (g : Graph) (position : Nat) :
    ¬ IsSymbolLine (headerLine g) kind position name := by
  rintro ⟨_, _, chars, -⟩
  rw [toList_headerLine, magic] at chars
  cases kind <;> simp [Kind.letter] at chars

theorem not_isSymbolLine_numbers (n : Nat) (ns : List Nat) (position : Nat) :
    ¬ IsSymbolLine (numbers (n :: ns)) kind position name := by
  rintro ⟨_, _, chars, -⟩
  have first : kind.letter ∈ (numbers (n :: ns)).toList := by simp [chars]
  rcases mem_numbers first with h | h <;> cases kind <;> exact absurd h (by decide)

/-- Where no name holds a line feed, the names that are read have lost a carriage return at their ends. -/
theorem name_of_written (feed : ∀ kind, ∀ name ∈ g.names kind, '\n' ∉ name.toList)
    (h : readText (writeText g) = .ok b) (hname : name ∈ b.names kind) :
    (∃ position, name = defaultName kind position) ∨ ∃ old ∈ g.names kind, name = chomp old := by
  refine (name_of_readText h hname).imp_right ?_
  rintro ⟨line, hline, position, symbol⟩
  rw [lines_writeText_chomp feed] at hline
  obtain ⟨whole, hwhole, rfl⟩ := List.mem_map.1 hline
  rcases mem_writeLines_cases hwhole with rfl | ⟨n, ns, rfl⟩ | ⟨kind', position', old, hat, rfl⟩
  · rw [Text.chomp_eq (isLine_headerLine g).last] at symbol
    exact absurd symbol (not_isSymbolLine_headerLine g position)
  · rw [Text.chomp_eq (isLine_numbers _).last] at symbol
    exact absurd symbol (not_isSymbolLine_numbers n ns position)
  · rw [chomp_symbolLine] at symbol
    obtain ⟨rfl, rfl⟩ := symbol.of_symbolLine
    exact ⟨old, List.mem_of_getElem? hat, rfl⟩

/-- A name that is read with a carriage return at its end was written with one more. -/
theorem exists_longer_name (feed : ∀ kind, ∀ name ∈ g.names kind, '\n' ∉ name.toList)
    (h : readText (writeText g) = .ok b) (hname : name ∈ b.names kind)
    (last : name.toList.getLast? = some '\r') :
    ∃ old ∈ g.names kind, old.toList = name.toList ++ ['\r'] := by
  rcases name_of_written feed h hname with ⟨position, rfl⟩ | ⟨old, hold, rfl⟩
  · exact absurd last (isLine_defaultName kind position).last
  · rcases Text.chomp_cases old with ⟨hlast, heq⟩ | heq
    · rw [heq] at last
      exact absurd last hlast
    · exact ⟨old, hold, heq⟩

/-- If the names that were written are read, all of them are lines. -/
theorem isLine_of_names_eq (h : readText (writeText g) = .ok b)
    (same : ∀ kind, b.names kind = g.names kind) : ∀ kind, ∀ name ∈ g.names kind, IsLine name := by
  have feed (kind : Kind) (name : String) (hname : name ∈ g.names kind) : '\n' ∉ name.toList :=
    feed_not_mem_name h (same kind ▸ hname)
  refine fun kind name hname => ⟨feed kind name hname, fun last => ?_⟩
  -- Each such name was read off a longer one, so there would be names of any length.
  have longer (n : Nat) : ∃ long ∈ g.names kind,
      long.toList.getLast? = some '\r' ∧ n ≤ long.toList.length := by
    induction n with
    | zero => exact ⟨name, hname, last, Nat.zero_le _⟩
    | succ n ih =>
      obtain ⟨long, hlong, last, le⟩ := ih
      obtain ⟨old, hold, heq⟩ := exists_longer_name feed h (same kind ▸ hlong) last
      refine ⟨old, hold, by rw [heq]; simp, ?_⟩
      rw [heq, List.length_append]
      exact Nat.succ_le_succ le
  let lengths := (g.names kind).map fun n => n.toList.length
  obtain ⟨long, hlong, -, le⟩ := longer (lengths.max?.getD 0 + 1)
  have bound : long.toList.length ≤ lengths.max?.getD 0 :=
    List.le_max?_getD_of_mem (List.mem_map.2 ⟨long, hlong, rfl⟩)
  exact Nat.not_succ_le_self _ (le.trans bound)

end Names

/-! ### Lines that are listed -/

/-- Where no line begins a comment, each line is of one of the forms. -/
theorem File.IsListed.line_cases {f : File} {lines : List String} (listed : f.IsListed lines)
    (noComment : ∀ line ∈ lines, line.toList.head? ≠ some 'c') {line : String} (h : line ∈ lines) :
    (∃ header, IsHeader header line) ∨ (∃ n ns, IsNumbers n ns line) ∨ line = "" ∨
      ∃ kind position name, IsSymbolLine line kind position name := by
  obtain ⟨_, _, _, _, _, later, rfl, header, inputs, latches, outputs, gates, table⟩ := listed
  have symbols : beforeComment later = later := by
    refine List.takeWhile_eq_self_iff.2 fun line hline => ?_
    simpa using noComment line (by simp [hline])
  simp only [List.mem_cons, List.mem_append] at h
  rcases h with rfl | h | h | h | h | h
  · exact .inl ⟨_, header⟩
  · obtain ⟨_, -, form⟩ := forall₂_exists_of_mem inputs h
    exact .inr (.inl ⟨_, _, form.1⟩)
  · obtain ⟨_, -, ⟨-, form⟩ | form, -⟩ := forall₂_exists_of_mem latches h
    · exact .inr (.inl ⟨_, _, form⟩)
    · exact .inr (.inl ⟨_, _, form⟩)
  · obtain ⟨_, -, form⟩ := forall₂_exists_of_mem outputs h
    exact .inr (.inl ⟨_, _, form.1⟩)
  · obtain ⟨_, -, form⟩ := forall₂_exists_of_mem gates h
    exact .inr (.inl ⟨_, _, form.1⟩)
  · rcases table.line line (symbols.symm ▸ h) with rfl | ⟨kind, position, name, form, -⟩
    · exact .inr (.inr (.inl rfl))
    · exact .inr (.inr (.inr ⟨kind, position, name, form⟩))

section Listed
variable {g b : Graph} {f : File}

/-- No line that is written begins a comment. -/
theorem head?_ne_of_mem_writeLines {line : String} (h : line ∈ writeLines g) :
    line.toList.head? ≠ some 'c' := by
  rcases mem_writeLines_cases h with rfl | ⟨n, ns, rfl⟩ | ⟨kind, position, name, -, rfl⟩
  · simp [toList_headerLine, magic]
  · intro hhead
    rcases mem_numbers (List.mem_of_head? hhead) with hc | hc <;> exact absurd hc (by decide)
  · rw [toList_symbolLine]
    cases kind <;> simp [Kind.letter]

/-- Numbers that are read have 32 bits. -/
theorem lt_of_isListed (listed : f.IsListed (writeLines g)) {n : Nat} {ns : List Nat}
    (h : numbers (n :: ns) ∈ writeLines g) : n < UInt32.size := by
  rcases listed.line_cases (fun _ => head?_ne_of_mem_writeLines) h with
    ⟨_, ⟨_, chars, -⟩, -⟩ | ⟨m, ms, form⟩ | hempty | ⟨_, position, _, symbol⟩
  · have letter : 'a' ∈ (numbers (n :: ns)).toList := by simp [chars, magic]
    rcases mem_numbers letter with hc | hc <;> exact absurd hc (by decide)
  · obtain ⟨rest, hnumber, -⟩ := isNumbers_iff.1 form
    rw [toList_numbers, number_repr] at hnumber
    split at hnumber
    next fits => exact fits
    next => cases hnumber
  · have chars := toList_numbers n ns
    rw [hempty] at chars
    exact absurd (List.append_eq_nil_iff.1 chars.symm).1 (repr_ne_nil n)
  · exact absurd symbol (not_isSymbolLine_numbers n ns position)

/-- An empty name has no symbol. -/
theorem ne_empty_of_isListed (listed : f.IsListed (writeLines g)) (kind : Kind) (name : String)
    (hname : name ∈ g.names kind) : name ≠ "" := by
  rintro rfl
  obtain ⟨position, hat⟩ := List.mem_iff_getElem?.1 hname
  have hline : symbolLine (kind, position, "") ∈ writeLines g := by
    rw [writeLines_eq]
    have := List.mem_map_of_mem (f := symbolLine) (mem_entries_iff.2 hat)
    simp [this]
  have chars := toList_symbolLine kind position ""
  rcases listed.line_cases (fun _ => head?_ne_of_mem_writeLines) hline with
    ⟨_, ⟨_, header, -⟩, -⟩ | ⟨n, ns, digits, _, form, decimal, -⟩ | hempty | ⟨_, _, _, symbol⟩
  · rw [chars, magic] at header
    cases kind <;> simp [Kind.letter] at header
  · obtain ⟨d, ds, rfl⟩ := List.exists_cons_of_ne_nil decimal.ne_nil
    obtain ⟨rfl, -⟩ := List.cons.inj (chars.symm.trans form)
    have digit := decimal.isDigit kind.letter List.mem_cons_self
    cases kind <;> exact absurd digit (by decide)
  · rw [hempty] at chars
    cases chars
  · obtain ⟨_, _, -, -, -, ne_empty⟩ := id symbol
    exact ne_empty symbol.of_symbolLine.2

/-- Each node but the constant has a line of its own. -/
theorem exists_numbers_mem_writeLines (ev : g.Evaluable) {i : Nat} (hi : i < g.nodes.size)
    (hne : i ≠ 0) : ∃ ns, numbers (2 * i :: ns) ∈ writeLines g := by
  have defined := (File.mem_defined_ofGraph ev).2 ⟨hi, hne⟩
  simp only [File.defined, File.ofGraph, List.mem_append, List.map_map, List.mem_map] at defined
  rw [writeLines_eq]
  rcases defined with hinput | ⟨latch, hlatch, rfl⟩ | ⟨gate, hgate, rfl⟩
  · exact ⟨[], .tail _ (List.mem_append_left _ (List.mem_map.2 ⟨i, hinput, rfl⟩))⟩
  · exact ⟨_, .tail _ (List.mem_append_right _ (List.mem_append_left _
      (List.mem_map.2 ⟨latch, hlatch, rfl⟩)))⟩
  · exact ⟨_, .tail _ (List.mem_append_right _ (List.mem_append_right _ (List.mem_append_right _
      (List.mem_append_left _ (List.mem_map.2 ⟨gate, hgate, rfl⟩)))))⟩

theorem size_le_of_isListed (ev : g.Evaluable) (listed : f.IsListed (writeLines g)) :
    g.nodes.size ≤ 2 ^ 31 := by
  by_cases hone : g.nodes.size ≤ 1
  · omega
  · obtain ⟨ns, hline⟩ := exists_numbers_mem_writeLines ev (i := g.nodes.size - 1) (by omega)
      (by omega)
    have fits := lt_of_isListed listed hline
    have size : UInt32.size = 2 ^ 32 := rfl
    omega

/-- Where all names are lines, what is read is the graph of the file that was written. -/
theorem isGraph_of_isLine (wf : g.WellFormed) (named : ∀ kind, ∀ name ∈ g.names kind, IsLine name)
    (h : readText (writeText g) = .ok b) : (∀ kind, ∀ name ∈ g.names kind, name ≠ "") ∧
      b.WellFormed ∧ ∃ defs, (File.ofGraph g).IsGraph defs b := by
  rw [readText, lines_writeText named] at h
  obtain ⟨f, listed, wf', defs, isGraph⟩ := exists_isGraph h
  have ne_empty := ne_empty_of_isListed listed
  have written : (File.ofGraph g).IsListed (writeLines g) :=
    isListed_writeLines wf.toEvaluable (size_le_of_isListed wf.toEvaluable listed)
      (headerNumbers_lt_of_isListed listed _ (by simp [headerNumbers])) ne_empty
  have read := ((ofLines_answers (writeLines g)).ok_iff f).2 listed
  rw [((ofLines_answers (writeLines g)).ok_iff _).2 written] at read
  obtain rfl := Except.ok.inj read
  exact ⟨ne_empty, wf', defs, isGraph⟩

end Listed

/-- Writing a graph whose text can be read. The names come back just if all of them are lines; then no
name is empty, and the graph that is read starts in the same state and takes the same steps. A run that
fails does so in both, as one of the inputs that are left out has no value. -/
theorem readText_writeText_faithful {g b : Graph} (reachable : g.Reachable)
    (h : readText (writeText g) = .ok b) :
    ((∀ kind, b.names kind = g.names kind) ↔ ∀ kind, ∀ name ∈ g.names kind, IsLine name) ∧
      ((∀ kind, ∀ name ∈ g.names kind, IsLine name) →
        (∀ kind, ∀ name ∈ g.names kind, name ≠ "") ∧
        b.initialState = g.initialState ∧
        (∀ inputs start steps,
          b.simulate inputs start = .ok steps ↔ g.simulate inputs start = .ok steps) ∧
        ∀ inputs start fault,
          (g.simulate inputs start = .error fault ∨ b.simulate inputs start = .error fault) →
            ∃ name, g.LeftOut inputs name ∧ fault = .circuit (.missingInput name)) := by
  have wf := reachable.wellFormed
  refine ⟨⟨isLine_of_names_eq h, fun named => ?_⟩, fun named => ?_⟩
  · obtain ⟨-, -, defs, isGraph⟩ := isGraph_of_isLine wf named h
    exact names_eq wf isGraph
  · obtain ⟨ne_empty, wf', defs, isGraph⟩ := isGraph_of_isLine wf named h
    refine ⟨ne_empty, initialState_eq wf wf' isGraph,
      fun inputs start steps => simulate_eq_ok_iff wf wf' isGraph, fun inputs start fault hfail => ?_⟩
    rcases hfail with hfail | hfail
    · exact wf.exists_leftOut hfail
    · obtain ⟨name, left, rfl⟩ := wf'.exists_leftOut hfail
      exact ⟨name, leftOut_of_reread wf isGraph left, rfl⟩

/-- Names with blanks, with a carriage return inside, and one that would begin a comment. -/
theorem readText_writeText_faithful_blanks : ∃ g b,
    readLines ["aag 2 1 1 1 0", "2", "4 2 1", "5", "i0 c", "l0 a\rb", "o0  "] = .ok g ∧
    readText (writeText g) = .ok b ∧
    (∀ kind, b.names kind = g.names kind) ∧ b.initialState = g.initialState := by
  have facts : ∃ g, readLines ["aag 2 1 1 1 0", "2", "4 2 1", "5", "i0 c", "l0 a\rb", "o0  "] = .ok g ∧
      (∀ kind ∈ [Kind.input, .latch, .output], ∀ name ∈ g.names kind, IsLine name) ∧
      ∃ b, readText (writeText g) = .ok b ∧ True := by
    decide +kernel
  obtain ⟨g, hg, named, b, hb, -⟩ := facts
  have named (kind : Kind) : ∀ name ∈ g.names kind, IsLine name := named kind (by cases kind <;> simp)
  obtain ⟨names, same⟩ := readText_writeText_faithful (.readLines hg) hb
  exact ⟨g, b, hg, hb, names.2 named, (same named).2.1⟩

/-- A name with a line feed is read up to the line feed, where what follows it begins a comment; and a
carriage return at the end of a name is lost. -/
theorem readText_writeText_renames :
    (∃ g b, Graph.sink ["a\nc"] = .ok g ∧ g.Reachable ∧ readText (writeText g) = .ok b ∧
      g.names .input = ["a\nc"] ∧ b.names .input = ["a"] ∧
      (∃ steps, g.simulate [NameMap.ofPairs [("a\nc", true)]] none = .ok steps) ∧
      b.simulate [NameMap.ofPairs [("a\nc", true)]] none = .error (.circuit (.missingInput "a"))) ∧
    ∃ g b, Graph.sink ["a\r"] = .ok g ∧ g.Reachable ∧ readText (writeText g) = .ok b ∧
      g.names .input = ["a\r"] ∧ b.names .input = ["a"] := by
  constructor
  · have facts : ∃ g, Graph.sink ["a\nc"] = .ok g ∧ g.names .input = ["a\nc"] ∧
        (∃ steps, g.simulate [NameMap.ofPairs [("a\nc", true)]] none = .ok steps ∧ True) ∧
        ∃ b, readText (writeText g) = .ok b ∧ b.names .input = ["a"] ∧
          b.simulate [NameMap.ofPairs [("a\nc", true)]] none =
            .error (.circuit (.missingInput "a")) := by
      decide +kernel
    obtain ⟨g, hg, before, ⟨steps, run, -⟩, b, hb, after, fails⟩ := facts
    exact ⟨g, b, hg, .sink hg, hb, before, after, ⟨steps, run⟩, fails⟩
  · have facts : ∃ g, Graph.sink ["a\r"] = .ok g ∧ g.names .input = ["a\r"] ∧
        ∃ b, readText (writeText g) = .ok b ∧ b.names .input = ["a"] := by
      decide +kernel
    obtain ⟨g, hg, before, b, hb, after⟩ := facts
    exact ⟨g, b, hg, .sink hg, hb, before, after⟩

end Aiger

end AndInverter
