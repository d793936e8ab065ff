import AndInverter.Proofs.Aiger.OfGraph
import AndInverter.Proofs.Name
import Mathlib.Algebra.Group.Nat.Defs
import Mathlib.Data.List.TakeWhile

/-! What is written for a graph. The lines of the text are those that were joined, and they list the
file of the graph. -/

namespace AndInverter

/-! ### Lines of a text -/

namespace Text

/-- A line that stays one when it is joined with others. -/
structure IsLine (line : String) : Prop where
  feed : '\n' ∉ line.toList
  last : line.toList.getLast? ≠ some '\r'

instance decidableIsLine {line : String} : Decidable (IsLine line) :=
  decidable_of_iff ('\n' ∉ line.toList ∧ line.toList.getLast? ≠ some '\r')
    ⟨fun ⟨feed, last⟩ => ⟨feed, last⟩, fun h => ⟨h.feed, h.last⟩⟩

theorem isLine_of_forall {line : String} (h : ∀ c ∈ line.toList, c ≠ '\n' ∧ c ≠ '\r') :
    IsLine line :=
  ⟨fun hmem => (h _ hmem).1 rfl, fun hlast => (h _ (List.mem_of_getLast? hlast)).2 rfl⟩

theorem linesFrom_append (line rest : List Char) {cs : List Char} (h : '\n' ∉ cs) :
    linesFrom line (cs ++ '\n' :: rest) =
      (dropReturn (cs.reverse ++ line)).reverse :: linesFrom [] rest := by
  induction cs generalizing line with
  | nil => rfl
  | cons c cs ih =>
    rw [List.mem_cons, not_or] at h
    have hc : c ≠ '\n' := fun heq => h.1 heq.symm
    rw [List.cons_append, linesFrom, ih _ h.2, List.reverse_cons, List.append_assoc]
    · rfl
    · exact hc

theorem dropReturn_eq {cs : List Char} (h : cs.head? ≠ some '\r') : dropReturn cs = cs := by
  unfold dropReturn
  split
  · simp at h
  · rfl

/-- What is left of a line without a carriage return at its end. -/
def chomp (line : String) : String := String.ofList (dropReturn line.toList.reverse).reverse

theorem toList_chomp (line : String) :
    (chomp line).toList = (dropReturn line.toList.reverse).reverse := by
  rw [chomp, String.toList_ofList]

theorem chomp_eq {line : String} (h : line.toList.getLast? ≠ some '\r') : chomp line = line := by
  rw [chomp, dropReturn_eq, List.reverse_reverse, String.ofList_toList]
  rwa [List.head?_reverse]

theorem toList_chomp_of_eq {line : String} {front : List Char}
    (h : line.toList = front ++ ['\r']) : (chomp line).toList = front := by
  rw [toList_chomp, h, List.reverse_append, List.reverse_singleton, List.singleton_append,
    dropReturn, List.reverse_reverse]

/-- Where joined lines are taken apart, each of them loses a carriage return at its end. -/
theorem lines_join_chomp {ls : List String} (h : ∀ line ∈ ls, '\n' ∉ line.toList) :
    lines (String.join (ls.map (· ++ "\n"))) = ls.map chomp := by
  have chars : linesFrom [] ((ls.map (· ++ "\n")).flatMap String.toList) =
      ls.map fun line => (dropReturn line.toList.reverse).reverse := by
    induction ls with
    | nil => rfl
    | cons line ls ih =>
      have hline := linesFrom_append [] ((ls.map (· ++ "\n")).flatMap String.toList)
        (h line List.mem_cons_self)
      simpa [ih fun l hl => h l (List.mem_cons_of_mem _ hl)] using hline
  rw [lines, String.toList_join, chars, List.map_map]
  rfl

/-- Joining lines is undone by taking the text apart. -/
theorem lines_join {ls : List String} (h : ∀ line ∈ ls, IsLine line) :
    lines (String.join (ls.map (· ++ "\n"))) = ls := by
  rw [lines_join_chomp fun line hline => (h line hline).feed,
    List.map_congr_left fun line hline => chomp_eq (h line hline).last, List.map_id']

end Text

namespace Aiger

open Text (Scanner IsLine)

/-! ### Numbers -/

/-- Numbers with a space in front of each. -/
def spaced (ns : List Nat) : List Char := ns.flatMap fun n => ' ' :: n.repr.toList

theorem spaced_cons (n : Nat) (ns : List Nat) :
    spaced (n :: ns) = ' ' :: (n.repr.toList ++ spaced ns) := rfl

theorem toList_numbers (n : Nat) (ns : List Nat) :
    (numbers (n :: ns)).toList = n.repr.toList ++ spaced ns := by
  rw [numbers, String.toList_intercalate]
  induction ns generalizing n with
  | nil => simp [spaced, toString]
  | cons m ns ih =>
    rw [List.map_cons, List.map_cons, List.map_cons, List.map_cons, List.intercalate_cons_cons,
      ← List.map_cons, ← List.map_cons, ih, spaced_cons]
    simp [toString]

theorem mem_numbers {ns : List Nat} {c : Char} (h : c ∈ (numbers ns).toList) :
    c.isDigit ∨ c = ' ' := by
  cases ns with
  | nil => simp [numbers] at h
  | cons n ns =>
    rw [toList_numbers, List.mem_append, spaced, List.mem_flatMap] at h
    rcases h with h | ⟨m, -, h⟩
    · exact .inl (isDigit_of_mem_repr h)
    · rcases List.mem_cons.1 h with h | h
      · exact .inr h
      · exact .inl (isDigit_of_mem_repr h)

theorem ne_of_mem_numbers {ns : List Nat} {c : Char} (h : c ∈ (numbers ns).toList) :
    c ≠ '\n' ∧ c ≠ '\r' := by
  constructor <;> rintro rfl <;> rcases mem_numbers h with h | h <;> simp at h

theorem isLine_numbers (ns : List Nat) : IsLine (numbers ns) :=
  Text.isLine_of_forall fun _ => ne_of_mem_numbers

theorem isDecimal_repr {n : Nat} (fits : n < UInt32.size) : IsDecimal n n.repr.toList where
  ne_nil := repr_ne_nil n
  isDigit _ := isDigit_of_mem_repr
  value := decimal_repr n
  fits := fits

theorem spaced_head (ns : List Nat) : ∀ c ∈ (spaced ns).head?, ¬ c.isDigit := by
  cases ns <;> simp [spaced]

/-- A number in front is read if it has 32 bits. -/
theorem number_repr (n : Nat) (ns : List Nat) :
    Scanner.number (n.repr.toList ++ spaced ns) =
      if n < UInt32.size then some (n, spaced ns) else none := by
  obtain ⟨digits, rest⟩ := takeWhile_append_eq (p := Char.isDigit)
    (fun _ => isDigit_of_mem_repr (n := n)) (spaced_head ns)
  have ne_nil := List.isEmpty_eq_false_iff.2 (repr_ne_nil n)
  simp only [Scanner.number, digits, rest, decimal_repr, ne_nil, Bool.false_or, decide_eq_true_eq]
  by_cases fits : n < UInt32.size
  · rw [if_pos fits, if_neg (Nat.not_le.2 fits)]
  · rw [if_neg fits, if_pos (Nat.le_of_not_lt fits)]

theorem nextNumber_spaced (n : Nat) (ns : List Nat) :
    Scanner.nextNumber (spaced (n :: ns)) =
      if n < UInt32.size then some (n, spaced ns) else none := by
  have blanks : Scanner.blanks (spaced (n :: ns)) = some ((), n.repr.toList ++ spaced ns) := by
    have gap : IsGap [' '] := ⟨by simp, by simp⟩
    exact blanks_eq_some_iff.2 ⟨_, rfl, gap,
      not_isBlank_head (repr_ne_nil n) fun _ => isDigit_of_mem_repr⟩
  rw [← number_repr]
  show (Scanner.blanks (spaced (n :: ns))).bind (fun r => Scanner.number r.2) = _
  rw [blanks]
  rfl

/-- Numbers that are written stand for themselves. -/
theorem isSpaced_spaced_iff {ms ns : List Nat} :
    IsSpaced ms (spaced ns) ↔ ms = ns ∧ ∀ n ∈ ns, n < UInt32.size := by
  induction ns generalizing ms with
  | nil =>
    cases ms with
    | nil => simp [isSpaced_nil_iff, spaced]
    | cons m ms =>
      have none : Scanner.nextNumber (spaced []) = none := rfl
      simp [isSpaced_cons_iff, none]
  | cons n ns ih =>
    cases ms with
    | nil => simp [isSpaced_nil_iff, spaced_cons]
    | cons m ms =>
      rw [isSpaced_cons_iff, nextNumber_spaced]
      by_cases fits : n < UInt32.size
      · simp only [if_pos fits, Option.some.injEq, Prod.mk.injEq]
        constructor
        · rintro ⟨_, ⟨rfl, rfl⟩, hrest⟩
          obtain ⟨rfl, all⟩ := ih.1 hrest
          exact ⟨rfl, List.forall_mem_cons.2 ⟨fits, all⟩⟩
        · rintro ⟨heq, all⟩
          obtain ⟨rfl, rfl⟩ := List.cons.inj heq
          exact ⟨_, ⟨rfl, rfl⟩, ih.2 ⟨rfl, (List.forall_mem_cons.1 all).2⟩⟩
      · simp [fits]

theorem isNumbers_numbers {n : Nat} {ns : List Nat} (fits : ∀ m ∈ n :: ns, m < UInt32.size) :
    IsNumbers n ns (numbers (n :: ns)) :=
  ⟨_, _, toList_numbers n ns, isDecimal_repr (fits n List.mem_cons_self),
    isSpaced_spaced_iff.2 ⟨rfl, fun m hm => fits m (List.mem_cons_of_mem _ hm)⟩⟩

/-! ### Symbols -/

/-- The symbol line of a position. -/
def symbolLine (entry : Kind × Nat × String) : String :=
  entry.1.letter.toString ++ toString entry.2.1 ++ " " ++ entry.2.2

/-- The named positions of a graph. -/
def entries (g : Graph) : List (Kind × Nat × String) :=
  [Kind.input, .latch, .output].flatMap fun kind =>
    (g.names kind).zipIdx.map fun (name, position) => (kind, position, name)

theorem mem_entries_iff {g : Graph} {kind : Kind} {position : Nat} {name : String} :
    (kind, position, name) ∈ entries g ↔ (g.names kind)[position]? = some name := by
  simp only [entries, List.mem_flatMap, List.mem_map, Prod.exists, Prod.mk.injEq,
    List.mem_zipIdx_iff_getElem?]
  constructor
  · rintro ⟨kind, -, name, position, h, rfl, rfl, rfl⟩
    exact h
  · intro h
    exact ⟨kind, by cases kind <;> simp, name, position, h, rfl, rfl, rfl⟩

/-- A position is named once. -/
theorem entries_pairwise (g : Graph) :
    (entries g).Pairwise fun e e' => ¬ (e.1 = e'.1 ∧ e.2.1 = e'.2.1) := by
  rw [entries, List.pairwise_flatMap]
  constructor
  · intro kind _
    have once : ((g.names kind).zipIdx.map Prod.snd).Nodup := by
      rw [List.zipIdx_map_snd]
      exact List.nodup_range'
    exact List.pairwise_map.2 ((List.pairwise_map.1 once).imp fun hne h => hne h.2)
  · have kinds : [Kind.input, .latch, .output].Pairwise (· ≠ ·) := by decide
    refine kinds.imp fun hne e he e' he' h => hne ?_
    obtain ⟨_, -, rfl⟩ := List.mem_map.1 he
    obtain ⟨_, -, rfl⟩ := List.mem_map.1 he'
    exact h.1

theorem symbolLines_eq (kind : Kind) (names : List String) :
    symbolLines kind names = (names.zipIdx.map fun (name, position) => (kind, position, name)).map
      symbolLine := by
  rw [symbolLines, List.mapIdx_eq_zipIdx_map, List.map_map]
  rfl

theorem isSymbolLine_symbolLine {kind : Kind} {position : Nat} {name : String}
    (fits : position < UInt32.size) (hname : name ≠ "") :
    IsSymbolLine (symbolLine (kind, position, name)) kind position name := by
  refine ⟨_, ' ', ?_, isDecimal_repr fits, .inl rfl, hname⟩
  simp [symbolLine, toString]

/-- The symbols of a graph name its positions. -/
theorem isSymbolTable_entries {g : Graph} (ev : g.Evaluable)
    (fits : ∀ kind, (g.names kind).length ≤ UInt32.size)
    (named : ∀ kind, ∀ name ∈ g.names kind, name ≠ "") :
    IsSymbolTable (File.ofGraph g).count ((entries g).map symbolLine) (File.ofGraph g).symbols := by
  have symbol {kind : Kind} {position : Nat} {name : String} (h : (kind, position, name) ∈ entries g) :
      IsSymbolLine (symbolLine (kind, position, name)) kind position name := by
    have hat := mem_entries_iff.1 h
    refine isSymbolLine_symbolLine ?_ (named kind name (List.mem_of_getElem? hat))
    exact Nat.lt_of_lt_of_le (List.getElem?_eq_some_iff.1 hat).1 (fits kind)
  constructor
  · intro line hline
    obtain ⟨⟨kind, position, name⟩, hmem, rfl⟩ := List.mem_map.1 hline
    refine .inr ⟨kind, position, name, symbol hmem, ?_⟩
    rw [File.count_ofGraph ev]
    exact (List.getElem?_eq_some_iff.1 (mem_entries_iff.1 hmem)).1
  · refine List.pairwise_map.2 ((entries_pairwise g).imp_of_mem fun {e e'} he he' hne => ?_)
    intro kind position name name' h h'
    obtain ⟨hkind, hposition, -⟩ := (symbol he).unique h
    obtain ⟨hkind', hposition', -⟩ := (symbol he').unique h'
    exact hne ⟨hkind.trans hkind'.symm, hposition.trans hposition'.symm⟩
  · intro kind position name
    rw [File.getElem?_names_ofGraph, ← mem_entries_iff]
    constructor
    · intro h
      exact ⟨_, List.mem_map.2 ⟨_, h, rfl⟩, symbol h⟩
    · rintro ⟨line, hline, h⟩
      obtain ⟨⟨kind', position', name'⟩, hmem, rfl⟩ := List.mem_map.1 hline
      obtain ⟨rfl, rfl, rfl⟩ := (symbol hmem).unique h
      exact hmem

/-- Symbols begin no comment. -/
theorem beforeComment_entries (g : Graph) :
    beforeComment ((entries g).map symbolLine) = (entries g).map symbolLine := by
  refine List.takeWhile_eq_self_iff.2 fun line hline => ?_
  obtain ⟨⟨kind, position, name⟩, -, rfl⟩ := List.mem_map.1 hline
  cases kind <;> simp [symbolLine, Kind.letter]

/-! ### The whole file -/

theorem writeLines_eq (g : Graph) : writeLines g =
    headerLine g :: (g.inputs.values.map (fun id => toString (2 * id)) ++
      (g.latchList.map latchLine ++ (g.outputs.values.map (fun l => toString l.raw) ++
        (g.gates.map gateLine ++ (entries g).map symbolLine)))) := by
  simp [writeLines, Graph.latchList, entries, Graph.names, symbolLines_eq]

section Listed
variable {g : Graph}

theorem sizes_eq (ev : g.Evaluable) : g.inputs.size + g.latches.size + g.gateCount = g.maxId := by
  have inputs : (File.ofGraph g).inputs.length = g.inputs.size := by
    rw [← Std.ExtTreeMap.length_keys]
    exact length_values g.inputs
  rw [← File.length_defined_ofGraph ev, File.defined, List.length_append, List.length_append,
    File.map_var_latches_ofGraph ev, File.map_var_gates_ofGraph, List.length_map, length_values,
    Std.ExtTreeMap.length_keys, inputs, Graph.gateCount, Nat.add_assoc]

theorem le_maxId {i : Nat} (h : i < g.nodes.size) : i ≤ g.maxId := Nat.le_sub_one_of_lt h

theorem definable (ev : g.Evaluable) {i : Nat} {node : Node} (h : g.nodes[i]? = some node)
    (hne : node ≠ .zero) : Definable g.maxId i := by
  refine ⟨?_, le_maxId (Graph.lt_size h)⟩
  rintro rfl
  rw [ev.zero] at h
  exact hne (Option.some.inj h).symm

/-- The even number of a node. -/
theorem double_lt (nodes : g.nodes.size ≤ 2 ^ 31) {i : Nat} {node : Node}
    (h : g.nodes[i]? = some node) : 2 * i < UInt32.size :=
  Graph.raw_lt nodes (l := .positive i) (Graph.lt_size h)

/-- The numbers in the header. -/
def headerNumbers (g : Graph) : List Nat :=
  [g.maxId, g.inputs.size, g.latches.size, g.outputs.size, g.gateCount]

theorem toList_headerLine (g : Graph) :
    (headerLine g).toList = magic.toList ++ spaced (headerNumbers g) := by
  simp [headerLine, toList_numbers, headerNumbers, spaced_cons]

theorem headerNumbers_lt (ev : g.Evaluable) (nodes : g.nodes.size ≤ 2 ^ 31)
    (outputs : g.outputs.size < UInt32.size) : ∀ n ∈ headerNumbers g, n < UInt32.size := by
  have sizes := sizes_eq ev
  have size : UInt32.size = 2 ^ 32 := rfl
  have max : g.maxId < UInt32.size := by
    rw [Graph.maxId]
    omega
  simp only [headerNumbers, List.mem_cons, List.not_mem_nil, or_false]
  rintro n (rfl | rfl | rfl | rfl | rfl) <;> first | exact outputs | omega

theorem isHeader_headerLine (ev : g.Evaluable) (nodes : g.nodes.size ≤ 2 ^ 31)
    (outputs : g.outputs.size < UInt32.size) :
    IsHeader ⟨g.maxId, g.inputs.size, g.latches.size, g.outputs.size, g.gateCount⟩ (headerLine g) :=
  ⟨⟨_, toList_headerLine g, isSpaced_spaced_iff.2 ⟨rfl, headerNumbers_lt ev nodes outputs⟩⟩,
    Nat.le_of_eq (sizes_eq ev)⟩

/-- Lines that can be read announce their parts with numbers of 32 bits. -/
theorem headerNumbers_lt_of_isListed {f : File} (listed : f.IsListed (writeLines g)) :
    ∀ n ∈ headerNumbers g, n < UInt32.size := by
  obtain ⟨_, _, _, _, _, _, hlines, ⟨⟨cs, hcs, numbers⟩, -⟩, -⟩ := listed
  rw [writeLines_eq] at hlines
  rw [← (List.cons.inj hlines).1, toList_headerLine] at hcs
  rw [← List.append_cancel_left hcs] at numbers
  exact (isSpaced_spaced_iff.1 numbers).2

theorem isInputLine_ofGraph (ev : g.Evaluable) (nodes : g.nodes.size ≤ 2 ^ 31) {i : Nat}
    (h : i ∈ g.inputs.values) : IsInputLine g.maxId (toString (2 * i)) i := by
  have hnode := (File.mem_inputs_ofGraph ev).1 h
  have fits := double_lt nodes hnode
  exact ⟨isNumbers_numbers (by simpa using fits), definable ev hnode nofun⟩

theorem isLatchLine_ofGraph (ev : g.Evaluable) (nodes : g.nodes.size ≤ 2 ^ 31) {latch : Latch}
    (h : latch ∈ g.latchList) :
    IsLatchLine g.maxId (latchLine latch) ⟨latch.id, latch.next, latch.init⟩ := by
  obtain ⟨name, -, hname⟩ := List.mem_filterMap.1 h
  obtain ⟨-, hnode⟩ := ev.latch?_eq_some_iff.1 hname
  have fits := double_lt nodes hnode
  have next := ev.next hnode
  have fits' := Graph.raw_lt nodes next
  refine ⟨?_, definable ev hnode nofun, le_maxId next⟩
  cases hinit : latch.init with
  | false =>
    refine .inl ⟨rfl, ?_⟩
    have line : latchLine latch = numbers [2 * latch.id, latch.next.raw] := by
      simp [latchLine, hinit]
    rw [line]
    exact isNumbers_numbers (by simp [fits, fits'])
  | true =>
    have line : latchLine latch = numbers [2 * latch.id, latch.next.raw, 1] := by
      simp [latchLine, hinit]
    rw [line]
    have one : 1 < UInt32.size := by decide
    exact .inr (isNumbers_numbers (by simp [fits, fits', one]))

theorem isOutputLine_ofGraph (ev : g.Evaluable) (nodes : g.nodes.size ≤ 2 ^ 31) {l : Literal}
    (h : l ∈ g.outputs.values) : IsOutputLine g.maxId (toString l.raw) l := by
  obtain ⟨name, hname⟩ := mem_values_iff.1 h
  have has := ev.output hname
  have fits := Graph.raw_lt nodes has
  exact ⟨isNumbers_numbers (by simpa using fits), le_maxId has⟩

theorem isGateLine_ofGraph (ev : g.Evaluable) (nodes : g.nodes.size ≤ 2 ^ 31) {gate : Gate}
    (h : gate ∈ g.gates) : IsGateLine g.maxId (gateLine gate) ⟨gate.id, gate.right, gate.left⟩ := by
  have hnode := ev.mem_gates_iff.1 h
  have hlt := Graph.lt_size hnode
  obtain ⟨left, right⟩ := ev.fanin hnode
  have hasLeft : g.Has gate.left := Nat.lt_trans left hlt
  have hasRight : g.Has gate.right := Nat.lt_trans right hlt
  have fits := double_lt nodes hnode
  refine ⟨isNumbers_numbers ?_, definable ev hnode nofun, le_maxId hasRight, le_maxId hasLeft⟩
  simp [fits, Graph.raw_lt nodes hasLeft, Graph.raw_lt nodes hasRight]

/-- The lines of a graph list its file. -/
theorem isListed_writeLines (ev : g.Evaluable) (nodes : g.nodes.size ≤ 2 ^ 31)
    (outputs : g.outputs.size < UInt32.size)
    (named : ∀ kind, ∀ name ∈ g.names kind, name ≠ "") :
    (File.ofGraph g).IsListed (writeLines g) := by
  refine ⟨_, _, _, _, _, _, writeLines_eq g, ?_, ?_, ?_, ?_, ?_, ?_⟩
  · simp only [List.length_map, length_values, ev.length_latchList, Std.ExtTreeMap.length_keys]
    exact isHeader_headerLine ev nodes outputs
  · exact List.forall₂_map_left_iff.2 (List.forall₂_same.2 fun i => isInputLine_ofGraph ev nodes)
  · exact List.forall₂_map_left_iff.2 (List.forall₂_map_right_iff.2
      (List.forall₂_same.2 fun latch => isLatchLine_ofGraph ev nodes))
  · exact List.forall₂_map_left_iff.2 (List.forall₂_same.2 fun l => isOutputLine_ofGraph ev nodes)
  · exact List.forall₂_map_left_iff.2 (List.forall₂_map_right_iff.2
      (List.forall₂_same.2 fun gate => isGateLine_ofGraph ev nodes))
  · rw [beforeComment_entries]
    refine isSymbolTable_entries ev (fun kind => ?_) named
    have counts := headerNumbers_lt ev nodes outputs
    cases kind
    · show g.inputs.keys.length ≤ _
      rw [Std.ExtTreeMap.length_keys]
      exact Nat.le_of_lt (counts _ (by simp [headerNumbers]))
    · show g.latches.keys.length ≤ _
      rw [Std.ExtTreeMap.length_keys]
      exact Nat.le_of_lt (counts _ (by simp [headerNumbers]))
    · show g.outputs.keys.length ≤ _
      rw [Std.ExtTreeMap.length_keys]
      exact Nat.le_of_lt outputs

end Listed

/-- A name that has a line of its own with its position. -/
structure Nameable (name : String) : Prop where
  ne_empty : name ≠ ""
  line : Text.IsLine name

instance decidableNameable {name : String} : Decidable (Nameable name) :=
  decidable_of_iff (name ≠ "" ∧ Text.IsLine name)
    ⟨fun ⟨ne_empty, line⟩ => ⟨ne_empty, line⟩, fun h => ⟨h.ne_empty, h.line⟩⟩

theorem nameable_repr (n : Nat) : Nameable n.repr where
  ne_empty h := repr_ne_nil n (String.toList_eq_nil_iff.2 h)
  line := Text.isLine_of_forall fun c hc => by
    constructor <;> rintro rfl <;> exact absurd (isDigit_of_mem_repr hc) (by decide)

theorem toList_symbolLine (kind : Kind) (position : Nat) (name : String) :
    (symbolLine (kind, position, name)).toList =
      kind.letter :: position.repr.toList ++ ' ' :: name.toList := by
  simp [symbolLine, toString]

theorem getLast?_symbolLine (kind : Kind) (position : Nat) (name : String) :
    (symbolLine (kind, position, name)).toList.getLast? =
      some (name.toList.getLast?.getD ' ') := by
  rw [toList_symbolLine, List.getLast?_append_of_ne_nil _ (List.cons_ne_nil _ _),
    List.getLast?_cons]

theorem feed_not_mem_symbolLine {name : String} (h : '\n' ∉ name.toList) (kind : Kind)
    (position : Nat) : '\n' ∉ (symbolLine (kind, position, name)).toList := by
  have letter : kind.letter ≠ '\n' := by cases kind <;> decide
  rw [toList_symbolLine, List.mem_append, List.mem_cons, List.mem_cons]
  rintro ((h' | h') | h' | h')
  · exact letter h'.symm
  · exact absurd (isDigit_of_mem_repr h') (by decide)
  · simp at h'
  · exact h h'

theorem isLine_symbolLine {name : String} (h : IsLine name) (kind : Kind) (position : Nat) :
    IsLine (symbolLine (kind, position, name)) := by
  refine ⟨feed_not_mem_symbolLine h.feed kind position, ?_⟩
  rw [getLast?_symbolLine]
  cases hlast : name.toList.getLast? with
  | none => simp
  | some c =>
    have := h.last
    rw [hlast] at this
    simpa using this

theorem isLine_headerLine (g : Graph) : IsLine (headerLine g) := by
  have front : ∀ c ∈ (magic ++ " ").toList, c ≠ '\n' ∧ c ≠ '\r' := by simp [magic]
  refine Text.isLine_of_forall fun c hc => ?_
  rw [headerLine, String.toList_append, List.mem_append] at hc
  exact hc.elim (front c) ne_of_mem_numbers

/-- A line is the header, holds numbers, or names a position. -/
theorem mem_writeLines_cases {g : Graph} {line : String} (h : line ∈ writeLines g) :
    line = headerLine g ∨ (∃ n ns, line = numbers (n :: ns)) ∨
      ∃ kind position name, (g.names kind)[position]? = some name ∧
        line = symbolLine (kind, position, name) := by
  rw [writeLines_eq] at h
  simp only [List.mem_cons, List.mem_append, List.mem_map] at h
  rcases h with rfl | ⟨id, -, rfl⟩ | ⟨latch, -, rfl⟩ | ⟨l, -, rfl⟩ | ⟨gate, -, rfl⟩ |
    ⟨⟨kind, position, name⟩, hmem, rfl⟩
  · exact .inl rfl
  · exact .inr (.inl ⟨2 * id, [], rfl⟩)
  · exact .inr (.inl ⟨_, _, rfl⟩)
  · exact .inr (.inl ⟨l.raw, [], rfl⟩)
  · exact .inr (.inl ⟨_, _, rfl⟩)
  · exact .inr (.inr ⟨kind, position, name, mem_entries_iff.1 hmem, rfl⟩)

theorem isLine_writeLines {g : Graph} (named : ∀ kind, ∀ name ∈ g.names kind, IsLine name) :
    ∀ line ∈ writeLines g, IsLine line := by
  intro line hline
  rcases mem_writeLines_cases hline with rfl | ⟨n, ns, rfl⟩ | ⟨kind, position, name, hat, rfl⟩
  · exact isLine_headerLine g
  · exact isLine_numbers _
  · exact isLine_symbolLine (named kind name (List.mem_of_getElem? hat)) _ _

theorem lines_writeText {g : Graph} (named : ∀ kind, ∀ name ∈ g.names kind, IsLine name) :
    Text.lines (writeText g) = writeLines g :=
  Text.lines_join (isLine_writeLines named)

end Aiger

end AndInverter
