import AndInverter.Aiger.File
import AndInverter.Proofs.Except

/-! The forms of the lines of a file. A form says which characters make up a line; each reader of a
line takes just the lines of its form, and answers all others with a refusal about the text. -/

namespace AndInverter

open Text (Scanner)

/-- The text is at fault, not the program. -/
def Fault.IsReading (fault : Fault) : Prop :=
  fault = .malformed ∨ ∃ cause, fault = .reading cause

/-- What a reader gives is just what `ok` says, and its faults lie in the text. -/
structure Answers {α : Type} (x : Except Fault α) (ok : α → Prop) : Prop where
  ok_iff : ∀ a, x = .ok a ↔ ok a
  fault : ∀ fault, x = .error fault → fault.IsReading

namespace Answers

variable {α β : Type} {x : Except Fault α} {ok ok' : α → Prop}

theorem pure (a : α) : Answers (.ok a) (· = a) :=
  ⟨fun _ => ⟨fun h => (Except.ok.inj h).symm, fun h => h ▸ rfl⟩, nofun⟩

theorem fail {fault : Fault} (h : fault.IsReading) : Answers (.error fault : Except Fault α)
    fun _ => False :=
  ⟨fun _ => ⟨nofun, False.elim⟩, fun _ heq => Except.error.inj heq ▸ h⟩

theorem refuse (cause : ReadingRefusal) :
    Answers (.error (.reading cause) : Except Fault α) fun _ => False :=
  fail (.inr ⟨cause, rfl⟩)

theorem congr (answers : Answers x ok) (h : ∀ a, ok a ↔ ok' a) : Answers x ok' :=
  ⟨fun a => (answers.ok_iff a).trans (h a), answers.fault⟩

theorem bind {f : α → Except Fault β} {next : α → β → Prop} (first : Answers x ok)
    (then_ : ∀ a, ok a → Answers (f a) (next a)) :
    Answers (x >>= f) fun b => ∃ a, ok a ∧ next a b := by
  constructor
  · intro b
    rw [except_bind_eq_ok_iff]
    constructor
    · rintro ⟨a, ha, hb⟩
      have oka := (first.ok_iff a).1 ha
      exact ⟨a, oka, ((then_ a oka).ok_iff b).1 hb⟩
    · rintro ⟨a, oka, hb⟩
      exact ⟨a, (first.ok_iff a).2 oka, ((then_ a oka).ok_iff b).2 hb⟩
  · intro fault h
    cases hx : x with
    | error e =>
      rw [hx] at h
      cases h
      exact first.fault fault hx
    | ok a =>
      rw [hx] at h
      exact (then_ a ((first.ok_iff a).1 hx)).fault fault h

theorem check {c : Prop} {x : Except Fault Unit} {y : Unit → Except Fault β} {ok : β → Prop}
    (first : Answers x fun _ => c) (then_ : Answers (y ()) ok) :
    Answers (x >>= y) fun b => c ∧ ok b :=
  (first.bind fun _ _ => then_).congr fun _ => ⟨fun ⟨_, h⟩ => h, fun h => ⟨(), h⟩⟩

/-- A test in front of a reader. -/
theorem guarded {c : Prop} [Decidable c] (cause : ReadingRefusal) (answers : Answers x ok) :
    Answers (if c then (throw (.reading cause) : Except Fault PUnit) >>= fun _ => x else x)
      fun a => ¬ c ∧ ok a := by
  by_cases h : c
  · rw [if_pos h]
    exact (refuse cause).congr fun a => by simp [h]
  · rw [if_neg h]
    exact answers.congr fun a => by simp [h]

end Answers

/-! ### Numbers and blanks -/

theorem takeWhile_append_eq {p : Char → Bool} {xs rest : List Char} (inside : ∀ c ∈ xs, p c)
    (stop : ∀ c ∈ rest.head?, ¬ p c) :
    (xs ++ rest).takeWhile p = xs ∧ (xs ++ rest).dropWhile p = rest := by
  rw [List.takeWhile_append_of_pos inside, List.dropWhile_append_of_pos inside]
  cases rest with
  | nil => simp
  | cons c rest =>
    have hc : ¬ p c := stop c rfl
    simp [hc]

theorem not_of_mem_head?_dropWhile {p : Char → Bool} {cs : List Char} :
    ∀ c ∈ (cs.dropWhile p).head?, ¬ p c := by
  intro c hc
  have := List.head?_dropWhile_not p cs
  rw [Option.mem_def.1 hc] at this
  simpa using this

namespace Aiger

/-- The digits of a number, which has 32 bits at most. -/
structure IsDecimal (n : Nat) (digits : List Char) : Prop where
  ne_nil : digits ≠ []
  isDigit : ∀ c ∈ digits, c.isDigit
  value : Nat.ofDigitChars 10 digits 0 = n
  fits : n < UInt32.size

/-- Spaces and tabs, at least one. -/
structure IsGap (blanks : List Char) : Prop where
  ne_nil : blanks ≠ []
  isBlank : ∀ c ∈ blanks, c = ' ' ∨ c = '\t'

/-- Numbers with a gap in front of each. -/
inductive IsSpaced : List Nat → List Char → Prop where
  | nil : IsSpaced [] []
  | cons {n : Nat} {ns : List Nat} {blanks digits cs : List Char} : IsGap blanks →
      IsDecimal n digits → IsSpaced ns cs → IsSpaced (n :: ns) (blanks ++ digits ++ cs)

/-- A line of numbers with gaps between them. -/
def IsNumbers (n : Nat) (ns : List Nat) (line : String) : Prop :=
  ∃ digits cs, line.toList = digits ++ cs ∧ IsDecimal n digits ∧ IsSpaced ns cs

theorem isBlank_iff {c : Char} : Scanner.isBlank c ↔ c = ' ' ∨ c = '\t' := by
  simp [Scanner.isBlank]

theorem number_eq_some_iff {cs rest : List Char} {n : Nat} :
    Scanner.number cs = some (n, rest) ↔ ∃ digits, cs = digits ++ rest ∧ IsDecimal n digits ∧
      ∀ c ∈ rest.head?, ¬ c.isDigit := by
  constructor
  · intro h
    simp only [Scanner.number, Bool.or_eq_true, List.isEmpty_iff, decide_eq_true_eq] at h
    split at h
    · cases h
    next hne =>
      rw [not_or, Nat.not_le] at hne
      obtain ⟨rfl, rfl⟩ : Text.decimal (cs.takeWhile Char.isDigit) = n ∧
          cs.dropWhile Char.isDigit = rest := by simpa using h
      refine ⟨_, List.takeWhile_append_dropWhile.symm, ⟨hne.1, fun c hc => ?_, rfl, hne.2⟩,
        not_of_mem_head?_dropWhile⟩
      exact List.all_eq_true.1 List.all_takeWhile c hc
  · rintro ⟨digits, rfl, ⟨ne, isDigit, rfl, fits⟩, stop⟩
    obtain ⟨hdigits, hrest⟩ := takeWhile_append_eq isDigit stop
    have fits' : ¬ Text.decimal digits ≥ UInt32.size := Nat.not_le.2 fits
    simp only [Scanner.number, hdigits, hrest]
    simp only [List.isEmpty_iff, ne, Bool.or_eq_true, decide_eq_true_eq, fits', or_self, if_false]
    rfl

theorem blanks_eq_some_iff {cs rest : List Char} {u : Unit} :
    Scanner.blanks cs = some (u, rest) ↔ ∃ blanks, cs = blanks ++ rest ∧ IsGap blanks ∧
      ∀ c ∈ rest.head?, ¬ Scanner.isBlank c := by
  constructor
  · intro h
    simp only [Scanner.blanks, List.isEmpty_iff] at h
    split at h
    · cases h
    next hne =>
      obtain rfl : cs.dropWhile Scanner.isBlank = rest := by simpa using h
      refine ⟨_, List.takeWhile_append_dropWhile.symm, ⟨hne, fun c hc => ?_⟩,
        not_of_mem_head?_dropWhile⟩
      exact isBlank_iff.1 (List.all_eq_true.1 List.all_takeWhile c hc)
  · rintro ⟨blanks, rfl, ⟨ne, isBlank⟩, stop⟩
    obtain ⟨hblanks, hrest⟩ := takeWhile_append_eq (fun c hc => isBlank_iff.2 (isBlank c hc)) stop
    simp [Scanner.blanks, hblanks, hrest, ne]

theorem scanner_bind_eq_some_iff {α β : Type} {p : Scanner α} {f : α → Scanner β}
    {cs rest : List Char} {b : β} : (p >>= f) cs = some (b, rest) ↔
      ∃ a mid, p cs = some (a, mid) ∧ f a mid = some (b, rest) := by
  have unfold : (p >>= f) cs = (p cs).bind fun r => f r.1 r.2 := rfl
  rw [unfold, Option.bind_eq_some_iff, Prod.exists]

theorem scanner_pure_eq_some_iff {α : Type} {a b : α} {cs rest : List Char} :
    (pure a : Scanner α) cs = some (b, rest) ↔ a = b ∧ cs = rest := by
  have unfold : (pure a : Scanner α) cs = some (a, cs) := rfl
  rw [unfold, Option.some.injEq, Prod.mk.injEq]

/-- A digit is no blank. -/
theorem not_isBlank_head {digits cs : List Char} (ne_nil : digits ≠ [])
    (isDigit : ∀ c ∈ digits, c.isDigit) : ∀ c ∈ (digits ++ cs).head?, ¬ Scanner.isBlank c := by
  intro c hc hblank
  obtain ⟨d, ds, rfl⟩ := List.exists_cons_of_ne_nil ne_nil
  obtain rfl : d = c := by simpa using hc
  have hdigit := isDigit d List.mem_cons_self
  rcases isBlank_iff.1 hblank with rfl | rfl <;> simp at hdigit

/-- After a number stands a blank, or the line ends. -/
theorem IsSpaced.not_isDigit_head {ns : List Nat} {cs : List Char} (h : IsSpaced ns cs) :
    ∀ c ∈ cs.head?, ¬ c.isDigit := by
  cases h with
  | nil => simp
  | cons gap =>
    intro c hc hdigit
    obtain ⟨b, bs, rfl⟩ := List.exists_cons_of_ne_nil gap.ne_nil
    obtain rfl : b = c := by simpa using hc
    rcases gap.isBlank b List.mem_cons_self with rfl | rfl <;> simp at hdigit

theorem isSpaced_nil_iff {cs : List Char} : IsSpaced [] cs ↔ cs = [] :=
  ⟨fun h => by cases h; rfl, fun h => h ▸ .nil⟩

theorem nextNumber_eq_some_iff {cs rest : List Char} {n : Nat} :
    Scanner.nextNumber cs = some (n, rest) ↔ ∃ blanks digits, cs = blanks ++ digits ++ rest ∧
      IsGap blanks ∧ IsDecimal n digits ∧ ∀ c ∈ rest.head?, ¬ c.isDigit := by
  rw [Scanner.nextNumber, scanner_bind_eq_some_iff]
  constructor
  · rintro ⟨_, mid, hblanks, hnumber⟩
    obtain ⟨blanks, rfl, gap, -⟩ := blanks_eq_some_iff.1 hblanks
    obtain ⟨digits, rfl, decimal, stop⟩ := number_eq_some_iff.1 hnumber
    exact ⟨blanks, digits, by simp, gap, decimal, stop⟩
  · rintro ⟨blanks, digits, rfl, gap, decimal, stop⟩
    refine ⟨(), digits ++ rest, ?_, number_eq_some_iff.2 ⟨digits, rfl, decimal, stop⟩⟩
    exact blanks_eq_some_iff.2 ⟨blanks, by simp, gap, not_isBlank_head decimal.ne_nil decimal.isDigit⟩

/-- Reading a number off the front leaves the other numbers. -/
theorem isSpaced_cons_iff {n : Nat} {ns : List Nat} {cs : List Char} : IsSpaced (n :: ns) cs ↔
    ∃ rest, Scanner.nextNumber cs = some (n, rest) ∧ IsSpaced ns rest := by
  constructor
  · intro h
    cases h with
    | cons gap decimal rest =>
      exact ⟨_, nextNumber_eq_some_iff.2 ⟨_, _, rfl, gap, decimal, rest.not_isDigit_head⟩, rest⟩
  · rintro ⟨rest, hscan, hrest⟩
    obtain ⟨blanks, digits, rfl, gap, decimal, -⟩ := nextNumber_eq_some_iff.1 hscan
    exact .cons gap decimal hrest

theorem isNumbers_iff {n : Nat} {ns : List Nat} {line : String} : IsNumbers n ns line ↔
    ∃ rest, Scanner.number line.toList = some (n, rest) ∧ IsSpaced ns rest := by
  constructor
  · rintro ⟨digits, cs, heq, decimal, rest⟩
    exact ⟨cs, number_eq_some_iff.2 ⟨digits, heq, decimal, rest.not_isDigit_head⟩, rest⟩
  · rintro ⟨rest, hscan, hrest⟩
    obtain ⟨digits, heq, decimal, -⟩ := number_eq_some_iff.1 hscan
    exact ⟨digits, rest, heq, decimal, hrest⟩

/-! ### Lines -/

/-- The first line: `aag` and five numbers. -/
def IsHeader (h : Header) (line : String) : Prop :=
  (∃ cs, line.toList = magic.toList ++ cs ∧
    IsSpaced [h.max, h.inputs, h.latches, h.outputs, h.gates] cs) ∧
  h.inputs + h.latches + h.gates ≤ h.max

/-- A variable that a line may define. -/
def Definable (max var : Nat) : Prop := var ≠ 0 ∧ var ≤ max

def IsInputLine (max : Nat) (line : String) (var : Nat) : Prop :=
  IsNumbers (2 * var) [] line ∧ Definable max var

/-- The initial value may be left out where it is false. -/
def IsLatchLine (max : Nat) (line : String) (latch : LatchLine) : Prop :=
  (latch.init = false ∧ IsNumbers (2 * latch.var) [latch.next.raw] line ∨
    IsNumbers (2 * latch.var) [latch.next.raw, latch.init.toNat] line) ∧
  Definable max latch.var ∧ latch.next.id ≤ max

def IsOutputLine (max : Nat) (line : String) (l : Literal) : Prop :=
  IsNumbers l.raw [] line ∧ l.id ≤ max

def IsGateLine (max : Nat) (line : String) (gate : GateLine) : Prop :=
  IsNumbers (2 * gate.var) [gate.left.raw, gate.right.raw] line ∧
  Definable max gate.var ∧ gate.left.id ≤ max ∧ gate.right.id ≤ max

/-- A symbol: the letter of a kind, a position, one blank and a name. -/
def IsSymbolLine (line : String) (kind : Kind) (position : Nat) (name : String) : Prop :=
  ∃ digits blank, line.toList = kind.letter :: digits ++ blank :: name.toList ∧
    IsDecimal position digits ∧ (blank = ' ' ∨ blank = '\t') ∧ name ≠ ""

theorem scanLine_answers {α : Type} (part : FilePart) {p : Scanner α} {line : String}
    {ok : α → Prop} (h : ∀ a, p line.toList = some (a, []) ↔ ok a) :
    Answers (scanLine part p line) ok := by
  rw [scanLine]
  cases hp : p line.toList with
  | none => exact (Answers.fail (.inl rfl)).congr fun a => by simp [← h, hp]
  | some result =>
    obtain ⟨a, rest⟩ := result
    cases rest with
    | nil => exact (Answers.pure a).congr fun b => by simp [← h, hp, eq_comm]
    | cons c rest => exact (Answers.refuse _).congr fun b => by simp [← h, hp]

theorem exactly_eq_some_iff {expected cs rest : List Char} {u : Unit} :
    Scanner.exactly expected cs = some (u, rest) ↔ cs = expected ++ rest := by
  simp only [Scanner.exactly]
  split
  next h =>
    obtain ⟨tail, rfl⟩ := List.isPrefixOf_iff_prefix.1 h
    simp
  next h =>
    refine ⟨nofun, fun heq => absurd (List.isPrefixOf_iff_prefix.2 ?_) h⟩
    exact ⟨rest, heq.symm⟩

theorem scanHeader_eq_some_iff {cs : List Char} {h : Header} : scanHeader cs = some (h, []) ↔
    ∃ rest, cs = magic.toList ++ rest ∧
      IsSpaced [h.max, h.inputs, h.latches, h.outputs, h.gates] rest := by
  rcases h with ⟨max, inputs, latches, outputs, gates⟩
  simp only [scanHeader, scanner_bind_eq_some_iff, exactly_eq_some_iff, scanner_pure_eq_some_iff,
    isSpaced_cons_iff, isSpaced_nil_iff, Header.mk.injEq]
  constructor
  · rintro ⟨-, rest, hmagic, m, r₁, h₁, i, r₂, h₂, l, r₃, h₃, o, r₄, h₄, a, r₅, h₅,
      ⟨rfl, rfl, rfl, rfl, rfl⟩, rfl⟩
    exact ⟨rest, hmagic, r₁, h₁, r₂, h₂, r₃, h₃, r₄, h₄, [], h₅, rfl⟩
  · rintro ⟨rest, hmagic, r₁, h₁, r₂, h₂, r₃, h₃, r₄, h₄, r₅, h₅, rfl⟩
    exact ⟨(), rest, hmagic, _, r₁, h₁, _, r₂, h₂, _, r₃, h₃, _, r₄, h₄, _, [], h₅,
      ⟨rfl, rfl, rfl, rfl, rfl⟩, rfl⟩

theorem readHeader_answers (line : String) : Answers (readHeader line) (IsHeader · line) := by
  refine ((scanLine_answers .header fun h => scanHeader_eq_some_iff).bind fun h _ =>
    Answers.guarded _ (Answers.pure h)).congr fun h => ?_
  simp only [IsHeader, Nat.not_lt]
  constructor
  · rintro ⟨h', hline, hmax, rfl⟩
    exact ⟨hline, hmax⟩
  · rintro ⟨hline, hmax⟩
    exact ⟨h, hline, hmax, rfl⟩

theorem checkRange_answers (max : Nat) (role : LiteralRole) (n : Nat) :
    Answers (checkRange max role n) fun _ => n / 2 ≤ max := by
  rw [checkRange]
  split
  next h => exact (Answers.pure ()).congr fun _ => by simp [h]
  next h => exact (Answers.refuse _).congr fun _ => by simp [h]

theorem checkDefinition_answers (role : LiteralRole) (n : Nat) :
    Answers (checkDefinition role n) fun _ => n % 2 = 0 ∧ n ≠ 0 := by
  have nonzero : Answers (if n == 0 then
      (throw (.reading (.constantDefinition role)) : Except Fault Unit) else pure ())
      fun _ => n ≠ 0 := by
    by_cases h : n = 0
    · simpa [h] using Answers.refuse (α := Unit) (.constantDefinition role)
    · simpa [h] using (Answers.pure ()).congr fun _ => by simp
  exact (Answers.guarded _ nonzero).congr fun _ => by simp

theorem readInput_answers (max : Nat) (line : String) :
    Answers (readInput max line) (IsInputLine max line) := by
  refine ((scanLine_answers .input fun n => Iff.rfl).bind fun n _ =>
    Answers.guarded _ (Answers.guarded _ ((checkRange_answers max .input n).check
      (Answers.pure (n / 2))))).congr fun var => ?_
  simp only [IsInputLine, isNumbers_iff, isSpaced_nil_iff, Definable, beq_iff_eq]
  constructor
  · rintro ⟨n, hscan, heven, hzero, hmax, rfl⟩
    have heq : 2 * (n / 2) = n := by omega
    exact ⟨⟨[], heq.symm ▸ hscan, rfl⟩, by omega, hmax⟩
  · rintro ⟨⟨_, hscan, rfl⟩, hzero, hmax⟩
    exact ⟨2 * var, hscan, by omega, by omega, by omega, by omega⟩

theorem maybe_eq_some_iff {α : Type} {p : Scanner α} (atEnd : p [] = none) {cs : List Char}
    {a : Option α} : Scanner.maybe p cs = some (a, []) ↔
      (a = none ∧ cs = []) ∨ ∃ b, a = some b ∧ p cs = some (b, []) := by
  rw [Scanner.maybe]
  cases hp : p cs with
  | none => simp [eq_comm]
  | some result =>
    have hcs : cs ≠ [] := by
      rintro rfl
      rw [atEnd] at hp
      cases hp
    simp only [Option.some.injEq, Prod.ext_iff, hcs, and_false, false_or]
    constructor
    · rintro ⟨rfl, h⟩
      exact ⟨result.1, rfl, rfl, h⟩
    · rintro ⟨b, rfl, rfl, h⟩
      exact ⟨rfl, h⟩

/-- Numbers up to the end of the line, the last of which may be left out. -/
theorem scanLatch_eq_some_iff {line : String} {n next : Nat} {init : Option Nat} :
    scanLatch line.toList = some ((n, next, init), []) ↔
      IsNumbers n (next :: init.toList) line := by
  have atEnd : Scanner.nextNumber [] = none := rfl
  simp only [scanLatch, scanner_bind_eq_some_iff, scanner_pure_eq_some_iff, Prod.mk.injEq,
    isNumbers_iff, isSpaced_cons_iff]
  constructor
  · rintro ⟨n, r₁, h₁, next, r₂, h₂, init, r₃, h₃, ⟨rfl, rfl, rfl⟩, rfl⟩
    refine ⟨r₁, h₁, r₂, h₂, ?_⟩
    rcases (maybe_eq_some_iff atEnd).1 h₃ with ⟨rfl, rfl⟩ | ⟨i, rfl, hi⟩
    · exact .nil
    · exact isSpaced_cons_iff.2 ⟨[], hi, .nil⟩
  · rintro ⟨r₁, h₁, r₂, h₂, h₃⟩
    refine ⟨n, r₁, h₁, next, r₂, h₂, init, [], (maybe_eq_some_iff atEnd).2 ?_, ⟨rfl, rfl, rfl⟩, rfl⟩
    cases init with
    | none => exact .inl ⟨rfl, isSpaced_nil_iff.1 h₃⟩
    | some i =>
      obtain ⟨rest, hi, hrest⟩ := isSpaced_cons_iff.1 h₃
      obtain rfl := isSpaced_nil_iff.1 hrest
      exact .inr ⟨i, rfl, hi⟩

theorem readInitial_answers (n : Nat) (init : Option Nat) : Answers (readInitial n init)
    fun value => init = none ∧ value = false ∨ init = some value.toNat := by
  match init with
  | none => exact (Answers.pure false).congr fun value => by simp
  | some 0 => exact (Answers.pure false).congr fun value => by cases value <;> simp
  | some 1 => exact (Answers.pure true).congr fun value => by cases value <;> simp
  | some (i + 2) => exact (Answers.refuse _).congr fun value => by cases value <;> simp

theorem half_raw (l : Literal) : l.raw / 2 = l.id :=
  congrArg Literal.id (Literal.ofRaw_raw l)

theorem eq_ofRaw_iff {l : Literal} {n : Nat} : l = .ofRaw n ↔ l.raw = n :=
  ⟨fun h => h ▸ Literal.raw_ofRaw n, fun h => h ▸ (Literal.ofRaw_raw l).symm⟩

/-- The variable of an even number that is not zero. -/
theorem eq_half_iff {max n var : Nat} :
    ((n % 2 = 0 ∧ n ≠ 0) ∧ n / 2 ≤ max) ∧ var = n / 2 ↔ n = 2 * var ∧ Definable max var := by
  rw [Definable]
  omega

theorem readLatch_answers (max : Nat) (line : String) :
    Answers (readLatch max line) (IsLatchLine max line) := by
  have scan : Answers (scanLine .latch scanLatch line) fun s : Nat × Nat × Option Nat =>
      IsNumbers s.1 (s.2.1 :: s.2.2.toList) line :=
    scanLine_answers .latch fun (n, next, init) => scanLatch_eq_some_iff
  refine (@Answers.bind _ _ _ _ _ (fun s latch => (s.1 % 2 = 0 ∧ s.1 ≠ 0) ∧
      ∃ value : Bool, (s.2.2 = none ∧ value = false ∨ s.2.2 = some value.toNat) ∧ s.1 / 2 ≤ max ∧
        s.2.1 / 2 ≤ max ∧ latch = ⟨s.1 / 2, .ofRaw s.2.1, value⟩) scan
    fun (n, next, init) _ => (checkDefinition_answers .latch n).check
      ((readInitial_answers n init).bind fun value _ => (checkRange_answers max .latch n).check
        ((checkRange_answers max .latchNext next).check
          (Answers.pure (⟨n / 2, .ofRaw next, value⟩ : LatchLine))))).congr fun latch => ?_
  rcases latch with ⟨var, next, value⟩
  simp only [IsLatchLine, LatchLine.mk.injEq, eq_ofRaw_iff]
  constructor
  · rintro ⟨⟨n, _, init⟩, hline, heven, _, hinit, hmax, hnext, hvar, rfl, rfl⟩
    obtain ⟨rfl, hdef⟩ := eq_half_iff.1 ⟨⟨heven, hmax⟩, hvar⟩
    refine ⟨?_, hdef, half_raw next ▸ hnext⟩
    rcases hinit with ⟨rfl, hfalse⟩ | rfl
    · exact .inl ⟨hfalse, hline⟩
    · exact .inr hline
  · rintro ⟨hline, hdef, hnext⟩
    obtain ⟨⟨heven, hmax⟩, hvar⟩ := eq_half_iff.2 ⟨rfl, hdef⟩
    have hraw : next.raw / 2 ≤ max := by rwa [half_raw]
    rcases hline with ⟨hvalue, hline⟩ | hline
    · exact ⟨(2 * var, next.raw, none), hline, heven, value, .inl ⟨rfl, hvalue⟩, hmax, hraw, hvar,
        rfl, rfl⟩
    · exact ⟨(2 * var, next.raw, some value.toNat), hline, heven, value, .inr rfl, hmax, hraw, hvar,
        rfl, rfl⟩

theorem readOutput_answers (max : Nat) (line : String) :
    Answers (readOutput max line) (IsOutputLine max line) := by
  refine ((scanLine_answers .output fun n => Iff.rfl).bind fun n _ =>
    (checkRange_answers max .output n).check (Answers.pure (Literal.ofRaw n))).congr fun l => ?_
  simp only [IsOutputLine, isNumbers_iff, isSpaced_nil_iff, eq_ofRaw_iff, ← half_raw]
  constructor
  · rintro ⟨n, hscan, hmax, rfl⟩
    exact ⟨⟨[], hscan, rfl⟩, hmax⟩
  · rintro ⟨⟨_, hscan, rfl⟩, hmax⟩
    exact ⟨l.raw, hscan, hmax, rfl⟩

theorem scanGate_eq_some_iff {line : String} {n left right : Nat} :
    scanGate line.toList = some ((n, left, right), []) ↔ IsNumbers n [left, right] line := by
  simp only [scanGate, scanner_bind_eq_some_iff, scanner_pure_eq_some_iff, Prod.mk.injEq,
    isNumbers_iff, isSpaced_cons_iff, isSpaced_nil_iff]
  constructor
  · rintro ⟨n, r₁, h₁, left, r₂, h₂, right, r₃, h₃, ⟨rfl, rfl, rfl⟩, rfl⟩
    exact ⟨r₁, h₁, r₂, h₂, [], h₃, rfl⟩
  · rintro ⟨r₁, h₁, r₂, h₂, r₃, h₃, rfl⟩
    exact ⟨n, r₁, h₁, left, r₂, h₂, right, [], h₃, ⟨rfl, rfl, rfl⟩, rfl⟩

theorem readGate_answers (max : Nat) (line : String) :
    Answers (readGate max line) (IsGateLine max line) := by
  have scan : Answers (scanLine .gate scanGate line) fun s : Nat × Nat × Nat =>
      IsNumbers s.1 [s.2.1, s.2.2] line :=
    scanLine_answers .gate fun (n, left, right) => scanGate_eq_some_iff
  refine (@Answers.bind _ _ _ _ _ (fun s gate => (s.1 % 2 = 0 ∧ s.1 ≠ 0) ∧ s.1 / 2 ≤ max ∧
      s.2.1 / 2 ≤ max ∧ s.2.2 / 2 ≤ max ∧ gate = ⟨s.1 / 2, .ofRaw s.2.1, .ofRaw s.2.2⟩) scan
    fun (n, left, right) _ => (checkDefinition_answers .gate n).check
      ((checkRange_answers max .gate n).check ((checkRange_answers max .gateArgument left).check
        ((checkRange_answers max .gateArgument right).check
          (Answers.pure (⟨n / 2, .ofRaw left, .ofRaw right⟩ : GateLine)))))).congr fun gate => ?_
  rcases gate with ⟨var, left, right⟩
  simp only [IsGateLine, GateLine.mk.injEq, eq_ofRaw_iff]
  constructor
  · rintro ⟨⟨n, _, _⟩, hline, heven, hmax, hleft, hright, hvar, rfl, rfl⟩
    obtain ⟨rfl, hdef⟩ := eq_half_iff.1 ⟨⟨heven, hmax⟩, hvar⟩
    exact ⟨hline, hdef, half_raw left ▸ hleft, half_raw right ▸ hright⟩
  · rintro ⟨hline, hdef, hleft, hright⟩
    obtain ⟨⟨heven, hmax⟩, hvar⟩ := eq_half_iff.2 ⟨rfl, hdef⟩
    rw [← half_raw] at hleft hright
    exact ⟨(2 * var, left.raw, right.raw), hline, heven, hmax, hleft, hright, hvar, rfl, rfl⟩

/-! ### Symbols -/

theorem kindOf_eq_some_iff {c : Char} {kind : Kind} : kindOf c = some kind ↔ c = kind.letter := by
  constructor
  · intro h
    unfold kindOf at h
    split at h <;> cases h <;> rfl
  · rintro rfl
    cases kind <;> rfl

theorem scanner_lift_eq_some_iff {α : Type} {o : Option α} {a : α} {cs rest : List Char} :
    (liftM o : Scanner α) cs = some (a, rest) ↔ o = some a ∧ cs = rest := by
  cases o with
  | none => exact ⟨nofun, fun h => nomatch h.1⟩
  | some b =>
    have lifted : (liftM (some b) : Scanner α) cs = some (b, cs) := rfl
    rw [lifted, Option.some.injEq, Option.some.injEq, Prod.mk.injEq]

theorem char_eq_some_iff {cs rest : List Char} {c : Char} :
    Scanner.char cs = some (c, rest) ↔ cs = c :: rest := by
  cases cs <;> simp [Scanner.char]

theorem blank_eq_some_iff {cs rest : List Char} {u : Unit} : Scanner.blank cs = some (u, rest) ↔
    ∃ blank, cs = blank :: rest ∧ (blank = ' ' ∨ blank = '\t') := by
  cases cs with
  | nil => simp [Scanner.blank]
  | cons c cs =>
    rw [Scanner.blank]
    split
    next h =>
      constructor
      · rintro ⟨⟩
        exact ⟨c, rfl, isBlank_iff.1 h⟩
      · rintro ⟨_, ⟨⟩, -⟩
        rfl
    next h =>
      refine ⟨nofun, ?_⟩
      rintro ⟨_, ⟨⟩, hblank⟩
      exact absurd (isBlank_iff.2 hblank) h

theorem scanSymbol_eq_some_iff {cs rest : List Char} {kind : Kind} {position : Nat}
    {name : String} : scanSymbol cs = some ((kind, position, name), rest) ↔
      (∃ digits blank, cs = kind.letter :: digits ++ blank :: name.toList ∧
        IsDecimal position digits ∧ (blank = ' ' ∨ blank = '\t')) ∧ rest = [] := by
  have tail (cs : List Char) :
      (getModify (fun _ => []) : Scanner (List Char)) cs = some (cs, []) := rfl
  simp only [scanSymbol, scanner_bind_eq_some_iff, char_eq_some_iff, scanner_lift_eq_some_iff,
    kindOf_eq_some_iff, number_eq_some_iff, blank_eq_some_iff, tail, scanner_pure_eq_some_iff,
    Option.some.injEq, Prod.mk.injEq]
  constructor
  · rintro ⟨_, mid, rfl, kind, _, ⟨rfl, rfl⟩, position, _, ⟨digits, rfl, decimal, -⟩, -, _,
      ⟨blank, rfl, hblank⟩, name, _, ⟨rfl, rfl⟩, ⟨rfl, rfl, rfl⟩, rfl⟩
    exact ⟨⟨digits, blank, by simp, decimal, hblank⟩, rfl⟩
  · rintro ⟨⟨digits, blank, rfl, decimal, hblank⟩, rfl⟩
    refine ⟨kind.letter, _, rfl, kind, _, ⟨rfl, rfl⟩, position, blank :: name.toList,
      ⟨digits, rfl, decimal, fun c hc hdigit => ?_⟩, (), name.toList, ⟨blank, rfl, hblank⟩,
      name.toList, [], ⟨rfl, rfl⟩, ⟨rfl, rfl, String.ofList_toList⟩, rfl⟩
    obtain rfl : blank = c := by simpa using hc
    rcases hblank with rfl | rfl <;> simp at hdigit

theorem isSymbolLine_iff {line : String} {kind : Kind} {position : Nat} {name : String} :
    IsSymbolLine line kind position name ↔
      scanSymbol line.toList = some ((kind, position, name), []) ∧ name ≠ "" := by
  rw [scanSymbol_eq_some_iff, and_iff_left rfl, IsSymbolLine]
  constructor
  · rintro ⟨digits, blank, hline, decimal, hblank, hname⟩
    exact ⟨⟨digits, blank, hline, decimal, hblank⟩, hname⟩
  · rintro ⟨⟨digits, blank, hline, decimal, hblank⟩, hname⟩
    exact ⟨digits, blank, hline, decimal, hblank, hname⟩

/-- A line is a symbol of one position and name. -/
theorem IsSymbolLine.unique {line : String} {kind kind' : Kind} {position position' : Nat}
    {name name' : String} (h : IsSymbolLine line kind position name)
    (h' : IsSymbolLine line kind' position' name') :
    kind = kind' ∧ position = position' ∧ name = name' := by
  have heq := (isSymbolLine_iff.1 h).1.symm.trans (isSymbolLine_iff.1 h').1
  simpa using heq

theorem readSymbol_answers (count : Kind → Nat) (symbols : Symbols) (line : String) :
    Answers (readSymbol count symbols line) fun symbols' => ∃ kind position name,
      IsSymbolLine line kind position name ∧ position < count kind ∧
        position ∉ symbols.names kind ∧ symbols' = symbols.insert kind position name := by
  rw [readSymbol]
  cases hscan : scanSymbol line.toList with
  | none =>
    refine (Answers.fail (.inl rfl)).congr fun symbols' => ?_
    simp [isSymbolLine_iff, hscan]
  | some result =>
    obtain ⟨⟨kind, position, name⟩, rest⟩ := result
    obtain ⟨-, rfl⟩ := scanSymbol_eq_some_iff.1 hscan
    refine (Answers.guarded _ (Answers.guarded _ (Answers.guarded _
      (Answers.pure (symbols.insert kind position name))))).congr fun symbols' => ?_
    simp only [isSymbolLine_iff, hscan, Option.some.injEq, Prod.mk.injEq, and_true,
      String.isEmpty_iff, ge_iff_le, Nat.not_le, ← Std.ExtTreeMap.mem_iff_contains]
    constructor
    · rintro ⟨hname, hcount, hnew, rfl⟩
      exact ⟨kind, position, name, ⟨⟨rfl, rfl, rfl⟩, hname⟩, hcount, hnew, rfl⟩
    · rintro ⟨_, _, _, ⟨⟨rfl, rfl, rfl⟩, hname⟩, hcount, hnew, rfl⟩
      exact ⟨hname, hcount, hnew, rfl⟩

end Aiger

end AndInverter
