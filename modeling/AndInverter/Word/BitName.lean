import AndInverter.Aiger.Text

/-! Names of the bits of words: bit `i` of the word `x` is named `x[i]`. -/

namespace AndInverter.Word

def bitName (root : String) (index : Nat) : String :=
  root ++ "[" ++ toString index ++ "]"

/-- The names of the bits of one word. -/
def bitNames (root : String) (size : Nat) : List String :=
  (List.range size).map (bitName root)

/-- The first missing bit among `count` bits of a word from the bit `index` on. The search ends
there, so a word much larger than the bits that are there costs little. -/
def missingBit? (has : String → Bool) (root : String) : (count index : Nat) → Option String
  | 0, _ => none
  | count + 1, index =>
    if has (bitName root index) then missingBit? has root count (index + 1)
    else some (bitName root index)

theorem missingBit?_eq_none_iff {has : String → Bool} {root : String} {count index : Nat} :
    missingBit? has root count index = none ↔ ∀ i < count, has (bitName root (index + i)) := by
  induction count generalizing index with
  | zero => simp [missingBit?]
  | succ count ih =>
    rw [Nat.forall_lt_succ_left]
    by_cases h : has (bitName root index) <;>
      simp [missingBit?, h, ih, Nat.add_assoc, Nat.add_comm 1]

/-- Decimal digits as a number, unless there is none or another character. -/
def index? (digits : List Char) : Option Nat :=
  if digits.isEmpty || !digits.all Char.isDigit then none else some (Text.decimal digits)

/-- The word and the index of a bit. An index has 64 bits at most and may begin with zeros. -/
def splitBit? (name : String) : Option (String × Nat) :=
  match name.toList.reverse with
  | ']' :: rest =>
    let digits := (rest.takeWhile (· != '[')).reverse
    match rest.dropWhile (· != '[') with
    | '[' :: root => do
      let index ← index? digits
      if index < UInt64.size then some (String.ofList root.reverse, index) else none
    | _ => none
  | _ => none

end AndInverter.Word
