import AndInverter.NameMap
import AndInverter.Word.BitName
import AndInverter.Word.Integer

/-! Bundles: names of words with their sizes. A bundle splits values of words into values of bits
and puts them together again. -/

namespace AndInverter

/-- The sizes of named words. -/
abbrev Bundle := NameMap Nat

/-- Values of named words. -/
abbrev WordValuation := NameMap Word

namespace Bundle

/-- The names of all bits, word by word. -/
def bitNames (b : Bundle) : List String :=
  b.toList.flatMap fun (name, size) => Word.bitNames name size

/-- The first missing bit, word by word. -/
def missingBit? (b : Bundle) (has : String → Bool) : Option String :=
  b.toList.findSome? fun (name, size) => Word.missingBit? has name size 0

/-- The values of the bits of one word, which must have the size it should. -/
def blastWord (values : WordValuation) (entry : String × Nat) :
    Except Fault (List (String × Bool)) :=
  match values[entry.1]? with
  | none => .error (.word (.missingValue entry.1))
  | some word =>
    if word.length ≠ entry.2 then
      .error (.word (.wrongSize entry.1 word.length entry.2))
    else
      .ok (word.mapIdx fun i bit => (Word.bitName entry.1 i, bit))

/-- Values of words as values of bits. -/
def blast (b : Bundle) (values : WordValuation) : Except Fault Valuation := do
  let words ← b.toList.mapM (blastWord values)
  return NameMap.ofPairs words.flatten

/-- Like `blast`, for those words only that have a value. -/
def blastPartial (b : Bundle) (values : WordValuation) : Except Fault Valuation :=
  blast (b.filter fun name _ => values.contains name) values

/-- The value of one word, unless one of its bits is missing. -/
def unblastWord (bits : Valuation) (entry : String × Nat) : Option (String × Word) :=
  let (name, size) := entry
  if (Word.missingBit? bits.contains name size 0).isSome then none
  else some (name, (Word.bitNames name size).map fun bit => (bits[bit]?).getD false)

/-- Values of bits as values of words. A word that lacks a bit is left out. -/
def unblast (b : Bundle) (bits : Valuation) : WordValuation :=
  NameMap.ofPairs (b.toList.filterMap (unblastWord bits))

/-- Whether the words in both bundles have the same sizes. -/
def agreesWith (b other : Bundle) : Bool :=
  b.toList.all fun (name, size) => (other[name]?).all (· == size)

def render (b : Bundle) : String :=
  ", ".intercalate (b.toList.map fun (name, size) => name ++ ":" ++ toString size)

end Bundle

end AndInverter
