import AndInverter.Fault

/-! Words as integers of 64 bits. A word lists its bits, the least significant one first; a signed
word is read in two's complement. -/

namespace AndInverter

abbrev Word := List Bool

namespace Word

/-- The lowest bits of the two's complement of `value`, whose sign goes on for ever. -/
def wrap (width : Nat) (value : Int64) : Word :=
  (List.range width).map fun i => (value >>> Int64.ofNat (min i 63)) &&& 1 == 1

/-- The power `2 ^ i`, for `i` below 63. -/
def power (i : Nat) : Int64 := 1 <<< Int64.ofNat i

/-- Whether a word of `width` bits can stand for `value`. -/
def fits (width : Nat) (value : Int64) (signed : Bool) : Bool :=
  if signed then
    width ≥ 64 || (-power (width - 1) ≤ value && value < power (width - 1))
  else
    0 ≤ value && (width ≥ 63 || value < power width)

/-- The word that stands for `value`. -/
def encode (width : Nat) (value : Int64) (signed : Bool) : Except WordRefusal Word :=
  if signed && width == 0 then
    .error .emptySigned
  else if fits width value signed then
    .ok (wrap width value)
  else
    .error (.doesNotFit value width signed)

/-- The sum of `2 ^ i` over the set bits among the first 64. -/
def magnitude (bits : Word) : Int64 :=
  ((bits.take 64).zipIdx.filter (·.1)).foldl
    (fun value (_, i) => value ||| (1 : Int64) <<< Int64.ofNat i) 0

/-- The integer that a word stands for. Bits after the 64th are cut off. -/
def decode (bits : Word) (signed : Bool) : Int64 :=
  if signed && bits.length < 64 && bits.getLast? == some true then
    magnitude bits ||| (-1 : Int64) <<< Int64.ofNat bits.length
  else
    magnitude bits

end Word

end AndInverter
