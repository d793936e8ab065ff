import AndInverter.Word.Integer
import Mathlib.Data.List.Basic
import Mathlib.Tactic.Ring

/-! Words as numbers. A word is determined by its size and its number, and both fixed-size words and
sums of words are told by them. -/

namespace AndInverter.Word

/-- The unsigned number of a word. -/
def toNat : Word → Nat
  | [] => 0
  | bit :: bits => bit.toNat + 2 * toNat bits

theorem toNat_lt (word : Word) : word.toNat < 2 ^ word.length := by
  induction word with
  | nil => simp [toNat]
  | cons bit bits ih =>
    rw [toNat, List.length_cons, Nat.pow_succ]
    have := Bool.toNat_le bit
    omega

theorem toNat_inj {xs ys : Word} (size : xs.length = ys.length) (value : xs.toNat = ys.toNat) :
    xs = ys := by
  induction xs generalizing ys with
  | nil => exact (List.length_eq_zero_iff.1 size.symm).symm
  | cons x xs ih =>
    cases ys with
    | nil => cases size
    | cons y ys =>
      simp only [toNat] at value
      have bit : x = y := by
        cases x <;> cases y <;> simp at value ⊢ <;> omega
      subst bit
      rw [ih (Nat.succ.inj size) (by omega)]

/-- The word of a number of fixed size. -/
def ofBitVec {width : Nat} (x : BitVec width) : Word := (List.range width).map x.getLsbD

variable {width : Nat} {x y : BitVec width}

@[simp] theorem length_ofBitVec (x : BitVec width) : (ofBitVec x).length = width := by
  simp [ofBitVec]

theorem toNat_range_testBit (n m : Nat) :
    toNat ((List.range n).map m.testBit) = m % 2 ^ n := by
  induction n generalizing m with
  | zero => simp [toNat, Nat.mod_one]
  | succ n ih =>
    have rest : m.testBit ∘ Nat.succ = (m / 2).testBit := by
      funext i
      exact Nat.testBit_succ m i
    have first : (m.testBit 0).toNat = m % 2 := by
      rw [Nat.testBit_zero]
      rcases Nat.mod_two_eq_zero_or_one m with h | h <;> simp [h]
    rw [List.range_succ_eq_map, List.map_cons, List.map_map, rest, toNat, ih, first,
      Nat.pow_succ', Nat.mod_mul]

@[simp] theorem toNat_ofBitVec (x : BitVec width) : (ofBitVec x).toNat = x.toNat := by
  have := toNat_range_testBit width x.toNat
  rwa [Nat.mod_eq_of_lt x.isLt] at this

theorem toNat_append (xs ys : Word) :
    toNat (xs ++ ys) = xs.toNat + 2 ^ xs.length * ys.toNat := by
  induction xs with
  | nil => simp [toNat]
  | cons x xs ih =>
    rw [List.cons_append, toNat, toNat, ih, List.length_cons, Nat.pow_succ', Nat.mul_assoc]
    omega

theorem eq_ofBitVec_iff {word : Word} :
    word = ofBitVec x ↔ word.length = width ∧ word.toNat = x.toNat := by
  constructor
  · rintro rfl
    exact ⟨length_ofBitVec x, toNat_ofBitVec x⟩
  · rintro ⟨size, value⟩
    exact toNat_inj (by simp [size]) (by simp [value])

theorem ofBitVec_inj : ofBitVec x = ofBitVec y ↔ x = y := by
  refine ⟨fun h => BitVec.eq_of_toNat_eq ?_, fun h => h ▸ rfl⟩
  rw [← toNat_ofBitVec x, h, toNat_ofBitVec]

theorem getElem?_ofBitVec (x : BitVec width) (i : Nat) :
    (ofBitVec x)[i]? = if i < width then some (x.getLsbD i) else none := by
  rw [ofBitVec, List.getElem?_map]
  by_cases h : i < width
  · simp [h]
  · simp [h]

/-- A word of the right size is that of a number of fixed size if the bits are the same. -/
theorem eq_ofBitVec_of_getElem? {word : Word} (size : word.length = width)
    (bits : ∀ i < width, word[i]? = some (x.getLsbD i)) : word = ofBitVec x := by
  refine List.ext_getElem? fun i => ?_
  rw [getElem?_ofBitVec]
  split
  next h => exact bits i h
  next h => exact List.getElem?_eq_none (by omega)

/-- A word as a number of fixed size. -/
def toBitVec (width : Nat) (word : Word) : BitVec width := (BitVec.ofBoolListLE word).setWidth width

theorem ofBitVec_toBitVec {word : Word} (size : word.length = width) :
    ofBitVec (word.toBitVec width) = word := by
  refine (eq_ofBitVec_of_getElem? size fun i hi => ?_).symm
  have inside : i < word.length := by omega
  rw [toBitVec, BitVec.getLsbD_setWidth, BitVec.getLsbD_ofBoolListLE]
  simp [hi, List.getD, inside]

theorem toNat_toBitVec {word : Word} (size : word.length = width) :
    (word.toBitVec width).toNat = word.toNat := by
  rw [← toNat_ofBitVec, ofBitVec_toBitVec size]

theorem toBitVec_inj {xs ys : Word} (hx : xs.length = width) (hy : ys.length = width) :
    xs.toBitVec width = ys.toBitVec width ↔ xs = ys := by
  rw [← ofBitVec_inj, ofBitVec_toBitVec hx, ofBitVec_toBitVec hy]

/-! ### Sums -/

/-- The sum of two words and a carry, bit by bit, with the carry out. -/
def addCarry : Word → Word → Bool → Word × Bool
  | x :: xs, y :: ys, carry =>
    let rest := addCarry xs ys (x && y || (x ^^ y) && carry)
    (((x ^^ y) ^^ carry) :: rest.1, rest.2)
  | _, _, carry => ([], carry)

theorem length_addCarry {xs ys : Word} (size : xs.length = ys.length) (carry : Bool) :
    (addCarry xs ys carry).1.length = xs.length := by
  induction xs generalizing ys carry with
  | nil => simp [addCarry]
  | cons x xs ih =>
    cases ys with
    | nil => cases size
    | cons y ys => simp [addCarry, ih (Nat.succ.inj size)]

/-- A full adder keeps the sum. -/
theorem toNat_fullAdder (a b c : Bool) :
    ((a ^^ b) ^^ c).toNat + 2 * (a && b || (a ^^ b) && c).toNat =
      a.toNat + b.toNat + c.toNat := by
  revert a b c
  decide

theorem toNat_addCarry {xs ys : Word} (size : xs.length = ys.length) (carry : Bool) :
    (addCarry xs ys carry).1.toNat + 2 ^ xs.length * (addCarry xs ys carry).2.toNat =
      xs.toNat + ys.toNat + carry.toNat := by
  induction xs generalizing ys carry with
  | nil =>
    obtain rfl := List.length_eq_zero_iff.1 size.symm
    simp [addCarry, toNat]
  | cons x xs ih =>
    cases ys with
    | nil => cases size
    | cons y ys =>
      have step := toNat_fullAdder x y carry
      have rest := ih (Nat.succ.inj size) (x && y || (x ^^ y) && carry)
      simp only [addCarry, toNat, List.length_cons, Nat.pow_succ', Nat.mul_assoc]
      omega

theorem toNat_addCarry_fst {xs ys : Word} (size : xs.length = ys.length) (carry : Bool) :
    (addCarry xs ys carry).1.toNat = (xs.toNat + ys.toNat + carry.toNat) % 2 ^ xs.length := by
  have bound := toNat_lt (addCarry xs ys carry).1
  rw [length_addCarry size] at bound
  rw [← toNat_addCarry size, Nat.add_mul_mod_self_left, Nat.mod_eq_of_lt bound]

theorem addCarry_snd {xs ys : Word} (size : xs.length = ys.length) (carry : Bool) :
    (addCarry xs ys carry).2 = decide (2 ^ xs.length ≤ xs.toNat + ys.toNat + carry.toNat) := by
  have bound := toNat_lt (addCarry xs ys carry).1
  rw [length_addCarry size] at bound
  rw [← toNat_addCarry size]
  cases (addCarry xs ys carry).2
  · simpa using bound
  · simp

theorem toNat_map_not (word : Word) :
    toNat (word.map (!·)) + word.toNat + 1 = 2 ^ word.length := by
  induction word with
  | nil => simp [toNat]
  | cons bit bits ih =>
    rw [List.map_cons, toNat, toNat, List.length_cons, Nat.pow_succ]
    cases bit <;> simp <;> omega

/-- The difference is the sum with the complement and one. -/
theorem toNat_subtract {xs ys : Word} (size : xs.length = ys.length) :
    (addCarry xs (ys.map (!·)) true).1.toNat =
      (2 ^ xs.length - ys.toNat + xs.toNat) % 2 ^ xs.length := by
  have complement := toNat_map_not ys
  rw [← size] at complement
  rw [toNat_addCarry_fst (by simp [size]), Bool.toNat_true]
  congr 1
  omega

theorem subtract_snd {xs ys : Word} (size : xs.length = ys.length) :
    (addCarry xs (ys.map (!·)) true).2 = decide (ys.toNat ≤ xs.toNat) := by
  have complement := toNat_map_not ys
  rw [← size] at complement
  rw [addCarry_snd (by simp [size]), Bool.toNat_true]
  exact decide_eq_decide.2 (by omega)

theorem add_ofBitVec (x y : BitVec width) :
    (addCarry (ofBitVec x) (ofBitVec y) false).1 = ofBitVec (x + y) := by
  have size : (ofBitVec x).length = (ofBitVec y).length := by simp
  refine eq_ofBitVec_iff.2 ⟨by simp [length_addCarry size], ?_⟩
  simp [toNat_addCarry_fst size, BitVec.toNat_add]

theorem subtract_ofBitVec (x y : BitVec width) :
    (addCarry (ofBitVec x) ((ofBitVec y).map (!·)) true).1 = ofBitVec (x - y) := by
  have size : (ofBitVec x).length = (ofBitVec y).length := by simp
  refine eq_ofBitVec_iff.2 ⟨by simp [length_addCarry], ?_⟩
  simp [toNat_subtract size, BitVec.toNat_sub]

theorem ofBitVec_zero : ofBitVec (BitVec.ofNat width 0) = List.replicate width false := by
  refine (eq_ofBitVec_of_getElem? (by simp) fun i hi => ?_).symm
  simp [hi]

/-- The negative, as the difference from zero. -/
theorem negative_ofBitVec (x : BitVec width) :
    (addCarry (List.replicate width false) ((ofBitVec x).map (!·)) true).1 = ofBitVec (-x) := by
  rw [← ofBitVec_zero, subtract_ofBitVec, BitVec.zero_sub]

/-- One more, as the carry into a sum with zero. -/
theorem increment_ofBitVec (x : BitVec width) :
    (addCarry (ofBitVec x) (List.replicate width false) true).1 = ofBitVec (x + 1) := by
  have size : (ofBitVec x).length = (ofBitVec (BitVec.ofNat width 0)).length := by simp
  rw [← ofBitVec_zero]
  refine eq_ofBitVec_iff.2 ⟨by simp [length_addCarry size], ?_⟩
  simp [toNat_addCarry_fst size, BitVec.toNat_add]

theorem ofBitVec_allOnes : ofBitVec (BitVec.allOnes width) = List.replicate width true := by
  refine (eq_ofBitVec_of_getElem? (by simp) fun i hi => ?_).symm
  simp [hi]

/-- One less, as the sum with the word of ones. -/
theorem decrement_ofBitVec (x : BitVec width) :
    (addCarry (ofBitVec x) (List.replicate width true) false).1 = ofBitVec (x - 1) := by
  rw [← ofBitVec_allOnes, add_ofBitVec, ← BitVec.neg_one_eq_allOnes, BitVec.sub_eq_add_neg]
  rfl

/-- Whether the difference borrows. -/
def less (xs ys : Word) : Bool := !(addCarry xs (ys.map (!·)) true).2

theorem less_ofBitVec (x y : BitVec width) : less (ofBitVec x) (ofBitVec y) = x.ult y := by
  rw [less, subtract_snd (by simp), toNat_ofBitVec, toNat_ofBitVec, BitVec.ult, ← decide_not]
  exact decide_eq_decide.2 (by omega)

/-! ### Signs -/

/-- The word with its most significant bit negated. -/
def flipSign (word : Word) : Word := word.dropLast ++ (word.getLast?.map (!·)).toList

@[simp] theorem length_flipSign (word : Word) : (flipSign word).length = word.length := by
  rcases List.eq_nil_or_concat word with rfl | ⟨bits, sign, rfl⟩ <;> simp [flipSign]

theorem getLast?_ofBitVec (x : BitVec (width + 1)) : (ofBitVec x).getLast? = some x.msb := by
  rw [List.getLast?_eq_getElem?, length_ofBitVec, getElem?_ofBitVec, if_pos (by omega),
    BitVec.msb_eq_getLsbD_last]

theorem getD_getLast?_ofBitVec (x : BitVec width) : (ofBitVec x).getLast?.getD false = x.msb := by
  cases width with
  | zero => rw [BitVec.of_length_zero (x := x)]; rfl
  | succ width => rw [getLast?_ofBitVec, Option.getD_some]

/-- The signed number of a word, in two's complement. The empty word is zero. -/
def toInt (word : Word) : Int :=
  word.toNat - if word.getLast? = some true then 2 ^ word.length else 0

theorem toInt_ofBitVec (x : BitVec width) : (ofBitVec x).toInt = x.toInt := by
  cases width with
  | zero => simp [BitVec.of_length_zero, toInt, ofBitVec, toNat]
  | succ width =>
    rw [toInt, toNat_ofBitVec, getLast?_ofBitVec, length_ofBitVec, BitVec.toInt_eq_msb_cond]
    cases x.msb <;> simp

theorem toInt_toBitVec {word : Word} (size : word.length = width) :
    (word.toBitVec width).toInt = word.toInt := by
  rw [← toInt_ofBitVec, ofBitVec_toBitVec size]

/-- Flipping the sign moves the signed number up by half of what words can hold. -/
theorem toNat_flipSign (x : BitVec (width + 1)) :
    ((flipSign (ofBitVec x)).toNat : Int) = x.toInt + 2 ^ width := by
  obtain ⟨bits, sign, heq⟩ : ∃ bits sign, ofBitVec x = bits ++ [sign] := by
    refine (List.eq_nil_or_concat' (ofBitVec x)).resolve_left fun h => ?_
    have size := congrArg List.length h
    rw [length_ofBitVec] at size
    cases size
  have size : bits.length = width := by simpa using (congrArg List.length heq).symm
  have msb : x.msb = sign := by
    have := getLast?_ofBitVec x
    rw [heq] at this
    simpa using this.symm
  have value : x.toNat = toNat bits + 2 ^ width * sign.toNat := by
    rw [← toNat_ofBitVec, heq, toNat_append, size]
    simp [toNat]
  have flipped : (flipSign (ofBitVec x)).toNat = toNat bits + 2 ^ width * (!sign).toNat := by
    rw [heq, flipSign, List.dropLast_concat, List.getLast?_concat, Option.map_some,
      Option.toList_some, toNat_append, size]
    simp [toNat]
  rw [BitVec.toInt_eq_msb_cond, msb, flipped, value]
  cases sign
  · simp
  · simp [Int.pow_succ]
    omega

/-- Words in two's complement are in the order of their words with flipped signs. -/
def signedLess (xs ys : Word) : Bool := less (flipSign xs) (flipSign ys)

theorem signedLess_ofBitVec (x y : BitVec width) :
    signedLess (ofBitVec x) (ofBitVec y) = x.slt y := by
  rw [signedLess, less, subtract_snd (by simp), BitVec.slt, ← decide_not]
  refine decide_eq_decide.2 ?_
  cases width with
  | zero => simp [BitVec.of_length_zero, ofBitVec, flipSign, toNat]
  | succ width =>
    have hx := toNat_flipSign x
    have hy := toNat_flipSign y
    omega

/-- The negative of a word with its sign set, and the word itself otherwise. -/
def absolute (word : Word) : Word :=
  if word.getLast? = some true then
    (addCarry (List.replicate word.length false) (word.map (!·)) true).1
  else
    word

theorem absolute_ofBitVec (x : BitVec width) : absolute (ofBitVec x) = ofBitVec x.abs := by
  cases width with
  | zero => simp [BitVec.of_length_zero, absolute, ofBitVec]
  | succ width =>
    rw [absolute, getLast?_ofBitVec, length_ofBitVec, negative_ofBitVec, BitVec.abs, BitVec.neg_eq]
    cases x.msb <;> simp

end AndInverter.Word
