import AndInverter.Proofs.Word.Bits

/-! Wiring and logic on words, told by the same operations on numbers of fixed size. -/

namespace AndInverter.Word

variable {width width' : Nat}

@[simp] theorem ofBitVec_cast {x : BitVec width} (h : width = width') :
    ofBitVec (x.cast h) = ofBitVec x := by
  subst h
  rfl

@[simp] theorem toBitVec_ofBitVec (x : BitVec width) : (ofBitVec x).toBitVec width = x :=
  ofBitVec_inj.1 (ofBitVec_toBitVec (length_ofBitVec x))

theorem ofBitVec_ofBool (bit : Bool) : ofBitVec (BitVec.ofBool bit) = [bit] := by
  cases bit <;> rfl

theorem toBitVec_singleton_eq_one_iff {bit : Bool} : toBitVec 1 [bit] = 1#1 ↔ bit = true := by
  cases bit <;> decide

/-! ### Logic -/

theorem map_not_ofBitVec (x : BitVec width) : (ofBitVec x).map (!·) = ofBitVec (~~~x) := by
  rw [ofBitVec, ofBitVec, List.map_map]
  refine List.map_congr_left fun i hi => ?_
  rw [BitVec.getLsbD_not, decide_eq_true (List.mem_range.1 hi), Bool.true_and, Function.comp]

/-- Bits that are those of `x` and `y` under an operation make up the word of `z`. -/
theorem zipWith_ofBitVec {op : Bool → Bool → Bool} {x y z : BitVec width}
    (bits : ∀ i, z.getLsbD i = op (x.getLsbD i) (y.getLsbD i)) :
    List.zipWith op (ofBitVec x) (ofBitVec y) = ofBitVec z := by
  refine eq_ofBitVec_of_getElem? (by simp) fun i hi => ?_
  rw [List.getElem?_zipWith, getElem?_ofBitVec, getElem?_ofBitVec, if_pos hi, if_pos hi, bits]

theorem zipWith_and_ofBitVec (x y : BitVec width) :
    List.zipWith (· && ·) (ofBitVec x) (ofBitVec y) = ofBitVec (x &&& y) :=
  zipWith_ofBitVec fun _ => BitVec.getLsbD_and

theorem zipWith_or_ofBitVec (x y : BitVec width) :
    List.zipWith (· || ·) (ofBitVec x) (ofBitVec y) = ofBitVec (x ||| y) :=
  zipWith_ofBitVec fun _ => BitVec.getLsbD_or

theorem zipWith_xor_ofBitVec (x y : BitVec width) :
    List.zipWith (· ^^ ·) (ofBitVec x) (ofBitVec y) = ofBitVec (x ^^^ y) :=
  zipWith_ofBitVec fun _ => BitVec.getLsbD_xor

theorem foldl_and (word : Word) (acc : Bool) : word.foldl (· && ·) acc = (acc && word.all id) := by
  induction word generalizing acc with
  | nil => simp
  | cons bit bits ih => rw [List.foldl_cons, ih, List.all_cons, Bool.and_assoc, id]

theorem foldl_or (word : Word) (acc : Bool) : word.foldl (· || ·) acc = (acc || word.any id) := by
  induction word generalizing acc with
  | nil => simp
  | cons bit bits ih => rw [List.foldl_cons, ih, List.any_cons, Bool.or_assoc, id]

/-- Whether an odd number of bits is set. -/
def parity (x : BitVec width) : Bool := (List.range width).countP x.getLsbD % 2 = 1

theorem foldl_xor (word : Word) (acc : Bool) :
    word.foldl (· ^^ ·) acc = (acc ^^ decide (word.count true % 2 = 1)) := by
  induction word generalizing acc with
  | nil => simp
  | cons bit bits ih =>
    rw [List.foldl_cons, ih, List.count_cons]
    have split := Nat.mod_two_eq_zero_or_one (bits.count true)
    cases bit
    · simp
    · have flip : decide ((bits.count true + 1) % 2 = 1) = !decide (bits.count true % 2 = 1) := by
        rcases split with h | h <;> simp [Nat.add_mod, h]
      simp [flip]

theorem foldl_xor_ofBitVec (x : BitVec width) :
    (ofBitVec x).foldl (· ^^ ·) false = parity x := by
  have set : (· == true) ∘ x.getLsbD = x.getLsbD := by
    funext i
    exact beq_true _
  rw [foldl_xor, Bool.false_xor, parity, ofBitVec, List.count, List.countP_map, set]

theorem reverse_ofBitVec (x : BitVec width) : (ofBitVec x).reverse = ofBitVec x.reverse := by
  refine eq_ofBitVec_of_getElem? (by simp) fun i hi => ?_
  rw [List.getElem?_reverse (by simpa using hi), getElem?_ofBitVec, length_ofBitVec,
    if_pos (by omega), BitVec.getLsbD_reverse, BitVec.getMsbD, decide_eq_true hi, Bool.true_and]

theorem append_ofBitVec (x : BitVec width) (y : BitVec width') :
    ofBitVec x ++ ofBitVec y = ofBitVec (y ++ x) := by
  refine eq_ofBitVec_of_getElem? (by simp [Nat.add_comm]) fun i hi => ?_
  rw [BitVec.getLsbD_append]
  by_cases low : i < width
  · rw [List.getElem?_append_left (by simpa using low), getElem?_ofBitVec, if_pos low]
    simp [low]
  · have high : i - width < width' := by omega
    rw [List.getElem?_append_right (by simpa using low), length_ofBitVec, getElem?_ofBitVec,
      if_pos high]
    simp [low]

theorem flatten_replicate_ofBitVec (x : BitVec width) (times : Nat) :
    (List.replicate times (ofBitVec x)).flatten = ofBitVec (x.replicate times) := by
  induction times with
  | zero => simp [ofBitVec]
  | succ times ih =>
    rw [List.replicate_succ, List.flatten_cons, ih, append_ofBitVec, BitVec.replicate_succ',
      ofBitVec_cast]

theorem slice_ofBitVec (x : BitVec width) {start stop : Nat} (inside : stop ≤ width) :
    ((ofBitVec x).take stop).drop start = ofBitVec (x.extractLsb' start (stop - start)) := by
  have size : (((ofBitVec x).take stop).drop start).length = stop - start := by
    simp [inside]
  refine eq_ofBitVec_of_getElem? size fun i hi => ?_
  have low : start + i < stop := by omega
  rw [List.getElem?_drop, List.getElem?_take, if_pos low, getElem?_ofBitVec, if_pos (by omega),
    BitVec.getLsbD_extractLsb', decide_eq_true hi, Bool.true_and]

theorem shiftLeft_ofBitVec (x : BitVec width) (shift : Nat) :
    (List.replicate (min shift width) false ++ ofBitVec x).take width = ofBitVec (x <<< shift) := by
  have size : ((List.replicate (min shift width) false ++ ofBitVec x).take width).length = width := by
    simp
  refine eq_ofBitVec_of_getElem? size fun i hi => ?_
  rw [List.getElem?_take, if_pos hi, BitVec.getLsbD_shiftLeft, decide_eq_true hi, Bool.true_and]
  by_cases low : i < shift
  · have inside : i < min shift width := by omega
    rw [List.getElem?_append_left (by simpa using inside)]
    simp [low, hi]
  · have outside : min shift width = shift := by omega
    rw [outside, List.getElem?_append_right (by simpa using low), List.length_replicate,
      getElem?_ofBitVec, if_pos (by omega)]
    simp [low]

/-- Bit `i` comes from `shift` positions above. Positions are numbers of 64 bits that wrap around, and
`fill` stands where the word has no bit. -/
def shiftedDown {α : Type} (shift : Nat) (fill : α) (xs : List α) : List α :=
  (List.range xs.length).map fun i => xs[(i + shift) % 2 ^ 64]?.getD fill

@[simp] theorem length_shiftedDown {α : Type} (shift : Nat) (fill : α) (xs : List α) :
    (shiftedDown shift fill xs).length = xs.length := by
  simp [shiftedDown]

theorem map_shiftedDown {α β : Type} (f : α → β) (shift : Nat) (fill : α) (xs : List α) :
    (shiftedDown shift fill xs).map f = shiftedDown shift (f fill) (xs.map f) := by
  rw [shiftedDown, shiftedDown, List.map_map, List.length_map]
  refine List.map_congr_left fun i _ => ?_
  rw [Function.comp, List.getElem?_map, Option.getD_map]

theorem mem_of_mem_shiftedDown {α : Type} {shift : Nat} {fill x : α} {xs : List α}
    (h : x ∈ shiftedDown shift fill xs) : x ∈ xs ∨ x = fill := by
  obtain ⟨i, -, rfl⟩ := List.mem_map.1 h
  cases hx : xs[(i + shift) % 2 ^ 64]? with
  | some y => exact .inl (List.mem_of_getElem? hx)
  | none => exact .inr rfl

theorem getElem?_shiftedDown {α : Type} {shift i : Nat} {fill : α} {xs : List α}
    (hi : i < xs.length) :
    (shiftedDown shift fill xs)[i]? = some (xs[(i + shift) % 2 ^ 64]?.getD fill) := by
  rw [shiftedDown, List.getElem?_map, List.getElem?_range hi, Option.map_some]

/-- Bits from `shift` on, with the bits after the last one as given, if no position wraps around. -/
theorem shiftedDown_ofBitVec {x z : BitVec width} {shift : Nat} {fill : Bool}
    (fits : width + shift ≤ 2 ^ 64)
    (bits : ∀ i < width, z.getLsbD i = if shift + i < width then x.getLsbD (shift + i) else fill) :
    shiftedDown shift fill (ofBitVec x) = ofBitVec z := by
  refine eq_ofBitVec_of_getElem? (by simp) fun i hi => ?_
  rw [getElem?_shiftedDown (by simpa using hi), Nat.mod_eq_of_lt (by omega), getElem?_ofBitVec,
    bits i hi, Nat.add_comm i shift]
  split <;> rfl

/-- What a right shift gives, whatever its amount is. -/
def shiftedRight (signed : Bool) (shift : Nat) (x : BitVec width) : BitVec width :=
  toBitVec width (shiftedDown shift (signed && x.msb) (ofBitVec x))

theorem ofBitVec_shiftedRight (signed : Bool) (shift : Nat) (x : BitVec width) :
    ofBitVec (shiftedRight signed shift x) = shiftedDown shift (signed && x.msb) (ofBitVec x) :=
  ofBitVec_toBitVec (by simp)

/-- The positions that a right shift reads are in range: those of a word without bits always are. -/
def ShiftFits (width shift : Nat) : Prop := width = 0 ∨ width + shift ≤ 2 ^ 64

instance (width shift : Nat) : Decidable (ShiftFits width shift) :=
  inferInstanceAs (Decidable (_ ∨ _))

/-- It is the shift then. -/
theorem shiftedRight_eq {shift : Nat} (fits : ShiftFits width shift) (signed : Bool)
    (x : BitVec width) :
    shiftedRight signed shift x = if signed then x.sshiftRight shift else x >>> shift := by
  rcases fits with rfl | fits
  · exact Subsingleton.elim _ _
  rw [← ofBitVec_inj, ofBitVec_shiftedRight]
  refine shiftedDown_ofBitVec fits fun i hi => ?_
  cases signed
  · rw [if_neg Bool.false_ne_true, BitVec.getLsbD_ushiftRight, Bool.false_and]
    split
    next => rfl
    next h => exact BitVec.getLsbD_of_ge x _ (by omega)
  · rw [if_pos rfl, BitVec.getLsbD_sshiftRight]
    simp [Nat.not_le.2 hi]

/-! ### Integers -/

/-- The amount of a shift that is less than the size. -/
theorem toNat_amount {i : Nat} (hi : i < 64) : ((Int64.ofNat i).toBitVec.smod 64).toNat = i := by
  revert i
  decide

/-- One bit of an integer. -/
theorem shiftRight_and_one (value : Int64) {i : Nat} (hi : i < 64) :
    ((value >>> Int64.ofNat i) &&& 1 == 1) = value.toBitVec.getLsbD i := by
  have bits : ((value >>> Int64.ofNat i) &&& 1).toBitVec =
      value.toBitVec.sshiftRight i &&& 1#64 := by
    rw [Int64.toBitVec_and, Int64.toBitVec_shiftRight, BitVec.sshiftRight_eq', toNat_amount hi]
    rfl
  have one : ((value >>> Int64.ofNat i) &&& 1 = 1) ↔
      value.toBitVec.sshiftRight i &&& 1#64 = 1#64 := by
    rw [← Int64.toBitVec_inj, bits]
    rfl
  have bit : (value.toBitVec.sshiftRight i).getLsbD 0 = value.toBitVec.getLsbD i := by
    rw [BitVec.getLsbD_sshiftRight]
    simp [hi]
  rw [Bool.eq_iff_iff, beq_iff_eq, one, BitVec.and_one_eq_setWidth_ofBool_getLsbD, bit]
  cases value.toBitVec.getLsbD i <;> decide

/-- An integer cut or extended to a word. -/
theorem wrap_eq (width : Nat) (value : Int64) :
    wrap width value = ofBitVec (BitVec.ofInt width value.toInt) := by
  refine List.map_congr_left fun i hi => ?_
  have extend : BitVec.ofInt width value.toInt = value.toBitVec.signExtend width := rfl
  rw [shiftRight_and_one value (by omega), extend, BitVec.getLsbD_signExtend,
    decide_eq_true (List.mem_range.1 hi), Bool.true_and]
  split
  next low => rw [Nat.min_eq_left (by omega)]
  next high => rw [Nat.min_eq_right (by omega), BitVec.msb_eq_getLsbD_last]

end AndInverter.Word
