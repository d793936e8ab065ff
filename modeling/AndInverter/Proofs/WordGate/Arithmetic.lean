import AndInverter.Proofs.WordGate.Operators
import AndInverter.Proofs.WordGate.Values

/-! Gates for arithmetic are exact for words of every size: their outputs are the integers that they
should be, modulo two to the power of the size, and the carry tells what the modulus takes away. -/

namespace AndInverter.WordGate

variable {width : Nat} {input left right output : String}

/-! ### Numbers of fixed size -/

/-- A difference that is kept from going below zero is the difference of integers. -/
theorem natCast_sub_mod {a b m : Nat} (h : b ≤ m) :
    (((m - b + a) % m : Nat) : Int) = ((a : Int) - b) % m := by
  rw [Int.natCast_emod, Int.natCast_add, Int.natCast_sub h, sub_add_eq_add_sub, add_sub_assoc,
    Int.add_emod_left]

theorem toNat_abs (x : BitVec width) : x.abs.toNat = x.toInt.natAbs % 2 ^ width := by
  have bound := x.isLt
  rw [BitVec.toNat_abs, BitVec.toInt_eq_msb_cond]
  split
  next h =>
    have large := BitVec.msb_eq_true_iff_two_mul_ge.1 h
    have negative : ((x.toNat : Int) - (2 ^ width : Nat)).natAbs = 2 ^ width - x.toNat := by omega
    rw [negative, Nat.mod_eq_of_lt (by omega)]
  next => rw [Int.natAbs_natCast, Nat.mod_eq_of_lt bound]

/-- The least number has no opposite. -/
theorem abs_eq_self {x : BitVec width} (least : 2 * x.toInt = -2 ^ width) : x.abs = x := by
  have least' : 2 * x.toInt = -(2 ^ width : Nat) := by
    rw [least]
    norm_cast
  refine BitVec.eq_of_toNat_eq ?_
  rw [BitVec.toInt_eq_msb_cond] at least'
  rw [BitVec.toNat_abs]
  split at least'
  next h =>
    rw [if_pos h]
    omega
  next h => rw [if_neg h]

/-! ### Sums with a carry -/

/-- The words of a sum: the sum itself, and its carry if it is asked for. -/
def sumWords (output : String) (width : Nat) (hasCarry : Bool) : Bundle :=
  if hasCarry then ((∅ : Bundle).insert output width).insert (output ++ "_carry") 1
  else (∅ : Bundle).insert output width

theorem carry_ne (output : String) : output ++ "_carry" ≠ output := by
  intro h
  have := congrArg String.length h
  rw [String.length_append] at this
  have : "_carry".length = 6 := rfl
  omega

/-- The words that `sum` computes from two words. -/
def sumValue (output : String) (r : Word × Bool) (name : String) : Word :=
  if name = output then r.1 else [r.2]

/-- The words of a sum are given as they are computed. -/
theorem sumOutputs_runs {c : WordCircuit} (exact : c.Exact) (none : c.outputs = ∅) (output : String)
    (hasCarry : Bool) {ls : List Literal} {l : Literal} (word : ∀ x ∈ ls, c.graph.Has x)
    (carry : c.graph.Has l) :
    WordBuild.Runs (do
      WordBuild.output output ls
      if hasCarry then
        WordBuild.output (output ++ "_carry") [l]) c fun _ d => d.inputs = c.inputs ∧
      d.outputs = sumWords output ls.length hasCarry ∧
      ∀ v, ∀ n ∈ d.outputs,
        d.outputWord v n = sumValue output (ls.map (·.under v), l.under v) n := by
  refine (WordBuild.output_runs exact (by simp [none]) word).bind
    fun _ d exact' ext ⟨hin, hout, sumWord, _⟩ => ?_
  rw [none] at hout
  have only (n : String) (hn : n ∈ d.outputs) : n = output := by
    rw [hout] at hn
    exact NameMap.mem_singleton_iff.1 hn
  cases hasCarry with
  | false =>
    refine .pure exact' ⟨hin, hout, fun v n hn => ?_⟩
    rw [only n hn, sumWord, sumValue, if_pos rfl]
  | true =>
    have new : output ++ "_carry" ∉ d.outputs := fun h => carry_ne output (only _ h)
    refine (WordBuild.output_runs exact' new (by simpa using ext.has carry)).imp
      fun _ e _ _ ⟨hin', hout', carryWord, kept⟩ => ?_
    refine ⟨hin'.trans hin, by rw [hout', hout]; rfl, fun v n hn => ?_⟩
    rw [hout', NameMap.mem_insert_iff] at hn
    rcases hn with rfl | hn
    · rw [carryWord, sumValue, if_neg (carry_ne output)]
      rfl
    · rw [kept v n hn, only n hn, sumWord, sumValue, if_pos rfl]

theorem withCarry_gives {sum : List Literal → List Literal → Build (List Literal × Literal)}
    {f : Word → Word → Word × Bool} (hasCarry : Bool)
    (runs : ∀ {g : Graph} {xs ys : List Literal}, g.WellFormed → (∀ x ∈ xs, g.Has x) →
      (∀ y ∈ ys, g.Has y) → (sum xs ys).Runs g fun r h =>
        h.ComputesWord r.1 (fun v => (f (xs.map (·.under v)) (ys.map (·.under v))).1) ∧
        h.Computes r.2 (fun v => (f (xs.map (·.under v)) (ys.map (·.under v))).2) ∧ g.SameNames h)
    (size : ∀ x y : Word, x.length = width → y.length = width → (f x y).1.length = width) :
    ∃ c, withCarry width left right output hasCarry sum = .ok c ∧
      c.Gives (((∅ : Bundle).insert left width).insert right width) (sumWords output width hasCarry)
        fun env => sumValue output (f (env left) (env right)) := by
  refine WordBuild.circuit_gives (WordBuild.twoInputs_runs (fun _ => rfl)
    fun xs ys c exact hin none hxs hys carriesX carriesY => ?_)
  have run := (runs exact.wf (carriesX.has exact) (carriesY.has exact)).imp
    fun r h _ _ ⟨word, carry, same⟩ => (⟨⟨word, carry⟩, same⟩ :
      (h.ComputesWord r.1 _ ∧ h.Computes r.2 _) ∧ c.graph.SameNames h)
  refine (WordBuild.bits_runs exact run).bind fun ⟨ls, l⟩ d exact' ext post => ?_
  obtain ⟨hin', hout', -, word, carry⟩ := post
  have length : ls.length = width := by
    refine word.length_eq exact'.wf.toEvaluable fun v => size _ _ ?_ ?_
    · rw [List.length_map, hxs]
    · rw [List.length_map, hys]
  refine (sumOutputs_runs exact' (hout'.trans none) output hasCarry word.1 carry.1).imp
    fun _ e _ ext' ⟨hin'', hout'', shown⟩ => ?_
  refine ⟨hin''.trans (hin'.trans hin), length ▸ hout'', fun v hv env henv n hn => ?_⟩
  -- The outputs are built on top, and both values stay those of the input words.
  have henv' := WordCircuit.env_of_extends exact (hin''.trans hin') (ext.trans ext') henv
  rw [shown v n hn, word.2 v (ext'.solution hv), carry.2 v (ext'.solution hv), carriesX.eq_env henv',
    carriesY.eq_env henv']

/-- The sum, whose carry is set where the sum of the integers is too large for a word. -/
theorem add_evaluates (width : Nat) (left right output : String) (hasCarry : Bool) :
    Evaluates (add width left right output hasCarry)
      (((∅ : Bundle).insert left width).insert right width) (sumWords output width hasCarry)
      fun x z => ((z output).toNat : Int) = ((x left).toNat + (x right).toNat) % 2 ^ width ∧
        (hasCarry = true →
          z (output ++ "_carry") = [decide (2 ^ width ≤ (x left).toNat + (x right).toNat)]) := by
  refine evaluates_of_gives (withCarry_gives hasCarry (f := fun x y => Word.addCarry x y false)
    (fun {g xs ys} wf hxs hys => ?_)
    fun x y hx hy => (Word.length_addCarry (hx.trans hy.symm) false).trans hx) fun x fits => ?_
  · refine (Build.rippleAdd_runs wf hxs hys (wf.computes_ofBool false).1).imp
      fun r h _ ext ⟨word, carry, same⟩ =>
        ⟨word.congr fun v hv => ?_, carry.congr fun v hv => ?_, same⟩
    · rw [(ext.solution hv).under_ofBool]
    · rw [(ext.solution hv).under_ofBool]
  · obtain ⟨hleft, hright⟩ := length_of_fits fits
    have size := hleft.trans hright.symm
    constructor
    · rw [sumValue, if_pos rfl, Word.toNat_addCarry_fst size, hleft]
      simp
    · intro _
      rw [sumValue, if_neg (carry_ne output), Word.addCarry_snd size, hleft]
      simp

/-- The difference, whose carry is set where it is not negative. -/
theorem subtract_evaluates (width : Nat) (left right output : String) (hasCarry : Bool) :
    Evaluates (subtract width left right output hasCarry)
      (((∅ : Bundle).insert left width).insert right width) (sumWords output width hasCarry)
      fun x z => ((z output).toNat : Int) = ((x left).toNat - (x right).toNat) % 2 ^ width ∧
        (hasCarry = true →
          z (output ++ "_carry") = [decide ((x right).toNat ≤ (x left).toNat)]) := by
  refine evaluates_of_gives (withCarry_gives hasCarry
    (f := fun x y => Word.addCarry x (y.map (!·)) true)
    (fun {g xs ys} wf hxs hys => Build.rippleSub_runs wf hxs hys) fun x y hx hy => ?_) fun x fits => ?_
  · rw [Word.length_addCarry (by rw [List.length_map, hx, hy]), hx]
  · obtain ⟨hleft, hright⟩ := length_of_fits fits
    have size := hleft.trans hright.symm
    have bound := (x right).toNat_lt
    rw [hright] at bound
    constructor
    · rw [sumValue, if_pos rfl, Word.toNat_subtract size, hleft, natCast_sub_mod bound.le]
      push_cast
      rfl
    · intro _
      rw [sumValue, if_neg (carry_ne output), Word.subtract_snd size]

/-- Gates for arithmetic compute with the integers that words stand for, modulo two to the power of
their size. Where both inputs are one word they compute with it twice. -/
theorem arithmetic_exact (width : Nat) (left right input output : String) :
    (∀ hasCarry, Evaluates (add width left right output hasCarry)
      (((∅ : Bundle).insert left width).insert right width) (sumWords output width hasCarry)
      fun x z => ((z output).toNat : Int) = ((x left).toNat + (x right).toNat) % 2 ^ width ∧
        (hasCarry = true →
          z (output ++ "_carry") = [decide (2 ^ width ≤ (x left).toNat + (x right).toNat)])) ∧
    (∀ hasCarry, Evaluates (subtract width left right output hasCarry)
      (((∅ : Bundle).insert left width).insert right width) (sumWords output width hasCarry)
      fun x z => ((z output).toNat : Int) = ((x left).toNat - (x right).toNat) % 2 ^ width ∧
        (hasCarry = true →
          z (output ++ "_carry") = [decide ((x right).toNat ≤ (x left).toNat)])) ∧
    Evaluates (negate width input output) ((∅ : Bundle).insert input width)
      ((∅ : Bundle).insert output width)
      (fun x z => ((z output).toNat : Int) = (-((x input).toNat : Int)) % 2 ^ width) ∧
    Evaluates (inc width input output) ((∅ : Bundle).insert input width)
      ((∅ : Bundle).insert output width)
      (fun x z => ((z output).toNat : Int) = ((x input).toNat + 1) % 2 ^ width) ∧
    Evaluates (dec width input output) ((∅ : Bundle).insert input width)
      ((∅ : Bundle).insert output width)
      (fun x z => ((z output).toNat : Int) = ((x input).toNat - 1) % 2 ^ width) ∧
    Evaluates (abs width input output) ((∅ : Bundle).insert input width)
      ((∅ : Bundle).insert output width)
      (fun x z => (z output).toNat = (x input).toInt.natAbs % 2 ^ width ∧
        (2 * (x input).toInt = -2 ^ width → z output = x input)) := by
  refine ⟨add_evaluates width left right output, subtract_evaluates width left right output,
    (negate_maps width input output).evaluates fun x z size value => ?_,
    (inc_maps width input output).evaluates fun x z size value => ?_,
    (dec_maps width input output).evaluates fun x z size value => ?_,
    (abs_maps width input output).evaluates fun x z size value => ?_⟩
  · have bound := (x input).toNat_lt
    have negative := natCast_sub_mod (a := 0) (size ▸ bound.le)
    rw [value, Word.toNat_ofBitVec, BitVec.toNat_neg, Word.toNat_toBitVec size]
    simpa using negative
  · rw [value, Word.toNat_ofBitVec, BitVec.toNat_add, Word.toNat_toBitVec size, BitVec.ofNat_eq_ofNat,
      BitVec.toNat_ofNat]
    simp
  · have bound := Nat.mod_le 1 (2 ^ width)
    rw [value, Word.toNat_ofBitVec, BitVec.toNat_sub, Word.toNat_toBitVec size, BitVec.ofNat_eq_ofNat,
      BitVec.toNat_ofNat, natCast_sub_mod (bound.trans (Nat.one_le_two_pow))]
    simp
  · rw [value, Word.toNat_ofBitVec, toNat_abs, Word.toInt_toBitVec size]
    refine ⟨rfl, fun least => ?_⟩
    rw [abs_eq_self (by rwa [Word.toInt_toBitVec size]), Word.ofBitVec_toBitVec size]

end AndInverter.WordGate
