import AndInverter.Proofs.Expression.Join
import AndInverter.Proofs.Expression.Term
import AndInverter.Proofs.WordGate.Operators

/-! Operators build what they stand for: from expressions for some numbers, an expression for the
number that the operator gives. They do so just where their operands fit. -/

namespace AndInverter

/-- The step builds an expression for `F` over the listed words, if its arguments fit. -/
def Draw.Builds (d : Draw Expression) (n : Nat) (fits : Prop) (words : List (String × Nat))
    {size : Nat} (F : (String → Word) → BitVec size) (signed : Bool) : Prop :=
  d.Runs n fits fun e k => e.circuit.Realizes k words F ∧ e.signed = signed

namespace Expression

open Draw (Builds)

variable {e f g : Expression} {n size size' size'' width : Nat}
  {words words' words'' : List (String × Nat)}
  {F : (String → Word) → BitVec size} {F' : (String → Word) → BitVec size'}
  {F'' : (String → Word) → BitVec size''}

theorem builds_of_runs {d : Draw WordCircuit} {fits : Prop} {G : (String → Word) → BitVec size}
    (signed : Bool) (runs : d.Runs n fits fun c k => c.Realizes k words G) :
    Builds (do return ⟨← d, signed⟩) n fits words G signed :=
  runs.bind id fun _ _ _ fit r => (Draw.Runs.pure ⟨r, rfl⟩).given fit

/-! ### Operators on one word -/

theorem slice_builds (r : e.circuit.Realizes n words F) (start stop : Nat) :
    (e.slice start stop).Builds n (start < stop ∧ stop ≤ size) words
      (fun env => (F env).extractLsb' start (stop - start)) false := by
  by_cases inside : start < stop ∧ stop ≤ size
  · exact builds_of_runs _ ((unary_runs (fun width => WordGate.slice width start stop) r
      fun output => WordGate.slice_maps _ output inside).given inside)
  · have refuses (input output : String) : WordGate.slice e.size start stop input output =
        .error (.violated (.invalidSlice start stop e.size)) := by
      rw [WordGate.slice, if_neg (size_eq r ▸ inside)]
    exact builds_of_runs _ (Draw.fresh_bind (Draw.lift_error_bind (refuses _ _) trivial inside))

theorem bit_builds (r : e.circuit.Realizes n words F) (index : Nat) :
    (e.bit index).Builds n (index < size) words
      (fun env => BitVec.ofBool ((F env).getLsbD index)) false := by
  have sliced := (slice_builds r index (index + 1)).of_iff (and_iff_right (Nat.lt_succ_self index))
  refine sliced.imp fun e' k _ ⟨r', signed⟩ => ⟨?_, signed⟩
  refine (r'.cast (by omega : index + 1 - index = 1)).congr fun env _ => ?_
  refine BitVec.eq_of_getLsbD_eq fun i hi => ?_
  obtain rfl : i = 0 := by omega
  simp

theorem concat_builds (r : e.circuit.Realizes n words F) (r' : f.circuit.Realizes n words' F') :
    (e.concat f).Builds n (Compatible words words') (words ++ words')
      (fun env => F' env ++ F env) e.signed := by
  refine (pair_runs r r').bind id ?_
  rintro ⟨c, a, b⟩ k hk agree ⟨ne, -, -, beside⟩
  have built := builds_of_runs (n := k) e.signed
    ((joins_runs ne beside (WordGate.combine_joins size size' fun h => absurd h ne)).given agree)
  rw [size_eq r, size_eq r']
  simp only [bind_assoc] at built
  exact built

theorem concatTimes_builds (r : e.circuit.Realizes n words F) (times : Nat) {acc : Expression}
    {done : Nat} (hacc : acc.circuit.Realizes n words fun env => (F env).replicate done) :
    (e.concatTimes acc times).Builds n True words (fun env => (F env).replicate (done + times))
      acc.signed := by
  induction times generalizing n acc done with
  | zero => exact .pure ⟨hacc, rfl⟩
  | succ times ih =>
    refine ((concat_builds hacc r).of_iff (iff_true_intro (compatible_self r))).bind id
      fun acc' k hk _ ⟨hacc', signed⟩ => ?_
    have next : acc'.circuit.Realizes k words fun env => (F env).replicate (done + 1) := by
      have grown := hacc'.cast (by rw [Nat.mul_succ, Nat.add_comm] : size + size * done =
        size * (done + 1))
      refine (grown.congr_words fun w => ?_).congr fun env _ => ?_
      · rw [List.mem_append, or_self]
      · rw [BitVec.replicate_succ]
    rw [← signed, show done + (times + 1) = done + 1 + times by omega]
    exact ih (r.mono hk) next

theorem copies_builds (r : e.circuit.Realizes n words F) (times : Nat) :
    (e.copies times).Builds n (times ≠ 0) words (fun env => (F env).replicate times) e.signed := by
  unfold copies
  dsimp only
  split
  next none => exact Draw.throw_bind_runs trivial (not_not.2 none)
  next positive =>
    split
    next single =>
      obtain rfl : size = 1 := (size_eq r).symm.trans single
      exact builds_of_runs _ ((unary_runs (fun _ => WordGate.copies times) r
        (WordGate.copies_maps times e.output)).given positive)
    next =>
      have once : e.circuit.Realizes n words fun env => (F env).replicate 1 :=
        (r.cast (Nat.mul_one size).symm).congr fun env _ => BitVec.replicate_one.symm
      have all := (concatTimes_builds r (times - 1) once).given positive
      rwa [show 1 + (times - 1) = times by omega] at all

theorem not_builds (r : e.circuit.Realizes n words F) :
    e.not.Builds n True words (fun env => ~~~F env) e.signed :=
  builds_of_runs _ (unary_runs _ r (WordGate.bitwiseNegate_maps size e.output))

theorem neg_builds (r : e.circuit.Realizes n words F) :
    e.neg.Builds n True words (fun env => -F env) e.signed :=
  builds_of_runs _ (unary_runs _ r (WordGate.negate_maps size e.output))

theorem abs_builds (r : e.circuit.Realizes n words F) :
    e.abs.Builds n True words (fun env => if e.signed then (F env).abs else F env) e.signed := by
  unfold abs
  cases signed : e.signed
  · exact .pure ⟨r, signed⟩
  · exact builds_of_runs true (unary_runs _ r (WordGate.abs_maps size e.output))

theorem shiftLeft_builds (r : e.circuit.Realizes n words F) (shift : Nat) :
    (e.shiftLeft shift).Builds n True words (fun env => F env <<< shift) e.signed :=
  builds_of_runs _ (unary_runs (fun width => WordGate.leftShift width shift) r
    (WordGate.leftShift_maps size shift e.output))

theorem shiftRight_builds (r : e.circuit.Realizes n words F) (shift : Nat) :
    (e.shiftRight shift).Builds n True words
      (fun env => Word.shiftedRight e.signed shift (F env)) e.signed := by
  unfold shiftRight
  cases e.signed
  · exact builds_of_runs false (unary_runs (fun width => WordGate.logicalRightShift width shift) r
      (WordGate.logicalRightShift_wraps size shift e.output))
  · exact builds_of_runs true (unary_runs (fun width => WordGate.arithmeticRightShift width shift) r
      (WordGate.arithmeticRightShift_wraps size shift e.output))

/-- The choice between two expressions. -/
theorem ite_builds (r : e.circuit.Realizes n words F) (r' : f.circuit.Realizes n words' F')
    (r'' : g.circuit.Realizes n words'' F'') :
    (ite e f g).Builds n (size = 1 ∧ size' = size'' ∧ Compatible words words' ∧
        Compatible (words ++ words') words'') (words ++ words' ++ words'') (fun env =>
      if (F env).setWidth 1 = 1#1 then F' env else (F'' env).setWidth size') f.signed := by
  unfold ite
  rw [size_eq r, size_eq r', size_eq r'']
  dsimp only
  split
  next wide => exact Draw.throw_bind_runs trivial fun h => wide h.1
  next narrow =>
    obtain rfl := not_not.1 narrow
    split
    next sizes => exact Draw.throw_bind_runs trivial fun h => sizes h.2.1
    next sizes =>
      obtain rfl := not_not.1 sizes
      simp only [BitVec.setWidth_eq, true_and]
      refine (triple_runs r r' r'').bind id ?_
      rintro ⟨c, t, a, b⟩ k hk agree ⟨hat, hbt, hba, beside⟩
      refine Draw.fresh_bind ?_
      obtain ⟨d, hd, dgives⟩ := WordGate.mux_gives size' (Draw.freshName k)
        (fun h => absurd h hat) (fun h => absurd h hbt)
      refine Draw.lift_bind hd ?_
      obtain ⟨c', hc, cgives⟩ := beside.gives.exists_chain dgives
      refine Draw.lift_bind hc ((Draw.Runs.pure
        ⟨.of_gives ?_ (Draw.old_freshName k) beside.inputs, rfl⟩).given agree)
      simpa only [if_pos, if_neg hat.symm, if_neg hbt.symm, if_neg hba.symm,
        Word.toBitVec_ofBitVec] using cgives

/-! ### Operators on two words of the same size -/

section Binary

variable {other : Operand}

theorem shortcut_none {G : (String → Word) → BitVec width} :
    ∀ simpler ∈ (none : Option (Draw WordCircuit)), ∀ k, n ≤ k →
      simpler.Runs k True fun c m => c.Realizes m words G :=
  nofun

/-- A constant takes the place of a gate that gives it whatever the word is. -/
theorem shortcut_constant (r : e.circuit.Realizes n words F) {value : Int64}
    {G : (String → Word) → BitVec width} (same : ∀ env, BitVec.ofInt width value.toInt = G env) :
    ∀ simpler ∈ some (e.constantLike width value), ∀ k, n ≤ k →
      simpler.Runs k True fun c m => c.Realizes m words G := by
  rintro _ ⟨⟩ k hk
  exact (constantLike_runs (r.mono hk) width value).imp
    fun c m _ rc => rc.congr fun env _ => same env

/-- So does the word itself. -/
theorem shortcut_self (r : e.circuit.Realizes n words F) {G : (String → Word) → BitVec size}
    (same : ∀ env, F env = G env) : ∀ simpler ∈ some (pure e.circuit : Draw WordCircuit), ∀ k,
      n ≤ k → simpler.Runs k True fun c m => c.Realizes m words G := by
  intro simpler h k hk
  obtain rfl := Option.mem_some_iff.1 h
  exact .pure ((r.mono hk).congr fun env _ => same env)

/-- The opposite of a test. -/
theorem refute_builds {d : Draw Expression} {fits : Prop}
    {holds opposite : (String → Word) → Bool}
    (test : d.Builds n fits words (fun env => BitVec.ofBool (holds env)) false)
    (hopposite : ∀ env, (!holds env) = opposite env) :
    Builds (do (← d).not) n fits words (fun env => BitVec.ofBool (opposite env)) false := by
  refine test.bind id fun e k _ fit ⟨r, unsigned⟩ => ((not_builds r).given fit).imp
    fun e' m _ ⟨r', signed⟩ => ⟨r'.congr fun env _ => ?_, signed.trans unsigned⟩
  rw [← hopposite]
  cases holds env <;> rfl

variable (r : e.circuit.Realizes n words F)
  (operand : (e.operand other).Runs n True fun f k => f.circuit.Realizes k words' F')

include r operand

theorem add_builds :
    (e.add other).Builds n (size = size' ∧ Compatible words words') (words ++ words')
      (fun env => F env + (F' env).setWidth size) e.signed :=
  builds_of_runs _ (binary_runs r operand (WordGate.add_joins size) shortcut_none)

theorem sub_builds :
    (e.sub other).Builds n (size = size' ∧ Compatible words words') (words ++ words')
      (fun env => F env - (F' env).setWidth size) e.signed := by
  refine builds_of_runs _ (binary_runs r operand (WordGate.subtract_joins size) ?_)
  rw [size_eq r]
  exact shortcut_constant r fun env => by simp

theorem and_builds :
    (e.and other).Builds n (size = size' ∧ Compatible words words') (words ++ words')
      (fun env => F env &&& (F' env).setWidth size) e.signed :=
  builds_of_runs _ (binary_runs r operand (WordGate.bitwiseAnd_joins size)
    (shortcut_self r fun _ => BitVec.and_self.symm))

theorem or_builds :
    (e.or other).Builds n (size = size' ∧ Compatible words words') (words ++ words')
      (fun env => F env ||| (F' env).setWidth size) e.signed :=
  builds_of_runs _ (binary_runs r operand (WordGate.bitwiseOr_joins size)
    (shortcut_self r fun _ => BitVec.or_self.symm))

theorem xor_builds :
    (e.xor other).Builds n (size = size' ∧ Compatible words words') (words ++ words')
      (fun env => F env ^^^ (F' env).setWidth size) e.signed := by
  refine builds_of_runs _ (binary_runs r operand (WordGate.bitwiseXor_joins size) ?_)
  rw [size_eq r]
  exact shortcut_constant r fun env => by simp

theorem dot_builds :
    (e.dot other).Builds n (size = size' ∧ Compatible words words') (words ++ words')
      (fun env => BitVec.ofBool (Word.parity (F env &&& (F' env).setWidth size))) false := by
  refine builds_of_runs _ (binary_runs r operand (WordGate.dotMod2_joins size) ?_)
  rintro _ ⟨⟩ k hk
  refine (unary_runs WordGate.parity (r.mono hk) (WordGate.parity_maps size e.output)).imp
    fun c m _ rc => rc.congr fun env _ => ?_
  rw [BitVec.and_self]

theorem ne_builds :
    (e.ne other).Builds n (size = size' ∧ Compatible words words') (words ++ words')
      (fun env => BitVec.ofBool (F env != (F' env).setWidth size)) false :=
  builds_of_runs _ (binary_runs r operand (WordGate.ne_joins size)
    (shortcut_constant r fun env => by simp))

theorem le_builds :
    (e.le other).Builds n (size = size' ∧ Compatible words words') (words ++ words')
      (fun env => BitVec.ofBool (if e.signed then (F env).sle ((F' env).setWidth size)
        else (F env).ule ((F' env).setWidth size))) false := by
  unfold le
  cases e.signed
  · exact builds_of_runs _ (binary_runs r operand (WordGate.unsignedLe_joins size)
      (shortcut_constant r fun env => by simp [BitVec.ule]))
  · exact builds_of_runs _ (binary_runs r operand (WordGate.signedLe_joins size)
      (shortcut_constant r fun env => by simp [BitVec.sle]))

theorem ge_builds :
    (e.ge other).Builds n (size = size' ∧ Compatible words words') (words ++ words')
      (fun env => BitVec.ofBool (if e.signed then ((F' env).setWidth size).sle (F env)
        else ((F' env).setWidth size).ule (F env))) false := by
  unfold ge
  cases e.signed
  · exact builds_of_runs _ (binary_runs r operand (WordGate.unsignedGe_joins size)
      (shortcut_constant r fun env => by simp [BitVec.ule]))
  · exact builds_of_runs _ (binary_runs r operand (WordGate.signedGe_joins size)
      (shortcut_constant r fun env => by simp [BitVec.sle]))

theorem eq_builds :
    (e.eq other).Builds n (size = size' ∧ Compatible words words') (words ++ words')
      (fun env => BitVec.ofBool (F env == (F' env).setWidth size)) false :=
  refute_builds (ne_builds r operand) fun _ => Bool.not_not _

theorem lt_builds :
    (e.lt other).Builds n (size = size' ∧ Compatible words words') (words ++ words')
      (fun env => BitVec.ofBool (if e.signed then (F env).slt ((F' env).setWidth size)
        else (F env).ult ((F' env).setWidth size))) false := by
  refine refute_builds (ge_builds r operand) fun env => ?_
  cases e.signed
  · simp [BitVec.ule_eq_not_ult]
  · simp [BitVec.sle_eq_not_slt]

theorem gt_builds :
    (e.gt other).Builds n (size = size' ∧ Compatible words words') (words ++ words')
      (fun env => BitVec.ofBool (if e.signed then ((F' env).setWidth size).slt (F env)
        else ((F' env).setWidth size).ult (F env))) false := by
  refine refute_builds (le_builds r operand) fun env => ?_
  cases e.signed
  · simp [BitVec.ule_eq_not_ult]
  · simp [BitVec.sle_eq_not_slt]

end Binary

end Expression

end AndInverter
