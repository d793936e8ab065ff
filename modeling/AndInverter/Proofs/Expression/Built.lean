import AndInverter.Proofs.Expression.Operators

/-! Expressions built by the operators, in any order and with any sharing. Each of them is compiled
from a term, takes the words of the term and gives the number that the term stands for. -/

namespace AndInverter

/-- Names that may be drawn. -/
def Draw.Reserved (name : String) : Prop := ∃ n, name = Draw.freshName n

theorem Draw.old_of_not_reserved {name : String} (free : ¬ Draw.Reserved name) (n : Nat) :
    Draw.Old n name :=
  fun k _ h => free ⟨k, h⟩

theorem Word.eq_wrap_of_encode {width : Nat} {value : Int64} {signed : Bool} {word : Word}
    (h : encode width value signed = .ok word) : word = wrap width value := by
  unfold encode at h
  split at h
  · cases h
  · split at h
    · cases h
      rfl
    · cases h

namespace Expression

open Draw (Builds Old Reserved freshName)

variable {e f g : Expression} {n k size size' width : Nat} {words words' : List (String × Nat)}
  {F : (String → Word) → BitVec size} {F' : (String → Word) → BitVec size'} {signed : Bool}

/-! ### Atoms and operands -/

theorem identity_builds (input : String) {output : String} (old : Old n output) (width : Nat)
    (signed : Bool) :
    Builds (do return ⟨← WordGate.identity width input output, signed⟩) n True [(input, width)]
      (fun env => (env input).toBitVec width) signed := by
  obtain ⟨c, hc, gives⟩ := WordGate.identity_maps width input output
  refine Draw.lift_bind hc (.pure ⟨.of_gives gives old fun name size => ?_, rfl⟩)
  rw [NameMap.getElem?_singleton, List.mem_singleton, Prod.mk.injEq]
  split
  next heq => simp [heq, eq_comm]
  next hne => simp [hne]

theorem atom_name_builds (input : String) (width : Nat) (signed : Bool) :
    (atom width (.name input) signed).Builds n True [(input, width)]
      (fun env => (env input).toBitVec width) signed :=
  Draw.fresh_bind (identity_builds input (Draw.old_freshName n) width signed)

theorem atom_fresh_builds (width : Nat) (signed : Bool) :
    (atom width .fresh signed).Builds n True [(freshName (n + 1), width)]
      (fun env => (env (freshName (n + 1))).toBitVec width) signed :=
  Draw.fresh_bind (Draw.fresh_bind (identity_builds (freshName (n + 1))
    ((Draw.old_freshName n).mono (Nat.le_succ _)) width signed))

theorem sourceBits_builds {output : String} (old : Old n output) (width : Nat) (value : Int64)
    (signed : Bool) :
    Builds (do return ⟨← WordGate.sourceBits output (Word.wrap width value), signed⟩) n True []
      (fun _ => BitVec.ofInt width value.toInt) signed := by
  obtain ⟨c, hc, gives⟩ := WordGate.sourceBits_gives output (Word.wrap width value)
  rw [Word.wrap_eq, Word.length_ofBitVec] at gives
  exact Draw.lift_bind hc (.pure ⟨.of_gives gives old (by simp), rfl⟩)

theorem atom_int_builds (width : Nat) (value : Int64) (signed : Bool) :
    (atom width (.int value) signed).Builds n (∃ word, Word.encode width value signed = .ok word) []
      (fun _ => BitVec.ofInt width value.toInt) signed := by
  refine Draw.fresh_bind ?_
  cases hword : Word.encode width value signed with
  | ok word =>
    obtain rfl := Word.eq_wrap_of_encode hword
    simp only [hword]
    exact (sourceBits_builds (Draw.old_freshName n) width value signed).given ⟨_, rfl⟩
  | error cause =>
    simp only [hword]
    exact Draw.throw_runs trivial (by simp)

theorem operand_expression_runs (r : f.circuit.Realizes n words' F') :
    (e.operand (.expression f)).Runs n True fun f k => f.circuit.Realizes k words' F' :=
  .pure r

theorem operand_int_runs (r : e.circuit.Realizes n words F) (value : Int64) :
    (e.operand (.int value)).Runs n True fun f k =>
      f.circuit.Realizes k [] fun _ => BitVec.ofInt size value.toInt := by
  refine Draw.fresh_bind ?_
  have built := sourceBits_builds (Draw.old_freshName n) e.size value e.signed
  rw [size_eq r] at built ⊢
  exact built.imp fun _ _ _ post => post.1

end Expression

theorem UnaryOp.apply_builds {e : Expression} {n size : Nat} {words : List (String × Nat)}
    {F : (String → Word) → BitVec size} (r : e.circuit.Realizes n words F) (op : UnaryOp) :
    (op.apply e).Builds n (op.Fits size) words (fun env => op.compute e.signed (F env))
      (op.signed e.signed) := by
  cases op with
  | bit index => exact Expression.bit_builds r index
  | slice start stop => exact Expression.slice_builds r start stop
  | copies times => exact Expression.copies_builds r times
  | not => exact Expression.not_builds r
  | neg => exact Expression.neg_builds r
  | abs => exact Expression.abs_builds r
  | shiftLeft shift => exact Expression.shiftLeft_builds r shift
  | shiftRight shift => exact Expression.shiftRight_builds r shift

theorem BinaryOp.apply_builds {e : Expression} {other : Operand} {n size size' : Nat}
    {words words' : List (String × Nat)} {F : (String → Word) → BitVec size}
    {F' : (String → Word) → BitVec size'} (r : e.circuit.Realizes n words F)
    (operand : (e.operand other).Runs n True fun f k => f.circuit.Realizes k words' F')
    (op : BinaryOp) :
    (op.apply e other).Builds n (size = size' ∧ Expression.Compatible words words') (words ++ words')
      (fun env => op.denote e.signed (F env) ((F' env).setWidth size)) (op.signed e.signed) := by
  cases op with
  | add => exact Expression.add_builds r operand
  | sub => exact Expression.sub_builds r operand
  | and => exact Expression.and_builds r operand
  | or => exact Expression.or_builds r operand
  | xor => exact Expression.xor_builds r operand
  | dot => exact Expression.dot_builds r operand
  | eq => exact Expression.eq_builds r operand
  | ne => exact Expression.ne_builds r operand
  | lt => exact Expression.lt_builds r operand
  | le => exact Expression.le_builds r operand
  | gt => exact Expression.gt_builds r operand
  | ge => exact Expression.ge_builds r operand

namespace Expression

open Draw (Old Reserved freshName)

/-- The expression was built from the term with a count below `n`. An expression may be used any
number of times, and the words that atoms and outputs are named after are not those that are drawn. -/
inductive Built : Nat → Term → Expression → Prop where
  | name {n k width : Nat} {input : String} {signed : Bool} {e : Expression}
      (free : ¬ Reserved input) (run : (atom width (.name input) signed).result n = (.ok e, k)) :
      Built k (.input input width signed) e
  | fresh {n k width : Nat} {signed : Bool} {e : Expression}
      (run : (atom width .fresh signed).result n = (.ok e, k)) :
      Built k (.input (freshName (n + 1)) width signed) e
  | int {n k width : Nat} {value : Int64} {signed : Bool} {e : Expression}
      (run : (atom width (.int value) signed).result n = (.ok e, k)) :
      Built k (.const width value signed) e
  | withOutput {n : Nat} {t : Term} {e : Expression} (built : Built n t e) {name : String}
      (free : ¬ Reserved name) : Built n t (e.withOutput name)
  | unary {n k : Nat} {t : Term} {e e' : Expression} (built : Built n t e) {op : UnaryOp}
      (run : (op.apply e).result n = (.ok e', k)) : Built k (.unary op t) e'
  | binary {n k : Nat} {t u : Term} {e f e' : Expression} (left : Built n t e) (right : Built n u f)
      {op : BinaryOp} (run : (op.apply e (.expression f)).result n = (.ok e', k)) :
      Built k (.binary op t u) e'
  | binaryInt {n k : Nat} {t : Term} {e e' : Expression} (built : Built n t e) {op : BinaryOp}
      {value : Int64} (run : (op.apply e (.int value)).result n = (.ok e', k)) :
      Built k (.binary op t (.const t.size value t.signed)) e'
  | concat {n k : Nat} {t u : Term} {e f e' : Expression} (left : Built n t e) (right : Built n u f)
      (run : (e.concat f).result n = (.ok e', k)) : Built k (.concat t u) e'
  | ite {n k : Nat} {s t u : Term} {e f g e' : Expression} (test : Built n s e) (left : Built n t f)
      (right : Built n u g) (run : (Expression.ite e f g).result n = (.ok e', k)) :
      Built k (.ite s t u) e'
  | later {n k : Nat} {t : Term} {e : Expression} (built : Built n t e) (le : n ≤ k) : Built k t e

variable {e : Expression} {n : Nat} {t : Term}

/-- The expression takes the words of the term. It gives the number of the term, unless a right shift
reads a position that is out of range. -/
theorem Built.exists_realizes (built : Built n t e) :
    ∃ F : (String → Word) → BitVec t.size, e.circuit.Realizes n t.inputs F ∧ e.signed = t.signed ∧
      (t.ShiftsFit → ∀ env, F env = t.denote env) := by
  induction built with
  | name _ run =>
    obtain ⟨-, r, signed⟩ := (atom_name_builds _ _ _).elim run
    exact ⟨_, r, signed, fun _ _ => rfl⟩
  | fresh run =>
    obtain ⟨-, r, signed⟩ := (atom_fresh_builds _ _).elim run
    exact ⟨_, r, signed, fun _ _ => rfl⟩
  | int run =>
    obtain ⟨-, r, signed⟩ := (atom_int_builds _ _ _).elim run
    exact ⟨_, r, signed, fun _ _ => rfl⟩
  | withOutput _ free ih =>
    obtain ⟨F, r, signed, value⟩ := ih
    exact ⟨F, (withOutput_realizes r (Draw.old_of_not_reserved free _)).1, signed, value⟩
  | @unary _ _ t _ _ _ op run ih =>
    obtain ⟨F, r, signed, value⟩ := ih
    obtain ⟨-, r', signed'⟩ := (op.apply_builds r).elim run
    refine ⟨_, r', signed'.trans (congrArg (op.signed ·) signed), fun fits env => ?_⟩
    rw [UnaryOp.compute_eq fits.1, value fits.2, signed, Term.denote]
  | @binary _ _ t u _ _ _ _ _ op run ihl ihr =>
    obtain ⟨F, r, signed, value⟩ := ihl
    obtain ⟨F', r', -, value'⟩ := ihr
    obtain ⟨-, r'', signed'⟩ := (op.apply_builds r (operand_expression_runs r')).elim run
    refine ⟨_, r'', signed'.trans (congrArg (op.signed ·) signed), fun fits env => ?_⟩
    rw [value fits.1, value' fits.2, signed, Term.denote]
  | @binaryInt _ _ t _ _ _ op number run ih =>
    obtain ⟨F, r, signed, value⟩ := ih
    obtain ⟨-, r', signed'⟩ := (op.apply_builds r (operand_int_runs r number)).elim run
    refine ⟨_, r', signed'.trans (congrArg (op.signed ·) signed), fun fits env => ?_⟩
    rw [value fits.1, signed, Term.denote, Term.denote]
    rfl
  | concat _ _ run ihl ihr =>
    obtain ⟨F, r, signed, value⟩ := ihl
    obtain ⟨F', r', -, value'⟩ := ihr
    obtain ⟨-, r'', signed'⟩ := (concat_builds r r').elim run
    refine ⟨_, r'', signed'.trans signed, fun fits env => ?_⟩
    rw [value fits.1, value' fits.2, Term.denote]
  | ite _ _ _ run ihs iht ihu =>
    obtain ⟨F, r, -, value⟩ := ihs
    obtain ⟨F', r', signed, value'⟩ := iht
    obtain ⟨F'', r'', -, value''⟩ := ihu
    obtain ⟨-, built, signed'⟩ := (ite_builds r r' r'').elim run
    refine ⟨_, built, signed'.trans signed, fun fits env => ?_⟩
    rw [value fits.1, value' fits.2.1, value'' fits.2.2]
    rfl
  | later _ le ih =>
    obtain ⟨F, r, rest⟩ := ih
    exact ⟨F, r.mono le, rest⟩

end Expression

end AndInverter
