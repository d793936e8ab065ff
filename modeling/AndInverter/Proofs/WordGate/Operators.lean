import AndInverter.Proofs.WordGate.Basic
import AndInverter.WordGate.Arithmetic
import AndInverter.WordGate.Compare
import AndInverter.WordGate.Logic

/-! Gates for logic, arithmetic and comparisons compute the operations of numbers of fixed size. -/

namespace AndInverter.WordGate

variable {g : Graph} {width : Nat} {input left right output : String}

theorem single_runs {bit : Build Literal} {f : (Nat → Bool) → Bool}
    (runs : bit.Runs g fun l h => h.Computes l f ∧ g.SameNames h) :
    (single bit).Runs g fun ls h => h.ComputesWord ls (fun v => [f v]) ∧ g.SameNames h :=
  runs.bind fun _ _ wf _ ⟨comp, same⟩ => .pure wf ⟨Graph.computesWord_nil.cons comp, same⟩

/-! ### Logic -/

theorem bitwiseAnd_joins (width : Nat) (left right output : String) :
    Joins (bitwiseAnd width left right output) left right output
      fun x y : BitVec width => x &&& y :=
  binary_joins (fun wf _ _ hxs hys => Build.bitwise_runs (fun _ => (· && ·))
    (fun wf' _ ha hb => Build.and_runs wf' ha hb) wf hxs hys) Word.zipWith_and_ofBitVec

theorem bitwiseOr_joins (width : Nat) (left right output : String) :
    Joins (bitwiseOr width left right output) left right output
      fun x y : BitVec width => x ||| y :=
  binary_joins (fun wf _ _ hxs hys => Build.bitwise_runs (fun _ => (· || ·))
    (fun wf' _ ha hb => Build.or_runs wf' ha hb) wf hxs hys) Word.zipWith_or_ofBitVec

theorem bitwiseXor_joins (width : Nat) (left right output : String) :
    Joins (bitwiseXor width left right output) left right output
      fun x y : BitVec width => x ^^^ y :=
  binary_joins (fun wf _ _ hxs hys => Build.bitwise_runs (fun _ => (· ^^ ·))
    (fun wf' _ ha hb => Build.xor_runs wf' ha hb) wf hxs hys) Word.zipWith_xor_ofBitVec

theorem bitwiseNegate_maps (width : Nat) (input output : String) :
    Maps (bitwiseNegate width input output) input output fun x : BitVec width => ~~~x := by
  refine unary_maps (fun {g xs} wf _ has => ?_) Word.map_not_ofBitVec
  exact .pure wf ⟨(Graph.computesWord_self has).neg, .refl g⟩

theorem andAll_runs (wf : g.WellFormed) {xs : List Literal} (has : ∀ x ∈ xs, g.Has x) :
    (Build.andAll xs).Runs g fun l h =>
      h.Computes l (fun v => (xs.map (·.under v)).foldl (· && ·) true) ∧ g.SameNames h :=
  Build.foldGate_runs (fun wf' ha hb => Build.and_runs wf' ha hb) wf has true

theorem orAll_runs (wf : g.WellFormed) {xs : List Literal} (has : ∀ x ∈ xs, g.Has x) :
    (Build.orAll xs).Runs g fun l h =>
      h.Computes l (fun v => (xs.map (·.under v)).foldl (· || ·) false) ∧ g.SameNames h :=
  Build.foldGate_runs (fun wf' ha hb => Build.or_runs wf' ha hb) wf has false

theorem reduceAnd_maps (width : Nat) (input output : String) :
    Maps (reduceAnd width input output) input output
      fun x : BitVec width => BitVec.ofBool ((Word.ofBitVec x).all id) := by
  refine unary_maps (f := fun x => [x.foldl (· && ·) true])
    (fun wf _ has => single_runs (andAll_runs wf has)) fun x => ?_
  rw [Word.foldl_and, Bool.true_and, Word.ofBitVec_ofBool]

theorem reduceOr_maps (width : Nat) (input output : String) :
    Maps (reduceOr width input output) input output
      fun x : BitVec width => BitVec.ofBool ((Word.ofBitVec x).any id) := by
  refine unary_maps (f := fun x => [x.foldl (· || ·) false])
    (fun wf _ has => single_runs (orAll_runs wf has)) fun x => ?_
  rw [Word.foldl_or, Bool.false_or, Word.ofBitVec_ofBool]

theorem isZero_maps (width : Nat) (input output : String) :
    Maps (isZero width input output) input output
      fun x : BitVec width => BitVec.ofBool !(Word.ofBitVec x).any id := by
  refine unary_maps (f := fun x => [!x.foldl (· || ·) false]) (fun wf _ has => single_runs ?_)
    fun x => ?_
  · exact (orAll_runs wf has).bind fun l h wf' _ ⟨comp, same⟩ => .pure wf' ⟨comp.neg, same⟩
  · rw [Word.foldl_or, Bool.false_or, Word.ofBitVec_ofBool]

/-- The number of bits set in a list, modulo two. -/
theorem xorAll_runs (wf : g.WellFormed) {xs : List Literal} (has : ∀ x ∈ xs, g.Has x) :
    (Build.xorAll xs).Runs g fun l h =>
      h.Computes l (fun v => (xs.map (·.under v)).foldl (· ^^ ·) false) ∧ g.SameNames h :=
  Build.foldGate_runs (fun wf' ha hb => Build.xor_runs wf' ha hb) wf has false

theorem parity_maps (width : Nat) (input output : String) :
    Maps (parity width input output) input output
      fun x : BitVec width => BitVec.ofBool (Word.parity x) := by
  refine unary_maps (f := fun x => [x.foldl (· ^^ ·) false])
    (fun wf _ has => single_runs (xorAll_runs wf has)) fun x => ?_
  rw [Word.foldl_xor_ofBitVec, Word.ofBitVec_ofBool]

theorem dotMod2_joins (width : Nat) (left right output : String) :
    Joins (dotMod2 width left right output) left right output
      fun x y : BitVec width => BitVec.ofBool (Word.parity (x &&& y)) := by
  refine binary_joins
    (f := fun x y => [(List.zipWith (· && ·) x y).foldl (· ^^ ·) false])
    (fun {g xs ys} wf _ _ hxs hys => single_runs ?_) fun x y => ?_
  · refine (Build.bitwise_runs (fun _ => (· && ·)) (fun wf' _ ha hb => Build.and_runs wf' ha hb) wf
      hxs hys).bind fun ls h wf' ext ⟨comp, same⟩ => ?_
    refine (xorAll_runs wf' comp.1).imp fun l h' _ ext' ⟨comp', same'⟩ =>
      ⟨comp'.congr fun v hv => ?_, same.trans same'⟩
    rw [comp.2 v (ext'.solution hv)]
  · rw [Word.zipWith_and_ofBitVec, Word.foldl_xor_ofBitVec, Word.ofBitVec_ofBool]

/-- The gate that chooses between two words. These may be the word of the test if they are one bit. -/
theorem mux_gives (width : Nat) {test left right : String} (output : String)
    (hleft : left = test → width = 1) (hright : right = test → width = 1) :
    ∃ c, mux width test left right output = .ok c ∧
      c.Gives ((((∅ : Bundle).insert test 1).insert left width).insert right width)
        ((∅ : Bundle).insert output width) fun env _ => Word.ofBitVec
          (if (env test).toBitVec 1 = 1#1 then (env left).toBitVec width
            else (env right).toBitVec width) := by
  refine WordBuild.circuit_gives ?_
  refine (WordBuild.firstInput_runs test 1).bind fun ts c exact _ post => ?_
  obtain ⟨hin, hout, hts, carriesT⟩ := post
  obtain ⟨t, rfl⟩ := List.length_eq_one_iff.1 hts
  refine (WordBuild.Runs.lift exact (a := t) rfl).bind ?_
  rintro _ _ - - ⟨rfl, rfl⟩
  have agreeT {name : String} (small : name = test → width = 1) (old : Nat)
      (hold : ((∅ : Bundle).insert test 1)[name]? = some old) : old = width := by
    rw [NameMap.getElem?_singleton] at hold
    split at hold
    next heq => rw [small heq, Option.some.inj hold]
    next => cases hold
  have agreeX := hin ▸ agreeT hleft
  refine (WordBuild.input_runs exact agreeX).bind fun xs d exact' ext post => ?_
  obtain ⟨hin', hout', _, hxs, carriesX⟩ := post
  have agree (old : Nat) (hold : d.inputs[right]? = some old) : old = width := by
    rw [hin', NameMap.getElem?_insert] at hold
    split at hold
    next => exact (Option.some.inj hold).symm
    next => exact agreeT hright old (hin ▸ hold)
  refine (WordBuild.input_runs exact' agree).bind
    fun ys e exact'' ext' post => ?_
  obtain ⟨hin'', hout'', _, hys, carriesY⟩ := post
  have carriesT' := (carriesT.insert ext agreeX hin').insert ext' agree hin''
  have carriesX' := carriesX.insert ext' agree hin''
  have run := Build.muxes_runs exact''.wf (hxs.trans hys.symm)
    (carriesT'.has exact'' _ (List.mem_singleton_self _)) (carriesX'.has exact'')
    (carriesY.has exact'')
  refine (WordBuild.outputBits_runs exact'' (hout''.trans (hout'.trans hout)) output run
    fun v env henv => ?_).imp fun _ k _ _ post => ⟨?_, post.2⟩
  · rw [carriesT'.eq_env henv, carriesX'.eq_env henv, carriesY.eq_env henv,
      apply_ite Word.ofBitVec, Word.ofBitVec_toBitVec (by simp [hxs]),
      Word.ofBitVec_toBitVec (by simp [hys])]
    simp only [List.map_cons, List.map_nil, Word.toBitVec_singleton_eq_one_iff]
  · rw [post.1, hin'', hin', hin]

/-! ### Arithmetic -/

/-- Without a word for the carry only the sum is left. -/
theorem withCarry_eq_binary (sum : List Literal → List Literal → Build (List Literal × Literal)) :
    withCarry width left right output false sum =
      binary width left right output fun xs ys => do return (← sum xs ys).1 := by
  simp only [withCarry, binary, WordBuild.bits_bind, WordBuild.bits_pure, bind_assoc, pure_bind,
    Bool.false_eq_true, if_false, bind_pure_unit]

theorem add_joins (width : Nat) (left right output : String) :
    Joins (add width left right output false) left right output
      fun x y : BitVec width => x + y := by
  rw [add, withCarry_eq_binary]
  refine binary_joins (f := fun x y => (Word.addCarry x y false).1)
    (fun {g xs ys} wf _ _ hxs hys => ?_) Word.add_ofBitVec
  refine (Build.rippleAdd_runs wf hxs hys (wf.computes_ofBool false).1).bind
    fun r h wf' ext ⟨comp, _, same⟩ => .pure wf' ⟨comp.congr fun v hv => ?_, same⟩
  rw [hv.under_ofBool]

theorem subtract_joins (width : Nat) (left right output : String) :
    Joins (subtract width left right output false) left right output
      fun x y : BitVec width => x - y := by
  rw [subtract, withCarry_eq_binary]
  refine binary_joins (f := fun x y => (Word.addCarry x (y.map (!·)) true).1)
    (fun {g xs ys} wf _ _ hxs hys => ?_) Word.subtract_ofBitVec
  exact (Build.rippleSub_runs wf hxs hys).bind
    fun r h wf' _ ⟨comp, _, same⟩ => .pure wf' ⟨comp, same⟩

theorem negate_maps (width : Nat) (input output : String) :
    Maps (negate width input output) input output fun x : BitVec width => -x := by
  refine unary_maps
    (f := fun x => (Word.addCarry (List.replicate x.length false) (x.map (!·)) true).1)
    (fun {g xs} wf _ has => ?_) fun x => ?_
  · refine (Build.negative_runs wf has).imp fun ls h _ _ ⟨comp, same⟩ =>
      ⟨comp.congr fun v _ => ?_, same⟩
    rw [List.length_map]
  · rw [Word.length_ofBitVec, Word.negative_ofBitVec]

theorem inc_maps (width : Nat) (input output : String) :
    Maps (inc width input output) input output fun x : BitVec width => x + 1 := by
  refine unary_maps (f := fun x => (Word.addCarry x (List.replicate x.length false) true).1)
    (fun {g xs} wf _ has => ?_) fun x => ?_
  · have zeros := wf.computesWord_replicate xs.length false
    refine (Build.rippleAdd_runs wf has zeros.1 (wf.computes_ofBool true).1).bind
      fun r h wf' ext ⟨comp, _, same⟩ => .pure wf' ⟨comp.congr fun v hv => ?_, same⟩
    rw [hv.under_ofBool, zeros.2 v (ext.solution hv), List.length_map]
  · rw [Word.length_ofBitVec, Word.increment_ofBitVec]

theorem dec_maps (width : Nat) (input output : String) :
    Maps (dec width input output) input output fun x : BitVec width => x - 1 := by
  refine unary_maps (f := fun x => (Word.addCarry x (List.replicate x.length true) false).1)
    (fun {g xs} wf _ has => ?_) fun x => ?_
  · have ones := wf.computesWord_replicate xs.length true
    refine (Build.rippleAdd_runs wf has ones.1 (wf.computes_ofBool false).1).bind
      fun r h wf' ext ⟨comp, _, same⟩ => .pure wf' ⟨comp.congr fun v hv => ?_, same⟩
    rw [hv.under_ofBool, ones.2 v (ext.solution hv), List.length_map]
  · rw [Word.length_ofBitVec, Word.decrement_ofBitVec]

theorem abs_maps (width : Nat) (input output : String) :
    Maps (abs width input output) input output fun x : BitVec width => x.abs :=
  unary_maps (fun wf _ has => Build.magnitude_runs wf has) Word.absolute_ofBitVec

/-! ### Comparisons -/

/-- The gate for a comparison. -/
theorem test_joins {holds : List Literal → List Literal → Build Literal}
    {f : Word → Word → Bool} {op : BitVec width → BitVec width → Bool}
    (runs : ∀ {g : Graph} {xs ys : List Literal}, g.WellFormed → xs.length = ys.length →
      (∀ x ∈ xs, g.Has x) → (∀ y ∈ ys, g.Has y) → (holds xs ys).Runs g fun l h =>
        h.Computes l (fun v => f (xs.map (·.under v)) (ys.map (·.under v))) ∧ g.SameNames h)
    (hop : ∀ x y, f (Word.ofBitVec x) (Word.ofBitVec y) = op x y) :
    Joins (test width left right output holds) left right output
      fun x y => BitVec.ofBool (op x y) := by
  refine binary_joins (f := fun x y => [f x y])
    (fun {g xs ys} wf hx hy hxs hys => single_runs (runs wf (hx.trans hy.symm) hxs hys))
    fun x y => ?_
  rw [hop, Word.ofBitVec_ofBool]

/-- The gate for the opposite of a comparison. -/
theorem refute_joins {holds : List Literal → List Literal → Build Literal}
    {f : Word → Word → Bool} {op : BitVec width → BitVec width → Bool}
    (runs : ∀ {g : Graph} {xs ys : List Literal}, g.WellFormed → xs.length = ys.length →
      (∀ x ∈ xs, g.Has x) → (∀ y ∈ ys, g.Has y) → (holds xs ys).Runs g fun l h =>
        h.Computes l (fun v => f (xs.map (·.under v)) (ys.map (·.under v))) ∧ g.SameNames h)
    (hop : ∀ x y, (!f (Word.ofBitVec x) (Word.ofBitVec y)) = op x y) :
    Joins (refute width left right output holds) left right output
      fun x y => BitVec.ofBool (op x y) := by
  refine binary_joins (f := fun x y => [!f x y])
    (fun {g xs ys} wf hx hy hxs hys => single_runs ?_) fun x y => ?_
  · exact (runs wf (hx.trans hy.symm) hxs hys).bind
      fun l h wf' _ ⟨comp, same⟩ => .pure wf' ⟨comp.neg, same⟩
  · rw [hop, Word.ofBitVec_ofBool]

theorem eq_joins (width : Nat) (left right output : String) :
    Joins (eq width left right output) left right output
      fun x y : BitVec width => BitVec.ofBool (x == y) := by
  refine test_joins (f := fun x y => decide (x = y))
    (fun wf size hxs hys => Build.equal_runs wf size hxs hys) fun x y => ?_
  rw [decide_eq_decide.2 Word.ofBitVec_inj]
  rfl

theorem ne_joins (width : Nat) (left right output : String) :
    Joins (ne width left right output) left right output
      fun x y : BitVec width => BitVec.ofBool (x != y) := by
  refine refute_joins (f := fun x y => decide (x = y))
    (fun wf size hxs hys => Build.equal_runs wf size hxs hys) fun x y => ?_
  rw [decide_eq_decide.2 Word.ofBitVec_inj]
  rfl

theorem unsignedLt_joins (width : Nat) (left right output : String) :
    Joins (unsignedLt width left right output) left right output
      fun x y : BitVec width => BitVec.ofBool (x.ult y) :=
  test_joins (f := Word.less) (fun wf _ hxs hys => Build.lessUnsigned_runs wf hxs hys)
    Word.less_ofBitVec

theorem unsignedGt_joins (width : Nat) (left right output : String) :
    Joins (unsignedGt width left right output) left right output
      fun x y : BitVec width => BitVec.ofBool (y.ult x) :=
  test_joins (f := fun x y => Word.less y x)
    (fun wf _ hxs hys => Build.lessUnsigned_runs wf hys hxs) fun x y => Word.less_ofBitVec y x

theorem unsignedLe_joins (width : Nat) (left right output : String) :
    Joins (unsignedLe width left right output) left right output
      fun x y : BitVec width => BitVec.ofBool (x.ule y) := by
  refine refute_joins (f := fun x y => Word.less y x)
    (fun wf _ hxs hys => Build.lessUnsigned_runs wf hys hxs) fun x y => ?_
  rw [Word.less_ofBitVec, BitVec.ule_eq_not_ult]

theorem unsignedGe_joins (width : Nat) (left right output : String) :
    Joins (unsignedGe width left right output) left right output
      fun x y : BitVec width => BitVec.ofBool (y.ule x) := by
  refine refute_joins (f := Word.less)
    (fun wf _ hxs hys => Build.lessUnsigned_runs wf hxs hys) fun x y => ?_
  rw [Word.less_ofBitVec, BitVec.ule_eq_not_ult]

theorem signedLt_joins (width : Nat) (left right output : String) :
    Joins (signedLt width left right output) left right output
      fun x y : BitVec width => BitVec.ofBool (x.slt y) :=
  test_joins (f := Word.signedLess) (fun wf _ hxs hys => Build.lessSigned_runs wf hxs hys)
    Word.signedLess_ofBitVec

theorem signedGt_joins (width : Nat) (left right output : String) :
    Joins (signedGt width left right output) left right output
      fun x y : BitVec width => BitVec.ofBool (y.slt x) :=
  test_joins (f := fun x y => Word.signedLess y x)
    (fun wf _ hxs hys => Build.lessSigned_runs wf hys hxs) fun x y => Word.signedLess_ofBitVec y x

theorem signedLe_joins (width : Nat) (left right output : String) :
    Joins (signedLe width left right output) left right output
      fun x y : BitVec width => BitVec.ofBool (x.sle y) := by
  refine refute_joins (f := fun x y => Word.signedLess y x)
    (fun wf _ hxs hys => Build.lessSigned_runs wf hys hxs) fun x y => ?_
  rw [Word.signedLess_ofBitVec, BitVec.sle_eq_not_slt]

theorem signedGe_joins (width : Nat) (left right output : String) :
    Joins (signedGe width left right output) left right output
      fun x y : BitVec width => BitVec.ofBool (y.sle x) := by
  refine refute_joins (f := Word.signedLess)
    (fun wf _ hxs hys => Build.lessSigned_runs wf hxs hys) fun x y => ?_
  rw [Word.signedLess_ofBitVec, BitVec.sle_eq_not_slt]

end AndInverter.WordGate
