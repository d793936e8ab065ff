import AndInverter.Proofs.Expression.Realize

/-! Expressions brought together under a gate. A name that would clash is replaced by a drawn one, so
the gate reads the words that it should. They come together just where they agree on the sizes of the
words that they share. -/

namespace AndInverter

open Draw (Old freshName)

namespace Expression

variable {e f g : Expression} {n size size' size'' width : Nat}
  {words words' words'' : List (String × Nat)}
  {F : (String → Word) → BitVec size} {F' : (String → Word) → BitVec size'}
  {F'' : (String → Word) → BitVec size''}

/-- The circuit has these words side by side as its output, and the inputs of all. -/
structure Beside (c : WordCircuit) (words : List (String × Nat)) (outputs : Bundle)
    (G : (String → Word) → String → Word) : Prop where
  gives : c.Gives c.inputs outputs G
  inputs : ∀ (name : String) size, c.inputs[name]? = some size ↔ (name, size) ∈ words

/-- No word is in both lists with different sizes. -/
def Compatible (words words' : List (String × Nat)) : Prop :=
  ∀ (name : String) i j, (name, i) ∈ words → (name, j) ∈ words' → i = j

theorem compatible_nil (words : List (String × Nat)) : Compatible words [] := by
  simp [Compatible]

theorem nil_compatible (words : List (String × Nat)) : Compatible [] words := by
  simp [Compatible]

theorem compatible_append_iff : Compatible (words ++ words') words'' ↔
    Compatible words words'' ∧ Compatible words' words'' := by
  simp only [Compatible, List.mem_append, or_imp, forall_and]

/-- Lists of the words of two bundles. -/
theorem compatible_iff {a b : Bundle}
    (ha : ∀ (name : String) size, a[name]? = some size ↔ (name, size) ∈ words)
    (hb : ∀ (name : String) size, b[name]? = some size ↔ (name, size) ∈ words') :
    Compatible words words' ↔ a.Agree b := by
  simp only [Compatible, Bundle.Agree, ha, hb]

/-- An expression has each word in one size. -/
theorem compatible_self (r : e.circuit.Realizes n words F) : Compatible words words :=
  (compatible_iff r.inputs r.inputs).2 fun _ _ _ hi hj => Option.some.inj (hi.symm.trans hj)

theorem attach_eq (c : WordCircuit) (taken : List String) (e : Expression) :
    attach c taken e =
      (if taken.contains e.output then e.withOutput <$> Draw.fresh else pure e) >>= fun e =>
        if !c.inputs.agreesWith e.circuit.inputs then throw (.violated .sharedInputSizes)
        else liftM (c.beside e.circuit) >>= fun d => pure (d, e.output) := by
  unfold attach
  split <;> rfl

/-- An expression gets a name that is not taken. -/
theorem rename_runs {taken : List String} (r : e.circuit.Realizes n words F)
    (old : ∀ name ∈ taken, Old n name) :
    Draw.Runs (if taken.contains e.output then e.withOutput <$> Draw.fresh else pure e) n True
      fun e' k => e'.circuit.Realizes k words F ∧ e'.output ∉ taken := by
  split
  · refine Draw.fresh_bind ?_
    obtain ⟨r', output⟩ := withOutput_realizes (r.mono (Nat.le_succ n)) (Draw.old_freshName n)
    refine .pure ⟨r', ?_⟩
    rw [output]
    exact fun hmem => (old _ hmem).ne_freshName rfl
  next free => exact .pure ⟨r, by simpa using free⟩

/-- An expression put beside a circuit whose output words are the taken ones. -/
theorem attach_runs {c : WordCircuit} {outputs : Bundle} {G : (String → Word) → String → Word}
    {taken : List String} (beside : Beside c words outputs G)
    (r : e.circuit.Realizes n words' F) (same : ∀ name, name ∈ taken ↔ name ∈ outputs)
    (old : ∀ name ∈ taken, Old n name) :
    (attach c taken e).Runs n (Compatible words words') fun s k => s.2 ∉ outputs ∧ Old k s.2 ∧
      Beside s.1 (words ++ words') (outputs.insert s.2 size)
        fun env m => if m = s.2 then Word.ofBitVec (F env) else G env m := by
  rw [attach_eq]
  refine (rename_runs r old).bind (fun _ => trivial) fun e' k _ _ ⟨r', apart⟩ => ?_
  rw [same] at apart
  obtain ⟨old', gives⟩ := gives_output r'
  rw [compatible_iff beside.inputs r'.inputs, ← Bundle.agreesWith_iff]
  split
  next clash => exact Draw.throw_runs trivial (by simpa using clash)
  next agrees =>
    replace agrees : c.inputs.agreesWith e'.circuit.inputs = true := by simpa using agrees
    have agree := Bundle.agreesWith_iff.1 agrees
    obtain ⟨d, hd, dgives⟩ := beside.gives.exists_beside gives agree
      fun m hm hm' => apart (NameMap.mem_singleton_iff.1 hm' ▸ hm)
    refine Draw.lift_bind hd ((Draw.Runs.pure ⟨apart, old', ⟨?_, fun name size => ?_⟩⟩).given agrees)
    · rw [dgives.inputs]
      simpa only [NameMap.mem_singleton_iff, NameMap.merge_singleton] using dgives
    · rw [dgives.inputs, Bundle.getElem?_merge_eq_some_iff agree, beside.inputs, r'.inputs,
        List.mem_append]

/-- Two expressions side by side. -/
theorem pair_runs (r : e.circuit.Realizes n words F) (r' : f.circuit.Realizes n words' F') :
    (pair e f).Runs n (Compatible words words') fun s k => s.2.2 ≠ s.2.1 ∧ Old k s.2.1 ∧ Old k s.2.2 ∧
      Beside s.1 (words ++ words') (((∅ : Bundle).insert s.2.1 size).insert s.2.2 size')
        fun env m => if m = s.2.2 then Word.ofBitVec (F' env) else Word.ofBitVec (F env) := by
  have empty : Beside .empty [] ∅ fun env _ => Word.ofBitVec (F env) :=
    ⟨WordCircuit.gives_empty _, by simp [WordCircuit.empty]⟩
  refine (attach_runs empty r (by simp) (by simp)).bind (fun _ => nil_compatible words) ?_
  rintro ⟨c, a⟩ _ hk - ⟨-, olda, beside⟩
  have single (m : String) : m ∈ [a] ↔ m ∈ (∅ : Bundle).insert a size := by
    rw [NameMap.mem_singleton_iff, List.mem_singleton]
  refine (attach_runs beside (r'.mono hk) single (by simpa using olda)).bind id ?_
  rintro ⟨d, b⟩ m hm fits ⟨apart, oldb, beside'⟩
  have ne : b ≠ a := fun h => apart ((single b).1 (by simp [h]))
  refine (Draw.Runs.pure ⟨ne, olda.mono hm, oldb, ?_⟩).given fits
  simpa using beside'

/-- Three expressions side by side. -/
theorem triple_runs (r : e.circuit.Realizes n words F) (r' : f.circuit.Realizes n words' F')
    (r'' : g.circuit.Realizes n words'' F'') :
    (triple e f g).Runs n (Compatible words words' ∧ Compatible (words ++ words') words'')
      fun s _ => s.2.2.1 ≠ s.2.1 ∧ s.2.2.2 ≠ s.2.1 ∧ s.2.2.2 ≠ s.2.2.1 ∧
        Beside s.1 (words ++ words' ++ words'')
          ((((∅ : Bundle).insert s.2.1 size).insert s.2.2.1 size').insert s.2.2.2 size'')
          fun env m => if m = s.2.2.2 then Word.ofBitVec (F'' env)
            else if m = s.2.2.1 then Word.ofBitVec (F' env) else Word.ofBitVec (F env) := by
  refine (pair_runs r r').bind And.left ?_
  rintro ⟨c, a, b⟩ _ hk two_fit ⟨ne, olda, oldb, beside⟩
  have two (m : String) : m ∈ [a, b] ↔ m ∈ ((∅ : Bundle).insert a size).insert b size' := by
    rw [NameMap.mem_insert_iff, NameMap.mem_singleton_iff]
    simp [or_comm]
  refine (attach_runs beside (r''.mono hk) two (by simp [olda, oldb])).bind And.right ?_
  rintro ⟨d, b'⟩ _ _ third_fits ⟨apart, _, beside'⟩
  refine (Draw.Runs.pure ⟨ne, fun h => apart ((two b').1 ?_), fun h => apart ((two b').1 ?_),
    beside'⟩).given ⟨two_fit, third_fits⟩
  · simp [show b' = a from h]
  · simp [show b' = b from h]

/-! ### Gates over expressions -/

/-- A gate of the size of the expression. -/
theorem unary_runs (gate : (width : Nat) → (input output : String) → Except Fault WordCircuit)
    {op : BitVec size → BitVec size'} (r : e.circuit.Realizes n words F)
    (maps : ∀ output, WordGate.Maps (gate size e.output output) e.output output op) :
    (e.unary (gate e.size)).Runs n True fun c k => c.Realizes k words fun env => op (F env) := by
  obtain ⟨-, gives⟩ := gives_output r
  refine Draw.fresh_bind ?_
  obtain ⟨d, hd, dgives⟩ := maps (freshName n)
  rw [size_eq r]
  refine Draw.lift_bind hd ?_
  obtain ⟨c, hc, cgives⟩ := gives.exists_chain dgives
  refine Draw.lift_runs hc (.of_gives ?_ (Draw.old_freshName n) r.inputs)
  simpa only [Word.toBitVec_ofBitVec] using cgives

/-- A gate under two expressions side by side. -/
theorem joins_runs {c : WordCircuit} {a b : String} (ne : b ≠ a)
    (beside : Beside c words (((∅ : Bundle).insert a size).insert b size')
      fun env m => if m = b then Word.ofBitVec (F' env) else Word.ofBitVec (F env))
    {gate : (output : String) → Except Fault WordCircuit}
    {op : BitVec size → BitVec size' → BitVec width}
    (joins : ∀ output, WordGate.Joins (gate output) a b output op) :
    Draw.Runs (do c.chain (← gate (← Draw.fresh))) n True fun d k =>
      d.Realizes k words fun env => op (F env) (F' env) := by
  refine Draw.fresh_bind ?_
  obtain ⟨d, hd, dgives⟩ := joins (freshName n)
  refine Draw.lift_bind hd ?_
  obtain ⟨c', hc, cgives⟩ := beside.gives.exists_chain dgives
  refine Draw.lift_runs hc (.of_gives ?_ (Draw.old_freshName n) beside.inputs)
  simpa only [if_pos, if_neg ne.symm, Word.toBitVec_ofBitVec] using cgives

/-- A constant beside a sink for the inputs of an expression. -/
theorem constantLike_runs (r : e.circuit.Realizes n words F) (width : Nat) (value : Int64) :
    (e.constantLike width value).Runs n True fun c k =>
      c.Realizes k words fun _ => BitVec.ofInt width value.toInt := by
  refine Draw.fresh_bind ?_
  obtain ⟨d, hd, dgives⟩ := WordGate.sourceBits_gives (freshName n) (Word.wrap width value)
  refine Draw.lift_bind hd ?_
  obtain ⟨s, hs, sgives⟩ := WordGate.sink_gives e.circuit.inputs fun _ _ => []
  refine Draw.lift_bind hs ?_
  obtain ⟨c, hc, cgives⟩ := dgives.exists_beside sgives (fun m i j hi _ => by simp at hi) (by simp)
  rw [Word.wrap_eq, Word.length_ofBitVec, NameMap.empty_merge, NameMap.merge_empty] at cgives
  refine Draw.lift_runs hc (.of_gives ?_ (Draw.old_freshName n) r.inputs)
  simpa using cgives

/-- Expressions with the same circuit read the same words and have the same value. -/
theorem of_same {F' : (String → Word) → BitVec size} {k : Nat} (r : e.circuit.Realizes n words F)
    (r' : f.circuit.Realizes k words' F') (same : e.circuit.same f.circuit = true) :
    (∀ w, w ∈ words ↔ w ∈ words') ∧ ∀ env, e.circuit.inputs.Fits env → F env = F' env := by
  obtain ⟨-, gives⟩ := gives_output r
  have gives' := (gives_output r').2.of_same gives.exact same
  have inputs : e.circuit.inputs = f.circuit.inputs := gives'.inputs
  rw [← inputs] at gives'
  refine ⟨fun w => ?_, fun env fits => ?_⟩
  · rw [← r.inputs w.1 w.2, ← r'.inputs w.1 w.2, inputs]
  · have outputs := gives'.outputs
    rw [gives.outputs] at outputs
    rw [← outputs] at gives'
    exact Word.ofBitVec_inj.1 (gives.agree gives' fits e.output (NameMap.mem_singleton_iff.2 rfl))

/-- The operands must have one size and agree on the words that they share. Where both are the same
circuit, a simpler circuit that gives the same word will do. -/
theorem binary_runs {other : Operand}
    {gate : (width : Nat) → (left right output : String) → Except Fault WordCircuit}
    {op : BitVec size → BitVec size → BitVec width} {ifSame : Option (Draw WordCircuit)}
    (r : e.circuit.Realizes n words F)
    (operand : (e.operand other).Runs n True fun f k => f.circuit.Realizes k words' F')
    (joins : ∀ left right output, WordGate.Joins (gate size left right output) left right output op)
    (shortcut : ∀ simpler ∈ ifSame, ∀ k, n ≤ k → simpler.Runs k True fun c m =>
      c.Realizes m words fun env => op (F env) (F env)) :
    (e.binary other gate ifSame).Runs n (size = size' ∧ Compatible words words') fun c k =>
      c.Realizes k (words ++ words') fun env => op (F env) ((F' env).setWidth size) := by
  refine operand.bind (fun _ => trivial) fun f k hk _ r' => ?_
  rw [size_eq r, size_eq r']
  dsimp only
  split
  next sizes => exact Draw.throw_bind_runs trivial fun h => sizes h.1
  next sizes =>
    obtain rfl := not_not.1 sizes
    simp only [BitVec.setWidth_eq]
    split
    next simpler same =>
      obtain ⟨inputs, value⟩ := of_same r r' same
      have agree : Compatible words words' :=
        fun name i j hi hj => compatible_self r name i j hi ((inputs _).2 hj)
      refine ((shortcut simpler rfl k hk).given ⟨trivial, agree⟩).imp fun c m _ rc => ?_
      refine (rc.congr_words fun w => ?_).congr fun env fits => ?_
      · rw [List.mem_append, ← inputs, or_self]
      · rw [value env fun name size h => fits name size ((rc.inputs name size).2
          ((r.inputs name size).1 h))]
    next =>
      refine (pair_runs (r.mono hk) r').bind And.right ?_
      rintro ⟨c, a, b⟩ m hm agree ⟨ne, -, -, beside⟩
      exact (joins_runs ne beside (joins a b)).given ⟨trivial, agree⟩

end Expression

end AndInverter
