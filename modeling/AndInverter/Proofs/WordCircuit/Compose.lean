import AndInverter.Proofs.Graph.Compose
import AndInverter.Proofs.WordCircuit.Exact
import AndInverter.WordCircuit.Compose
import AndInverter.WordCircuit.Relabel

/-! Circuits over words put together. Side by side they give the words of both; one after the other
they compose what they compute. -/

namespace AndInverter

namespace Bundle

/-- Words in both bundles have the same size. -/
def Agree (a b : Bundle) : Prop :=
  ∀ (n : String) i j, a[n]? = some i → b[n]? = some j → i = j

theorem agreesWith_iff {a b : Bundle} : a.agreesWith b = true ↔ Agree a b := by
  simp only [agreesWith, List.all_eq_true, Prod.forall,
    Std.ExtTreeMap.mem_toList_iff_getElem?_eq_some, Agree]
  refine forall_congr' fun n => forall_congr' fun i => ?_
  rw [forall_comm]
  refine forall_congr' fun _ => ?_
  cases b[n]? with
  | none => simp
  | some j =>
    rw [Option.all_some, beq_iff_eq]
    exact ⟨fun h k hk => h.symm.trans (Option.some.inj hk), fun h => (h j rfl).symm⟩

variable {a b : Bundle}

theorem getElem?_merge_left (agree : Agree a b) {n : String} (hn : n ∈ a) :
    (NameMap.merge a b)[n]? = a[n]? := by
  obtain ⟨i, hi⟩ := mem_iff_exists_getElem?.1 hn
  rw [NameMap.getElem?_merge]
  cases hj : b[n]? with
  | none => rfl
  | some j => rw [hi, agree n i j hi hj, Option.some_or]

theorem getElem?_merge_right {n : String} (hn : n ∈ b) : (NameMap.merge a b)[n]? = b[n]? := by
  obtain ⟨j, hj⟩ := mem_iff_exists_getElem?.1 hn
  rw [NameMap.getElem?_merge, hj, Option.some_or]

theorem mem_merge_iff {n : String} : n ∈ NameMap.merge a b ↔ n ∈ a ∨ n ∈ b := by
  simp only [Std.ExtTreeMap.mem_iff_isSome_getElem?, NameMap.getElem?_merge]
  cases a[n]? <;> cases b[n]? <;> simp

theorem getElem?_merge_eq_some_iff (agree : Agree a b) {n : String} {size : Nat} :
    (NameMap.merge a b)[n]? = some size ↔ a[n]? = some size ∨ b[n]? = some size := by
  rw [NameMap.getElem?_merge]
  cases hb : b[n]? with
  | none => simp
  | some j =>
    rw [Option.some_or]
    refine ⟨.inr, ?_⟩
    rintro (ha | h)
    · rw [agree n size j ha hb]
    · exact h

theorem hasBit_merge_iff (agree : Agree a b) {n : String} :
    HasBit (NameMap.merge a b) n ↔ a.HasBit n ∨ b.HasBit n := by
  constructor
  · rintro ⟨name, size, i, h, hi, rfl⟩
    rcases mem_merge_iff.1 (mem_iff_exists_getElem?.2 ⟨size, h⟩) with hmem | hmem
    · exact .inl ⟨name, size, i, (getElem?_merge_left agree hmem) ▸ h, hi, rfl⟩
    · exact .inr ⟨name, size, i, (getElem?_merge_right hmem) ▸ h, hi, rfl⟩
  · rintro (⟨name, size, i, h, hi, rfl⟩ | ⟨name, size, i, h, hi, rfl⟩)
    · have hmem := mem_iff_exists_getElem?.2 ⟨size, h⟩
      exact ⟨name, size, i, (getElem?_merge_left agree hmem).trans h, hi, rfl⟩
    · have hmem := mem_iff_exists_getElem?.2 ⟨size, h⟩
      exact ⟨name, size, i, (getElem?_merge_right hmem).trans h, hi, rfl⟩

theorem Agree.of_apart (apart : ∀ n ∈ a, n ∉ b) : Agree a b := by
  intro n i j hi hj
  exact absurd (mem_iff_exists_getElem?.2 ⟨j, hj⟩) (apart n (mem_iff_exists_getElem?.2 ⟨i, hi⟩))

/-- A word in two bundles has the same bits in both. -/
theorem HasBit.of_agree {name : String} {i : Nat} (hn : a.HasBit (Word.bitName name i))
    (agree : Agree a b) (hname : name ∈ b) : b.HasBit (Word.bitName name i) := by
  obtain ⟨size, h, hi⟩ := hasBit_bitName_iff.1 hn
  obtain ⟨size', h'⟩ := mem_iff_exists_getElem?.1 hname
  exact hasBit_bitName_iff.2 ⟨size', h', agree name size size' h h' ▸ hi⟩

theorem Agree.symm (agree : Agree a b) : Agree b a :=
  fun n i j hi hj => (agree n j i hj hi).symm

end Bundle

namespace WordCircuit

variable {c left right : WordCircuit} {inputs outputs inputs' outputs' : Bundle}
  {F F' : (String → Word) → String → Word}

theorem bit_mem_inputs (exact : c.Exact) {n : String} {i : Nat} (hi : i < (c.inputs[n]?).getD 0) :
    Word.bitName n i ∈ c.graph.inputs := by
  rw [exact.inputs, Bundle.hasBit_bitName_iff]
  cases h : c.inputs[n]? with
  | none => simp [h] at hi
  | some size => exact ⟨size, rfl, by simpa [h] using hi⟩

theorem bit_mem_outputs (exact : c.Exact) {n : String} {i : Nat}
    (hi : i < (c.outputs[n]?).getD 0) : Word.bitName n i ∈ c.graph.outputs := by
  rw [exact.outputs, Bundle.hasBit_bitName_iff]
  cases h : c.outputs[n]? with
  | none => simp [h] at hi
  | some size => exact ⟨size, rfl, by simpa [h] using hi⟩

/-- Circuits side by side, if no output and no latch is a word of both. -/
theorem Exact.exists_beside (hl : left.Exact) (hr : right.Exact)
    (outputs : ∀ n ∈ left.outputs, n ∉ right.outputs) (latches : ∀ n ∈ left.latches, n ∉ right.latches)
    (agree : Bundle.Agree left.inputs right.inputs) :
    ∃ c, left.beside right = .ok c ∧ c.Exact ∧
      c.inputs = NameMap.merge left.inputs right.inputs ∧
      c.outputs = NameMap.merge left.outputs right.outputs ∧
      c.latches = NameMap.merge left.latches right.latches ∧
      left.graph.IsJoin right.graph (fun _ => False) (fun _ => True) c.graph := by
  obtain ⟨g, hg, wf, join⟩ := Graph.exists_beside hl.wf.toEvaluable hr.wf.toEvaluable
    (fun n hn hn' => ((hl.latches n).1 hn).apart latches ((hr.latches n).1 hn'))
    (fun n hn hn' => ((hl.outputs n).1 hn).apart outputs ((hr.outputs n).1 hn'))
  refine ⟨⟨g, NameMap.merge left.inputs right.inputs, NameMap.merge left.outputs right.outputs,
    NameMap.merge left.latches right.latches⟩, by simp [beside, hg], ?_, rfl, rfl, rfl, join⟩
  constructor
  case wf => exact wf
  case inputs =>
    intro n
    rw [join.inputs, Bundle.hasBit_merge_iff agree, hl.inputs, hr.inputs]
    simp
  case outputs =>
    intro n
    rw [join.outputs, Bundle.hasBit_merge_iff (.of_apart outputs), hl.outputs, hr.outputs]
    simp
  case latches =>
    intro n
    rw [join.latches, Bundle.hasBit_merge_iff (.of_apart latches), hl.latches, hr.latches]

theorem mem_interface_iff {name : String} :
    name ∈ left.interface right ↔ name ∈ left.outputs ∧ name ∈ right.inputs := by
  rw [interface, List.mem_filter, Std.ExtTreeMap.mem_keys, ← Std.ExtTreeMap.mem_iff_contains]

/-- A bit that the first circuit gives is one that the second takes where it takes the word. -/
theorem Exact.mem_inputs_of_mem_outputs (hl : left.Exact) (hr : right.Exact)
    (fits : Bundle.Agree left.outputs right.inputs) {name : String} {i : Nat}
    (hn : Word.bitName name i ∈ left.graph.outputs) (hname : name ∈ right.inputs) :
    Word.bitName name i ∈ right.graph.inputs :=
  (hr.inputs _).2 (((hl.outputs _).1 hn).of_agree fits hname)

/-- The bits that the second circuit takes from elsewhere are those of its other input words. -/
theorem Exact.free_inputs_iff (hl : left.Exact) (hr : right.Exact)
    (fits : Bundle.Agree left.outputs right.inputs) {n : String} :
    n ∉ left.graph.outputs ∧ n ∈ right.graph.inputs ↔
      Bundle.HasBit (NameMap.without right.inputs (left.interface right)) n := by
  constructor
  · rintro ⟨free, hn⟩
    obtain ⟨name, i, rfl⟩ := ((hr.inputs n).1 hn).exists_eq
    have hbit := (hr.inputs _).1 hn
    refine Bundle.hasBit_without_iff.2 ⟨hbit, fun h => free ?_⟩
    exact (hl.outputs _).2 (hbit.of_agree fits.symm (mem_interface_iff.1 h).1)
  · intro hn
    obtain ⟨name, i, rfl⟩ := hn.exists_eq
    obtain ⟨hbit, hname⟩ := Bundle.hasBit_without_iff.1 hn
    refine ⟨fun driven => hname ?_, (hr.inputs _).2 hbit⟩
    exact mem_interface_iff.2 ⟨((hl.outputs _).1 driven).mem, hbit.mem⟩

/-- The bits that the first circuit gives to the outside are those of its other output words. -/
theorem Exact.kept_outputs_iff (hl : left.Exact) (hr : right.Exact)
    (fits : Bundle.Agree left.outputs right.inputs) {n : String} :
    n ∉ right.graph.inputs ∧ n ∈ left.graph.outputs ↔
      Bundle.HasBit (NameMap.without left.outputs (left.interface right)) n := by
  constructor
  · rintro ⟨free, hn⟩
    obtain ⟨name, i, rfl⟩ := ((hl.outputs n).1 hn).exists_eq
    refine Bundle.hasBit_without_iff.2 ⟨(hl.outputs _).1 hn, fun h => free ?_⟩
    exact hl.mem_inputs_of_mem_outputs hr fits hn (mem_interface_iff.1 h).2
  · intro hn
    obtain ⟨name, i, rfl⟩ := hn.exists_eq
    obtain ⟨hbit, hname⟩ := Bundle.hasBit_without_iff.1 hn
    refine ⟨fun driven => hname ?_, (hl.outputs _).2 hbit⟩
    exact mem_interface_iff.2 ⟨hbit.mem, ((hr.inputs _).1 driven).mem⟩

/-- The words that the second circuit takes from elsewhere. -/
theorem free_words_iff {name : String} {size : Nat} :
    (NameMap.without right.inputs (left.interface right))[name]? = some size ↔
      name ∉ left.outputs ∧ right.inputs[name]? = some size := by
  rw [NameMap.getElem?_without_eq_some_iff, mem_interface_iff]
  refine and_congr_left fun h => ?_
  rw [and_iff_left (mem_iff_exists_getElem?.2 ⟨size, h⟩)]

/-- The words that the first circuit gives to the outside. -/
theorem kept_words_iff {name : String} {size : Nat} :
    (NameMap.without left.outputs (left.interface right))[name]? = some size ↔
      name ∉ right.inputs ∧ left.outputs[name]? = some size := by
  rw [NameMap.getElem?_without_eq_some_iff, mem_interface_iff]
  refine and_congr_left fun h => ?_
  rw [and_iff_right (mem_iff_exists_getElem?.2 ⟨size, h⟩)]

/-- Where no word that stays is an output of the second circuit, no bit is. -/
theorem Exact.kept_bits_apart (hl : left.Exact) (hr : right.Exact)
    (fits : Bundle.Agree left.outputs right.inputs)
    (outputs : ∀ n ∈ left.outputs, n ∉ right.inputs → n ∉ right.outputs) :
    ∀ n ∈ left.graph.outputs, n ∉ right.graph.inputs → n ∉ right.graph.outputs := by
  intro n hn hin hout
  obtain ⟨name, i, rfl⟩ := ((hl.outputs n).1 hn).exists_eq
  have unused : name ∉ right.inputs := fun h => hin (hl.mem_inputs_of_mem_outputs hr fits hn h)
  exact outputs name ((hl.outputs _).1 hn).mem unused ((hr.outputs _).1 hout).mem

/-- One circuit after the other, if the words between them have one size, and no latch and no output
that stays is a word of both. -/
theorem Exact.exists_chain (hl : left.Exact) (hr : right.Exact)
    (fits : Bundle.Agree left.outputs right.inputs) (latches : ∀ n ∈ left.latches, n ∉ right.latches)
    (outputs : ∀ n ∈ left.outputs, n ∉ right.inputs → n ∉ right.outputs)
    (agree : Bundle.Agree left.inputs (NameMap.without right.inputs (left.interface right))) :
    ∃ c, left.chain right = .ok c ∧ c.Exact ∧
      c.inputs = NameMap.merge left.inputs (NameMap.without right.inputs (left.interface right)) ∧
      c.outputs = NameMap.merge right.outputs (NameMap.without left.outputs (left.interface right)) ∧
      c.latches = NameMap.merge left.latches right.latches ∧
      left.graph.IsJoin right.graph (fun _ => True) (fun n => n ∉ right.graph.inputs) c.graph := by
  obtain ⟨g, hg, wf, join⟩ := Graph.exists_chain hl.wf.toEvaluable hr.wf.toEvaluable
    (fun n hn hn' => ((hl.latches n).1 hn).apart latches ((hr.latches n).1 hn'))
    (hl.kept_bits_apart hr fits outputs)
  have kept (n : String) (hn : n ∈ right.outputs) :
      n ∉ NameMap.without left.outputs (left.interface right) := by
    intro hkept
    obtain ⟨size, h⟩ := mem_iff_exists_getElem?.1 hkept
    obtain ⟨unused, h⟩ := kept_words_iff.1 h
    exact outputs n (mem_iff_exists_getElem?.2 ⟨size, h⟩) unused hn
  refine ⟨⟨g, NameMap.merge left.inputs (NameMap.without right.inputs (left.interface right)),
    NameMap.merge right.outputs (NameMap.without left.outputs (left.interface right)),
    NameMap.merge left.latches right.latches⟩, by simp [chain, hg], ?_, rfl, rfl, rfl, join⟩
  constructor
  case wf => exact wf
  case inputs =>
    intro n
    rw [join.inputs, Bundle.hasBit_merge_iff agree, hl.inputs, true_and]
    exact or_congr_right (hl.free_inputs_iff hr fits)
  case outputs =>
    intro n
    rw [join.outputs, Bundle.hasBit_merge_iff (.of_apart kept), hr.outputs, or_comm]
    exact or_congr_right (hl.kept_outputs_iff hr fits)
  case latches =>
    intro n
    rw [join.latches, Bundle.hasBit_merge_iff (.of_apart latches), hl.latches, hr.latches]

/-- Circuits side by side share the input words that have the same name and size. -/
theorem Gives.exists_beside (l : left.Gives inputs outputs F) (r : right.Gives inputs' outputs' F')
    (agree : Bundle.Agree inputs inputs') (apart : ∀ n ∈ outputs, n ∉ outputs') :
    ∃ c, left.beside right = .ok c ∧
      c.Gives (NameMap.merge inputs inputs') (NameMap.merge outputs outputs')
        fun env n => if n ∈ outputs' then F' env n else F env n := by
  obtain rfl := l.inputs
  obtain rfl := l.outputs
  obtain rfl := r.inputs
  obtain rfl := r.outputs
  obtain ⟨⟨g, _, _, _⟩, hc, exact, rfl, rfl, rfl, join⟩ :=
    l.exact.exists_beside r.exact apart (by simp [l.latches]) agree
  have none : NameMap.merge left.latches right.latches = ∅ := by
    rw [l.latches, r.latches, NameMap.merge_empty]
  refine ⟨_, hc, exact, rfl, rfl, none, fun v hv env henv n hn => ?_⟩
  obtain ⟨u, w, hu, hw, uin, win, -, -, wout, uout⟩ := join.solution v hv
  have leftEnv (m : String) (hm : m ∈ left.inputs) : env m = left.inputWord u m := by
    rw [henv m (Bundle.mem_merge_iff.2 (.inl hm)), inputWord, inputWord,
      Bundle.getElem?_merge_left agree hm]
    exact readWord_congr fun i hi => (uin _ (bit_mem_inputs l.exact hi)).symm
  have rightEnv (m : String) (hm : m ∈ right.inputs) : env m = right.inputWord w m := by
    rw [henv m (Bundle.mem_merge_iff.2 (.inr hm)), inputWord, inputWord,
      Bundle.getElem?_merge_right hm]
    exact readWord_congr fun i hi => ((win _ (bit_mem_inputs r.exact hi)).2 (by simp)).symm
  by_cases hright : n ∈ right.outputs
  · rw [if_pos hright, ← r.value w hw env rightEnv n hright, outputWord, outputWord,
      Bundle.getElem?_merge_right hright]
    exact readWord_congr fun i hi => wout _ (bit_mem_outputs r.exact hi)
  · have hleft := (Bundle.mem_merge_iff.1 hn).resolve_right hright
    rw [if_neg hright, ← l.value u hu env leftEnv n hleft, outputWord, outputWord,
      Bundle.getElem?_merge_left (.of_apart apart) hleft]
    exact readWord_congr fun i hi => uout _ (bit_mem_outputs l.exact hi) trivial

/-- Where all words of `left` lead to `right`, none of them is left over on either side. -/
theorem without_interface (between : left.outputs = right.inputs) :
    NameMap.without right.inputs (left.interface right) = ∅ := by
  refine Std.ExtTreeMap.ext_getElem? fun n => ?_
  rw [NameMap.getElem?_without, Std.ExtTreeMap.getElem?_empty]
  split
  next => rfl
  next hn =>
    rw [mem_interface_iff, between, and_self] at hn
    exact not_mem_iff_getElem?.1 hn

/-- A circuit that takes just the words that another one gives composes with it. -/
theorem Gives.exists_chain (l : left.Gives inputs outputs F) (r : right.Gives outputs outputs' F') :
    ∃ c, left.chain right = .ok c ∧ c.Gives inputs outputs' fun env => F' (F env) := by
  obtain rfl := l.inputs
  obtain rfl := r.outputs
  have between : left.outputs = right.inputs := l.outputs.trans r.inputs.symm
  have rest := without_interface between
  obtain ⟨c, hc, exact, hin, hout, hlatch, join⟩ := l.exact.exists_chain r.exact
    (fun n i j hi hj => Option.some.inj (hi.symm.trans (between ▸ hj))) (by simp [l.latches])
    (fun n hn hn' => absurd (between ▸ hn) hn') (fun n i j _ hj => by simp [rest] at hj)
  rw [rest, NameMap.merge_empty] at hin
  rw [between, rest, NameMap.merge_empty] at hout
  rw [l.latches, r.latches, NameMap.merge_empty] at hlatch
  refine ⟨c, hc, exact, hin, hout, hlatch, fun v hv env henv n hn => ?_⟩
  obtain ⟨u, w, hu, hw, uin, win, -, -, wout, -⟩ := join.solution v hv
  have leftEnv (m : String) (hm : m ∈ left.inputs) : env m = left.inputWord u m := by
    rw [henv m (hin ▸ hm), inputWord, inputWord, hin]
    exact readWord_congr fun i hi => (uin _ (bit_mem_inputs l.exact hi)).symm
  have rightEnv (m : String) (hm : m ∈ right.inputs) : F env m = right.inputWord w m := by
    rw [← l.value u hu env leftEnv m (between ▸ hm), outputWord, inputWord, between]
    refine readWord_congr fun i hi => ?_
    have driven : Word.bitName m i ∈ left.graph.outputs := bit_mem_outputs l.exact (between ▸ hi)
    exact ((win _ (bit_mem_inputs r.exact hi)).1 ⟨trivial, driven⟩).symm
  rw [hout] at hn
  rw [← r.value w hw (F env) rightEnv n hn, outputWord, outputWord, hout]
  exact readWord_congr fun i hi => wout _ (bit_mem_outputs r.exact hi)

/-- The checks of sequential composition find nothing to object to there. -/
theorem Gives.exists_seq (l : left.Gives inputs outputs F) (r : right.Gives outputs outputs' F') :
    ∃ c, left.seq right = .ok c ∧ c.Gives inputs outputs' fun env => F' (F env) := by
  obtain ⟨c, hc, gives⟩ := l.exists_chain r
  have between : left.outputs = right.inputs := l.outputs.trans r.inputs.symm
  have rest := without_interface between
  have fits : left.requireInterface right = .ok () := by
    rw [requireInterface, between]
    exact forM_eq_ok fun n _ => if_pos rfl
  have latches : left.latches.firstShared right.latches = none :=
    NameMap.firstShared_eq_none_iff.2 (by simp [l.latches])
  have kept : NameMap.firstShared (NameMap.without left.outputs (left.interface right))
      right.outputs = none := NameMap.firstShared_eq_none_iff.2 (by simp [between, rest])
  have agree : left.inputs.agreesWith ∅ = true :=
    Bundle.agreesWith_iff.2 fun n i j _ hj => by simp at hj
  refine ⟨c, ?_, gives⟩
  rw [seq, fits, except_ok_bind]
  simp only [latches, kept, rest, agree]
  exact hc

end WordCircuit

end AndInverter
