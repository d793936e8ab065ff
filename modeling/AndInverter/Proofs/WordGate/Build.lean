import AndInverter.Proofs.Graph.Arithmetic
import AndInverter.Proofs.WordCircuit.Exact
import AndInverter.WordGate.Basic

/-! The steps that build gates over words. Every step leaves a circuit whose graph has no objects but
the bits of its words. -/

namespace AndInverter

namespace WordCircuit

/-- The literals are the bits of an input word. -/
structure Carries (c : WordCircuit) (name : String) (xs : List Literal) : Prop where
  size : c.inputs[name]? = some xs.length
  bit : ∀ i l, xs[i]? = some l →
    ∃ id, l = .positive id ∧ c.graph.inputs[Word.bitName name i]? = some id

variable {c d : WordCircuit} {name : String} {xs : List Literal}

theorem Carries.mono (carries : c.Carries name xs) (ext : c.graph.Extends d.graph)
    (same : d.inputs[name]? = c.inputs[name]?) : d.Carries name xs := by
  refine ⟨same.trans carries.size, fun i l hl => ?_⟩
  obtain ⟨id, h, hid⟩ := carries.bit i l hl
  exact ⟨id, h, ext.input hid⟩

/-- A further input word, or the same one with the same size, changes no word. -/
theorem Carries.insert (carries : c.Carries name xs) (ext : c.graph.Extends d.graph) {n : String}
    {size : Nat} (agree : ∀ old, c.inputs[n]? = some old → old = size)
    (same : d.inputs = c.inputs.insert n size) : d.Carries name xs := by
  refine carries.mono ext ?_
  rw [same, NameMap.getElem?_insert]
  split
  next heq => rw [carries.size, agree xs.length (heq ▸ carries.size)]
  next => rfl

theorem Carries.has (carries : c.Carries name xs) (exact : c.Exact) : ∀ l ∈ xs, c.graph.Has l := by
  intro l hl
  obtain ⟨i, hi⟩ := List.mem_iff_getElem?.1 hl
  obtain ⟨id, rfl, hid⟩ := carries.bit i l hi
  exact Graph.lt_size (exact.wf.input.2 ⟨_, hid⟩)

/-- The bits have the values of the word. -/
theorem Carries.value (carries : c.Carries name xs) (v : Nat → Bool) :
    xs.map (·.under v) = c.inputWord v name := by
  rw [inputWord, carries.size, Option.getD_some]
  refine (readWord_eq (List.length_map _) fun i hi => ?_).symm
  obtain ⟨id, h, hid⟩ := carries.bit i xs[i] (List.getElem?_eq_getElem hi)
  rw [Graph.inputValue, hid, Option.map_some, List.getElem?_map, List.getElem?_eq_getElem hi, h,
    Option.map_some, Literal.under_positive]

theorem Carries.eq_env (carries : c.Carries name xs) {v : Nat → Bool} {env : String → Word}
    (henv : ∀ n ∈ c.inputs, env n = c.inputWord v n) : env name = xs.map (·.under v) := by
  rw [henv name (mem_iff_exists_getElem?.2 ⟨_, carries.size⟩), carries.value v]

/-- A graph with the same named objects has the bits of the same words. -/
theorem Exact.of_sameNames (exact : c.Exact) {g : Graph} (wf : g.WellFormed)
    (same : c.graph.SameNames g) : Exact { c with graph := g } := by
  refine ⟨wf, fun n => ?_, fun n => ?_, fun n => ?_⟩
  · show n ∈ g.inputs ↔ _
    rw [same.inputs, exact.inputs]
  · show n ∈ g.outputs ↔ _
    rw [same.outputs, exact.outputs]
  · show n ∈ g.latches ↔ _
    rw [wf.mem_latches_iff, same.latch?, ← exact.wf.mem_latches_iff, exact.latches]

end WordCircuit

namespace WordBuild

variable {α β : Type} {c : WordCircuit}

/-- The step ends in an exact circuit that extends `c`, has the same latches and is as `ok` says. -/
def Runs (build : WordBuild α) (c : WordCircuit) (ok : α → WordCircuit → Prop) : Prop :=
  ∃ a d, build c = .ok (a, d) ∧ d.Exact ∧ d.latches = c.latches ∧ c.graph.Extends d.graph ∧ ok a d

theorem Runs.pure {a : α} {ok : α → WordCircuit → Prop} (exact : c.Exact) (post : ok a c) :
    Runs (pure a) c ok :=
  ⟨a, c, rfl, exact, rfl, .refl _, post⟩

theorem Runs.bind {build : WordBuild α} {f : α → WordBuild β} {ok : α → WordCircuit → Prop}
    {ok' : β → WordCircuit → Prop} (first : build.Runs c ok)
    (then_ : ∀ a d, d.Exact → c.graph.Extends d.graph → ok a d → (f a).Runs d ok') :
    (build >>= f).Runs c ok' := by
  obtain ⟨a, d, heq, exact, latches, ext, post⟩ := first
  obtain ⟨b, d', heq', exact', latches', ext', post'⟩ := then_ a d exact ext post
  refine ⟨b, d', ?_, exact', latches'.trans latches, ext.trans ext', post'⟩
  show (build c >>= fun r => f r.1 r.2) = _
  rw [heq]
  exact heq'

theorem Runs.imp {build : WordBuild α} {ok ok' : α → WordCircuit → Prop} (runs : build.Runs c ok)
    (h : ∀ a d, d.Exact → c.graph.Extends d.graph → ok a d → ok' a d) : build.Runs c ok' := by
  obtain ⟨a, d, heq, exact, latches, ext, post⟩ := runs
  exact ⟨a, d, heq, exact, latches, ext, h a d exact ext post⟩

theorem Runs.discard {build : WordBuild α} {ok : WordCircuit → Prop}
    (runs : build.Runs c fun _ => ok) : Runs (discard build) c fun _ => ok :=
  runs.bind fun _ _ exact _ post => .pure exact post

theorem Runs.lift {x : Except Fault α} {a : α} (exact : c.Exact) (h : x = .ok a) :
    Runs (liftM x) c fun b d => b = a ∧ d = c := by
  subst h
  exact ⟨a, c, rfl, exact, rfl, .refl _, rfl, rfl⟩

/-- Steps inside the graph that leave the named objects alone. -/
theorem bits_runs {build : Build α} {ok : α → Graph → Prop} (exact : c.Exact)
    (runs : build.Runs c.graph fun a h => ok a h ∧ c.graph.SameNames h) :
    (bits build).Runs c fun a d => d.inputs = c.inputs ∧ d.outputs = c.outputs ∧
      d.graph.outputs = c.graph.outputs ∧ ok a d.graph := by
  obtain ⟨a, g, heq, wf, ext, post, same⟩ := runs.exists
  exact ⟨a, { c with graph := g }, by simp [bits, heq], exact.of_sameNames wf same, rfl, ext, rfl, rfl,
    same.outputs, post⟩

theorem bits_pure (a : α) : bits (pure a) = pure a := rfl

theorem bits_bind (build : Build α) (f : α → Build β) :
    bits (build >>= f) = bits build >>= fun a => bits (f a) := by
  funext c
  have unfold : (build >>= f) c.graph = build c.graph >>= fun r => f r.1 r.2 := rfl
  have unfold' : (bits build >>= fun a => bits (f a)) c =
      bits build c >>= fun r => bits (f r.1) r.2 := rfl
  rw [unfold', bits, bits, unfold]
  cases build c.graph <;> rfl

theorem bits_mapM (f : α → Build β) (xs : List α) :
    xs.mapM (fun x => bits (f x)) = bits (xs.mapM f) := by
  induction xs with
  | nil => rfl
  | cons x xs ih =>
    rw [List.mapM_cons, List.mapM_cons, ih, bits_bind]
    refine bind_congr fun b => ?_
    rw [bits_bind]
    rfl

theorem bits_forM (f : α → Build Unit) (xs : List α) :
    (xs.forM fun x => bits (f x)) = bits (xs.forM f) := by
  induction xs with
  | nil => rfl
  | cons x xs ih =>
    show (bits (f x) >>= fun _ => xs.forM fun x => bits (f x)) = bits (f x >>= fun _ => xs.forM f)
    rw [ih, bits_bind]

/-- The inputs of a list of names. -/
theorem inputList_runs {g : Graph} (wf : g.WellFormed) (names : List String) :
    Build.Runs (names.mapM Build.input) g fun xs h =>
      ((∀ n, n ∈ h.inputs ↔ n ∈ g.inputs ∨ n ∈ names) ∧ h.latch? = g.latch? ∧
        h.outputs = g.outputs) ∧
      List.Forall₂ (fun n l => ∃ id, l = .positive id ∧ h.inputs[n]? = some id) names xs := by
  refine Build.Spec.mapM (fun done h => (∀ n, n ∈ h.inputs ↔ n ∈ g.inputs ∨ n ∈ done) ∧
      h.latch? = g.latch? ∧ h.outputs = g.outputs)
    (fun n l h => ∃ id, l = Literal.positive id ∧ h.inputs[n]? = some id)
    (fun _ _ _ _ ⟨id, h, hid⟩ ext => ⟨id, h, ext.input hid⟩)
    (fun done n rest h _ wf' _ ⟨hin, hlatch, hout⟩ => ?_) wf ⟨by simp, rfl, rfl⟩
  refine (Build.input_runs wf' n).imp fun l h' _ _ ⟨id, hin', hlatch', hout'⟩ =>
    ⟨⟨fun m => ?_, hlatch'.trans hlatch, hout'.trans hout⟩, id⟩
  rw [hin', hin, List.mem_append, List.mem_singleton]
  exact or_comm.trans or_assoc

theorem input_eq {name : String} {size : Nat}
    (agree : ∀ old, c.inputs[name]? = some old → old = size) :
    input name size c = bits ((Word.bitNames name size).mapM Build.input)
      { c with inputs := c.inputs.insert name size } := by
  rw [input, bits_mapM]
  cases hold : c.inputs[name]? with
  | none =>
    simp [bind, StateT.bind, get, getThe, MonadStateOf.get, StateT.get, modify, modifyGet,
      MonadStateOf.modifyGet, StateT.modifyGet, hold, Except.bind, pure, Except.pure]
  | some old =>
    simp [bind, StateT.bind, get, getThe, MonadStateOf.get, StateT.get, modify, modifyGet,
      MonadStateOf.modifyGet, StateT.modifyGet, hold, agree old hold, Except.bind, pure,
      Except.pure]

theorem output_eq {name : String} (word : List Literal) (new : name ∉ c.outputs) :
    output name word c =
      bits (((Word.bitNames name word.length).zip word).forM fun (bit, l) => Build.output bit l)
        { c with outputs := c.outputs.insert name word.length } := by
  rw [output, ← bits_forM]
  simp [bind, StateT.bind, get, getThe, MonadStateOf.get, StateT.get, modify, modifyGet,
    MonadStateOf.modifyGet, StateT.modifyGet, new, Except.bind, pure, Except.pure]

/-- An input word, which must not be there with another size. -/
theorem input_runs (exact : c.Exact) {name : String} {size : Nat}
    (agree : ∀ old, c.inputs[name]? = some old → old = size) :
    (input name size).Runs c fun xs d => d.inputs = c.inputs.insert name size ∧
      d.outputs = c.outputs ∧ d.graph.outputs = c.graph.outputs ∧ xs.length = size ∧
      d.Carries name xs := by
  obtain ⟨xs, g, heq, wf, ext, ⟨hin, hlatch, hout⟩, each⟩ :=
    (inputList_runs exact.wf (Word.bitNames name size)).exists
  have length : xs.length = size := by
    rw [← each.length_eq]
    simp [Word.bitNames]
  have run : input name size c = .ok (xs, ⟨g, c.inputs.insert name size, c.outputs, c.latches⟩) := by
    rw [input_eq agree]
    simp [bits, heq]
  refine ⟨xs, _, run, ⟨wf, fun n => ?_, fun n => ?_, fun n => ?_⟩, rfl, ext, rfl, rfl, hout, length,
    ⟨?_, fun i l hl => ?_⟩⟩
  · rw [hin, exact.inputs]
    exact (Bundle.hasBit_insert_iff agree).symm
  · rw [hout, exact.outputs]
  · rw [wf.mem_latches_iff, hlatch, ← exact.wf.mem_latches_iff, exact.latches]
  · rw [NameMap.getElem?_insert, if_pos rfl, length]
  · have hi : i < size := by
      have := (List.getElem?_eq_some_iff.1 hl).1
      omega
    have hname : (Word.bitNames name size)[i]? = some (Word.bitName name i) := by
      simp [Word.bitNames, hi]
    obtain ⟨l', hl', h⟩ := forall₂_exists_getElem? each hname
    obtain rfl := Option.some.inj (hl.symm.trans hl')
    exact h

/-- A new output word with given bits. -/
theorem output_runs (exact : c.Exact) {name : String} {word : List Literal}
    (new : name ∉ c.outputs) (has : ∀ l ∈ word, c.graph.Has l) :
    (output name word).Runs c fun _ d => d.inputs = c.inputs ∧
      d.outputs = c.outputs.insert name word.length ∧
      (∀ v, d.outputWord v name = word.map (·.under v)) ∧
      ∀ v, ∀ n ∈ c.outputs, d.outputWord v n = c.outputWord v n := by
  have names : ((Word.bitNames name word.length).zip word).map Prod.fst =
      Word.bitNames name word.length := List.map_fst_zip (by simp [Word.bitNames])
  have distinct : (((Word.bitNames name word.length).zip word).map Prod.fst).Nodup := by
    rw [names]
    exact List.nodup_range.map_on fun i _ j _ heq => (Word.bitName_inj.1 heq).2
  have newBits : ∀ e ∈ (Word.bitNames name word.length).zip word, e.1 ∉ c.graph.outputs := by
    intro e he hn
    have bit : e.1 ∈ Word.bitNames name word.length := names ▸ List.mem_map.2 ⟨e, he, rfl⟩
    obtain ⟨i, -, heq⟩ := List.mem_map.1 bit
    rw [← heq] at hn
    exact new ((exact.outputs _).1 hn).mem
  obtain ⟨u, g, heq, wf, ext, outs, rfl, houts⟩ := (Build.outputList_runs exact.wf distinct newBits
    fun e he => has e.2 (List.of_mem_zip he).2).exists
  have run : output name word c = .ok ((), ⟨{ c.graph with outputs := outs }, c.inputs,
      c.outputs.insert name word.length, c.latches⟩) := by
    rw [output_eq word new]
    simp [bits, heq]
  have self : (c.outputs.insert name word.length)[name]? = some word.length := by simp
  refine ⟨(), _, run, ⟨wf, exact.inputs, fun n => ?_, exact.latches⟩, rfl, ext, rfl, rfl,
    fun v => ?_, fun v n hn => ?_⟩
  · have fresh (old : Nat) (h : c.outputs[name]? = some old) : old = word.length :=
      absurd (mem_iff_exists_getElem?.2 ⟨old, h⟩) new
    show n ∈ outs ↔ _
    rw [Bundle.hasBit_insert_iff fresh, ← exact.outputs, ← names]
    simp only [mem_iff_exists_getElem?, houts, exists_or, List.mem_map, Prod.exists,
      exists_and_right, exists_eq_right]
  · rw [WordCircuit.outputWord, self, Option.getD_some]
    refine WordCircuit.readWord_eq (List.length_map _) fun i hi => ?_
    have entry : (Word.bitName name i, word[i]) ∈ (Word.bitNames name word.length).zip word := by
      rw [List.mem_iff_getElem?]
      exact ⟨i, by simp [Word.bitNames, hi]⟩
    rw [Graph.outputValue, (houts _ _).2 (.inr entry), List.getElem?_map, List.getElem?_eq_getElem hi]
  · have other : n ≠ name := fun h => new (h ▸ hn)
    obtain ⟨size, hsize⟩ := mem_iff_exists_getElem?.1 hn
    rw [WordCircuit.outputWord, WordCircuit.outputWord]
    dsimp only
    rw [NameMap.getElem?_insert, if_neg other, hsize, Option.getD_some]
    refine WordCircuit.readWord_congr fun i hi => ?_
    obtain ⟨l, hl⟩ := mem_iff_exists_getElem?.1 ((exact.outputs _).2 ⟨n, size, i, hsize, hi, rfl⟩)
    rw [Graph.outputValue, Graph.outputValue, (houts _ _).2 (.inl hl), hl]

end WordBuild

end AndInverter
