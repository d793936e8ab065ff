import AndInverter.Proofs.Overflow
import AndInverter.Proofs.WordGate.Basic
import AndInverter.WordGate.Wiring

/-! Gates that only wire bits give constants, copies, slices, concatenations and shifts. -/

namespace AndInverter.WordGate

variable {width width' : Nat} {input left right output : String}

theorem identity_maps (width : Nat) (input output : String) :
    Maps (identity width input output) input output (id : BitVec width → BitVec width) := by
  refine unary_maps (fun wf _ has => ?_) fun x => (rfl : id (Word.ofBitVec x) = _)
  exact .pure wf ⟨Graph.computesWord_self has, .refl _⟩

theorem reverse_maps (width : Nat) (input output : String) :
    Maps (reverse width input output) input output (BitVec.reverse : BitVec width → _) := by
  refine unary_maps (fun {g xs} wf _ has => ?_) Word.reverse_ofBitVec
  refine .pure wf ⟨⟨fun l hl => has l (List.mem_reverse.1 hl), fun v _ => ?_⟩, .refl g⟩
  rw [List.map_reverse]

/-- A constant has no input words. -/
theorem sourceBits_gives (output : String) (word : Word) :
    ∃ c, sourceBits output word = .ok c ∧
      c.Gives ∅ ((∅ : Bundle).insert output word.length) fun _ _ => word := by
  have zero (l : Literal) (hl : l ∈ word.map Literal.ofBool) :
      WordCircuit.empty.graph.Has l := by
    obtain ⟨bit, _, rfl⟩ := List.mem_map.1 hl
    exact (WordCircuit.exact_empty.wf.computes_ofBool bit).1
  refine WordBuild.circuit_gives ?_
  refine (WordBuild.onlyOutput_runs WordCircuit.exact_empty rfl zero fun v hv _ _ => ?_).imp
    fun _ c _ _ ⟨hin, hout, value⟩ => ⟨hin, ?_, value⟩
  · rw [List.map_map]
    conv_rhs => rw [← List.map_id word]
    exact List.map_congr_left fun bit _ => hv.under_ofBool bit
  · rw [hout, List.length_map]

/-- An entry that is new, or there already, is one more. -/
theorem getElem?_insert_of_agree {b : Bundle} {e : String × Nat}
    (agree : ∀ old, b[e.1]? = some old → old = e.2) (n : String) (size : Nat) :
    (b.insert e.1 e.2)[n]? = some size ↔ b[n]? = some size ∨ (n, size) = e := by
  rw [NameMap.getElem?_insert, Prod.ext_iff]
  split
  next heq =>
    subst heq
    constructor
    · rintro ⟨⟩
      exact .inr ⟨rfl, rfl⟩
    · rintro (h | ⟨-, rfl⟩)
      · rw [agree size h]
      · rfl
  next hne => exact ⟨.inl, fun h => h.resolve_right fun h => hne h.1⟩

/-- Input words that are taken one after the other, each with the size that it has in a bundle. -/
theorem takes_runs {inputs : Bundle} {entries : List (String × Nat)}
    (listed : ∀ e ∈ entries, e ∈ inputs.toList) {c : WordCircuit} (exact : c.Exact)
    (none : c.outputs = ∅)
    (held : ∀ (n : String) size, c.inputs[n]? = some size → inputs[n]? = some size) :
    WordBuild.Runs (entries.forM fun e => discard (WordBuild.input e.1 e.2)) c fun _ d =>
      d.outputs = ∅ ∧ ∀ (n : String) size, d.inputs[n]? = some size ↔
        c.inputs[n]? = some size ∨ (n, size) ∈ entries := by
  induction entries generalizing c with
  | nil => exact .pure exact ⟨none, by simp⟩
  | cons e entries ih =>
    obtain ⟨first, rest⟩ := List.forall_mem_cons.1 listed
    have entry : inputs[e.1]? = some e.2 := Std.ExtTreeMap.mem_toList_iff_getElem?_eq_some.1 first
    have agree (old : Nat) (h : c.inputs[e.1]? = some old) : old = e.2 :=
      Option.some.inj ((held _ _ h).symm.trans entry)
    have step : (WordBuild.input e.1 e.2).Runs c fun _ d =>
        d.outputs = ∅ ∧ d.inputs = c.inputs.insert e.1 e.2 :=
      (WordBuild.input_runs exact agree).imp fun _ _ _ _ ⟨hin, hout, _⟩ => ⟨hout.trans none, hin⟩
    refine step.discard.bind fun _ d exact' _ ⟨hout, hin⟩ => ?_
    have held' (n : String) (size : Nat) (h : d.inputs[n]? = some size) :
        inputs[n]? = some size := by
      rw [hin, getElem?_insert_of_agree agree] at h
      rcases h with h | rfl
      · exact held n size h
      · exact entry
    refine (ih rest exact' hout held').imp fun _ d' _ _ ⟨hout', hin'⟩ => ⟨hout', fun n size => ?_⟩
    rw [hin', hin, getElem?_insert_of_agree agree, List.mem_cons, or_assoc]

/-- A sink takes its words and has no output. -/
theorem sink_gives (inputs : Bundle) (F : (String → Word) → String → Word) :
    ∃ c, sink inputs = .ok c ∧ c.Gives inputs ∅ F := by
  refine WordBuild.circuit_gives ?_
  refine (takes_runs (fun _ h => h) WordCircuit.exact_empty rfl (by simp [WordCircuit.empty])).imp
    fun _ c _ _ ⟨hout, hin⟩ => ⟨?_, hout, fun _ _ _ _ n hn => ?_⟩
  · refine Std.ExtTreeMap.ext_getElem? fun n => Option.ext fun size => ?_
    rw [hin, Std.ExtTreeMap.mem_toList_iff_getElem?_eq_some]
    simp [WordCircuit.empty]
  · simp [hout] at hn

theorem copies_maps (times : Nat) (input output : String) :
    Maps (copies times input output) input output (BitVec.replicate times (w := 1)) := by
  refine unary_maps (f := fun x => (List.replicate times x).flatten) (fun {g xs} wf _ has => ?_)
    fun x => Word.flatten_replicate_ofBitVec x times
  refine .pure wf ⟨⟨fun l hl => ?_, fun v _ => ?_⟩, .refl g⟩
  · obtain ⟨ls, hls, hl⟩ := List.mem_flatten.1 hl
    rw [List.eq_of_mem_replicate hls] at hl
    exact has l hl
  · rw [List.map_flatten, List.map_replicate]

theorem slice_maps {start stop : Nat} (input output : String) (inside : start < stop ∧ stop ≤ width) :
    Maps (slice width start stop input output) input output
      fun x : BitVec width => x.extractLsb' start (stop - start) := by
  rw [slice, if_pos inside]
  refine unary_maps (f := fun x => (x.take stop).drop start) (fun {g xs} wf _ has => ?_)
    fun x => Word.slice_ofBitVec x inside.2
  refine .pure wf ⟨⟨fun l hl => has l (List.mem_of_mem_take (List.mem_of_mem_drop hl)),
    fun v _ => ?_⟩, .refl g⟩
  rw [List.map_drop, List.map_take]

theorem combine_joins (width width' : Nat) (agree : right = left → width = width')
    (output : String) : Joins (combine width left width' right output) left right output
      fun (x : BitVec width) (y : BitVec width') => y ++ x := by
  refine two_join (fun xs ys => pure (xs ++ ys)) agree
    (fun {g xs ys} wf _ _ hxs hys => ?_) fun x y => Word.append_ofBitVec x y
  refine .pure wf ⟨⟨fun l hl => ?_, fun v _ => List.map_append⟩, .refl g⟩
  exact (List.mem_append.1 hl).elim (hxs l) (hys l)

theorem parts_of_le {low : Nat} {xs : List Literal} (h : low ≤ xs.length) :
    parts low xs = .ok (xs.take low, xs.drop low) :=
  if_pos h

/-- The two parts of a word. Their names must be different. -/
theorem split_gives (overflow : Overflow) (input : String) (apart : left ≠ right)
    (fits : width + width' < 2 ^ 64) :
    ∃ c, splitWith overflow input width left width' right = .ok c ∧
      c.Gives ((∅ : Bundle).insert input (width + width'))
        (((∅ : Bundle).insert left width).insert right width')
        fun env name => if name = left then (env input).take width else (env input).drop width := by
  refine WordBuild.circuit_gives ?_
  refine (WordBuild.Runs.lift WordCircuit.exact_empty (Overflow.size_of_lt fits)).bind ?_
  rintro _ _ - - ⟨rfl, rfl⟩
  refine (WordBuild.firstInput_runs input (width + width')).bind
    fun xs c exact _ ⟨hin, hout, hlen, carries⟩ => ?_
  have has := carries.has exact
  refine (WordBuild.Runs.lift exact (parts_of_le (show width ≤ xs.length by omega))).bind ?_
  rintro _ _ - - ⟨rfl, rfl⟩
  refine (WordBuild.output_runs exact (by simp [hout])
    fun l hl => has l (List.mem_of_mem_take hl)).bind fun _ d exact' ext post => ?_
  obtain ⟨hin', hout', low, -⟩ := post
  have new : right ∉ d.outputs := by
    rw [hout', hout, NameMap.mem_singleton_iff]
    exact apart.symm
  refine (WordBuild.output_runs exact' new
    fun l hl => ext.has (has l (List.mem_of_mem_drop hl))).imp fun _ e _ ext' post => ?_
  obtain ⟨hin'', hout'', high, kept⟩ := post
  have outputs : e.outputs = ((∅ : Bundle).insert left width).insert right width' := by
    rw [hout'', hout', hout, List.length_take, List.length_drop, hlen, Nat.min_eq_left (by omega),
      Nat.add_sub_cancel_left]
  refine ⟨hin''.trans (hin'.trans hin), outputs, fun v hv env henv n hn => ?_⟩
  have word : env input = xs.map (·.under v) :=
    carries.eq_env (WordCircuit.env_of_extends exact (hin''.trans hin') (ext.trans ext') henv)
  rw [outputs, NameMap.mem_insert_iff, NameMap.mem_singleton_iff] at hn
  rcases hn with rfl | rfl
  · rw [high, if_neg apart.symm, word, List.map_drop]
  · rw [kept v n (by simp [hout']), low, if_pos rfl, word, List.map_take]

/-- One word under several new names. -/
theorem outputCopies_runs {c : WordCircuit} (exact : c.Exact) {xs : List Literal}
    (has : ∀ x ∈ xs, c.graph.Has x) {names : List String} (once : names.Nodup)
    (new : ∀ n ∈ names, n ∉ c.outputs) :
    WordBuild.Runs (names.forM fun name => WordBuild.output name xs) c fun _ d =>
      d.inputs = c.inputs ∧
      d.outputs = c.outputs.insertMany (names.map fun name => (name, xs.length)) ∧
      ∀ v, (∀ n ∈ names, d.outputWord v n = xs.map (·.under v)) ∧
        ∀ n ∈ c.outputs, d.outputWord v n = c.outputWord v n := by
  induction names generalizing c with
  | nil =>
    refine .pure exact ⟨rfl, ?_, fun v => ⟨by simp, fun _ _ => rfl⟩⟩
    rw [List.map_nil, Std.ExtTreeMap.insertMany_nil]
  | cons name names ih =>
    obtain ⟨fresh, once⟩ := List.nodup_cons.1 once
    obtain ⟨hname, new⟩ := List.forall_mem_cons.1 new
    refine (WordBuild.output_runs exact hname has).bind fun _ d exact' ext post => ?_
    obtain ⟨hin, hout, word, kept⟩ := post
    have new' : ∀ n ∈ names, n ∉ d.outputs := by
      intro n hn
      rw [hout, NameMap.mem_insert_iff, not_or]
      exact ⟨fun h => fresh (h ▸ hn), new n hn⟩
    refine (ih exact' (fun x hx => ext.has (has x hx)) once new').imp fun _ e _ _ post => ?_
    obtain ⟨hin', hout', words⟩ := post
    refine ⟨hin'.trans hin, ?_, fun v => ⟨?_, fun n hn => ?_⟩⟩
    · rw [hout', hout, List.map_cons, Std.ExtTreeMap.insertMany_cons]
    · refine List.forall_mem_cons.2 ⟨?_, (words v).1⟩
      rw [(words v).2 name (by simp [hout]), word]
    · rw [(words v).2 n (by simp [hout, hn]), kept v n hn]

/-- Every copy of a word. Their names must be different. -/
theorem tee_gives (width : Nat) (input : String) {outputs : List String} (once : outputs.Nodup) :
    ∃ c, tee width input outputs = .ok c ∧
      c.Gives ((∅ : Bundle).insert input width)
        (NameMap.ofPairs (outputs.map fun output => (output, width))) fun env _ => env input := by
  refine WordBuild.circuit_gives ?_
  refine (WordBuild.firstInput_runs input width).bind
    fun xs c exact _ ⟨hin, hout, hlen, carries⟩ => ?_
  refine (outputCopies_runs exact (carries.has exact) once (by simp [hout])).imp
    fun _ d _ ext post => ?_
  obtain ⟨hin', hout', words⟩ := post
  rw [hout, hlen, ← Std.ExtTreeMap.ofList_eq_insertMany_empty] at hout'
  refine ⟨hin'.trans hin, hout', fun v hv env henv n hn => ?_⟩
  rw [hout', Std.ExtTreeMap.mem_ofList, List.contains_iff_mem, List.map_map] at hn
  rw [(words v).1 n (by simpa using hn),
    carries.eq_env (WordCircuit.env_of_extends exact hin' ext henv)]

theorem leftShift_maps (width shift : Nat) (input output : String) :
    Maps (leftShift width shift input output) input output
      fun x : BitVec width => x <<< shift := by
  refine unary_maps (f := fun x => (List.replicate (min shift x.length) false ++ x).take x.length)
    (fun {g xs} wf _ has => ?_) fun x => ?_
  · have zeros := wf.computesWord_replicate (min shift xs.length) false
    refine .pure wf ⟨⟨fun l hl => ?_, fun v hv => ?_⟩, .refl g⟩
    · exact (List.mem_append.1 (List.mem_of_mem_take hl)).elim (zeros.1 l) (has l)
    · rw [List.map_take, List.map_append, zeros.2 v hv]
      simp only [List.length_map]
  · rw [Word.length_ofBitVec, Word.shiftLeft_ofBitVec]

/-! ### Right shifts -/

section Shift

variable {α : Type} {overflow : Overflow} {shift : Nat} {fill : α} {xs : List α}

theorem shiftDown_of_sizes {position : Nat → Nat}
    (h : ∀ i < xs.length, overflow.size (i + shift) = .ok (position i)) :
    shiftDown overflow shift fill xs =
      .ok ((List.range xs.length).map fun i => xs[position i]?.getD fill) := by
  have steps : ∀ is : List Nat, (∀ i ∈ is, i < xs.length) →
      (is.mapM fun i => do return xs.toArray[← overflow.size (i + shift)]?.getD fill) =
        Except.ok (is.map fun i => xs[position i]?.getD fill) := by
    intro is inside
    induction is with
    | nil => rfl
    | cons i is ih =>
      obtain ⟨first, rest⟩ := List.forall_mem_cons.1 inside
      rw [List.mapM_cons, h i first, ih rest]
      simp
  exact steps _ fun i hi => List.mem_range.1 hi

theorem shiftDown_wraps :
    shiftDown .wraps shift fill xs = .ok (Word.shiftedDown shift fill xs) :=
  shiftDown_of_sizes fun i _ => Overflow.size_wraps (i + shift)

end Shift

/-- Bits shifted down, with a literal of known value behind them. -/
theorem shiftDown_runs {g : Graph} {xs : List Literal} {fill : Literal} (wf : g.WellFormed)
    (has : ∀ x ∈ xs, g.Has x) (hfill : g.Has fill) (shift : Nat) :
    Build.Runs (shiftDown .wraps shift fill xs) g fun ls h =>
      h.ComputesWord ls (fun v => Word.shiftedDown shift (fill.under v) (xs.map (·.under v))) ∧
      g.SameNames h := by
  rw [shiftDown_wraps]
  refine .pure wf ⟨⟨fun l hl => ?_, fun v _ => ?_⟩, .refl g⟩
  · rcases Word.mem_of_mem_shiftedDown hl with hl | rfl
    · exact has l hl
    · exact hfill
  · rw [Word.map_shiftedDown]

theorem logicalRightShift_wraps (width shift : Nat) (input output : String) :
    Maps (logicalRightShift width shift input output) input output
      (Word.shiftedRight false shift : BitVec width → BitVec width) := by
  refine unary_maps (f := Word.shiftedDown shift false) (fun {g xs} wf _ has => ?_) fun x => ?_
  · have zero := wf.computes_ofBool false
    refine (shiftDown_runs wf has zero.1 shift).imp fun ls h _ ext ⟨comp, same⟩ =>
      ⟨comp.congr fun v hv => ?_, same⟩
    rw [(ext.solution hv).under_ofBool]
  · rw [Word.ofBitVec_shiftedRight, Bool.false_and]

theorem arithmeticRightShift_wraps (width shift : Nat) (input output : String) :
    Maps (arithmeticRightShift width shift input output) input output
      (Word.shiftedRight true shift : BitVec width → BitVec width) := by
  refine unary_maps (f := fun x => Word.shiftedDown shift (x.getLast?.getD false) x)
    (fun {g xs} wf _ has => ?_) fun x => ?_
  · have hsign : g.Has (xs.getLast?.getD (.ofBool false)) := by
      cases hlast : xs.getLast? with
      | none => exact (wf.computes_ofBool false).1
      | some sign => exact has sign (List.mem_of_getLast? hlast)
    refine (shiftDown_runs wf has hsign shift).imp fun ls h _ ext ⟨comp, same⟩ =>
      ⟨comp.congr fun v hv => ?_, same⟩
    have sign : (xs.getLast?.getD (.ofBool false)).under v =
        ((xs.map (·.under v)).getLast?).getD false := by
      rw [List.getLast?_map]
      cases xs.getLast? with
      | none => exact (ext.solution hv).under_ofBool false
      | some sign => rfl
    rw [sign]
  · rw [Word.ofBitVec_shiftedRight, Bool.true_and, Word.getD_getLast?_ofBitVec]

section Checks

variable {shift : Nat}

end Checks

end AndInverter.WordGate
