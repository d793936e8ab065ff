import AndInverter.Proofs.WordGate.Arithmetic
import AndInverter.Proofs.WordGate.Component
import AndInverter.Proofs.WordGate.Wiring
import Mathlib.Data.List.Duplicate

/-! The rules of gates: an input name has one size, an output name is not repeated, and a slice has
bits, all inside its word. A gate that breaks one of these is not made, and there are no other rules. -/

namespace AndInverter

namespace WordBuild

variable {α β : Type} {c d : WordCircuit} {rule : Violation}

/-- The step stops at the rule. -/
def Violates (build : WordBuild α) (c : WordCircuit) (rule : Violation) : Prop :=
  build c = .error (.violated rule)

theorem Violates.bind {build : WordBuild α} (first : build.Violates c rule)
    (f : α → WordBuild β) : (build >>= f).Violates c rule := by
  show (build c >>= fun r => f r.1 r.2) = _
  rw [first]
  rfl

theorem Violates.after {build : WordBuild α} {f : α → WordBuild β} {a : α}
    (then_ : (f a).Violates d rule) (first : build c = .ok (a, d)) :
    (build >>= f).Violates c rule := by
  show (build c >>= fun r => f r.1 r.2) = _
  rw [first]
  exact then_

theorem violates_throw : (throw (.violated rule) : WordBuild α).Violates c rule := rfl

theorem input_violates {name : String} {old size : Nat} (hold : c.inputs[name]? = some old)
    (other : old ≠ size) : (input name size).Violates c (.inputSizes name old size) := by
  refine Violates.after (a := c) (d := c) ?_ rfl
  simp only [hold, ne_eq, other, not_false_eq_true, if_true]
  exact violates_throw.bind _

theorem output_violates {name : String} (word : List Literal) (again : name ∈ c.outputs) :
    (output name word).Violates c (.duplicateWord name) := by
  refine Violates.after (a := c) (d := c) ?_ rfl
  simp only [Std.ExtTreeMap.contains_iff_mem.2 again, if_true]
  exact violates_throw.bind _

theorem circuit_eq_error {build : WordBuild Unit} (stops : build.Violates .empty rule) :
    circuit build = .error (.violated rule) := by
  have run : build.run .empty = .error (.violated rule) := stops
  rw [circuit, run]
  rfl

end WordBuild

namespace WordGate

variable {width width' : Nat} {name input left right output : String}

/-! ### Gates that break a rule -/

theorem combine_eq_error (other : width ≠ width') (name output : String) :
    combine width name width' name output =
      .error (.violated (.inputSizes name width width')) := by
  obtain ⟨xs, c, first, -, -, -, hin, -⟩ := WordBuild.firstInput_runs name width
  refine WordBuild.circuit_eq_error (.after (.bind (WordBuild.input_violates ?_ other) _) first)
  simp [hin]

/-- The test has one bit, so no other word of its name has more or less. -/
theorem mux_eq_error (other : 1 ≠ width) {test : String} (shared : left = test ∨ right = test)
    (output : String) :
    mux width test left right output = .error (.violated (.inputSizes test 1 width)) := by
  obtain ⟨ts, c, first, exact, -, -, hin, -, hts, -⟩ := WordBuild.firstInput_runs test 1
  obtain ⟨t, rfl⟩ := List.length_eq_one_iff.1 hts
  have one : c.inputs[test]? = some 1 := by simp [hin]
  refine WordBuild.circuit_eq_error (.after (.after (d := c) (a := t) ?_ rfl) first)
  by_cases same : left = test
  · subst same
    exact .bind (WordBuild.input_violates one other) _
  · have new (old : Nat) (hold : c.inputs[left]? = some old) : old = width := by
      simp [hin, NameMap.getElem?_insert, same] at hold
    obtain ⟨xs, d, second, -, -, -, hin', -⟩ := WordBuild.input_runs exact new
    refine .after (.bind ?_ _) second
    rw [shared.resolve_left same]
    refine WordBuild.input_violates ?_ other
    rw [hin', NameMap.getElem?_insert, if_neg (Ne.symm same), one]

theorem split_eq_error (input : String) (fits : width + width' < 2 ^ 64) (name : String) :
    split input width name width' name = .error (.violated (.duplicateWord name)) := by
  obtain ⟨xs, c, first, exact, -, -, -, hout, size, carries⟩ :=
    WordBuild.firstInput_runs input (width + width')
  have has := carries.has exact
  obtain ⟨_, d, second, -, -, -, -, hout', -⟩ :=
    WordBuild.output_runs exact (hout ▸ Std.ExtTreeMap.not_mem_empty (k := name))
      fun l (hl : l ∈ xs.take width) => has l (List.mem_of_mem_take hl)
  have sum : (liftM (Overflow.wraps.size (width + width')) : WordBuild Nat) .empty =
      .ok (width + width', .empty) := by
    rw [Overflow.size_of_lt fits]
    rfl
  have halves : (liftM (parts width xs) : WordBuild _) c =
      .ok ((xs.take width, xs.drop width), c) := by
    rw [parts_of_le (by omega)]
    rfl
  have again : name ∈ d.outputs := by simp [hout']
  rw [split, splitWith]
  refine WordBuild.circuit_eq_error (.after (.after (.after ?_ halves) first) sum)
  exact .after (WordBuild.output_violates _ again) second

/-- Copies stop at the first name that has a word already. -/
theorem outputCopies_violates {c : WordCircuit} (exact : c.Exact) {xs : List Literal}
    (has : ∀ x ∈ xs, c.graph.Has x) {names : List String}
    (again : names.Nodup → ∃ n ∈ names, n ∈ c.outputs) :
    ∃ name, (List.Duplicate name names ∨ name ∈ names ∧ name ∈ c.outputs) ∧
      WordBuild.Violates (names.forM fun name => WordBuild.output name xs) c
        (.duplicateWord name) := by
  induction names generalizing c with
  | nil => simp at again
  | cons name names ih =>
    by_cases old : name ∈ c.outputs
    · exact ⟨name, .inr ⟨List.mem_cons_self, old⟩, .bind (WordBuild.output_violates xs old) _⟩
    · obtain ⟨_, d, first, exact', -, ext, -, hout, -⟩ := WordBuild.output_runs exact old has
      -- A name of the rest is there already, or it is the one just given.
      have known (n : String) : n ∈ d.outputs ↔ n = name ∨ n ∈ c.outputs := by
        rw [hout, NameMap.mem_insert_iff]
      have again' : names.Nodup → ∃ n ∈ names, n ∈ d.outputs := by
        intro once
        by_cases first : name ∈ names
        · exact ⟨name, first, (known name).2 (.inl rfl)⟩
        · obtain ⟨n, hn, hold⟩ := again (List.nodup_cons.2 ⟨first, once⟩)
          rcases List.mem_cons.1 hn with rfl | hn
          · exact absurd hold old
          · exact ⟨n, hn, (known n).2 (.inr hold)⟩
      obtain ⟨n, repeated, stops⟩ := ih exact' (fun x hx => ext.has (has x hx)) again'
      refine ⟨n, ?_, .after stops first⟩
      rcases repeated with twice | ⟨hn, hold⟩
      · exact .inl (twice.duplicate_cons name)
      · rcases (known n).1 hold with rfl | hold
        · exact .inl (List.Mem.duplicate_cons_self hn)
        · exact .inr ⟨List.mem_cons_of_mem _ hn, hold⟩

theorem tee_eq_error (width : Nat) (input : String) {outputs : List String}
    (again : ¬outputs.Nodup) : ∃ name, List.Duplicate name outputs ∧
      tee width input outputs = .error (.violated (.duplicateWord name)) := by
  obtain ⟨xs, c, first, exact, -, -, -, hout, -, carries⟩ := WordBuild.firstInput_runs input width
  obtain ⟨name, repeated, stops⟩ :=
    outputCopies_violates exact (carries.has exact) (fun once => absurd once again)
  refine ⟨name, repeated.resolve_right fun h => ?_, WordBuild.circuit_eq_error (.after stops first)⟩
  simp [hout] at h

/-! ### Gates that can be made -/

theorem Maps.made {size : Nat} {gate : Except Fault WordCircuit} {op : BitVec width → BitVec size}
    (maps : Maps gate input output op) : ∃ c, gate = .ok c :=
  maps.imp fun _ h => h.1

theorem Joins.made {size : Nat} {gate : Except Fault WordCircuit}
    {op : BitVec width → BitVec width' → BitVec size} (joins : Joins gate left right output op) :
    ∃ c, gate = .ok c :=
  joins.imp fun _ h => h.1

end WordGate

variable {width : Nat} {input left right output : String}

theorem UnaryGate.made (gate : UnaryGate) : ∃ c, gate.build width input output = .ok c := by
  cases gate with
  | identity => exact (WordGate.identity_maps width input output).made
  | reverse => exact (WordGate.reverse_maps width input output).made
  | bitwiseNegate => exact (WordGate.bitwiseNegate_maps width input output).made
  | reduceAnd => exact (WordGate.reduceAnd_maps width input output).made
  | reduceOr | isNonzero => exact (WordGate.reduceOr_maps width input output).made
  | isZero => exact (WordGate.isZero_maps width input output).made
  | parity => exact (WordGate.parity_maps width input output).made
  | negate => exact (WordGate.negate_maps width input output).made
  | inc => exact (WordGate.inc_maps width input output).made
  | dec => exact (WordGate.dec_maps width input output).made
  | abs => exact (WordGate.abs_maps width input output).made

theorem BinaryGate.made (gate : BinaryGate) : ∃ c, gate.build width left right output = .ok c := by
  cases gate with
  | bitwiseAnd => exact (WordGate.bitwiseAnd_joins width left right output).made
  | bitwiseOr => exact (WordGate.bitwiseOr_joins width left right output).made
  | bitwiseXor => exact (WordGate.bitwiseXor_joins width left right output).made
  | dotMod2 => exact (WordGate.dotMod2_joins width left right output).made
  | eq => exact (WordGate.eq_joins width left right output).made
  | ne => exact (WordGate.ne_joins width left right output).made
  | unsignedLt => exact (WordGate.unsignedLt_joins width left right output).made
  | unsignedLe => exact (WordGate.unsignedLe_joins width left right output).made
  | unsignedGt => exact (WordGate.unsignedGt_joins width left right output).made
  | unsignedGe => exact (WordGate.unsignedGe_joins width left right output).made
  | signedLt => exact (WordGate.signedLt_joins width left right output).made
  | signedLe => exact (WordGate.signedLe_joins width left right output).made
  | signedGt => exact (WordGate.signedGt_joins width left right output).made
  | signedGe => exact (WordGate.signedGe_joins width left right output).made

namespace Component

variable {component : Component}

/-! ### The words of a gate -/

/-- The input words in the order they are asked for. -/
def inputWords : Component → List (String × Nat)
  | unary _ width input _ => [(input, width)]
  | binary _ width left right _ | add width left right _ _ | subtract width left right _ _ =>
    [(left, width), (right, width)]
  | mux width test left right _ => [(test, 1), (left, width), (right, width)]
  | source _ _ _ _ | sourceBits _ _ => []
  | sink inputs => inputs.toList
  | copies _ input _ => [(input, 1)]
  | tee width input _ | slice width _ _ input _ | index width _ input _
  | leftShift width _ input _ | logicalRightShift width _ input _
  | arithmeticRightShift width _ input _ => [(input, width)]
  | combine leftWidth left rightWidth right _ => [(left, leftWidth), (right, rightWidth)]
  | split input leftWidth _ rightWidth _ => [(input, leftWidth + rightWidth)]

def outputNames : Component → List String
  | add _ _ _ output hasCarry | subtract _ _ _ output hasCarry =>
    if hasCarry then [output, output ++ "_carry"] else [output]
  | sink _ => []
  | tee _ _ outputs => outputs
  | split _ _ left _ right => [left, right]
  | unary _ _ _ output | binary _ _ _ _ output | mux _ _ _ _ output | source _ _ output _
  | sourceBits output _ | copies _ _ output | slice _ _ _ _ output | index _ _ _ output
  | combine _ _ _ _ output | leftShift _ _ _ output | logicalRightShift _ _ _ output
  | arithmeticRightShift _ _ _ output => [output]

/-- The range of a slice, with the size of the word that it is taken from. -/
def range? : Component → Option (Nat × Nat × Nat)
  | slice width start stop _ _ => some (start, stop, width)
  | index width position _ _ => some (position, position + 1, width)
  | _ => none

/-- The rules of gates, by what breaks them. -/
def Breaks (component : Component) : Violation → Prop
  | .inputSizes name old new =>
    (name, old) ∈ component.inputWords ∧ (name, new) ∈ component.inputWords ∧ old ≠ new
  | .duplicateWord name => List.Duplicate name component.outputNames
  | .invalidSlice start stop width =>
    component.range? = some (start, stop, width) ∧ ¬(start < stop ∧ stop ≤ width)
  | _ => False

/-- No input name has two sizes, no output name is repeated, and a range has bits, all inside. -/
structure Proper (component : Component) : Prop where
  sizes : ∀ name old new, (name, old) ∈ component.inputWords →
    (name, new) ∈ component.inputWords → old = new
  outputs : component.outputNames.Nodup
  range : ∀ start stop width, component.range? = some (start, stop, width) →
    start < stop ∧ stop ≤ width

theorem Proper.of_no_range (sizes : ∀ name old new, (name, old) ∈ component.inputWords →
      (name, new) ∈ component.inputWords → old = new)
    (outputs : component.outputNames.Nodup) (range : component.range? = none) :
    component.Proper := by
  refine ⟨sizes, outputs, fun start stop width h => ?_⟩
  rw [range] at h
  cases h

/-- One size for all input words, and no range. -/
theorem Proper.of_size (width : Nat) (sizes : ∀ e ∈ component.inputWords, e.2 = width)
    (outputs : component.outputNames.Nodup) (range : component.range? = none) :
    component.Proper :=
  .of_no_range (fun _ _ _ h h' => (sizes _ h).trans (sizes _ h').symm) outputs range

theorem Proper.of_one {width : Nat} {input output : String}
    (words : component.inputWords = [(input, width)]) (names : component.outputNames = [output])
    (range : component.range? = none) : component.Proper :=
  .of_size width (by simp [words]) (names ▸ List.nodup_singleton _) range

/-- The positions and sizes that the gate computes are numbers of 64 bits. -/
def InRange : Component → Prop
  | split _ leftWidth _ rightWidth _ => leftWidth + rightWidth < 2 ^ 64
  | logicalRightShift width shift _ _ | arithmeticRightShift width shift _ _ =>
    Word.ShiftFits width shift
  | _ => True

/-- How a gate ends: it is made if it keeps the rules, except where an integer has no word, and stops at
a rule that it breaks otherwise. -/
def Ends (component : Component) : Prop :=
  (component.Proper ∧ ((∃ c, component.build = .ok c) ∨
    ∃ width value output signed cause, component = source width value output signed ∧
      Word.encode width value signed = .error cause ∧ component.build = .error (.word cause))) ∨
  ∃ rule, component.Breaks rule ∧ component.build = .error (.violated rule)

theorem ends_of_made (proper : component.Proper) (made : ∃ c, component.build = .ok c) :
    component.Ends :=
  .inl ⟨proper, .inl made⟩

theorem ends_of_range {width start stop : Nat} {input output : String}
    (words : component.inputWords = [(input, width)]) (names : component.outputNames = [output])
    (range : component.range? = some (start, stop, width))
    (build : component.build = WordGate.slice width start stop input output) : component.Ends := by
  by_cases inside : start < stop ∧ stop ≤ width
  · refine ends_of_made ⟨?_, names ▸ List.nodup_singleton _, ?_⟩
      (build ▸ (WordGate.slice_maps input output inside).made)
    · simp only [words, List.mem_singleton, Prod.mk.injEq]
      rintro _ _ _ ⟨-, rfl⟩ ⟨-, rfl⟩
      rfl
    · rintro _ _ _ h
      cases range.symm.trans h
      exact inside
  · exact .inr ⟨.invalidSlice start stop width, ⟨range, inside⟩, build.trans (if_neg inside)⟩

theorem nodup_carry (output : String) (hasCarry : Bool) :
    (if hasCarry then [output, output ++ "_carry"] else [output]).Nodup := by
  have apart := (WordGate.carry_ne output).symm
  cases hasCarry <;> simp [apart]

theorem proper_sink (inputs : Bundle) : (sink inputs).Proper := by
  refine .of_no_range (fun name old new h h' => ?_) List.nodup_nil rfl
  have entry {size : Nat} (h : (name, size) ∈ inputs.toList) : inputs[name]? = some size :=
    Std.ExtTreeMap.mem_toList_iff_getElem?_eq_some.1 h
  exact Option.some.inj ((entry h).symm.trans (entry h'))

theorem ends_mux (width : Nat) (test left right output : String) :
    (mux width test left right output).Ends := by
  by_cases bad : 1 ≠ width ∧ (left = test ∨ right = test)
  · refine .inr ⟨.inputSizes test 1 width, ⟨List.mem_cons_self, ?_, bad.1⟩,
      WordGate.mux_eq_error bad.1 bad.2 output⟩
    rcases bad.2 with rfl | rfl <;> simp [inputWords]
  · have small (h : left = test ∨ right = test) : 1 = width :=
      by_contra fun other => bad ⟨other, h⟩
    refine ends_of_made (.of_no_range ?_ (List.nodup_singleton _) rfl)
      ((WordGate.mux_gives width output (fun h => (small (.inl h)).symm)
        fun h => (small (.inr h)).symm).imp fun _ h => h.1)
    simp only [inputWords, List.mem_cons, List.not_mem_nil, or_false, Prod.mk.injEq]
    grind

theorem ends_source (width : Nat) (value : Int64) (output : String) (signed : Bool) :
    (source width value output signed).Ends := by
  have proper : (source width value output signed).Proper :=
    .of_size width (by simp [inputWords]) (List.nodup_singleton _) rfl
  cases encoded : Word.encode width value signed with
  | ok word =>
    refine ends_of_made proper ((WordGate.sourceBits_gives output word).imp fun _ h => ?_)
    rw [build, buildWith, WordGate.source, encoded]
    exact h.1
  | error cause =>
    refine .inl ⟨proper, .inr ⟨width, value, output, signed, cause, rfl, encoded, ?_⟩⟩
    rw [build, buildWith, WordGate.source, encoded]

theorem ends_tee (width : Nat) (input : String) (outputs : List String) :
    (tee width input outputs).Ends := by
  by_cases once : outputs.Nodup
  · exact ends_of_made (.of_size width (by simp [inputWords]) once rfl)
      ((WordGate.tee_gives width input once).imp fun _ h => h.1)
  · obtain ⟨name, repeated, stops⟩ := WordGate.tee_eq_error width input once
    exact .inr ⟨.duplicateWord name, repeated, stops⟩

theorem ends_combine (width : Nat) (left : String) (width' : Nat) (right output : String) :
    (combine width left width' right output).Ends := by
  by_cases agree : right = left → width = width'
  · refine ends_of_made (.of_no_range ?_ (List.nodup_singleton _) rfl)
      (WordGate.combine_joins width width' agree output).made
    simp only [inputWords, List.mem_cons, List.not_mem_nil, or_false, Prod.mk.injEq]
    grind
  · obtain ⟨rfl, other⟩ := Classical.not_imp.1 agree
    exact .inr ⟨.inputSizes right width width', ⟨by simp [inputWords], by simp [inputWords], other⟩,
      WordGate.combine_eq_error other right output⟩

theorem ends_split (input : String) {width : Nat} (left : String) {width' : Nat} (right : String)
    (fits : width + width' < 2 ^ 64) : (split input width left width' right).Ends := by
  by_cases apart : left ≠ right
  · exact ends_of_made (.of_size (width + width') (by simp [inputWords])
      (by simp [outputNames, apart]) rfl)
      ((WordGate.split_gives .wraps input apart fits).imp fun _ h => h.1)
  · obtain rfl := not_not.1 apart
    exact .inr ⟨.duplicateWord left, .cons_mem List.mem_cons_self,
      WordGate.split_eq_error input fits left⟩

/-- Only gates that take several names or a range can break a rule. -/
theorem InRange.ends {component : Component} (inRange : component.InRange) : component.Ends := by
  cases component with
  | mux => exact ends_mux _ _ _ _ _
  | source => exact ends_source _ _ _ _
  | tee => exact ends_tee _ _ _
  | slice | index => exact ends_of_range rfl rfl rfl rfl
  | combine => exact ends_combine _ _ _ _ _
  | split => exact ends_split _ _ _ inRange
  | unary gate => exact ends_of_made (.of_one rfl rfl rfl) gate.made
  | binary gate width =>
    exact ends_of_made (.of_size width (by simp [inputWords]) (List.nodup_singleton _) rfl) gate.made
  | add width left right output hasCarry =>
    exact ends_of_made (.of_size width (by simp [inputWords]) (nodup_carry output hasCarry) rfl)
      ((WordGate.add_evaluates width left right output hasCarry).imp fun _ h => h.1)
  | subtract width left right output hasCarry =>
    exact ends_of_made (.of_size width (by simp [inputWords]) (nodup_carry output hasCarry) rfl)
      ((WordGate.subtract_evaluates width left right output hasCarry).imp fun _ h => h.1)
  | sourceBits output word =>
    exact ends_of_made (.of_size 0 (by simp [inputWords]) (List.nodup_singleton _) rfl)
      ((WordGate.sourceBits_gives output word).imp fun _ h => h.1)
  | sink inputs =>
    exact ends_of_made (proper_sink inputs)
      ((WordGate.sink_gives inputs fun env => env).imp fun _ h => h.1)
  | copies times input output =>
    exact ends_of_made (.of_one rfl rfl rfl) (WordGate.copies_maps times input output).made
  | leftShift width shift input output =>
    exact ends_of_made (.of_one rfl rfl rfl) (WordGate.leftShift_maps width shift input output).made
  | logicalRightShift width shift input output =>
    exact ends_of_made (.of_one rfl rfl rfl)
      (WordGate.logicalRightShift_wraps width shift input output).made
  | arithmeticRightShift width shift input output =>
    exact ends_of_made (.of_one rfl rfl rfl)
      (WordGate.arithmeticRightShift_wraps width shift input output).made

end Component

end AndInverter
