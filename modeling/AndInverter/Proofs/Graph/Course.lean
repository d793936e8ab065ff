import AndInverter.Proofs.Graph.Keeps
import AndInverter.Proofs.Graph.Embed

/-! The course of a copy. Nodes are copied one after the other: the constant stays, a leaf is bound, a
gate is made of the images of its arguments. Where the binding adds nothing but inputs and latches, the
graph that is copied into keeps its meaning, and the copy computes what the copied graph does. -/

namespace AndInverter

namespace Graph

variable {g h : Graph}

/-! ### Counting gates -/

theorem gateCount_eq_countP (g : Graph) :
    g.gateCount = g.nodes.toList.countP fun node => !node.fanins.isEmpty := by
  rw [gateCount, gates, numbered, List.filterMap_map, List.length_filterMap_eq_countP]
  conv_rhs => rw [← List.zipIdx_map_fst 0 g.nodes.toList, List.countP_map]
  refine List.countP_congr fun entry _ => ?_
  obtain ⟨node, id⟩ := entry
  cases node <;> simp [Node.fanins]

theorem gateCount_push (node : Node) (hn : h.nodes = g.nodes.push node) :
    h.gateCount = g.gateCount + if node.fanins.isEmpty then 0 else 1 := by
  rw [gateCount_eq_countP, gateCount_eq_countP, hn, Array.toList_push, List.countP_append,
    List.countP_singleton]
  cases node.fanins.isEmpty <;> rfl

theorem gateCount_addGate_le (g : Graph) (a b : Literal) :
    (g.addGate a b).2.gateCount ≤ g.gateCount + 1 := by
  rw [addGate]
  split
  · exact Nat.le_succ _
  · exact Nat.le_of_eq (gateCount_push (.and a b) rfl)

/-- A conjunction takes one gate, or none where it is folded or shared. -/
theorem gateCount_conj_le (g : Graph) (a b : Literal) :
    (g.conj a b).2.gateCount ≤ g.gateCount + 1 := by
  unfold conj
  repeat' split
  all_goals first | exact Nat.le_succ _ | exact gateCount_addGate_le g _ _

/-- The number of gates among the first `k` nodes. -/
def gatesBelow (g : Graph) (k : Nat) : Nat :=
  (g.nodes.toList.take k).countP fun node => !node.fanins.isEmpty

theorem gatesBelow_size (g : Graph) : g.gatesBelow g.nodes.size = g.gateCount := by
  rw [gatesBelow, gateCount_eq_countP, ← Array.length_toList, List.take_length]

theorem gatesBelow_le_succ (g : Graph) (k : Nat) : g.gatesBelow k ≤ g.gatesBelow (k + 1) :=
  ((List.take_prefix_take_left (Nat.le_succ k)).sublist).countP_le

theorem gatesBelow_succ_of_gate {k : Nat} {left right : Literal}
    (hk : g.nodes[k]? = some (.and left right)) : g.gatesBelow (k + 1) = g.gatesBelow k + 1 := by
  rw [← Array.getElem?_toList] at hk
  rw [gatesBelow, List.take_add_one, hk, List.countP_append]
  rfl

/-! ### Leaves that are added -/

/-- `h` is `g` with further inputs and latches, in any number. -/
inductive AddsLeaves (g : Graph) : Graph → Prop where
  | refl : AddsLeaves g g
  | input {h k : Graph} {name : String} {l : Literal} :
      AddsLeaves g h → Build.input name h = .ok (l, k) → AddsLeaves g k
  | latch {h k : Graph} {name : String} {init : Bool} {l : Literal} :
      AddsLeaves g h → Build.latch name init h = .ok (l, k) → AddsLeaves g k

theorem gateCount_input {name : String} {l : Literal} (run : Build.input name g = .ok (l, h)) :
    h.gateCount = g.gateCount := by
  rw [Build.input] at run
  split at run <;> cases run
  · rfl
  · exact gateCount_push .input rfl

theorem gateCount_latch {name : String} {init : Bool} {l : Literal}
    (run : Build.latch name init g = .ok (l, h)) : h.gateCount = g.gateCount := by
  rw [Build.latch] at run
  split at run <;> cases run
  exact gateCount_push (.latch _ init) rfl

theorem AddsLeaves.keeps (adds : g.AddsLeaves h) (wf : g.WellFormed) :
    h.WellFormed ∧ g.Extends h ∧ h.gateCount = g.gateCount := by
  induction adds with
  | refl => exact ⟨wf, .refl g, rfl⟩
  | input _ run ih =>
    obtain ⟨wf', ext, count⟩ := ih
    obtain ⟨wf'', ext'⟩ := Build.Keeps.input _ _ _ _ wf' run
    exact ⟨wf'', ext.trans ext', (gateCount_input run).trans count⟩
  | latch _ run ih =>
    obtain ⟨wf', ext, count⟩ := ih
    obtain ⟨wf'', ext'⟩ := Build.Keeps.latch _ _ _ _ _ wf' run
    exact ⟨wf'', ext.trans ext', (gateCount_latch run).trans count⟩

end Graph

namespace Build

/-- Bound to any leaf of `source`, the binding adds inputs and latches only, if any, and gives a
literal that is there. It may do anything else on other leaves, and it may fail. -/
def OnlyAddsLeaves (source target : Graph) (bind : Leaf → Build Literal) : Prop :=
  ∀ (i : Nat) (leaf : Leaf) (g h : Graph) (l : Literal), source.IsLeaf i leaf → g.WellFormed →
    target.Extends g → bind leaf g = .ok (l, h) → g.AddsLeaves h ∧ h.Has l

/-- Node `i` is copied, its image being `images i`. -/
inductive CopyStep (source : Graph) (bind : Leaf → Build Literal) (images : Nat → Literal) (i : Nat)
    (g : Graph) : Graph → Prop where
  | zero : source.nodes[i]? = some .zero → images i = .ofBool false →
      CopyStep source bind images i g g
  | leaf {h : Graph} {leaf : Leaf} : source.IsLeaf i leaf → bind leaf g = .ok (images i, h) →
      CopyStep source bind images i g h
  | gate {h : Graph} {left right : Literal} : source.nodes[i]? = some (.and left right) →
      and (left.image images) (right.image images) g = .ok (images i, h) →
      CopyStep source bind images i g h

/-- The first `k` nodes of `source` are copied into `target`, which comes to the second graph. -/
inductive Course (source target : Graph) (bind : Leaf → Build Literal) (images : Nat → Literal) :
    Nat → Graph → Prop where
  | start : Course source target bind images 0 target
  | step {k : Nat} {g h : Graph} : Course source target bind images k g →
      CopyStep source bind images k g h → Course source target bind images (k + 1) h

/-- The binding fails on a leaf of `source`, in the graph that the nodes in front of it lead to. -/
def Stops (source target : Graph) (bind : Leaf → Build Literal) (fault : Fault) : Prop :=
  ∃ images k g leaf, Course source target bind images k g ∧ source.IsLeaf k leaf ∧
    bind leaf g = .error fault

/-- What holds while nodes are copied. -/
structure Carried (source target : Graph) (images : Nat → Literal) (k : Nat) (g : Graph) : Prop where
  wellFormed : g.WellFormed
  grows : target.Extends g
  has : ∀ i < k, g.Has (images i)
  zero : ∀ i < k, source.nodes[i]? = some .zero → images i = .ofBool false
  gate : ∀ i < k, ∀ left right, source.nodes[i]? = some (.and left right) → ∀ v, g.Solution v →
    (images i).under v = ((left.image images).under v && (right.image images).under v)
  gateCount_le : g.gateCount ≤ target.gateCount + source.gatesBelow k

section Course
variable {source target g h : Graph} {bind : Leaf → Build Literal} {images images' : Nat → Literal}
  {k : Nat}

/-- What a step makes of its node. A leaf takes no gate, and a gate takes one at most. -/
theorem CopyStep.spec (ev : source.Evaluable) (adds : OnlyAddsLeaves source target bind)
    (wf : g.WellFormed) (grows : target.Extends g) (step : CopyStep source bind images k g h) :
    h.WellFormed ∧ g.Extends h ∧ h.Has (images k) ∧
      (source.nodes[k]? = some .zero → images k = .ofBool false) ∧
      (∀ left right, source.nodes[k]? = some (.and left right) → ∀ v, h.Solution v →
        (images k).under v = ((left.image images).under v && (right.image images).under v)) ∧
      h.gateCount + source.gatesBelow k ≤ g.gateCount + source.gatesBelow (k + 1) := by
  have more := source.gatesBelow_le_succ k
  cases step with
  | zero hk image =>
    refine ⟨wf, .refl g, image ▸ wf.pos, fun _ => image, fun left right hgate => ?_, by omega⟩
    cases hk.symm.trans hgate
  | leaf hleaf run =>
    obtain ⟨added, has⟩ := adds k _ g h _ hleaf wf grows run
    obtain ⟨wf', ext, count⟩ := added.keeps wf
    -- A leaf is neither the constant nor a gate, so nothing is promised of its value.
    refine ⟨wf', ext, has, fun hzero => ?_, fun left right hgate => ?_, by omega⟩
    · exact absurd hleaf (not_isLeaf ev hzero (by simp) (by simp) _)
    · exact absurd hleaf (not_isLeaf ev hgate (by simp) (by simp) _)
  | @gate _ left right hk run =>
    obtain ⟨ha, hb⟩ := has_of_and run
    obtain ⟨wf', ext, comp, -⟩ := (and_runs wf ha hb).elim run
    refine ⟨wf', ext, comp.1, fun hzero => ?_, fun _ _ hgate => ?_, ?_⟩
    · cases hk.symm.trans hzero
    · obtain ⟨rfl, rfl⟩ := Node.and.inj (Option.some.inj (hk.symm.trans hgate))
      exact comp.2
    · -- The conjunction may have been folded or shared: its gate counts as one at most.
      have made : (g.conj _ _).2 = h :=
        congrArg Prod.snd (Except.ok.inj ((and_eq ha hb).symm.trans run))
      have one := made ▸ g.gateCount_conj_le (left.image images) (right.image images)
      have := Graph.gatesBelow_succ_of_gate hk
      omega

theorem Carried.step (ev : source.Evaluable) (adds : OnlyAddsLeaves source target bind)
    (carried : Carried source target images k g) (step : CopyStep source bind images k g h) :
    Carried source target images (k + 1) h := by
  obtain ⟨wf, ext, hasImage, image, value, count⟩ := step.spec ev adds carried.wellFormed carried.grows
  have total := carried.gateCount_le
  refine ⟨wf, carried.grows.trans ext, ?_, ?_, ?_, by omega⟩ <;>
    refine Nat.forall_lt_succ_right.2 ⟨?_, ?_⟩
  · exact fun i hi => ext.has (carried.has i hi)
  · exact hasImage
  · exact carried.zero
  · exact image
  · exact fun i hi left right hgate v hv => carried.gate i hi left right hgate v (ext.solution hv)
  · exact value

theorem Course.carried (ev : source.Evaluable) (wf : target.WellFormed)
    (adds : OnlyAddsLeaves source target bind) (course : Course source target bind images k g) :
    Carried source target images k g := by
  induction course with
  | start => exact ⟨wf, .refl target, by simp, by simp, by simp, Nat.le_add_right _ _⟩
  | step _ step ih => exact ih.step ev adds step

theorem CopyStep.congr (ev : source.Evaluable) (same : ∀ i ≤ k, images i = images' i)
    (step : CopyStep source bind images k g h) : CopyStep source bind images' k g h := by
  have here := same k (Nat.le_refl k)
  cases step with
  | zero hk image => exact .zero hk (here ▸ image)
  | leaf hleaf run => exact .leaf hleaf (here ▸ run)
  | gate hk run =>
    obtain ⟨ha, hb⟩ := ev.fanin hk
    refine .gate hk ?_
    rwa [← here, ← Literal.image_congr (same _ (Nat.le_of_lt ha)),
      ← Literal.image_congr (same _ (Nat.le_of_lt hb))]

/-- Only the images of the nodes that are copied count. -/
theorem Course.congr (ev : source.Evaluable) (same : ∀ i < k, images i = images' i)
    (course : Course source target bind images k g) : Course source target bind images' k g := by
  induction course with
  | start => exact .start
  | step _ step ih =>
    exact (ih fun i hi => same i (Nat.lt_succ_of_lt hi)).step
      (step.congr ev fun i hi => same i (Nat.lt_succ_of_le hi))

/-! ### The copy takes its course -/

/-- The copy of one node is a step, unless the binding fails. -/
theorem copyNode_spec (ev : source.Evaluable) (wf : target.WellFormed)
    (adds : OnlyAddsLeaves source target bind) {images : Array Literal} {node : Node}
    (hk : source.nodes[images.size]? = some node)
    (course : Course source target bind (Literal.imageAt images) images.size g) :
    (copyNode (NodeNames.ofMap source.inputs) (NodeNames.ofMap source.latches) bind images
      images.size node).Spec g
      (fun l h => CopyStep source bind (Literal.imageAt (images.push l)) images.size g h)
      (Stops source target bind) := by
  obtain ⟨wfg, grows, has, -⟩ := course.carried ev wf adds
  have here (l : Literal) : Literal.imageAt (images.push l) images.size = l :=
    Literal.imageAt_push images l
  rcases node_cases ev hk with rfl | ⟨leaf, hleaf⟩ | ⟨left, right, rfl⟩
  · exact .pure wfg (.zero hk (here _))
  · rw [copyNode_leaf ev hk hleaf]
    refine .of_run (fun l h run => ?_) fun fault run => ⟨_, _, g, leaf, course, hleaf, run⟩
    obtain ⟨wfh, ext, -⟩ := (adds _ leaf g h l hleaf wfg grows run).1.keeps wfg
    exact ⟨wfh, ext, .leaf hleaf ((here l).symm ▸ run)⟩
  · rw [copyNode_gate ev rfl hk]
    obtain ⟨hleft, hright⟩ := ev.fanin hk
    have known {m : Literal} (hm : m.id < images.size) : g.Has (m.image (Literal.imageAt images)) := by
      simpa [Graph.Has, Literal.image_id] using has m.id hm
    -- The arguments of the gate stand in front of it, and their images do not change any more.
    have old {m : Literal} (hm : m.id < images.size) (l : Literal) :
        m.image (Literal.imageAt (images.push l)) = m.image (Literal.imageAt images) :=
      Literal.image_congr (Literal.imageAt_push_of_lt hm)
    refine .of_run (fun l h run => ?_) fun fault run => ?_
    · obtain ⟨wfh, ext⟩ := Keeps.and _ _ g h l wfg run
      refine ⟨wfh, ext, .gate hk ?_⟩
      rwa [old hleft, old hright, here]
    · rw [and_eq (known hleft) (known hright)] at run
      cases run

/-- The copy of all nodes is a course through them, unless the binding fails. -/
theorem copyNodes_spec (ev : source.Evaluable) (wf : target.WellFormed)
    (adds : OnlyAddsLeaves source target bind) :
    (copyNodes source bind).Spec target
      (fun images h => images.size = source.nodes.size ∧
        Course source target bind (Literal.imageAt images) source.nodes.size h)
      (Stops source target bind) := by
  refine source.length_numbered ▸ Spec.foldlM (fun k (images : Array Literal) h => images.size = k ∧
    Course source target bind (Literal.imageAt images) k h) ?_ wf ⟨rfl, .start⟩
  rintro k images ⟨node, id⟩ g hentry - - ⟨rfl, course⟩
  obtain ⟨hk, rfl⟩ := ev.getElem?_numbered_iff.1 hentry
  refine (copyNode_spec ev wf adds hk course).bind fun l h wfh _ step => .pure wfh ⟨by simp, ?_⟩
  exact (course.congr ev fun i hi => (Literal.imageAt_push_of_lt hi).symm).step step

end Course

end Build

end AndInverter
