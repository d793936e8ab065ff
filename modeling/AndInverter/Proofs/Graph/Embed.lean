import AndInverter.Proofs.Graph.Eval
import AndInverter.Proofs.Graph.Gate

/-! Copies of a graph inside another one. Each node has an image, and what solves the larger graph
solves the copied one through the images. -/

namespace AndInverter

namespace Literal

/-- The image of a literal, where all nodes have one. -/
def image (images : Nat → Literal) (l : Literal) : Literal :=
  if l.negated then -images l.id else images l.id

theorem under_image (images : Nat → Literal) (l : Literal) (v : Nat → Bool) :
    (l.image images).under v = l.under fun i => (images i).under v := by
  rcases l with ⟨id, _ | _⟩ <;> simp [image, under, apply]

theorem image_id (images : Nat → Literal) (l : Literal) :
    (l.image images).id = (images l.id).id := by
  rcases l with ⟨id, _ | _⟩ <;> simp [image]

theorem image_congr {images images' : Nat → Literal} {l : Literal}
    (h : images l.id = images' l.id) : l.image images = l.image images' := by
  simp [image, h]

/-- The images that a list of images gives. -/
def imageAt (images : Array Literal) (i : Nat) : Literal := (images[i]?).getD (.ofBool false)

theorem image?_eq {images : Array Literal} {l : Literal} (h : l.id < images.size) :
    l.image? images = some (l.image (imageAt images)) := by
  simp [image?, image, imageAt, h]

theorem imageAt_push_of_lt {images : Array Literal} {l : Literal} {i : Nat}
    (h : i < images.size) : imageAt (images.push l) i = imageAt images i := by
  rw [imageAt, imageAt, Array.getElem?_push, if_neg (by omega)]

theorem imageAt_push (images : Array Literal) (l : Literal) :
    imageAt (images.push l) images.size = l := by
  simp [imageAt]

end Literal

namespace Graph

/-- The images of the nodes of `source` make a copy of it inside `g`, and `e` has the images of its
outputs and next states. -/
structure IsEmbedded (source g : Graph) (e : Embedding) (images : Nat → Literal) : Prop where
  has : ∀ i < source.nodes.size, g.Has (images i)
  solution : ∀ v, g.Solution v → source.Solution fun i => (images i).under v
  outputs : ∀ name : String, e.outputs[name]? = (source.outputs[name]?).map (·.image images)
  nexts : ∀ name : String, e.nexts[name]? = (source.latch? name).map (·.next.image images)

section Embedded
variable {source g : Graph} {e : Embedding} {images : Nat → Literal} {name : String} {l : Literal}

theorem IsEmbedded.has_image (embedded : source.IsEmbedded g e images) (hl : source.Has l) :
    g.Has (l.image images) := by
  simpa [Has, Literal.image_id] using embedded.has l.id hl

theorem IsEmbedded.has_output (embedded : source.IsEmbedded g e images) (ev : source.Evaluable)
    (hl : e.outputs[name]? = some l) : g.Has l := by
  rw [embedded.outputs] at hl
  obtain ⟨m, hm, rfl⟩ := Option.map_eq_some_iff.1 hl
  exact embedded.has_image (ev.output hm)

theorem IsEmbedded.has_next (embedded : source.IsEmbedded g e images) (ev : source.Evaluable)
    (hl : e.nexts[name]? = some l) : g.Has l := by
  rw [embedded.nexts] at hl
  obtain ⟨latch, hlatch, rfl⟩ := Option.map_eq_some_iff.1 hl
  exact embedded.has_image (ev.next (ev.latch?_eq_some_iff.1 hlatch).2)

theorem IsEmbedded.mem_outputs_iff (embedded : source.IsEmbedded g e images) :
    name ∈ e.outputs ↔ name ∈ source.outputs := by
  simp only [Std.ExtTreeMap.mem_iff_isSome_getElem?, embedded.outputs, Option.isSome_map]

theorem IsEmbedded.mem_nexts_iff (embedded : source.IsEmbedded g e images)
    (ev : source.Evaluable) : name ∈ e.nexts ↔ name ∈ source.latches := by
  rw [Std.ExtTreeMap.mem_iff_isSome_getElem?, embedded.nexts, Option.isSome_map,
    Option.isSome_iff_exists, ev.mem_latches_iff]

/-- The values of outputs and next states under a solution of the larger graph. -/
theorem IsEmbedded.outputValue (embedded : source.IsEmbedded g e images) (v : Nat → Bool)
    (name : String) : source.outputValue (fun i => (images i).under v) name =
      (e.outputs[name]?).map (·.under v) := by
  rw [embedded.outputs, Option.map_map, Graph.outputValue]
  simp [Function.comp_def, Literal.under_image]

theorem IsEmbedded.nextValue (embedded : source.IsEmbedded g e images) (v : Nat → Bool)
    (name : String) : source.nextValue (fun i => (images i).under v) name =
      (e.nexts[name]?).map (·.under v) := by
  rw [embedded.nexts, Option.map_map, Graph.nextValue]
  simp [Function.comp_def, Literal.under_image]

end Embedded

/-- The node with that number is that leaf. -/
def IsLeaf (g : Graph) (i : Nat) : Leaf → Prop
  | .input name => g.inputs[name]? = some i
  | .latch name init => ∃ next, g.latch? name = some ⟨i, next, init⟩

/-- The input is one of the first `k` nodes. -/
def InputBelow (g : Graph) (k : Nat) (name : String) : Prop :=
  ∃ i, g.inputs[name]? = some i ∧ i < k

@[simp]
theorem not_inputBelow_zero (g : Graph) (name : String) : ¬ g.InputBelow 0 name := by
  simp [InputBelow]

theorem inputBelow_succ_iff {g : Graph} {k : Nat} {name : String} :
    g.InputBelow (k + 1) name ↔ g.inputs[name]? = some k ∨ g.InputBelow k name := by
  constructor
  · rintro ⟨i, hi, hlt⟩
    rcases Nat.lt_succ_iff_lt_or_eq.1 hlt with hlt | rfl
    · exact .inr ⟨i, hi, hlt⟩
    · exact .inl hi
  · rintro (hi | ⟨i, hi, hlt⟩)
    · exact ⟨k, hi, Nat.lt_succ_self k⟩
    · exact ⟨i, hi, Nat.lt_succ_of_lt hlt⟩

theorem inputBelow_size_iff {g : Graph} (ev : g.Evaluable) {name : String} :
    g.InputBelow g.nodes.size name ↔ name ∈ g.inputs := by
  rw [mem_iff_exists_getElem?]
  exact ⟨fun ⟨i, hi, _⟩ => ⟨i, hi⟩, fun ⟨i, hi⟩ => ⟨i, hi, lt_size (ev.input.2 ⟨name, hi⟩)⟩⟩

end Graph

namespace Build

/-- The first `k` nodes are copied, the leaves among them as `Bound` says. -/
structure CopiedTo (source : Graph) (Bound : Leaf → Literal → Graph → Prop) (k : Nat)
    (images : Array Literal) (g : Graph) : Prop where
  size : images.size = k
  has : ∀ i < k, g.Has (Literal.imageAt images i)
  zero : 0 < k → Literal.imageAt images 0 = .ofBool false
  gate : ∀ i < k, ∀ left right, source.nodes[i]? = some (.and left right) → ∀ v, g.Solution v →
    (Literal.imageAt images i).under v =
      ((left.image (Literal.imageAt images)).under v &&
        (right.image (Literal.imageAt images)).under v)
  leaf : ∀ i < k, ∀ leaf, source.IsLeaf i leaf → Bound leaf (Literal.imageAt images i) g

section Copy
variable {source g h : Graph} {bind : Leaf → Build Literal} {Inv : Nat → Graph → Prop}
  {Bound : Leaf → Literal → Graph → Prop}

/-- A gate reads only images that are there. -/
theorem CopiedTo.push (ev : source.Evaluable)
    (mono : ∀ leaf l g h, Bound leaf l g → g.Extends h → Bound leaf l h)
    {k : Nat} {images : Array Literal} (copied : CopiedTo source Bound k images g)
    (ext : g.Extends h) {l : Literal} (hl : h.Has l) (zero : k = 0 → l = .ofBool false)
    (gate : ∀ left right, source.nodes[k]? = some (.and left right) → ∀ v, h.Solution v →
      l.under v = ((left.image (Literal.imageAt images)).under v &&
        (right.image (Literal.imageAt images)).under v))
    (leaf : ∀ leaf, source.IsLeaf k leaf → Bound leaf l h) :
    CopiedTo source Bound (k + 1) (images.push l) h := by
  obtain ⟨rfl, has, zero', gate', leaf'⟩ := copied
  have new : Literal.imageAt (images.push l) images.size = l := Literal.imageAt_push images l
  have old {i : Nat} (hi : i < images.size) :
      Literal.imageAt (images.push l) i = Literal.imageAt images i := Literal.imageAt_push_of_lt hi
  have oldImage {m : Literal} (hm : m.id < images.size) :
      m.image (Literal.imageAt (images.push l)) = m.image (Literal.imageAt images) :=
    Literal.image_congr (old hm)
  refine ⟨Array.size_push l, fun i hi => ?_, fun _ => ?_, fun i hi a b hab v hv => ?_,
    fun i hi lf hlf => ?_⟩
  · rcases Nat.lt_succ_iff_lt_or_eq.1 hi with hi | rfl
    · exact old hi ▸ ext.has (has i hi)
    · exact new.symm ▸ hl
  · rcases Nat.eq_zero_or_pos images.size with h0 | h0
    · rw [← zero h0, ← h0, new]
    · rw [old h0, zero' h0]
  · have ⟨ha, hb⟩ := ev.fanin hab
    rcases Nat.lt_succ_iff_lt_or_eq.1 hi with hi | rfl
    · rw [old hi, oldImage (by omega), oldImage (by omega)]
      exact gate' i hi a b hab v (ext.solution hv)
    · rw [new, oldImage ha, oldImage hb]
      exact gate a b hab v hv
  · rcases Nat.lt_succ_iff_lt_or_eq.1 hi with hi | rfl
    · exact old hi ▸ mono lf _ g h (leaf' i hi lf hlf) ext
    · exact new.symm ▸ leaf lf hlf

/-- What a copy needs of the binding of leaves: that it runs and keeps the invariant of the copied
nodes, which other nodes keep as well. -/
structure Binds (source g : Graph) (bind : Leaf → Build Literal) (Inv : Nat → Graph → Prop)
    (Bound : Leaf → Literal → Graph → Prop) : Prop where
  mono : ∀ leaf l g h, Bound leaf l g → g.Extends h → Bound leaf l h
  other : ∀ k h h', (∀ leaf, ¬ source.IsLeaf k leaf) → Inv k h → h.SameNames h' → Inv (k + 1) h'
  leaf : ∀ k h leaf, source.IsLeaf k leaf → h.WellFormed → g.Extends h → Inv k h →
    (bind leaf).Runs h fun l h' => h'.Has l ∧ Bound leaf l h' ∧ Inv (k + 1) h'

theorem not_isLeaf (ev : source.Evaluable) {k : Nat} {node : Node}
    (hk : source.nodes[k]? = some node) (hi : node ≠ .input)
    (hl : ∀ next init, node ≠ .latch next init) (leaf : Leaf) : ¬ source.IsLeaf k leaf := by
  cases leaf with
  | input name =>
    intro h
    have := ev.input.2 ⟨name, h⟩
    rw [hk] at this
    exact hi (Option.some.inj this)
  | latch name init =>
    rintro ⟨next, h⟩
    have := (ev.latch?_eq_some_iff.1 h).2
    rw [hk] at this
    exact hl _ _ (Option.some.inj this)

theorem isLeaf_input (ev : source.Evaluable) {k : Nat} {name : String}
    (h : source.inputs[name]? = some k) {leaf : Leaf} (hleaf : source.IsLeaf k leaf) :
    leaf = .input name := by
  cases leaf with
  | input other => rw [ev.input_inj hleaf h]
  | latch other init =>
    obtain ⟨next, hl⟩ := hleaf
    have hk := (ev.latch?_eq_some_iff.1 hl).2
    rw [ev.input.2 ⟨name, h⟩] at hk
    cases hk

theorem isLeaf_latch (ev : source.Evaluable) {k : Nat} {name : String} {next : Literal}
    {init : Bool} (h : source.latch? name = some ⟨k, next, init⟩) {leaf : Leaf}
    (hleaf : source.IsLeaf k leaf) : leaf = .latch name init := by
  obtain ⟨hn, hk⟩ := ev.latch?_eq_some_iff.1 h
  cases leaf with
  | input other =>
    rw [ev.input.2 ⟨other, hleaf⟩] at hk
    cases hk
  | latch other init' =>
    obtain ⟨next', hl⟩ := hleaf
    obtain ⟨hn', hk'⟩ := ev.latch?_eq_some_iff.1 hl
    obtain rfl := ev.latch_inj hn' hn
    rw [hk] at hk'
    cases hk'
    rfl

/-- A node is no more than one leaf. -/
theorem isLeaf_unique (ev : source.Evaluable) {k : Nat} {leaf other : Leaf}
    (h : source.IsLeaf k leaf) (hother : source.IsLeaf k other) : other = leaf := by
  cases leaf with
  | input name => exact isLeaf_input ev h hother
  | latch name init =>
    obtain ⟨next, hl⟩ := h
    exact isLeaf_latch ev hl hother

/-- A node is the constant, a leaf or a gate. -/
theorem node_cases (ev : source.Evaluable) {k : Nat} {node : Node}
    (hk : source.nodes[k]? = some node) :
    node = .zero ∨ (∃ leaf, source.IsLeaf k leaf) ∨ ∃ left right, node = .and left right := by
  cases node with
  | zero => exact .inl rfl
  | input =>
    obtain ⟨name, hn⟩ := ev.input.1 hk
    exact .inr (.inl ⟨.input name, hn⟩)
  | latch next init =>
    obtain ⟨name, hn⟩ := ev.latch.1 ⟨next, init, hk⟩
    exact .inr (.inl ⟨.latch name init, next, ev.latch?_eq_some_iff.2 ⟨hn, hk⟩⟩)
  | and left right => exact .inr (.inr ⟨left, right, rfl⟩)

/-- A leaf is found under its name and bound. -/
theorem copyNode_leaf (ev : source.Evaluable) {k : Nat} {images : Array Literal} {node : Node}
    {leaf : Leaf} (hk : source.nodes[k]? = some node) (hleaf : source.IsLeaf k leaf) :
    copyNode (NodeNames.ofMap source.inputs) (NodeNames.ofMap source.latches) bind images k node =
      bind leaf := by
  cases leaf with
  | input name =>
    obtain rfl := Option.some.inj (hk.symm.trans (ev.input.2 ⟨name, hleaf⟩))
    simp only [copyNode, (NodeNames.getElem?_ofMap ev.input_inj).2 hleaf]
    rfl
  | latch name init =>
    obtain ⟨next, hl⟩ := hleaf
    obtain ⟨hn, hnode⟩ := ev.latch?_eq_some_iff.1 hl
    obtain rfl := Option.some.inj (hk.symm.trans hnode)
    simp only [copyNode, (NodeNames.getElem?_ofMap ev.latch_inj).2 hn]
    rfl

/-- A gate is made of the images of its arguments, which are there. -/
theorem copyNode_gate (ev : source.Evaluable) {k : Nat} {images : Array Literal}
    {inputNames latchNames : NodeNames} {left right : Literal} (size : images.size = k)
    (hk : source.nodes[k]? = some (.and left right)) :
    copyNode inputNames latchNames bind images k (.and left right) =
      and (left.image (Literal.imageAt images)) (right.image (Literal.imageAt images)) := by
  obtain ⟨hleft, hright⟩ := ev.fanin hk
  simp only [copyNode, Literal.image?_eq (size.symm ▸ hleft), Literal.image?_eq (size.symm ▸ hright)]
  rfl

theorem copyNodes_runs (ev : source.Evaluable) (wf : g.WellFormed)
    (binds : Binds source g bind Inv Bound) (start : Inv 0 g) :
    (copyNodes source bind).Runs g fun images h =>
      CopiedTo source Bound source.nodes.size images h ∧ Inv source.nodes.size h := by
  refine source.length_numbered ▸ Spec.foldlM
    (fun k images h => CopiedTo source Bound k images h ∧ Inv k h) ?_ wf
    ⟨⟨rfl, by simp, by simp, by simp, by simp⟩, start⟩
  · rintro k images ⟨node, id⟩ h hentry wf' ext ⟨copied, inv⟩
    obtain ⟨hk, rfl⟩ := ev.getElem?_numbered_iff.1 hentry
    dsimp only
    rcases node_cases ev hk with rfl | ⟨leaf, hleaf⟩ | ⟨left, right, rfl⟩
    · have noLeaf := not_isLeaf ev hk (by simp) (by simp)
      refine .bind_of_eq (a := .ofBool false) rfl (.pure wf' ⟨copied.push ev binds.mono (.refl h)
        (l := .ofBool false) wf'.pos (fun _ => rfl) (by simp [hk])
        fun leaf hleaf => absurd hleaf (noLeaf leaf), binds.other k h h noLeaf inv (.refl h)⟩)
    · rw [copyNode_leaf ev hk hleaf]
      refine (binds.leaf k h leaf hleaf wf' ext inv).bind ?_
      rintro l h' wf'' ext' ⟨hl, bound, inv'⟩
      refine .pure wf'' ⟨copied.push ev binds.mono ext' hl (fun h0 => ?_) (fun left right hgate => ?_)
        fun other hother => isLeaf_unique ev hleaf hother ▸ bound, inv'⟩
      · subst h0
        exact absurd hleaf (not_isLeaf ev ev.zero (by simp) (by simp) leaf)
      · exact absurd hleaf (not_isLeaf ev hgate (by simp) (by simp) leaf)
    · have noLeaf := not_isLeaf ev hk (by simp) (by simp)
      obtain ⟨ha, hb⟩ := ev.fanin hk
      have has {m : Literal} (hm : m.id < k) :
          h.Has (m.image (Literal.imageAt images)) := by
        simpa [Graph.Has, Literal.image_id] using copied.has m.id hm
      rw [copyNode_gate ev copied.size hk]
      refine (and_runs wf' (has ha) (has hb)).bind ?_
      rintro l h' wf'' ext' ⟨comp, same⟩
      refine .pure wf'' ⟨copied.push ev binds.mono ext' comp.1 (by omega) (fun a b hab v hv => ?_)
        fun leaf hleaf => absurd hleaf (noLeaf leaf), binds.other k h h' noLeaf inv same⟩
      obtain ⟨rfl, rfl⟩ := Node.and.inj (Option.some.inj (hk.symm.trans hab))
      exact comp.2 v hv

theorem readEmbedding_eq (ev : source.Evaluable) {images : Array Literal}
    (size : images.size = source.nodes.size) :
    ∃ embedding, source.readEmbedding images = some embedding ∧
      (∀ name : String, embedding.outputs[name]? =
        (source.outputs[name]?).map (·.image (Literal.imageAt images))) ∧
      ∀ name : String, embedding.nexts[name]? =
        (source.latch? name).map (·.next.image (Literal.imageAt images)) := by
  obtain ⟨outputs, ho, hout⟩ := NameMap.exists_traverse (m := source.outputs)
    (f := (·.image? images))
    (g := fun name => (source.outputs[name]?).map (·.image (Literal.imageAt images)))
    (fun name l h => ⟨_, Literal.image?_eq (size.symm ▸ ev.output h), by simp [h]⟩)
    (fun name h => by simp [not_mem_iff_getElem?.1 h])
  obtain ⟨states, hs, hstates⟩ := ev.nextStates_eq
  obtain ⟨nexts, hn, hnexts⟩ := NameMap.exists_traverse (m := states) (f := (·.image? images))
    (g := fun name => (source.latch? name).map (·.next.image (Literal.imageAt images)))
    (fun name l h => by
      rw [hstates] at h
      obtain ⟨x, hx, rfl⟩ := Option.map_eq_some_iff.1 h
      exact ⟨_, Literal.image?_eq (size.symm ▸ ev.next (ev.latch?_eq_some_iff.1 hx).2),
        by simp [hx]⟩)
    (fun name h => by
      rw [not_mem_iff_getElem?, hstates, Option.map_eq_none_iff] at h
      simp [h])
  exact ⟨⟨outputs, nexts⟩, by simp [Graph.readEmbedding, ho, hs, hn], hout, hnexts⟩

/-- Copying gives a copy whose leaves are bound, and the images of outputs and next states. -/
theorem embed_runs (ev : source.Evaluable) (wf : g.WellFormed)
    (binds : Binds source g bind Inv Bound) (start : Inv 0 g) :
    (embed source bind).Runs g fun e h => Inv source.nodes.size h ∧
      ∃ images, source.IsEmbedded h e images ∧
        ∀ i leaf, source.IsLeaf i leaf → Bound leaf (images i) h := by
  refine (copyNodes_runs ev wf binds start).bind fun images h wf' ext ⟨copied, inv⟩ => ?_
  obtain ⟨e, he, hout, hnext⟩ := readEmbedding_eq ev copied.size
  refine .of_eq (promised_eq he) wf' (.refl h) ⟨inv, Literal.imageAt images,
    ⟨copied.has, fun v hv => ⟨?_, fun {i left right} hi => ?_⟩, hout, hnext⟩,
    fun i leaf hleaf => ?_⟩
  · rw [copied.zero ev.pos, hv.under_ofBool]
  · rw [copied.gate i (Graph.lt_size hi) left right hi v hv, Literal.under_image,
      Literal.under_image]
  · refine copied.leaf i ?_ leaf hleaf
    cases leaf with
    | input name => exact Graph.lt_size (ev.input.2 ⟨name, hleaf⟩)
    | latch name init =>
      obtain ⟨next, hl⟩ := hleaf
      exact Graph.lt_size (ev.latch?_eq_some_iff.1 hl).2

end Copy

end Build

end AndInverter
