import AndInverter.Graph.Compact
import AndInverter.Proofs.Graph.Embed
import AndInverter.Proofs.Graph.Keeps
import Mathlib.Data.Nat.Count

/-! Copies without the gates that are not used. The nodes that stay stand one after the other in their
old order, so the new number of a node is how many in front of it stay. -/

namespace AndInverter

/-- A literal over nodes that have other numbers. -/
def Literal.renumber (number : Nat → Nat) (l : Literal) : Literal := ⟨number l.id, l.negated⟩

def Node.renumber (number : Nat → Nat) : Node → Node
  | .latch next init => .latch (next.renumber number) init
  | .and left right => .and (left.renumber number) (right.renumber number)
  | node => node

theorem Literal.image_eq_renumber {images : Nat → Literal} {number : Nat → Nat} {l : Literal}
    (h : images l.id = .positive (number l.id)) : l.image images = l.renumber number := by
  rcases l with ⟨id, _ | _⟩ <;> simp_all [image, renumber, positive, Neg.neg]

theorem Literal.raw_le_raw {l m : Literal} (h : l.id < m.id) : l.raw ≤ m.raw := by
  have := Bool.toNat_le l.negated
  simp only [raw]
  omega

namespace Graph

/-- Whether a node has a place where gates that are not used are left out. -/
def stays (g : Graph) (used : Array Bool) (i : Nat) : Bool := !g.isGate i || (used[i]?).getD false

/-- The number of a node, where nodes that do not stay are not counted. -/
def place (g : Graph) (used : Array Bool) (i : Nat) : Nat :=
  Nat.count (fun j => g.stays used j = true) i

/-- What nodes that stay, outputs and next states depend on stays as well. -/
structure Closed (g : Graph) (used : Array Bool) : Prop where
  gate : ∀ (i : Nat) a b, g.stays used i → g.nodes[i]? = some (.and a b) →
    g.stays used a.id ∧ g.stays used b.id
  next : ∀ (i : Nat) next init, g.nodes[i]? = some (.latch next init) → g.stays used next.id
  output : ∀ (name : String) l, g.outputs[name]? = some l → g.stays used l.id

variable {g h : Graph} {used : Array Bool} {i j k : Nat} {node : Node}

theorem stays_of_not_gate (hi : g.nodes[i]? = some node) (other : ∀ a b, node ≠ .and a b) :
    g.stays used i := by
  cases node with
  | and a b => exact absurd rfl (other a b)
  | _ => simp [stays, isGate, hi]

theorem exists_gate_of_not_stays (hi : ¬ g.stays used i) : ∃ a b, g.nodes[i]? = some (.and a b) := by
  rw [stays, isGate] at hi
  split at hi
  next a b h => exact ⟨a, b, h⟩
  next => simp at hi

theorem getElem?_prune (g : Graph) (used : Array Bool) (i : Nat) :
    (g.prune used).nodes[i]? = (g.nodes[i]?).map fun node =>
      if g.stays used i then node else .and (.ofBool false) (.ofBool false) := by
  rw [prune, Array.getElem?_mapIdx]
  refine Option.map_congr fun node hi => ?_
  cases node <;> simp [stays, isGate, hi]

/-- Leaves are where they were. -/
theorem getElem?_prune_leaf (other : ∀ a b, node ≠ .and a b) :
    (g.prune used).nodes[i]? = some node ↔ g.nodes[i]? = some node := by
  rw [getElem?_prune, Option.map_eq_some_iff]
  constructor
  · rintro ⟨old, hi, heq⟩
    split at heq
    next => exact heq ▸ hi
    next => exact absurd heq.symm (other _ _)
  · intro hi
    exact ⟨node, hi, if_pos (stays_of_not_gate hi other)⟩

theorem size_prune (g : Graph) (used : Array Bool) : (g.prune used).nodes.size = g.nodes.size :=
  Array.size_mapIdx

theorem Evaluable.prune (ev : g.Evaluable) (used : Array Bool) : (g.prune used).Evaluable where
  ids := by
    -- A gate that is put in holds its position, and the other nodes hold theirs already.
    refine Array.ext_getElem? fun i => ?_
    rw [size_prune, ← ev.ids, Graph.prune, Array.getElem?_mapIdx, ev.ids]
    by_cases hi : i < g.nodes.size <;> simp [hi]
  zero := (getElem?_prune_leaf (by simp)).2 ev.zero
  zero_unique hi := ev.zero_unique ((getElem?_prune_leaf (by simp)).1 hi)
  fanin {i a b} hi := by
    rw [getElem?_prune, Option.map_eq_some_iff] at hi
    obtain ⟨old, hold, heq⟩ := hi
    split at heq
    next => exact ev.fanin (heq ▸ hold)
    next hgone =>
      obtain ⟨c, d, hgate⟩ := exists_gate_of_not_stays hgone
      have pos := Nat.lt_of_le_of_lt (Nat.zero_le _) (ev.fanin hgate).1
      obtain ⟨rfl, rfl⟩ := Node.and.inj heq
      exact ⟨pos, pos⟩
  input := (getElem?_prune_leaf (by simp)).trans ev.input
  input_inj := ev.input_inj
  latch := (exists_congr fun _ => exists_congr fun _ => getElem?_prune_leaf (by simp)).trans ev.latch
  latch_inj := ev.latch_inj
  next hi := by
    rw [Has, size_prune]
    exact ev.next ((getElem?_prune_leaf (by simp)).1 hi)
  output hl := by
    rw [Has, size_prune]
    exact ev.output hl

theorem Evaluable.latch?_prune (ev : g.Evaluable) (used : Array Bool) (name : String) :
    (g.prune used).latch? name = g.latch? name := by
  refine Option.ext fun latch => ?_
  rw [(ev.prune used).latch?_eq_some_iff, ev.latch?_eq_some_iff, getElem?_prune_leaf (by simp)]
  rfl

/-! ### Places -/

theorem place_succ (g : Graph) (used : Array Bool) (i : Nat) :
    g.place used (i + 1) = g.place used i + if g.stays used i then 1 else 0 := Nat.count_succ ..

theorem place_lt_place (hi : g.stays used i) (h : i < j) : g.place used i < g.place used j :=
  Nat.count_strict_mono hi h

theorem place_inj (hi : g.stays used i) (hj : g.stays used j) (h : g.place used i = g.place used j) :
    i = j := Nat.count_injective hi hj h

theorem renumber_place_inj {l m : Literal} (hl : g.stays used l.id) (hm : g.stays used m.id)
    (h : l.renumber (g.place used) = m.renumber (g.place used)) : l = m := by
  obtain ⟨hid, hneg⟩ := Literal.mk.inj h
  rcases l with ⟨id, negated⟩
  obtain rfl := place_inj hl hm hid
  exact congrArg (Literal.mk _) hneg

theorem exists_place (h : j < g.place used k) : ∃ i < k, g.stays used i ∧ g.place used i = j := by
  induction k with
  | zero => cases h
  | succ k ih =>
    by_cases hj : j < g.place used k
    · obtain ⟨i, hi, stay, heq⟩ := ih hj
      exact ⟨i, Nat.lt_succ_of_lt hi, stay, heq⟩
    · rw [place_succ] at h
      split at h
      next stay => exact ⟨k, Nat.lt_succ_self k, stay, by omega⟩
      next => omega

theorem Evaluable.place_pos (ev : g.Evaluable) (hk : 0 < k) : 0 < g.place used k :=
  place_lt_place (stays_of_not_gate ev.zero (by simp)) hk

/-- The literal that a node is copied to. -/
def placed (g : Graph) (used : Array Bool) (i : Nat) : Literal :=
  if g.stays used i then .positive (g.place used i) else .ofBool false

/-- The first `k` nodes of `g`, as far as they stay, are the nodes of `h`; next states may differ. -/
structure Packed (g : Graph) (used : Array Bool) (k : Nat) (h : Graph) : Prop where
  size : h.nodes.size = max 1 (g.place used k)
  node : ∀ i < k, g.stays used i → ∀ node, g.nodes[i]? = some node →
    ∃ next, h.nodes[g.place used i]? = some ((node.renumber (g.place used)).setNext next)
  input : ∀ (name : String) j, h.inputs[name]? = some j ↔
    ∃ i < k, g.inputs[name]? = some i ∧ g.place used i = j
  latch : ∀ (name : String) j, h.latches[name]? = some j ↔
    ∃ i < k, g.latches[name]? = some i ∧ g.place used i = j
  outputs : h.outputs = ∅

theorem packed_empty (g : Graph) (used : Array Bool) : g.Packed used 0 .empty :=
  ⟨rfl, by simp, by simp [empty], by simp [empty], rfl⟩

/-- One more node is taken over, if it stays. -/
theorem Packed.step (packed : g.Packed used k h) {h' : Graph} (ext : h.Extends h')
    (size : h'.nodes.size = max 1 (g.place used (k + 1)))
    (new : g.stays used k → ∀ node, g.nodes[k]? = some node →
      ∃ next, h'.nodes[g.place used k]? = some ((node.renumber (g.place used)).setNext next))
    (input : ∀ (name : String) j, h'.inputs[name]? = some j ↔
      h.inputs[name]? = some j ∨ g.inputs[name]? = some k ∧ g.place used k = j)
    (latch : ∀ (name : String) j, h'.latches[name]? = some j ↔
      h.latches[name]? = some j ∨ g.latches[name]? = some k ∧ g.place used k = j)
    (outputs : h'.outputs = h.outputs) : g.Packed used (k + 1) h' := by
  refine ⟨size, fun i hi stay node hnode => ?_, fun name j => ?_, fun name j => ?_,
    outputs.trans packed.outputs⟩
  · rcases Nat.lt_succ_iff_lt_or_eq.1 hi with hi | rfl
    · obtain ⟨next, hat⟩ := packed.node i hi stay node hnode
      obtain ⟨next', hat'⟩ := ext.node hat
      exact ⟨next', by rw [hat', Node.setNext_setNext]⟩
    · exact new stay node hnode
  · rw [input, packed.input, Nat.exists_lt_succ_right]
  · rw [latch, packed.latch, Nat.exists_lt_succ_right]

/-- A gate of the copy is one of the nodes taken over. -/
theorem Packed.exists_gate (packed : g.Packed used k h) (wfh : h.WellFormed)
    (hk : k ≤ g.nodes.size) {a b : Literal} (hj : h.nodes[j]? = some (.and a b)) :
    ∃ i < k, ∃ c d, g.stays used i ∧ g.nodes[i]? = some (.and c d) ∧
      c.renumber (g.place used) = a ∧ d.renumber (g.place used) = b := by
  have hj0 : j ≠ 0 := by
    rintro rfl
    rw [wfh.zero] at hj
    cases hj
  have hlt := lt_size hj
  rw [packed.size] at hlt
  have below : j < g.place used k := by omega
  obtain ⟨i, hi, stay, rfl⟩ := exists_place below
  obtain ⟨node, hnode⟩ : ∃ node, g.nodes[i]? = some node :=
    ⟨_, Array.getElem?_eq_getElem (Nat.lt_of_lt_of_le hi hk)⟩
  obtain ⟨next, hat⟩ := packed.node i hi stay node hnode
  have heq := Option.some.inj (hat.symm.trans hj)
  cases node with
  | and c d =>
    obtain ⟨rfl, rfl⟩ := Node.and.inj heq
    exact ⟨i, hi, c, d, stay, hnode, rfl, rfl⟩
  | _ => cases heq

section Steps
variable (wf : g.WellFormed) (packed : g.Packed used k h) (wfh : h.WellFormed)

/-- No node but an input adds the name of one, and likewise for latches. -/
theorem WellFormed.getElem?_inputs_ne (wf : g.WellFormed) (hk : g.nodes[k]? = some node)
    (hi : node ≠ .input) (name : String) : g.inputs[name]? ≠ some k := fun hname =>
  hi (Option.some.inj (hk.symm.trans (wf.input.2 ⟨name, hname⟩)))

theorem WellFormed.getElem?_latches_ne (wf : g.WellFormed) (hk : g.nodes[k]? = some node)
    (hl : ∀ next init, node ≠ .latch next init) (name : String) : g.latches[name]? ≠ some k := by
  intro hname
  obtain ⟨next, init, hlatch⟩ := wf.latch.2 ⟨name, hname⟩
  exact hl next init (Option.some.inj (hk.symm.trans hlatch))

include wf packed

theorem Packed.size_eq (hk : 0 < k) : h.nodes.size = g.place used k :=
  packed.size.trans (max_eq_right (wf.place_pos hk))

/-- The constant is there from the start. -/
theorem Packed.zero (wfh : h.WellFormed) (hk : g.nodes[k]? = some .zero) : g.Packed used (k + 1) h := by
  obtain rfl := wf.zero_unique hk
  have start : g.place used 0 = 0 := Nat.count_zero _
  have next : g.place used 1 = 1 := by
    rw [place_succ, start, if_pos (stays_of_not_gate hk (by simp))]
  refine packed.step (.refl h) ?_ (fun _ node hnode => ⟨.ofBool false, ?_⟩)
    (fun name j => ?_) (fun name j => ?_) rfl
  · rw [packed.size, start, next]
    rfl
  · obtain rfl := Option.some.inj (hk.symm.trans hnode)
    rw [start]
    exact wfh.zero
  · simp [wf.getElem?_inputs_ne hk (by simp)]
  · simp [wf.getElem?_latches_ne hk (by simp)]

/-- A gate that does not stay is no node. -/
theorem Packed.drop (hk : ¬ g.stays used k) : g.Packed used (k + 1) h := by
  obtain ⟨a, b, hgate⟩ := exists_gate_of_not_stays hk
  refine packed.step (.refl h) ?_ (fun stay => absurd stay hk) (fun name j => ?_) (fun name j => ?_) rfl
  · rw [packed.size, place_succ, if_neg hk, Nat.add_zero]
  · simp [wf.getElem?_inputs_ne hgate (by simp)]
  · simp [wf.getElem?_latches_ne hgate (by simp)]

/-- Another node that stays is the last node of the copy. -/
theorem Packed.push (hk : g.nodes[k]? = some node) (stay : g.stays used k) (other : node ≠ .zero)
    {h' : Graph} (ext : h.Extends h') {new : Node} (hnodes : h'.nodes = h.nodes.push new)
    (hnew : ∃ next, new = (node.renumber (g.place used)).setNext next)
    (input : ∀ (name : String) j, h'.inputs[name]? = some j ↔
      h.inputs[name]? = some j ∨ g.inputs[name]? = some k ∧ h.nodes.size = j)
    (latch : ∀ (name : String) j, h'.latches[name]? = some j ↔
      h.latches[name]? = some j ∨ g.latches[name]? = some k ∧ h.nodes.size = j)
    (outputs : h'.outputs = h.outputs) :
    Literal.positive h.nodes.size = g.placed used k ∧ g.Packed used (k + 1) h' := by
  have pos : 0 < k := Nat.pos_of_ne_zero fun h0 => by
    rw [h0, wf.zero] at hk
    exact other (Option.some.inj hk).symm
  have size := packed.size_eq wf pos
  simp only [size] at input latch
  refine ⟨by rw [placed, if_pos stay, size],
    packed.step ext ?_ (fun _ node' hnode => ?_) input latch outputs⟩
  · rw [hnodes, Array.size_push, size, place_succ, if_pos stay]
    exact (max_eq_right (Nat.succ_pos _)).symm
  · obtain rfl := Option.some.inj (hk.symm.trans hnode)
    obtain ⟨next, rfl⟩ := hnew
    exact ⟨next, by rw [hnodes, ← size]; exact push_node_iff.2 (.inr ⟨rfl, rfl⟩)⟩

include wfh

theorem Packed.input_runs {name : String} (hname : g.inputs[name]? = some k) :
    (Build.input name).Runs h fun l h' => l = g.placed used k ∧ g.Packed used (k + 1) h' := by
  have hk := wf.input.2 ⟨name, hname⟩
  have new : name ∉ h.inputs := by
    rw [mem_iff_exists_getElem?]
    rintro ⟨j, hj⟩
    obtain ⟨i, hi, hiname, -⟩ := (packed.input name j).1 hj
    exact absurd (Option.some.inj (hname.symm.trans hiname)) (Nat.ne_of_gt hi)
  refine .of_eq (a := .positive h.nodes.size) (by simp only [Build.input, not_mem_iff_getElem?.1 new])
    (wfh.addInput new) (extends_push rfl (fun hi => (insert_iff new).2 (.inl hi)) id) ?_
  refine packed.push wf hk (stays_of_not_gate hk (by simp)) (by simp)
    (extends_push rfl (fun hi => (insert_iff new).2 (.inl hi)) id) rfl ⟨.ofBool false, rfl⟩
    (fun n j => ?_) (fun n j => ?_) rfl
  · rw [insert_iff new]
    refine or_congr_right (and_congr_left fun _ => ⟨?_, fun hn => wf.input_inj hn hname⟩)
    rintro rfl
    exact hname
  · simp [wf.getElem?_latches_ne hk (by simp)]

theorem Packed.latch_runs {name : String} (hname : g.latches[name]? = some k) {next : Literal}
    {init : Bool} (hk : g.nodes[k]? = some (.latch next init)) : (Build.latch name init).Runs h
      fun l h' => l = g.placed used k ∧ g.Packed used (k + 1) h' := by
  have new : name ∉ h.latches := by
    rw [mem_iff_exists_getElem?]
    rintro ⟨j, hj⟩
    obtain ⟨i, hi, hiname, -⟩ := (packed.latch name j).1 hj
    exact absurd (Option.some.inj (hname.symm.trans hiname)) (Nat.ne_of_gt hi)
  refine .of_eq (a := .positive h.nodes.size) (by simp [Build.latch, new])
    (wfh.addLatch new init) (extends_push rfl id fun hi => (insert_iff new).2 (.inl hi)) ?_
  refine packed.push wf hk (stays_of_not_gate hk (by simp)) (by simp)
    (extends_push rfl id fun hi => (insert_iff new).2 (.inl hi)) rfl ⟨.ofBool false, rfl⟩
    (fun n j => ?_) (fun n j => ?_) rfl
  · simp [wf.getElem?_inputs_ne hk (by simp)]
  · rw [insert_iff new]
    refine or_congr_right (and_congr_left fun _ => ⟨?_, fun hn => wf.latch_inj hn hname⟩)
    rintro rfl
    exact hname

theorem Packed.and_runs (closed : g.Closed used) {a b : Literal} (hk : g.nodes[k]? = some (.and a b))
    (stay : g.stays used k) :
    (Build.and (a.renumber (g.place used)) (b.renumber (g.place used))).Runs h
      fun l h' => l = g.placed used k ∧ g.Packed used (k + 1) h' := by
  obtain ⟨stayA, stayB⟩ := closed.gate k a b stay hk
  obtain ⟨apos, lt⟩ := wf.ascending hk
  have ltB := (wf.fanin hk).2
  have size := packed.size_eq wf (Nat.lt_of_le_of_lt (Nat.zero_le _) ltB)
  have placeA : g.place used a.id < g.place used b.id := place_lt_place stayA lt
  have placeB : g.place used b.id < h.nodes.size := size ▸ place_lt_place stayB ltB
  have gate : Node.ordered (a.renumber (g.place used)) (b.renumber (g.place used)) =
      .and (a.renumber (g.place used)) (b.renumber (g.place used)) :=
    if_pos (Literal.raw_le_raw placeA)
  have new (i : Nat) : h.nodes[i]? ≠
      some (.ordered (a.renumber (g.place used)) (b.renumber (g.place used))) := by
    rw [gate]
    intro hi
    obtain ⟨i', hi', c, d, stay', hgate, hc, hd⟩ :=
      packed.exists_gate wfh (Nat.le_of_lt (lt_size hk)) hi
    obtain ⟨stayC, stayD⟩ := closed.gate i' c d stay' hgate
    obtain rfl := renumber_place_inj stayC stayA hc
    obtain rfl := renumber_place_inj stayD stayB hd
    exact absurd (wf.gate_inj hgate hk) (Nat.ne_of_lt hi')
  have hasA : h.Has (a.renumber (g.place used)) := Nat.lt_trans placeA placeB
  have hasB : h.Has (b.renumber (g.place used)) := placeB
  obtain ⟨wf', ext, -, -⟩ := wfh.conj_spec hasA hasB
  obtain ⟨made, nodes⟩ := wfh.conj_eq_push (Nat.ne_of_gt (wf.place_pos apos))
    (Nat.ne_of_gt (Nat.lt_of_le_of_lt (Nat.zero_le _) placeA)) (Nat.ne_of_lt placeA) new
  have grows := growsByGates_conj h (a.renumber (g.place used)) (b.renumber (g.place used))
  obtain ⟨number, packed'⟩ := packed.push wf hk stay (by simp) ext nodes ⟨.ofBool false, gate⟩
    (fun n j => by simp [grows.inputs, wf.getElem?_inputs_ne hk (by simp)])
    (fun n j => by simp [grows.latches, wf.getElem?_latches_ne hk (by simp)]) grows.outputs
  exact .of_eq (Build.and_eq hasA hasB) wf' ext ⟨made.trans number, packed'⟩

end Steps

/-- The first `k` nodes are copied to their places. -/
structure Placed (g : Graph) (used : Array Bool) (k : Nat) (images : Array Literal) : Prop where
  size : images.size = k
  image : ∀ i < k, Literal.imageAt images i = g.placed used i

section Placed
variable {images : Array Literal}

theorem Placed.push (placed : g.Placed used k images) :
    g.Placed used (k + 1) (images.push (g.placed used k)) := by
  obtain ⟨rfl, image⟩ := placed
  refine ⟨Array.size_push _, fun i hi => ?_⟩
  rcases Nat.lt_succ_iff_lt_or_eq.1 hi with hi | rfl
  · rw [Literal.imageAt_push_of_lt hi, image i hi]
  · exact Literal.imageAt_push images _

theorem placed_of_stays (hi : g.stays used i) : g.placed used i = .positive (g.place used i) :=
  if_pos hi

theorem Evaluable.placed_zero (ev : g.Evaluable) : g.placed used 0 = .ofBool false := by
  rw [placed_of_stays (stays_of_not_gate ev.zero (by simp)), place, Nat.count_zero]
  rfl

/-- The image of a literal over a node that stays. -/
theorem Placed.image_eq (placed : g.Placed used k images) {l : Literal} (hl : l.id < k)
    (stay : g.stays used l.id) : l.image (Literal.imageAt images) = l.renumber (g.place used) :=
  Literal.image_eq_renumber ((placed.image _ hl).trans (placed_of_stays stay))

theorem Placed.image?_eq (placed : g.Placed used k images) {l : Literal} (hl : l.id < k)
    (stay : g.stays used l.id) : l.image? images = some (l.renumber (g.place used)) := by
  rw [Literal.image?_eq (placed.size.symm ▸ hl), placed.image_eq hl stay]

/-- One node is copied to its place, or to the constant if it does not stay. -/
theorem Placed.copyNode_runs (placed : g.Placed used k images) (wf : g.WellFormed)
    (closed : g.Closed used) (packed : g.Packed used k h) (wfh : h.WellFormed)
    (hk : (g.prune used).nodes[k]? = some node) :
    (Build.copyNode (NodeNames.ofMap g.inputs) (NodeNames.ofMap g.latches) (Build.bindDriven ∅) images
      k node).Runs h fun l h' => l = g.placed used k ∧ g.Packed used (k + 1) h' := by
  rw [getElem?_prune, Option.map_eq_some_iff] at hk
  obtain ⟨old, hk, rfl⟩ := hk
  by_cases stay : g.stays used k
  · rw [if_pos stay]
    cases old with
    | zero =>
      refine .of_eq rfl wfh (.refl h) ⟨?_, packed.zero wf wfh hk⟩
      rw [wf.zero_unique hk, wf.placed_zero]
    | input =>
      obtain ⟨name, hn⟩ := wf.input.1 hk
      have hname := (NodeNames.getElem?_ofMap wf.input_inj).2 hn
      exact .bind_of_eq (Build.promised_eq hname) (packed.input_runs wf wfh hn)
    | latch next init =>
      obtain ⟨name, hn⟩ := wf.latch.1 ⟨next, init, hk⟩
      have hname := (NodeNames.getElem?_ofMap wf.latch_inj).2 hn
      exact .bind_of_eq (Build.promised_eq hname) (packed.latch_runs wf wfh hn hk)
    | and a b =>
      obtain ⟨stayA, stayB⟩ := closed.gate k a b stay hk
      obtain ⟨ltA, ltB⟩ := wf.fanin hk
      exact .bind_of_eq (Build.promised_eq (placed.image?_eq ltA stayA))
        (.bind_of_eq (Build.promised_eq (placed.image?_eq ltB stayB))
          (packed.and_runs wf wfh closed hk stay))
  · rw [if_neg stay]
    obtain ⟨a, b, hgate⟩ := exists_gate_of_not_stays stay
    have pos : 0 < k := Nat.lt_of_le_of_lt (Nat.zero_le _) (wf.fanin hgate).1
    have constant : (Literal.ofBool false).image? images = some (.ofBool false) :=
      placed.image?_eq pos (stays_of_not_gate wf.zero (by simp))
    have zero : h.Has (.ofBool false) := wfh.pos
    have folded : Build.and (.ofBool false) (.ofBool false) h = .ok (.ofBool false, h) := by
      rw [Build.and_eq zero zero]
      simp [conj]
    exact .bind_of_eq (Build.promised_eq constant) (.bind_of_eq (Build.promised_eq constant)
      (.of_eq folded wfh (.refl h) ⟨(if_neg stay).symm, packed.drop wf stay⟩))

end Placed

/-- All nodes are copied to their places. -/
theorem copyNodes_packs (wf : g.WellFormed) (closed : g.Closed used) :
    (Build.copyNodes (g.prune used) (Build.bindDriven ∅)).Runs .empty fun images h =>
      g.Placed used g.nodes.size images ∧ g.Packed used g.nodes.size h := by
  have size : (g.prune used).numbered.length = g.nodes.size :=
    (length_numbered _).trans (size_prune g used)
  refine size ▸ Build.Spec.foldlM (fun k images h => g.Placed used k images ∧ g.Packed used k h) ?_
    wellFormed_empty ⟨⟨rfl, by simp⟩, packed_empty g used⟩
  rintro k images ⟨node, id⟩ h hentry wfh ext ⟨placed, packed⟩
  obtain ⟨hk, rfl⟩ := (wf.prune used).getElem?_numbered_iff.1 hentry
  refine (placed.copyNode_runs wf closed packed wfh hk).bind ?_
  rintro l h' wfh' - ⟨rfl, packed'⟩
  exact .pure wfh' ⟨placed.push, packed'⟩

/-! ### The whole copy -/

theorem size_of_setNext {name : String} {next : Literal} {u : Unit}
    (run : Build.setNext name next g = .ok (u, h)) : h.nodes.size = g.nodes.size := by
  obtain ⟨_, -, run⟩ := except_bind_eq_ok_iff.1 run
  cases hname : g.latches[name]? with
  | none =>
    rw [hname] at run
    cases run
  | some id =>
    rw [hname] at run
    cases run
    exact Array.size_modify

/-- Latches get their next states in their places. -/
theorem size_of_setNexts {nexts : NameMap Literal} {u : Unit}
    (run : Build.setNexts nexts g = .ok (u, h)) : h.nodes.size = g.nodes.size := by
  rw [Build.setNexts] at run
  generalize nexts.toList = entries at run
  induction entries generalizing g with
  | nil => cases run; rfl
  | cons entry entries ih =>
    obtain ⟨_, k, first, rest⟩ := Build.bind_eq_ok_iff.1 run
    exact (ih rest).trans (size_of_setNext first)

/-- `h` is `g` without the gates that do not stay. -/
structure IsPacked (g : Graph) (used : Array Bool) (h : Graph) : Prop where
  size : h.nodes.size = g.place used g.nodes.size
  node : ∀ i node, g.stays used i → g.nodes[i]? = some node →
    h.nodes[g.place used i]? = some (node.renumber (g.place used))
  inputs : ∀ name : String, h.inputs[name]? = (g.inputs[name]?).map (g.place used)
  latches : ∀ name : String, h.latches[name]? = (g.latches[name]?).map (g.place used)
  outputs : ∀ name : String, h.outputs[name]? = (g.outputs[name]?).map (·.renumber (g.place used))

theorem place_lt_size (hi : i < g.nodes.size) (stay : g.stays used i) (size : h.nodes.size =
    g.place used g.nodes.size) : g.place used i < h.nodes.size := size ▸ place_lt_place stay hi

section Whole
variable (wf : g.WellFormed) (closed : g.Closed used) (packed : g.Packed used g.nodes.size h)
  (wfh : h.WellFormed)
include wf packed

theorem Packed.getElem?_inputs (name : String) :
    h.inputs[name]? = (g.inputs[name]?).map (g.place used) := by
  refine Option.ext fun j => ?_
  rw [packed.input, Option.map_eq_some_iff]
  exact ⟨fun ⟨i, _, hi, heq⟩ => ⟨i, hi, heq⟩,
    fun ⟨i, hi, heq⟩ => ⟨i, lt_size (wf.input.2 ⟨name, hi⟩), hi, heq⟩⟩

theorem Packed.getElem?_latches (name : String) :
    h.latches[name]? = (g.latches[name]?).map (g.place used) := by
  refine Option.ext fun j => ?_
  rw [packed.latch, Option.map_eq_some_iff]
  constructor
  · rintro ⟨i, -, hi, heq⟩
    exact ⟨i, hi, heq⟩
  · rintro ⟨i, hi, heq⟩
    obtain ⟨next, init, hnode⟩ := wf.latch.2 ⟨name, hi⟩
    exact ⟨i, lt_size hnode, hi, heq⟩

/-- A latch is there with its initial value. -/
theorem Packed.latch? (wfh : h.WellFormed) {name : String} {latch : Latch}
    (hl : g.latch? name = some latch) :
    ∃ next, h.latch? name = some ⟨g.place used latch.id, next, latch.init⟩ := by
  obtain ⟨hname, hnode⟩ := wf.latch?_eq_some_iff.1 hl
  obtain ⟨next, hat⟩ := packed.node latch.id (lt_size hnode) (stays_of_not_gate hnode (by simp)) _ hnode
  refine ⟨next, wfh.latch?_eq_some_iff.2 ⟨?_, hat⟩⟩
  rw [packed.getElem?_latches wf, hname, Option.map_some]

include closed wfh

/-- With the next states and outputs the copy is complete. -/
theorem Packed.exists_setNexts {nexts : NameMap Literal} (hnexts : ∀ name : String,
    nexts[name]? = (g.latch? name).map (·.next.renumber (g.place used))) :
    ∃ k, Build.setNexts nexts h = .ok ((), k) ∧ k.WellFormed ∧ k.outputs = ∅ ∧
      ∀ outputs : NameMap Literal, (∀ name : String, outputs[name]? =
        (g.outputs[name]?).map (·.renumber (g.place used))) →
        g.IsPacked used { k with outputs := outputs } := by
  have size := packed.size_eq wf wf.pos
  have known (name : String) (hn : name ∈ nexts) : name ∈ h.latches := by
    obtain ⟨l, hl⟩ := mem_iff_exists_getElem?.1 hn
    rw [hnexts, Option.map_eq_some_iff] at hl
    obtain ⟨latch, hlatch, -⟩ := hl
    obtain ⟨next, hat⟩ := packed.latch? wf wfh hlatch
    exact wfh.mem_latches_iff.2 ⟨_, hat⟩
  have has (name : String) (l : Literal) (hl : nexts[name]? = some l) : h.Has l := by
    rw [hnexts, Option.map_eq_some_iff] at hl
    obtain ⟨latch, hlatch, rfl⟩ := hl
    have hnode := (wf.latch?_eq_some_iff.1 hlatch).2
    exact place_lt_size (wf.next hnode) (closed.next _ _ _ hnode) size
  obtain ⟨_, k, run, wfk, ext, inputs, outputs, latch⟩ := (Build.setNexts_runs wfh known has).exists
  have latches (name : String) : k.latches[name]? = h.latches[name]? := by
    rw [wfk.getElem?_latches, wfh.getElem?_latches, latch, Option.map_map]
    rfl
  refine ⟨k, run, wfk, outputs.trans packed.outputs, fun outs houts =>
    ⟨(size_of_setNexts run).trans size, fun i node stay hnode => ?_,
      fun name => inputs ▸ packed.getElem?_inputs wf name,
      fun name => (latches name).trans (packed.getElem?_latches wf name), houts⟩⟩
  obtain ⟨next, hat⟩ := packed.node i (lt_size hnode) stay node hnode
  obtain ⟨next', hat'⟩ := ext.node hat
  rw [Node.setNext_setNext] at hat'
  cases node with
  | latch source init =>
    obtain ⟨name, hname⟩ := wf.latch.1 ⟨source, init, hnode⟩
    have hlatch := wf.latch?_eq_some_iff (l := ⟨i, source, init⟩).2 ⟨hname, hnode⟩
    obtain ⟨old, hold⟩ := packed.latch? wf wfh hlatch
    have hnew := latch name
    rw [hold, hnexts, hlatch] at hnew
    exact (wfk.latch?_eq_some_iff.1 hnew).2
  | _ => exact hat'

end Whole

theorem exists_isPacked (wf : g.WellFormed) (closed : g.Closed used) :
    ∃ h, Build.graph (do Build.outputs (← Build.embedDriven ∅ (g.prune used))) = .ok h ∧
      h.WellFormed ∧ g.IsPacked used h := by
  obtain ⟨images, h, copied, wfh, -, placed, packed⟩ := (copyNodes_packs wf closed).exists
  obtain ⟨e, he, houts, hnexts⟩ := Build.readEmbedding_eq (wf.prune used)
    (placed.size.trans (size_prune g used).symm)
  have outputs (name : String) :
      e.outputs[name]? = (g.outputs[name]?).map (·.renumber (g.place used)) :=
    (houts name).trans (Option.map_congr fun l hl =>
      placed.image_eq (wf.output hl) (closed.output name l hl))
  have nexts (name : String) :
      e.nexts[name]? = (g.latch? name).map (·.next.renumber (g.place used)) := by
    rw [hnexts, wf.latch?_prune]
    refine Option.map_congr fun latch hl => ?_
    have hnode := (wf.latch?_eq_some_iff.1 hl).2
    exact placed.image_eq (wf.next hnode) (closed.next _ _ _ hnode)
  obtain ⟨k, set, wfk, none, whole⟩ := packed.exists_setNexts wf closed wfh nexts
  have isPacked := whole e.outputs outputs
  have has (name : String) (l : Literal) (hl : e.outputs[name]? = some l) : k.Has l := by
    rw [outputs, Option.map_eq_some_iff] at hl
    obtain ⟨old, hold, rfl⟩ := hl
    exact place_lt_size (wf.output hold) (closed.output name old hold) isPacked.size
  obtain ⟨_, _, put, wfc, -, outs, rfl, houts⟩ :=
    (Build.outputs_runs wfk (by simp [none]) has).exists
  obtain rfl : outs = e.outputs := Std.ExtTreeMap.ext_getElem? fun name => Option.ext fun l => by
    simp [houts, none]
  refine ⟨_, ?_, wfc, isPacked⟩
  have embedded : Build.embed (g.prune used) (Build.bindDriven ∅) .empty = .ok (e, h) :=
    Build.bind_eq_ok_iff.2 ⟨images, h, copied, Build.promised_eq he⟩
  have driven : Build.embedDriven ∅ (g.prune used) .empty = .ok (e.outputs, k) :=
    Build.bind_eq_ok_iff.2 ⟨e, h, embedded, Build.bind_eq_ok_iff.2 ⟨(), k, set, rfl⟩⟩
  exact except_bind_eq_ok_iff.2 ⟨_, Build.bind_eq_ok_iff.2 ⟨e.outputs, k, driven, put⟩, rfl⟩

end Graph

end AndInverter
