import AndInverter.Graph.Arithmetic
import AndInverter.Proofs.Graph.Gate
import AndInverter.Proofs.Word.Bits

/-! What arithmetic inside a graph computes. A list of literals computes a function of the values of
nodes to words, bit by bit. -/

namespace AndInverter

namespace Graph

/-- In this graph and all later ones the literals have the values that `F` says. -/
def ComputesWord (g : Graph) (ls : List Literal) (F : (Nat → Bool) → Word) : Prop :=
  (∀ l ∈ ls, g.Has l) ∧ ∀ v, g.Solution v → ls.map (·.under v) = F v

variable {g h : Graph} {l : Literal} {ls : List Literal} {f : (Nat → Bool) → Bool}
  {F : (Nat → Bool) → Word}

theorem ComputesWord.congr {F' : (Nat → Bool) → Word} (c : g.ComputesWord ls F)
    (hF : ∀ v, g.Solution v → F v = F' v) : g.ComputesWord ls F' :=
  ⟨c.1, fun v hv => (c.2 v hv).trans (hF v hv)⟩

theorem computesWord_self (has : ∀ l ∈ ls, g.Has l) :
    g.ComputesWord ls fun v => ls.map (·.under v) :=
  ⟨has, fun _ _ => rfl⟩

theorem computesWord_nil : g.ComputesWord [] fun _ => [] :=
  computesWord_self (by simp)

theorem ComputesWord.cons (first : g.Computes l f) (rest : g.ComputesWord ls F) :
    g.ComputesWord (l :: ls) fun v => f v :: F v := by
  refine ⟨List.forall_mem_cons.2 ⟨first.1, rest.1⟩, fun v hv => ?_⟩
  rw [List.map_cons, first.2 v hv, rest.2 v hv]

theorem map_under_neg (ls : List Literal) (v : Nat → Bool) :
    (ls.map (-·)).map (·.under v) = (ls.map (·.under v)).map (!·) := by
  rw [List.map_map, List.map_map]
  exact List.map_congr_left fun l _ => Literal.under_neg l v

theorem ComputesWord.neg (c : g.ComputesWord ls F) :
    g.ComputesWord (ls.map (-·)) fun v => (F v).map (!·) := by
  refine ⟨List.forall_mem_map.2 c.1, fun v hv => ?_⟩
  show _ = (F v).map (!·)
  rw [← c.2 v hv, map_under_neg]

theorem Evaluable.computesWord_replicate (ev : g.Evaluable) (n : Nat) (value : Bool) :
    g.ComputesWord (List.replicate n (.ofBool value)) fun _ => List.replicate n value := by
  refine ⟨fun l hl => ?_, fun v hv => ?_⟩
  · rw [List.eq_of_mem_replicate hl]
    exact ev.pos
  · rw [List.map_replicate, hv.under_ofBool]

/-- There are as many literals as the word has bits. -/
theorem ComputesWord.length_eq (c : g.ComputesWord ls F) (ev : g.Evaluable) {size : Nat}
    (hF : ∀ v, (F v).length = size) : ls.length = size := by
  obtain ⟨v, hv, -⟩ := ev.exists_solution fun _ => false
  rw [← hF v, ← c.2 v hv, List.length_map]

/-- Literals that compute one function each compute a word. -/
theorem computesWord_of_forall₂ {α : Type} {items : List α} {f : α → (Nat → Bool) → Bool}
    (each : List.Forall₂ (fun x l => g.Computes l (f x)) items ls) :
    g.ComputesWord ls fun v => items.map (f · v) := by
  induction each with
  | nil => exact computesWord_nil
  | cons first _ ih => exact ih.cons first

end Graph

namespace Build

variable {g : Graph}

theorem fullAdder_runs (wf : g.WellFormed) {a b c : Literal} (ha : g.Has a) (hb : g.Has b)
    (hc : g.Has c) : (fullAdder a b c).Runs g fun r h =>
      h.Computes r.1 (fun v => (a.under v ^^ b.under v) ^^ c.under v) ∧
      h.Computes r.2 (fun v =>
        a.under v && b.under v || (a.under v ^^ b.under v) && c.under v) ∧ g.SameNames h := by
  refine (xor_runs wf ha hb).bind fun t g₁ wf₁ ext₁ ⟨ct, same₁⟩ => ?_
  refine (xor_runs wf₁ ct.1 (ext₁.has hc)).bind fun sum g₂ wf₂ ext₂ ⟨csum, same₂⟩ => ?_
  have ha₂ := ext₂.has (ext₁.has ha)
  have hb₂ := ext₂.has (ext₁.has hb)
  refine (and_runs wf₂ ha₂ hb₂).bind fun both g₃ wf₃ ext₃ ⟨cboth, same₃⟩ => ?_
  have ct₃ := (ct.mono ext₂).mono ext₃
  have hc₃ := ext₃.has (ext₂.has (ext₁.has hc))
  refine (and_runs wf₃ ct₃.1 hc₃).bind fun either g₄ wf₄ ext₄ ⟨ceither, same₄⟩ => ?_
  refine (or_runs wf₄ (ext₄.has cboth.1) ceither.1).bind fun out g₅ wf₅ ext₅ ⟨cout, same₅⟩ => ?_
  have later := (ext₃.trans ext₄).trans ext₅
  refine .pure wf₅ ⟨(csum.mono later).congr fun v hv => ?_, cout.congr fun v hv => ?_,
    (((same₁.trans same₂).trans same₃).trans same₄).trans same₅⟩
  · rw [((ct.mono ext₂).mono later).2 v hv]
  · have ht := ((ct₃.mono ext₄).mono ext₅).2 v hv
    rw [((cboth.mono ext₄).mono ext₅).2 v hv, (ceither.mono ext₅).2 v hv]
    simp only [ht]

/-- The ripple adder computes the sum. -/
theorem rippleAdd_runs (wf : g.WellFormed) {xs ys : List Literal} {carry : Literal}
    (hxs : ∀ x ∈ xs, g.Has x) (hys : ∀ y ∈ ys, g.Has y) (hcarry : g.Has carry) :
    (rippleAdd xs ys carry).Runs g fun r h =>
      h.ComputesWord r.1 (fun v => (Word.addCarry (xs.map (·.under v)) (ys.map (·.under v))
        (carry.under v)).1) ∧
      h.Computes r.2 (fun v => (Word.addCarry (xs.map (·.under v)) (ys.map (·.under v))
        (carry.under v)).2) ∧ g.SameNames h := by
  fun_induction rippleAdd xs ys carry generalizing g with
  | case1 x xs y ys carry ih =>
    rw [List.forall_mem_cons] at hxs hys
    refine (fullAdder_runs wf hxs.1 hys.1 hcarry).bind fun r g₁ wf₁ ext₁ ⟨csum, cout, same₁⟩ => ?_
    refine (ih r.2 wf₁ (fun l hl => ext₁.has (hxs.2 l hl)) (fun l hl => ext₁.has (hys.2 l hl))
      cout.1).bind fun r' g₂ wf₂ ext₂ ⟨csums, cout', same₂⟩ => ?_
    refine .pure wf₂ ⟨(csums.cons (csum.mono ext₂)).congr fun v hv => ?_,
      cout'.congr fun v hv => ?_, same₁.trans same₂⟩
    · rw [(cout.mono ext₂).2 v hv]
      rfl
    · rw [(cout.mono ext₂).2 v hv]
      rfl
  | case2 xs ys carry hnil =>
    have none (v : Nat → Bool) : Word.addCarry (xs.map (·.under v)) (ys.map (·.under v))
        (carry.under v) = ([], carry.under v) := by
      cases xs with
      | nil => rfl
      | cons x xs =>
        cases ys with
        | nil => rfl
        | cons y ys => exact (hnil x xs y ys rfl rfl).elim
    refine .pure wf ⟨Graph.computesWord_nil.congr fun v _ => ?_, ⟨hcarry, fun v _ => ?_⟩, .refl g⟩
    · simp only [none]
    · simp only [none]

theorem has_neg {ls : List Literal} (has : ∀ l ∈ ls, g.Has l) : ∀ l ∈ ls.map (-·), g.Has l :=
  List.forall_mem_map.2 has

theorem rippleSub_runs (wf : g.WellFormed) {xs ys : List Literal} (hxs : ∀ x ∈ xs, g.Has x)
    (hys : ∀ y ∈ ys, g.Has y) : (rippleSub xs ys).Runs g fun r h =>
      h.ComputesWord r.1 (fun v => (Word.addCarry (xs.map (·.under v))
        ((ys.map (·.under v)).map (!·)) true).1) ∧
      h.Computes r.2 (fun v => (Word.addCarry (xs.map (·.under v))
        ((ys.map (·.under v)).map (!·)) true).2) ∧ g.SameNames h := by
  refine (rippleAdd_runs wf hxs (has_neg hys) (wf.computes_ofBool true).1).imp
    fun r h _ ext ⟨cword, ccarry, same⟩ => ⟨cword.congr fun v hv => ?_, ccarry.congr fun v hv => ?_,
      same⟩
  · simp only [Graph.map_under_neg, (ext.solution hv).under_ofBool]
  · simp only [Graph.map_under_neg, (ext.solution hv).under_ofBool]

theorem negative_runs (wf : g.WellFormed) {xs : List Literal} (hxs : ∀ x ∈ xs, g.Has x) :
    (negative xs).Runs g fun ls h =>
      h.ComputesWord ls (fun v => (Word.addCarry (List.replicate xs.length false)
        ((xs.map (·.under v)).map (!·)) true).1) ∧ g.SameNames h := by
  have zeros := wf.computesWord_replicate xs.length false
  refine (rippleSub_runs wf zeros.1 hxs).bind fun r h wf' ext ⟨cword, _, same⟩ => ?_
  refine .pure wf' ⟨cword.congr fun v hv => ?_, same⟩
  simp only [zeros.2 v (ext.solution hv)]

theorem lessUnsigned_runs (wf : g.WellFormed) {xs ys : List Literal} (hxs : ∀ x ∈ xs, g.Has x)
    (hys : ∀ y ∈ ys, g.Has y) : (lessUnsigned xs ys).Runs g fun l h =>
      h.Computes l (fun v => Word.less (xs.map (·.under v)) (ys.map (·.under v))) ∧
        g.SameNames h := by
  refine (rippleSub_runs wf hxs hys).bind fun r h wf' _ ⟨_, ccarry, same⟩ => ?_
  exact .pure wf' ⟨ccarry.neg, same⟩

theorem map_under_flipSign (ls : List Literal) (v : Nat → Bool) :
    (flipSign ls).map (·.under v) = Word.flipSign (ls.map (·.under v)) := by
  rcases List.eq_nil_or_concat' ls with rfl | ⟨ls, l, rfl⟩
  · rfl
  · simp [flipSign, Word.flipSign]

theorem has_flipSign {ls : List Literal} (has : ∀ l ∈ ls, g.Has l) :
    ∀ l ∈ flipSign ls, g.Has l := by
  intro l hl
  rcases List.mem_append.1 hl with hl | hl
  · exact has l (List.dropLast_subset ls hl)
  · obtain ⟨m, hm, rfl⟩ := Option.map_eq_some_iff.1 (Option.mem_toList.1 hl)
    exact has m (List.mem_of_getLast? hm)

theorem lessSigned_runs (wf : g.WellFormed) {xs ys : List Literal} (hxs : ∀ x ∈ xs, g.Has x)
    (hys : ∀ y ∈ ys, g.Has y) : (lessSigned xs ys).Runs g fun l h =>
      h.Computes l (fun v => Word.signedLess (xs.map (·.under v)) (ys.map (·.under v))) ∧
        g.SameNames h := by
  refine (lessUnsigned_runs wf (has_flipSign hxs) (has_flipSign hys)).imp
    fun l h _ _ ⟨comp, same⟩ => ⟨comp.congr fun v _ => ?_, same⟩
  simp only [map_under_flipSign, Word.signedLess]

/-- A gate applied bit by bit computes its operation bit by bit. -/
theorem bitwise_runs {gate : Literal → Literal → Build Literal}
    (op : (Nat → Bool) → Bool → Bool → Bool)
    (runs : ∀ {h : Graph} {a b : Literal}, h.WellFormed → g.Extends h → h.Has a → h.Has b →
      (gate a b).Runs h fun l h' =>
        h'.Computes l (fun v => op v (a.under v) (b.under v)) ∧ h.SameNames h')
    (wf : g.WellFormed) {xs ys : List Literal} (hxs : ∀ x ∈ xs, g.Has x) (hys : ∀ y ∈ ys, g.Has y) :
    (bitwise gate xs ys).Runs g fun ls h =>
      h.ComputesWord ls (fun v => List.zipWith (op v) (xs.map (·.under v)) (ys.map (·.under v))) ∧
        g.SameNames h := by
  refine (Spec.mapM (fun _ h => g.SameNames h)
    (fun x l h => h.Computes l fun v => op v (x.1.under v) (x.2.under v))
    (fun _ _ _ _ comp ext => Graph.Computes.mono comp ext) (fun done x rest h hx wf' ext same => ?_) wf
    (.refl g)).imp fun ls h _ _ ⟨same, each⟩ => ⟨?_, same⟩
  · have hmem : x ∈ xs.zip ys := by simp [hx]
    have ha := hxs x.1 (List.of_mem_zip hmem).1
    have hb := hys x.2 (List.of_mem_zip hmem).2
    exact (runs wf' ext (ext.has ha) (ext.has hb)).imp
      fun l h' _ _ ⟨comp, same'⟩ => ⟨same.trans same', comp⟩
  · refine (Graph.computesWord_of_forall₂ each).congr fun v _ => ?_
    rw [List.zipWith_map, List.map_zip_eq_zipWith]
    rfl

/-- Two words are equal if no bits of theirs differ. -/
theorem foldl_zipWith_beq {xs ys : Word} (size : xs.length = ys.length) :
    (List.zipWith (· == ·) xs ys).foldl (· && ·) true = decide (xs = ys) := by
  induction xs generalizing ys with
  | nil => simp [List.length_eq_zero_iff.1 size.symm]
  | cons x xs ih =>
    cases ys with
    | nil => cases size
    | cons y ys =>
      have fold (bits : Word) : bits.foldl (· && ·) false = false := by
        induction bits with
        | nil => rfl
        | cons bit bits ih' => exact ih'
      rw [List.zipWith_cons_cons, List.foldl_cons, Bool.true_and]
      cases hxy : x == y
      · rw [fold]
        simp_all
      · rw [ih (Nat.succ.inj size)]
        simp_all

theorem equal_runs (wf : g.WellFormed) {xs ys : List Literal} (size : xs.length = ys.length)
    (hxs : ∀ x ∈ xs, g.Has x) (hys : ∀ y ∈ ys, g.Has y) : (equal xs ys).Runs g fun l h =>
      h.Computes l (fun v => decide (xs.map (·.under v) = ys.map (·.under v))) ∧
        g.SameNames h := by
  refine (bitwise_runs (fun _ => (· == ·)) (fun wf' _ ha hb => xnor_runs wf' ha hb) wf hxs
    hys).bind fun ls h wf' ext ⟨cword, same⟩ => ?_
  refine (foldGate_runs (fun wf ha hb => and_runs wf ha hb) wf' cword.1 true).imp
    fun l h' _ ext' ⟨comp, same'⟩ => ⟨comp.congr fun v hv => ?_, same.trans same'⟩
  rw [cword.2 v (ext'.solution hv), foldl_zipWith_beq (by simpa using size)]

theorem zipWith_ite {xs ys : Word} (size : xs.length = ys.length) (test : Bool) :
    List.zipWith (fun a b => if test then a else b) xs ys = if test then xs else ys := by
  induction xs generalizing ys with
  | nil => simp [List.length_eq_zero_iff.1 size.symm]
  | cons x xs ih =>
    cases ys with
    | nil => cases size
    | cons y ys =>
      rw [List.zipWith_cons_cons, ih (Nat.succ.inj size)]
      cases test <;> rfl

/-- Choosing between two words bit by bit chooses one of them. -/
theorem muxes_runs (wf : g.WellFormed) {test : Literal} {xs ys : List Literal}
    (size : xs.length = ys.length) (htest : g.Has test) (hxs : ∀ x ∈ xs, g.Has x)
    (hys : ∀ y ∈ ys, g.Has y) : (bitwise (mux test) xs ys).Runs g fun ls h =>
      h.ComputesWord ls (fun v =>
        if test.under v then xs.map (·.under v) else ys.map (·.under v)) ∧ g.SameNames h := by
  refine (bitwise_runs (fun v a b => if test.under v then a else b)
    (fun wf' ext ha hb => mux_runs wf' (ext.has htest) ha hb) wf hxs hys).imp
    fun ls h _ _ ⟨cword, same⟩ => ⟨cword.congr fun v _ => ?_, same⟩
  exact zipWith_ite (by simpa using size) _

theorem magnitude_runs (wf : g.WellFormed) {xs : List Literal} (hxs : ∀ x ∈ xs, g.Has x) :
    (magnitude xs).Runs g fun ls h =>
      h.ComputesWord ls (fun v => Word.absolute (xs.map (·.under v))) ∧ g.SameNames h := by
  rw [magnitude]
  cases hsign : xs.getLast? with
  | none =>
    obtain rfl := List.getLast?_eq_none_iff.1 hsign
    exact .pure wf ⟨Graph.computesWord_nil, .refl g⟩
  | some sign =>
    refine (negative_runs wf hxs).bind fun ls h wf' ext ⟨cword, same⟩ => ?_
    have size : ls.length = xs.length :=
      cword.length_eq wf'.toEvaluable fun v => by simp [Word.length_addCarry]
    have has := List.mem_of_getLast? hsign
    refine (muxes_runs wf' size (ext.has (hxs sign has)) cword.1 fun x hx => ext.has (hxs x hx)).imp
      fun ls' h' _ ext' ⟨cword', same'⟩ => ⟨cword'.congr fun v hv => ?_, same.trans same'⟩
    rw [cword.2 v (ext'.solution hv), Word.absolute, List.getLast?_map, hsign, Option.map_some,
      List.length_map]
    simp only [Option.some.injEq]

end Build

end AndInverter
