import AndInverter.Proofs.Map
import AndInverter.Proofs.Name
import AndInverter.Proofs.Safe
import AndInverter.Word.Bundle
import Mathlib.Data.List.Nodup

/-! Bundles split words into bits, no two of which have the same name, and put them together
again. -/

namespace AndInverter

theorem mapM_eq_ok {ε α β : Type} {f : α → Except ε β} {F : α → β} {xs : List α}
    (h : ∀ x ∈ xs, f x = .ok (F x)) : xs.mapM f = .ok (xs.map F) := by
  induction xs with
  | nil => rfl
  | cons x xs ih =>
    rw [List.forall_mem_cons] at h
    simp [List.mapM_cons, h.1, ih h.2]

theorem forM_eq_ok {ε α : Type} {f : α → Except ε Unit} {xs : List α} (h : ∀ x ∈ xs, f x = .ok ()) :
    xs.forM f = .ok () := by
  induction xs with
  | nil => rfl
  | cons x xs ih =>
    rw [List.forall_mem_cons] at h
    show (f x >>= fun _ => xs.forM f) = _
    rw [h.1, except_ok_bind, ih h.2]

namespace Bundle

/-- The bundle has the word in that size. -/
def IsWord (b : Bundle) (name : String) (size : Nat) : Prop := b[name]? = some size

/-- The name is that of a bit of a word. -/
def HasBit (b : Bundle) (n : String) : Prop :=
  ∃ (name : String) (size i : Nat), b[name]? = some size ∧ i < size ∧ n = Word.bitName name i

variable {b : Bundle}

theorem hasBit_bitName_iff {name : String} {i : Nat} :
    b.HasBit (Word.bitName name i) ↔ ∃ size, b[name]? = some size ∧ i < size := by
  constructor
  · rintro ⟨name', size, i', hb, hi, heq⟩
    obtain ⟨rfl, rfl⟩ := Word.bitName_inj.1 heq
    exact ⟨size, hb, hi⟩
  · rintro ⟨size, hb, hi⟩
    exact ⟨name, size, i, hb, hi, rfl⟩

/-- A word that is put into a bundle, where the bundle has it already in the same size if at all. -/
theorem hasBit_insert_iff {name n : String} {size : Nat}
    (agree : ∀ old, b[name]? = some old → old = size) :
    HasBit (b.insert name size) n ↔ b.HasBit n ∨ n ∈ Word.bitNames name size := by
  constructor
  · rintro ⟨m, old, i, h, hi, rfl⟩
    rw [NameMap.getElem?_insert] at h
    split at h
    next heq =>
      cases h
      exact .inr (List.mem_map.2 ⟨i, List.mem_range.2 hi, by rw [heq]⟩)
    next => exact .inl ⟨m, old, i, h, hi, rfl⟩
  · rintro (⟨m, old, i, h, hi, rfl⟩ | hn)
    · refine ⟨m, if m = name then size else old, i, ?_, ?_, rfl⟩
      · rw [NameMap.getElem?_insert, h]
        split <;> rfl
      · split
        next heq => rwa [← agree old (heq ▸ h)]
        next => exact hi
    · obtain ⟨i, hi, rfl⟩ := List.mem_map.1 hn
      exact ⟨name, size, i, by simp, List.mem_range.1 hi, rfl⟩

theorem HasBit.exists_eq {n : String} (hn : b.HasBit n) : ∃ name i, n = Word.bitName name i := by
  obtain ⟨name, _, i, -, -, h⟩ := hn
  exact ⟨name, i, h⟩

theorem HasBit.mem {name : String} {i : Nat} (hn : b.HasBit (Word.bitName name i)) : name ∈ b := by
  obtain ⟨size, h, -⟩ := hasBit_bitName_iff.1 hn
  exact mem_iff_exists_getElem?.2 ⟨size, h⟩

/-- Words of different names have no bit in common. -/
theorem HasBit.apart {b' : Bundle} {n : String} (hn : b.HasBit n) (apart : ∀ n ∈ b, n ∉ b') :
    ¬ b'.HasBit n := by
  obtain ⟨name, i, rfl⟩ := hn.exists_eq
  intro hbit
  exact apart name hn.mem hbit.mem

theorem hasBit_without_iff {names : List String} {name : String} {i : Nat} :
    HasBit (NameMap.without b names) (Word.bitName name i) ↔
      b.HasBit (Word.bitName name i) ∧ name ∉ names := by
  rw [hasBit_bitName_iff, hasBit_bitName_iff]
  simp only [NameMap.getElem?_without]
  by_cases h : name ∈ names <;> simp [h]

/-- Lists of different bits of words, one for each word, have no bit in common. -/
theorem nodup_flatMap_bits (b : Bundle) {bits : String × Nat → List String}
    (distinct : ∀ e, (bits e).Nodup) (root : ∀ e, ∀ n ∈ bits e, ∃ i, n = Word.bitName e.1 i) :
    (b.toList.flatMap bits).Nodup := by
  refine List.nodup_flatMap.2 ⟨fun e _ => distinct e, ?_⟩
  refine (List.pairwise_map.1 (nodup_map_fst_toList b)).imp fun {e e'} hne n he he' => ?_
  obtain ⟨i, rfl⟩ := root e n he
  obtain ⟨j, heq⟩ := root e' _ he'
  exact hne (Word.bitName_inj.1 heq).1

theorem nodup_bitNames (b : Bundle) : b.bitNames.Nodup := by
  refine b.nodup_flatMap_bits (fun e => ?_) fun e n hn => ?_
  · exact List.nodup_range.map_on fun i _ j _ heq => (Word.bitName_inj.1 heq).2
  · obtain ⟨i, -, rfl⟩ := List.mem_map.1 hn
    exact ⟨i, rfl⟩

theorem mem_bitNames_iff {n : String} : n ∈ b.bitNames ↔ b.HasBit n := by
  simp only [bitNames, List.mem_flatMap, Prod.exists, Word.bitNames, List.mem_map, List.mem_range,
    Std.ExtTreeMap.mem_toList_iff_getElem?_eq_some, HasBit]
  exact ⟨fun ⟨name, size, hb, i, hi, heq⟩ => ⟨name, size, i, hb, hi, heq.symm⟩,
    fun ⟨name, size, i, hb, hi, heq⟩ => ⟨name, size, hb, i, hi, heq.symm⟩⟩

/-- Every word of the bundle has a value of its size. -/
def Covers (values : WordValuation) (b : Bundle) : Prop :=
  ∀ (name : String) size, b[name]? = some size →
    ∃ word, values[name]? = some word ∧ word.length = size

/-- Every word of the bundle has its size. -/
def Fits (b : Bundle) (env : String → Word) : Prop :=
  ∀ (name : String) size, b[name]? = some size → (env name).length = size

/-- Covered words can be split, and their bits have the values they have in the words. -/
theorem exists_blast {values : WordValuation} (covers : Covers values b) :
    ∃ bits, b.blast values = .ok bits ∧ ∀ (name : String) size, b[name]? = some size →
      ∀ i < size, bits[Word.bitName name i]? = (values[name]?).bind (·[i]?) := by
  let entries (e : String × Nat) : List (String × Bool) :=
    ((values[e.1]?).getD []).mapIdx fun i bit => (Word.bitName e.1 i, bit)
  have run : b.toList.mapM (blastWord values) = .ok (b.toList.map entries) := by
    refine mapM_eq_ok fun e he => ?_
    obtain ⟨word, hword, size⟩ :=
      covers e.1 e.2 (Std.ExtTreeMap.mem_toList_iff_getElem?_eq_some.1 he)
    simp [blastWord, hword, size, entries]
  have keys : (b.toList.map entries).flatten.map Prod.fst = b.bitNames := by
    rw [← List.flatMap_def, List.map_flatMap, bitNames]
    refine List.flatMap_congr fun e he => ?_
    obtain ⟨word, hword, size⟩ :=
      covers e.1 e.2 (Std.ExtTreeMap.mem_toList_iff_getElem?_eq_some.1 he)
    show _ = Word.bitNames e.1 e.2
    rw [Word.bitNames, ← size]
    refine List.ext_getElem? fun i => ?_
    simp only [entries, hword, Option.getD_some, List.getElem?_mapIdx,
      List.getElem?_map]
    by_cases hi : i < word.length <;> simp [hi]
  refine ⟨_, by rw [blast, run]; rfl, fun name size hb i hi => ?_⟩
  obtain ⟨word, hword, hlen⟩ := covers name size hb
  have hbit : word[i]? = some word[i] := List.getElem?_eq_getElem (by omega)
  rw [hword, Option.bind_some, hbit]
  refine (NameMap.getElem?_ofPairs_eq_some_iff (keys ▸ nodup_bitNames b)).2 ?_
  refine List.mem_flatten.2 ⟨entries (name, size), List.mem_map_of_mem
    (Std.ExtTreeMap.mem_toList_iff_getElem?_eq_some.2 hb), ?_⟩
  simp only [entries, hword, Option.getD_some, List.mem_mapIdx]
  exact ⟨i, by omega, rfl⟩

/-- A word with a value of its size is split into its bits. -/
theorem blastWord_safe (values : WordValuation) (e : String × Nat) :
    Safe (blastWord values e) fun entries => ∃ word, values[e.1]? = some word ∧
      word.length = e.2 ∧ entries = word.mapIdx fun i bit => (Word.bitName e.1 i, bit) := by
  rw [blastWord]
  split
  next => exact .word _
  next word hword =>
    split
    next => exact .word _
    next hlen => exact .pure ⟨word, hword, not_not.1 hlen, rfl⟩

/-- Values are split into bits, unless a word lacks its value or the value its size. -/
theorem blast_safe (b : Bundle) (values : WordValuation) :
    Safe (b.blast values) fun _ => Covers values b := by
  apply (Safe.mapM fun e _ => blastWord_safe values e).bind
  intro words each
  apply Safe.pure
  intro name size hb
  obtain ⟨_, -, word, hword, hlen, -⟩ :=
    forall₂_exists_of_mem each (Std.ExtTreeMap.mem_toList_iff_getElem?_eq_some.2 hb)
  exact ⟨word, hword, hlen⟩

/-- The bits of split words have the values they have in the words. -/
theorem getElem?_of_blast {values : WordValuation} {bits : Valuation}
    (h : b.blast values = .ok bits) {name : String} {size i : Nat} (hb : b[name]? = some size)
    (hi : i < size) : bits[Word.bitName name i]? = (values[name]?).bind (·[i]?) := by
  obtain ⟨bits', h', hbits⟩ := exists_blast ((blast_safe b values).elim h)
  obtain rfl := Except.ok.inj (h.symm.trans h')
  exact hbits name size hb i hi

/-- Nothing but bits of the bundle is given a value. -/
theorem hasBit_of_blast {values : WordValuation} {bits : Valuation} (h : b.blast values = .ok bits)
    {n : String} (hn : n ∈ bits) : b.HasBit n := by
  obtain ⟨words, hwords, heq⟩ := except_bind_eq_ok_iff.1 h
  obtain rfl := Except.ok.inj heq
  have each := (Safe.mapM fun e _ => blastWord_safe values e).elim hwords
  have hkey : n ∈ words.flatten.map Prod.fst :=
    List.contains_iff_mem.1 (Std.ExtTreeMap.mem_ofList.1 hn)
  obtain ⟨entry, hentry, rfl⟩ := List.mem_map.1 hkey
  obtain ⟨entries, hentries, hentry⟩ := List.mem_flatten.1 hentry
  obtain ⟨e, he, word, -, hlen, rfl⟩ := forall₂_exists_of_mem each.flip hentries
  obtain ⟨i, hi, rfl⟩ := List.mem_mapIdx.1 hentry
  exact ⟨e.1, e.2, i, Std.ExtTreeMap.mem_toList_iff_getElem?_eq_some.1 he, hlen ▸ hi, rfl⟩

/-- Words of the bundle that have a value have one of their size. -/
def Allows (b : Bundle) (values : WordValuation) : Prop :=
  ∀ (name : String) size word, b[name]? = some size → values[name]? = some word →
    word.length = size

theorem getElem?_present {values : WordValuation} {name : String} {size : Nat} :
    (b.filter fun name _ => values.contains name)[name]? = some size ↔
      name ∈ values ∧ b[name]? = some size := by
  rw [NameMap.getElem?_filter_key, Std.ExtTreeMap.mem_iff_contains]
  by_cases h : values.contains name <;> simp [h]

/-- Values of some words can be split where they have the right sizes, and other words get none. -/
theorem exists_blastPartial {values : WordValuation} (allows : b.Allows values) :
    ∃ bits, b.blastPartial values = .ok bits ∧ ∀ (name : String) size, b[name]? = some size →
      ∀ i < size, bits[Word.bitName name i]? = (values[name]?).bind (·[i]?) := by
  have covers : Covers values (b.filter fun name _ => values.contains name) := by
    intro name size h
    obtain ⟨hname, hsize⟩ := getElem?_present.1 h
    obtain ⟨word, hword⟩ := mem_iff_exists_getElem?.1 hname
    exact ⟨word, hword, allows name size word hsize hword⟩
  obtain ⟨bits, hbits, value⟩ := exists_blast covers
  refine ⟨bits, hbits, fun name size hsize i hi => ?_⟩
  by_cases hname : name ∈ values
  · exact value name size (getElem?_present.2 ⟨hname, hsize⟩) i hi
  · rw [not_mem_iff_getElem?.1 hname, Option.bind_none, ← not_mem_iff_getElem?]
    intro hbit
    obtain ⟨size', h, -⟩ := hasBit_bitName_iff.1 (hasBit_of_blast hbits hbit)
    exact hname (getElem?_present.1 h).1

theorem unblastWord_fst {bits : Valuation} {e : String × Nat} {entry : String × Word}
    (h : unblastWord bits e = some entry) : entry.1 = e.1 := by
  rcases e with ⟨name, size⟩
  rw [unblastWord] at h
  split at h
  · cases h
  · cases h
    rfl

/-- A word is put together from its bits if all of them are there, and otherwise left out. -/
theorem getElem?_unblast_eq_some_iff {bits : Valuation} {name : String} {word : Word} :
    (b.unblast bits)[name]? = some word ↔ ∃ size, b[name]? = some size ∧
      (∀ i < size, Word.bitName name i ∈ bits) ∧
      (List.range size).map (fun i => (bits[Word.bitName name i]?).getD false) = word := by
  have distinct : ((b.toList.filterMap (unblastWord bits)).map Prod.fst).Nodup := by
    refine List.pairwise_map.2 (List.pairwise_filterMap.2 ?_)
    refine (List.pairwise_map.1 (nodup_map_fst_toList b)).imp fun {e e'} hne x hx y hy => ?_
    rw [unblastWord_fst hx, unblastWord_fst hy]
    exact hne
  have present (name : String) (size : Nat) :
      (Word.missingBit? bits.contains name size 0).isSome = false ↔
        ∀ i < size, Word.bitName name i ∈ bits := by
    rw [Option.isSome_eq_false_iff, Option.isNone_iff_eq_none, Word.missingBit?_eq_none_iff]
    simp only [Nat.zero_add, Std.ExtTreeMap.mem_iff_contains]
  rw [unblast, NameMap.getElem?_ofPairs_eq_some_iff distinct, List.mem_filterMap]
  simp only [Prod.exists, Std.ExtTreeMap.mem_toList_iff_getElem?_eq_some]
  constructor
  · rintro ⟨name', size, hb, hword⟩
    obtain rfl : name = name' := unblastWord_fst hword
    rw [unblastWord] at hword
    split at hword
    next => cases hword
    next all =>
      rw [Word.bitNames, List.map_map] at hword
      exact ⟨size, hb, (present _ _).1 (Bool.not_eq_true _ ▸ all),
        (Prod.mk.inj (Option.some.inj hword)).2⟩
  · rintro ⟨size, hb, all, rfl⟩
    refine ⟨name, size, hb, ?_⟩
    simp [unblastWord, (present name size).2 all, Word.bitNames]

/-- A word all of whose bits are there is put together from them. -/
theorem getElem?_unblast {bits : Valuation} {name : String} {size : Nat}
    (hb : b[name]? = some size) (all : ∀ i < size, Word.bitName name i ∈ bits) :
    (b.unblast bits)[name]? =
      some ((List.range size).map fun i => (bits[Word.bitName name i]?).getD false) :=
  getElem?_unblast_eq_some_iff.2 ⟨size, hb, all, rfl⟩

/-- Put together, a word has the bits it is made of. -/
theorem exists_unblast {bits : Valuation} {name : String} {size : Nat} (hb : b[name]? = some size)
    (all : ∀ i < size, Word.bitName name i ∈ bits) :
    ∃ word, (b.unblast bits)[name]? = some word ∧ word.length = size ∧
      ∀ i < size, word[i]? = bits[Word.bitName name i]? := by
  refine ⟨_, getElem?_unblast hb all, by simp, fun i hi => ?_⟩
  obtain ⟨bit, hbit⟩ := mem_iff_exists_getElem?.1 (all i hi)
  simp [hi, hbit]

end Bundle

end AndInverter
