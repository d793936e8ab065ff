import AndInverter.Proofs.Word.Bundle
import AndInverter.WordCircuit.Basic
import Mathlib.Data.List.Sort

/-! Words found by the names of their bits. Printed names are split where they were joined, so the words
that are found are those whose bits the names are. -/

namespace AndInverter

namespace Word

/-- The name is that of a bit, as it is printed. -/
def IsBitName (n : String) : Prop := ∃ root i, n = bitName root i

/-- A printed name is that of the bit that it is read as. -/
theorem eq_bitName_of_splitBit? {n root : String} {i : Nat} (printed : IsBitName n)
    (hsplit : splitBit? n = some (root, i)) : n = bitName root i := by
  obtain ⟨root', i', rfl⟩ := printed
  rw [splitBit?_bitName] at hsplit
  split at hsplit
  next =>
    obtain ⟨rfl, rfl⟩ := Prod.mk.inj (Option.some.inj hsplit)
    rfl
  next => cases hsplit

/-- No larger index is read. -/
theorem lt_of_splitBit? {n root : String} {i : Nat} (hsplit : splitBit? n = some (root, i)) :
    i < UInt64.size := by
  unfold splitBit? at hsplit
  split at hsplit
  next =>
    dsimp only at hsplit
    split at hsplit
    next =>
      obtain ⟨index, -, hindex⟩ := Option.bind_eq_some_iff.1 hsplit
      split at hindex
      next h =>
        obtain ⟨-, rfl⟩ := Prod.mk.inj (Option.some.inj hindex)
        exact h
      next => cases hindex
    next => cases hsplit
  next => cases hsplit

end Word

namespace WordCircuit

/-- The indices of the bits of one word, in the order of their names. -/
def indicesOf (names : List String) (root : String) : List Nat :=
  names.filterMap fun n =>
    (Word.splitBit? n).bind fun bit => if bit.1 = root then some bit.2 else none

theorem mem_indicesOf_iff {names : List String} {root : String} {i : Nat} :
    i ∈ indicesOf names root ↔ ∃ n ∈ names, Word.splitBit? n = some (root, i) := by
  simp only [indicesOf, List.mem_filterMap, Option.bind_eq_some_iff, Option.ite_none_right_eq_some,
    Option.some.injEq]
  refine exists_congr fun n => and_congr_right fun _ => ⟨?_, fun h => ⟨_, h, rfl, rfl⟩⟩
  rintro ⟨⟨_, _⟩, h, rfl, rfl⟩
  exact h

/-- Names that are read as different bits have different indices within one word. -/
theorem nodup_indicesOf {names : List String} (distinct : names.Nodup)
    (once : ∀ n ∈ names, ∀ m ∈ names, Word.splitBit? n = Word.splitBit? m → n = m)
    (root : String) : (indicesOf names root).Nodup := by
  refine List.pairwise_filterMap.2 (distinct.imp_of_mem fun {n m} hn hm hne i hi j hj heq => hne ?_)
  simp only [Option.bind_eq_some_iff, Option.ite_none_right_eq_some, Option.some.injEq] at hi hj
  obtain ⟨⟨_, _⟩, hsplit, rfl, rfl⟩ := hi
  obtain ⟨⟨_, _⟩, hsplit', hroot, hindex⟩ := hj
  refine once n hn m hm ?_
  rw [hsplit, hsplit', Option.some.injEq, Prod.mk.injEq]
  exact ⟨hroot.symm, heq.trans hindex.symm⟩

/-- A bit whose word has no index twice has one name. -/
theorem eq_of_nodup_indicesOf {names : List String} {root : String}
    (once : (indicesOf names root).Nodup) {n m : String} (hn : n ∈ names) (hm : m ∈ names) {i : Nat}
    (hsplit : Word.splitBit? n = some (root, i)) (hsplit' : Word.splitBit? m = some (root, i)) :
    n = m := by
  obtain ⟨before, after, rfl⟩ := List.append_of_mem hn
  have parts : indicesOf (before ++ n :: after) root =
      indicesOf before root ++ i :: indicesOf after root := by
    simp [indicesOf, hsplit]
  rw [parts, List.nodup_append, List.nodup_cons] at once
  rcases List.mem_append.1 hm with hm | hm
  · have twice := mem_indicesOf_iff.2 ⟨m, hm, hsplit'⟩
    exact absurd rfl (once.2.2 i twice i (List.mem_cons_self ..))
  · rcases List.mem_cons.1 hm with rfl | hm
    · rfl
    · exact absurd (mem_indicesOf_iff.2 ⟨m, hm, hsplit'⟩) once.2.1.1

/-- The indices of the bits seen so far, the last one first. -/
structure Grouped (names : List String) (groups : NameMap (List Nat)) : Prop where
  bits : ∀ n ∈ names, (Word.splitBit? n).isSome
  indices : ∀ root : String, (groups[root]?).getD [] = (indicesOf names root).reverse
  seen : ∀ root ∈ groups, indicesOf names root ≠ []

theorem Grouped.mem_iff {names : List String} {groups : NameMap (List Nat)}
    (grouped : Grouped names groups) {root : String} {i : Nat} :
    i ∈ (groups[root]?).getD [] ↔ ∃ n ∈ names, Word.splitBit? n = some (root, i) := by
  rw [grouped.indices, List.mem_reverse, mem_indicesOf_iff]

theorem Grouped.start : Grouped [] ∅ := ⟨by simp, by simp [indicesOf], by simp⟩

/-- One more name of a bit. -/
theorem Grouped.collect {done : List String} {groups : NameMap (List Nat)}
    (grouped : Grouped done groups) {name root : String} {index : Nat}
    (hsplit : Word.splitBit? name = some (root, index)) :
    ∃ groups', collectBit groups name = .ok groups' ∧ Grouped (done ++ [name]) groups' := by
  have more (root' : String) : indicesOf (done ++ [name]) root' =
      indicesOf done root' ++ if root = root' then [index] else [] := by
    rw [indicesOf, indicesOf, List.filterMap_append, List.filterMap_cons, List.filterMap_nil, hsplit,
      Option.bind_some]
    by_cases h : root = root' <;> simp [h]
  refine ⟨_, by rw [collectBit, hsplit], ?_, fun root' => ?_, fun root' hroot => ?_⟩
  · intro n hn
    rcases List.mem_append.1 hn with hn | hn
    · exact grouped.bits n hn
    · rw [List.mem_singleton.1 hn, hsplit, Option.isSome_some]
  · rw [NameMap.getElem?_insert, more]
    by_cases h : root' = root
    · subst h
      simp [grouped.indices]
    · simp [h, Ne.symm h, grouped.indices]
  · rw [more]
    rcases NameMap.mem_insert_iff.1 hroot with rfl | hroot
    · simp
    · simp [grouped.seen root' hroot]

theorem collectBit_safe {done : List String} {groups : NameMap (List Nat)}
    (grouped : Grouped done groups) (name : String) :
    Safe (collectBit groups name) (Grouped (done ++ [name])) := by
  cases hsplit : Word.splitBit? name with
  | none =>
    rw [collectBit, hsplit]
    exact .word _
  | some bit =>
    obtain ⟨groups', h, grouped'⟩ := grouped.collect hsplit
    exact .of_eq h grouped'

/-- Names that can all be split are grouped. -/
theorem exists_groups {names : List String} (bits : ∀ n ∈ names, (Word.splitBit? n).isSome) :
    ∃ groups, names.foldlM collectBit ∅ = .ok groups ∧ Grouped names groups := by
  have step (k : Nat) (groups : NameMap (List Nat)) (name : String) (hname : names[k]? = some name)
      (grouped : Grouped (names.take k) groups) :
      ∃ groups', collectBit groups name = .ok groups' ∧ Grouped (names.take (k + 1)) groups' := by
    obtain ⟨bit, hbit⟩ := Option.isSome_iff_exists.1 (bits name (List.mem_of_getElem? hname))
    rw [List.take_add_one, hname]
    exact grouped.collect hbit
  have run := (foldlM_except_cases (fun k groups => Grouped (names.take k) groups) (fun _ => False)
    (fun k groups name hname grouped => .inl (step k groups name hname grouped))
    Grouped.start).resolve_right (by simp)
  rwa [List.take_length] at run

theorem wordSize_safe (entry : String × List Nat) :
    Safe (wordSize entry) fun word => word.1 = entry.1 ∧ entry.2.Perm (List.range word.2) := by
  obtain ⟨root, indices⟩ := entry
  simp only [wordSize]
  split
  next regular =>
    apply Safe.pure
    exact ⟨rfl, (List.mergeSort_perm indices _).symm.trans (.of_eq (eq_of_beq regular))⟩
  next => exact .word _

/-- Indices make a word if each one from zero on is there once, in whatever order. -/
theorem wordSize_of_perm (root : String) {indices : List Nat} {size : Nat}
    (perm : indices.Perm (List.range size)) :
    wordSize (root, indices) = .ok (root, indices.length) ∧ indices.length = size := by
  have length : indices.length = size := perm.length_eq.trans List.length_range
  have ascending : indices.mergeSort.Pairwise (· ≤ ·) := List.pairwise_mergeSort' (· ≤ ·) indices
  have sorted : indices.mergeSort = List.range size :=
    ((List.mergeSort_perm indices _).trans perm).eq_of_pairwise' ascending List.pairwise_le_range
  exact ⟨by simp [wordSize, sorted, length], length⟩

/-- Every name is read as a bit of a word, and every bit of a word is spelled by one name. -/
structure Spelled (names : List String) (W : String → Nat → Prop) : Prop where
  functional : ∀ root i j, W root i → W root j → i = j
  pos : ∀ root size, W root size → 0 < size
  read : ∀ n ∈ names, ∃ root size i, W root size ∧ i < size ∧ Word.splitBit? n = some (root, i)
  spell : ∀ root size i, W root size → i < size → ∃ n ∈ names, Word.splitBit? n = some (root, i)
  once : ∀ n ∈ names, ∀ m ∈ names, Word.splitBit? n = Word.splitBit? m → n = m

section Words
variable {names : List String} {W : String → Nat → Prop} {groups : NameMap (List Nat)}

theorem Spelled.mem_indicesOf_iff (spelled : Spelled names W) {root : String} {i : Nat} :
    i ∈ indicesOf names root ↔ ∃ size, W root size ∧ i < size := by
  rw [WordCircuit.mem_indicesOf_iff]
  constructor
  · rintro ⟨n, hn, hsplit⟩
    obtain ⟨root', size, i', hW, hi, hsplit'⟩ := spelled.read n hn
    obtain ⟨rfl, rfl⟩ := Prod.mk.inj (Option.some.inj (hsplit.symm.trans hsplit'))
    exact ⟨size, hW, hi⟩
  · rintro ⟨size, hW, hi⟩
    exact spelled.spell root size i hW hi

/-- Each index of a word is there once. -/
theorem Spelled.indicesOf_perm (spelled : Spelled names W) (distinct : names.Nodup) {root : String}
    {size : Nat} (hW : W root size) : (indicesOf names root).Perm (List.range size) := by
  rw [List.perm_ext_iff_of_nodup (nodup_indicesOf distinct spelled.once root) List.nodup_range]
  intro j
  rw [spelled.mem_indicesOf_iff, List.mem_range]
  exact ⟨fun ⟨size', hW', hj⟩ => spelled.functional root size' size hW' hW ▸ hj,
    fun hj => ⟨size, hW, hj⟩⟩

/-- A word is there if one of its bits is, and then all of them are. -/
theorem Spelled.group (spelled : Spelled names W) (distinct : names.Nodup)
    (grouped : Grouped names groups) {root : String} {indices : List Nat}
    (h : groups[root]? = some indices) :
    W root indices.length ∧ wordSize (root, indices) = .ok (root, indices.length) := by
  have eq := grouped.indices root
  rw [h, Option.getD_some] at eq
  obtain ⟨i, hi⟩ := List.exists_mem_of_ne_nil _
    (grouped.seen root (mem_iff_exists_getElem?.2 ⟨indices, h⟩))
  obtain ⟨size, hW, -⟩ := spelled.mem_indicesOf_iff.1 hi
  have perm : indices.Perm (List.range size) := by
    rw [eq]
    exact (List.reverse_perm _).trans (spelled.indicesOf_perm distinct hW)
  obtain ⟨run, length⟩ := wordSize_of_perm root perm
  exact ⟨length ▸ hW, run⟩

/-- Names that are all different are grouped to the words whose bits they spell. -/
theorem Spelled.exists_groupBits (spelled : Spelled names W) (distinct : names.Nodup) :
    ∃ words, groupBits names = .ok words ∧
      ∀ (root : String) size, words[root]? = some size ↔ W root size := by
  have readable : ∀ n ∈ names, (Word.splitBit? n).isSome := by
    intro n hn
    obtain ⟨root, size, i, -, -, hsplit⟩ := spelled.read n hn
    rw [hsplit, Option.isSome_some]
  obtain ⟨groups, hgroups, grouped⟩ := exists_groups readable
  have keys : (groups.toList.map fun e => (e.1, e.2.length)).map Prod.fst =
      groups.toList.map Prod.fst := by
    rw [List.map_map]
    rfl
  refine ⟨NameMap.ofPairs (groups.toList.map fun e => (e.1, e.2.length)), ?_, fun root size => ?_⟩
  · rw [groupBits, hgroups, except_ok_bind, mapM_eq_ok fun e he =>
      (spelled.group distinct grouped (Std.ExtTreeMap.mem_toList_iff_getElem?_eq_some.1 he)).2]
    rfl
  · rw [NameMap.getElem?_ofPairs_eq_some_iff (keys ▸ nodup_map_fst_toList groups)]
    simp only [List.mem_map, Prod.exists, Prod.mk.injEq,
      Std.ExtTreeMap.mem_toList_iff_getElem?_eq_some]
    constructor
    · rintro ⟨root, indices, h, rfl, rfl⟩
      exact (spelled.group distinct grouped h).1
    · intro hW
      have first : 0 ∈ (groups[root]?).getD [] := by
        rw [grouped.indices, List.mem_reverse, spelled.mem_indicesOf_iff]
        exact ⟨size, hW, spelled.pos root size hW⟩
      cases h : groups[root]? with
      | none => simp [h] at first
      | some indices =>
        exact ⟨root, indices, h, rfl,
          spelled.functional root _ _ (spelled.group distinct grouped h).1 hW⟩

/-- Words that are found have just the indices that were read. -/
theorem Grouped.spelled (grouped : Grouped names groups) {words : List (String × Nat)}
    (sizes : List.Forall₂ (fun entry word => word.1 = entry.1 ∧ entry.2.Perm (List.range word.2))
      groups.toList words) : Spelled names (Bundle.IsWord (NameMap.ofPairs words)) := by
  have roots : ∀ (a : String × List Nat) (b : String × Nat),
      (b.1 = a.1 ∧ a.2.Perm (List.range b.2)) → b.1 = a.1 := fun _ _ h => h.1
  -- The indices of a word, before and after it is found.
  have found {root : String} {size : Nat} (h : (NameMap.ofPairs words)[root]? = some size) :
      (indicesOf names root).Perm (List.range size) ∧ indicesOf names root ≠ [] := by
    have hroot := NameMap.mem_of_mem_ofPairs sizes roots (mem_iff_exists_getElem?.2 ⟨size, h⟩)
    obtain ⟨indices, hgroup⟩ := mem_iff_exists_getElem?.1 hroot
    obtain ⟨size', hsize, -, perm⟩ := NameMap.exists_getElem?_ofPairs sizes roots hgroup
    obtain rfl := Option.some.inj (h.symm.trans hsize)
    have eq := grouped.indices root
    rw [hgroup, Option.getD_some] at eq
    exact ⟨(List.reverse_perm _).symm.trans (eq ▸ perm), grouped.seen root hroot⟩
  have read {n root : String} {i : Nat} (hn : n ∈ names)
      (hsplit : Word.splitBit? n = some (root, i)) :
      ∃ size, (NameMap.ofPairs words)[root]? = some size ∧ i < size := by
    have seen : i ∈ (groups[root]?).getD [] := grouped.mem_iff.2 ⟨n, hn, hsplit⟩
    cases hgroup : groups[root]? with
    | none => simp [hgroup] at seen
    | some indices =>
      obtain ⟨size, hsize, -, perm⟩ := NameMap.exists_getElem?_ofPairs sizes roots hgroup
      rw [hgroup, Option.getD_some, perm.mem_iff, List.mem_range] at seen
      exact ⟨size, hsize, seen⟩
  constructor
  · exact fun root i j hi hj => Option.some.inj (hi.symm.trans hj)
  · intro root size h
    obtain ⟨perm, nonempty⟩ := found h
    rw [← List.length_range (n := size), ← perm.length_eq]
    exact List.length_pos_iff.2 nonempty
  · intro n hn
    obtain ⟨⟨root, i⟩, hsplit⟩ := Option.isSome_iff_exists.1 (grouped.bits n hn)
    obtain ⟨size, h, hi⟩ := read hn hsplit
    exact ⟨root, size, i, h, hi, hsplit⟩
  · intro root size i h hi
    exact WordCircuit.mem_indicesOf_iff.1 ((found h).1.mem_iff.2 (List.mem_range.2 hi))
  · intro n hn m hm heq
    obtain ⟨⟨root, i⟩, hsplit⟩ := Option.isSome_iff_exists.1 (grouped.bits n hn)
    obtain ⟨size, h, -⟩ := read hn hsplit
    exact eq_of_nodup_indicesOf ((found h).1.nodup_iff.2 List.nodup_range) hn hm hsplit
      (heq ▸ hsplit)

/-- Names spell the bits of the words that are found. -/
theorem groupBits_safe (names : List String) :
    Safe (groupBits names) fun words => Spelled names words.IsWord := by
  apply (Safe.foldlM Grouped (fun _ name _ grouped => collectBit_safe grouped name)
    Grouped.start).bind
  intro groups grouped
  apply (Safe.mapM fun entry _ => wordSize_safe entry).bind
  intro words sizes
  exact Safe.pure (grouped.spelled sizes)

/-- Words are found exactly where names spell their bits. -/
theorem groupBits_eq_ok_iff (distinct : names.Nodup) {words : Bundle} :
    groupBits names = .ok words ↔ Spelled names words.IsWord := by
  refine ⟨(groupBits_safe names).elim, fun spelled => ?_⟩
  obtain ⟨words', run, lookup⟩ := spelled.exists_groupBits distinct
  rw [run, Std.ExtTreeMap.ext_getElem? fun root => Option.ext (lookup root)]

/-- Printed names that spell the bits of words are their names. -/
theorem Spelled.mem_iff_hasBit {words : Bundle} (spelled : Spelled names words.IsWord)
    (printed : ∀ n ∈ names, Word.IsBitName n) (n : String) : n ∈ names ↔ words.HasBit n := by
  constructor
  · intro hn
    obtain ⟨root, size, i, h, hi, hsplit⟩ := spelled.read n hn
    exact ⟨root, size, i, h, hi, Word.eq_bitName_of_splitBit? (printed n hn) hsplit⟩
  · rintro ⟨root, size, i, h, hi, rfl⟩
    obtain ⟨n, hn, hsplit⟩ := spelled.spell root size i h hi
    rwa [← Word.eq_bitName_of_splitBit? (printed n hn) hsplit]

end Words

/-- The names are just the bits of the words, in whatever order, and the indices are within reach of the
machine. -/
structure AreBits (names : List String) (W : String → Nat → Prop) : Prop where
  functional : ∀ root i j, W root i → W root j → i = j
  sizes : ∀ root size, W root size → 0 < size ∧ size ≤ UInt64.size
  mem : ∀ n, n ∈ names ↔ ∃ root size i, W root size ∧ i < size ∧ n = Word.bitName root i

section Bits
variable {names : List String} {W : String → Nat → Prop}

theorem AreBits.split (bits : AreBits names W) {root : String} {size i : Nat} (hW : W root size)
    (hi : i < size) : Word.splitBit? (Word.bitName root i) = some (root, i) := by
  rw [Word.splitBit?_bitName, if_pos (hi.trans_le (bits.sizes root size hW).2)]

theorem AreBits.isBitName (bits : AreBits names W) {n : String} (hn : n ∈ names) :
    Word.IsBitName n := by
  obtain ⟨root, _, i, -, -, h⟩ := (bits.mem n).1 hn
  exact ⟨root, i, h⟩

/-- The bits of words are spelled as they are printed. -/
theorem AreBits.spelled (bits : AreBits names W) : Spelled names W where
  functional := bits.functional
  pos root size hW := (bits.sizes root size hW).1
  read n hn := by
    obtain ⟨root, size, i, hW, hi, rfl⟩ := (bits.mem n).1 hn
    exact ⟨root, size, i, hW, hi, bits.split hW hi⟩
  spell root size i hW hi := ⟨_, (bits.mem _).2 ⟨root, size, i, hW, hi, rfl⟩, bits.split hW hi⟩
  once n hn m hm heq := by
    obtain ⟨root, size, i, hW, hi, rfl⟩ := (bits.mem n).1 hn
    rw [bits.split hW hi] at heq
    exact (Word.eq_bitName_of_splitBit? (bits.isBitName hm) heq.symm).symm

/-- Names that are all different are grouped to words if they are just the bits of these. -/
theorem AreBits.exists_groupBits (bits : AreBits names W) (distinct : names.Nodup) :
    ∃ words, groupBits names = .ok words ∧
      ∀ (root : String) size, words[root]? = some size ↔ W root size :=
  bits.spelled.exists_groupBits distinct

/-- Every name is one bit of one word. -/
theorem AreBits.existsUnique_bit (bits : AreBits names W) {n : String} (hn : n ∈ names) :
    ∃! bit : String × Nat,
      (∃ size, W bit.1 size ∧ bit.2 < size) ∧ n = Word.bitName bit.1 bit.2 := by
  obtain ⟨root, size, i, hW, hi, rfl⟩ := (bits.mem n).1 hn
  refine ⟨(root, i), ⟨⟨size, hW, hi⟩, rfl⟩, ?_⟩
  rintro ⟨root', i'⟩ ⟨-, heq⟩
  obtain ⟨rfl, rfl⟩ := Word.bitName_inj.1 heq
  rfl

/-- Names spell the bits of one choice of words only. -/
theorem Spelled.unique {words words' : Bundle} (spelled : Spelled names words.IsWord)
    (spelled' : Spelled names words'.IsWord) (distinct : names.Nodup) : words = words' := by
  have found := (groupBits_eq_ok_iff distinct).2 spelled
  rw [(groupBits_eq_ok_iff distinct).2 spelled'] at found
  exact (Except.ok.inj found).symm

/-- Printed names that spell the bits of words are just these bits. An index that can be read has 64
bits, so there are no larger words. -/
theorem Spelled.areBits {words : Bundle} (spelled : Spelled names words.IsWord)
    (printed : ∀ n ∈ names, Word.IsBitName n) : AreBits names words.IsWord where
  functional := spelled.functional
  sizes root size h := by
    have pos := spelled.pos root size h
    obtain ⟨n, hn, hsplit⟩ := spelled.spell root size (size - 1) h (by omega)
    have bound := Word.lt_of_splitBit? hsplit
    omega
  mem := spelled.mem_iff_hasBit printed

end Bits

end WordCircuit

end AndInverter
