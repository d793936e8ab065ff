import AndInverter.Proofs.Word.Bundle

/-! Splitting words into bits and putting them together again are inverse to each other. Nothing is
assumed of the names: a word may be called like a bit of another one. -/

namespace AndInverter.Bundle

variable {b : Bundle} {values : WordValuation} {bits : Valuation}

theorem exists_blast_iff : (∃ bits, b.blast values = .ok bits) ↔ Covers values b :=
  ⟨fun ⟨_, h⟩ => (blast_safe b values).elim h,
    fun covers => (exists_blast covers).imp fun _ h => h.1⟩

theorem Covers.allows (covers : Covers values b) : b.Allows values := by
  intro name size word hsize hword
  obtain ⟨word', hword', hlen⟩ := covers name size hsize
  obtain rfl : word' = word := Option.some.inj (hword'.symm.trans hword)
  exact hlen

theorem exists_blastPartial_iff :
    (∃ bits, b.blastPartial values = .ok bits) ↔ b.Allows values := by
  constructor
  · rintro ⟨bits, h⟩ name size word hsize hword
    have covers := (blast_safe _ values).elim h
    exact covers.allows name size word
      (getElem?_present.2 ⟨mem_iff_exists_getElem?.2 ⟨word, hword⟩, hsize⟩) hword
  · intro allows
    exact (exists_blastPartial allows).imp fun _ h => h.1

/-- Bits that are read off words of the right sizes give these words again. A word without a value is
missed, unless it has no bits. -/
theorem getElem?_unblast_of_bits (allows : b.Allows values)
    (read : ∀ (name : String) size, b[name]? = some size →
      ∀ i < size, bits[Word.bitName name i]? = (values[name]?).bind (·[i]?)) (name : String) :
    (b.unblast bits)[name]? =
      (b[name]?).bind fun size => (values[name]?).or (if size = 0 then some [] else none) := by
  cases hb : b[name]? with
  | none =>
    rw [Option.bind_none, Option.eq_none_iff_forall_ne_some]
    intro word hword
    obtain ⟨size, h, -⟩ := getElem?_unblast_eq_some_iff.1 hword
    rw [hb] at h
    cases h
  | some size =>
    rw [Option.bind_some]
    cases hvalue : values[name]? with
    | some value =>
      have bit (i : Nat) (hi : i < size) : bits[Word.bitName name i]? = value[i]? := by
        rw [read name size hb i hi, hvalue, Option.bind_some]
      have hlen : value.length = size := allows name size value hb hvalue
      obtain ⟨word, hword, hlen', hbits⟩ := exists_unblast hb fun i hi =>
        mem_iff_exists_getElem?.2 ⟨_, (bit i hi).trans (List.getElem?_eq_getElem (by omega))⟩
      rw [hword, Option.some_or]
      refine congrArg some (List.ext_getElem (hlen'.trans hlen.symm) fun i hi _ => ?_)
      rw [← Option.some.injEq, ← List.getElem?_eq_getElem, ← List.getElem?_eq_getElem,
        hbits i (hlen' ▸ hi), bit i (hlen' ▸ hi)]
    | none =>
      rw [Option.none_or]
      split
      next empty => rw [getElem?_unblast hb (by simp [empty]), empty, List.range_zero, List.map_nil]
      next nonempty =>
        rw [Option.eq_none_iff_forall_ne_some]
        intro word hword
        obtain ⟨size', h, all, -⟩ := getElem?_unblast_eq_some_iff.1 hword
        obtain rfl : size = size' := Option.some.inj (hb.symm.trans h)
        -- The first bit of the word would be there.
        obtain ⟨bit, hbit⟩ := mem_iff_exists_getElem?.1 (all 0 (by omega))
        rw [read name size hb 0 (by omega), hvalue] at hbit
        cases hbit

theorem unblast_blast (h : b.blast values = .ok bits) :
    b.unblast bits = NameMap.restrict values b.keys := by
  have covers := exists_blast_iff.1 ⟨bits, h⟩
  refine Std.ExtTreeMap.ext_getElem? fun name => ?_
  rw [getElem?_unblast_of_bits covers.allows (fun name size hb i hi => getElem?_of_blast h hb hi),
    NameMap.getElem?_restrict]
  cases hb : b[name]? with
  | none =>
    rw [Option.bind_none, if_neg (mt Std.ExtTreeMap.mem_keys.1 (not_mem_iff_getElem?.2 hb))]
  | some size =>
    obtain ⟨word, hword, -⟩ := covers name size hb
    rw [Option.bind_some, hword, Option.some_or,
      if_pos (Std.ExtTreeMap.mem_keys.2 (mem_iff_exists_getElem?.2 ⟨size, hb⟩))]

theorem blast_unblast (all : ∀ n ∈ b.bitNames, n ∈ bits) :
    b.blast (b.unblast bits) = .ok (NameMap.restrict bits b.bitNames) := by
  have bit {name : String} {size i : Nat} (hb : b[name]? = some size) (hi : i < size) :
      Word.bitName name i ∈ bits :=
    all _ (mem_bitNames_iff.2 ⟨name, size, i, hb, hi, rfl⟩)
  have covers : Covers (b.unblast bits) b := by
    intro name size hb
    obtain ⟨word, hword, hlen, -⟩ := exists_unblast hb fun i hi => bit hb hi
    exact ⟨word, hword, hlen⟩
  obtain ⟨split, hsplit, read⟩ := exists_blast covers
  rw [hsplit]
  refine congrArg Except.ok (Std.ExtTreeMap.ext_getElem? fun n => ?_)
  rw [NameMap.getElem?_restrict]
  split
  next h =>
    obtain ⟨name, size, i, hb, hi, rfl⟩ := mem_bitNames_iff.1 h
    obtain ⟨word, hword, -, hbits⟩ := exists_unblast hb fun i hi => bit hb hi
    rw [read name size hb i hi, hword, Option.bind_some, hbits i hi]
  next h =>
    rw [← not_mem_iff_getElem?]
    exact fun hn => h (mem_bitNames_iff.2 (hasBit_of_blast hsplit hn))

/-- Words with a value of their size can be split, and without a value if that is allowed. Splitting and
putting together undo each other, on the words of the bundle one way and on its bits the other, whatever
the words are called: words and indices are read off the names of bits. -/
theorem blasting_inverse (b : Bundle) (values : WordValuation) (bits : Valuation) :
    ((∃ split, b.blast values = .ok split) ↔ ∀ (name : String) size, b[name]? = some size →
      ∃ word, values[name]? = some word ∧ word.length = size) ∧
    ((∃ split, b.blastPartial values = .ok split) ↔ ∀ (name : String) size word,
      b[name]? = some size → values[name]? = some word → word.length = size) ∧
    (∀ split, b.blast values = .ok split → b.unblast split = NameMap.restrict values b.keys) ∧
    (∀ split, b.blastPartial values = .ok split → ∀ name : String, (b.unblast split)[name]? =
      (b[name]?).bind fun size => (values[name]?).or (if size = 0 then some [] else none)) ∧
    ((∀ n ∈ b.bitNames, n ∈ bits) →
      b.blast (b.unblast bits) = .ok (NameMap.restrict bits b.bitNames)) ∧
    (∀ x i y j, Word.bitName x i = Word.bitName y j → x = y ∧ i = j) ∧
    ∀ x i, i < UInt64.size → Word.splitBit? (Word.bitName x i) = some (x, i) := by
  refine ⟨exists_blast_iff, exists_blastPartial_iff, fun split h => unblast_blast h,
    fun split h name => ?_, blast_unblast, fun x i y j => Word.bitName_inj.1, fun x i hi => ?_⟩
  · have allows := exists_blastPartial_iff.1 ⟨split, h⟩
    obtain ⟨split', h', read⟩ := exists_blastPartial allows
    obtain rfl : split' = split := Except.ok.inj (h'.symm.trans h)
    exact getElem?_unblast_of_bits allows read name
  · rw [Word.splitBit?_bitName, if_pos hi]

/-- A word beside one that is called like a bit of it. -/
theorem blasting_inverse_brackets : ∃ (b : Bundle) (values : WordValuation) (split part : Valuation),
    b = NameMap.ofPairs [("a", 2), ("a[1]", 1)] ∧
    values = NameMap.ofPairs [("a", [true, false]), ("a[1]", [true]), ("b", [true])] ∧
    b.blast values = .ok split ∧ b.unblast split = NameMap.restrict values b.keys ∧
    b.blast (b.unblast split) = .ok (NameMap.restrict split b.bitNames) ∧
    b.blastPartial values = .ok part ∧ (b.unblast part)["a"]? = some [true, false] ∧
    Word.splitBit? (Word.bitName "a[1]" 0) = some ("a[1]", 0) := by
  obtain ⟨b, hb⟩ : ∃ b : Bundle, b = NameMap.ofPairs [("a", 2), ("a[1]", 1)] := ⟨_, rfl⟩
  obtain ⟨values, hvalues⟩ : ∃ values : WordValuation, values =
    NameMap.ofPairs [("a", [true, false]), ("a[1]", [true]), ("b", [true])] := ⟨_, rfl⟩
  obtain ⟨split, hsplit, all⟩ :
      ∃ split, b.blast values = .ok split ∧ ∀ n ∈ b.bitNames, n ∈ split := by
    subst hb hvalues
    decide +kernel
  obtain ⟨part, hpart, word⟩ : ∃ part, b.blastPartial values = .ok part ∧
      ((b["a"]?).bind fun size => (values["a"]?).or (if size = 0 then some [] else none)) =
        some [true, false] := by
    subst hb hvalues
    decide +kernel
  obtain ⟨-, -, back, partly, again, -, read⟩ := blasting_inverse b values split
  exact ⟨b, values, split, part, hb, hvalues, hsplit, back split hsplit, again all, hpart,
    (partly part hpart "a").trans word, read "a[1]" 0 (by decide)⟩

end AndInverter.Bundle
