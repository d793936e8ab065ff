import AndInverter.Proofs.Graph.Reachable
import AndInverter.Proofs.WordCircuit.Exact
import AndInverter.WordCircuit.Relabel

/-! Renamed words take their bits with them. -/

namespace AndInverter

namespace WordCircuit

/-- The new names of the bits of one word. -/
def wordRenaming (new : Renaming) (word : String × Nat) : List (String × String) :=
  match new[word.1]? with
  | none => []
  | some target =>
    (List.range word.2).map fun i => (Word.bitName word.1 i, Word.bitName target i)

theorem mem_wordRenaming_iff {new : Renaming} {word : String × Nat} {n m : String} :
    (n, m) ∈ wordRenaming new word ↔ ∃ target i, new[word.1]? = some target ∧ i < word.2 ∧
      n = Word.bitName word.1 i ∧ m = Word.bitName target i := by
  cases htarget : new[word.1]? with
  | none => simp [wordRenaming, htarget]
  | some target => simp [wordRenaming, htarget, eq_comm]

/-- No bit is renamed twice. -/
theorem nodup_wordRenaming (words : Bundle) (new : Renaming) :
    ((words.toList.flatMap (wordRenaming new)).map Prod.fst).Nodup := by
  rw [List.map_flatMap]
  refine words.nodup_flatMap_bits (fun word => ?_) fun word n hn => ?_
  · cases htarget : new[word.1]? with
    | none => simp [wordRenaming, htarget]
    | some target =>
      simp only [wordRenaming, htarget, List.map_map]
      exact List.nodup_range.map_on fun i _ j _ heq => (Word.bitName_inj.1 heq).2
  · obtain ⟨⟨n, m⟩, hmem, rfl⟩ := List.mem_map.1 hn
    obtain ⟨_, i, _, _, rfl, _⟩ := mem_wordRenaming_iff.1 hmem
    exact ⟨i, rfl⟩

/-- The bits of a renamed word. -/
theorem bitRenaming_apply {words : Bundle} {new : Renaming} {name : String} {size i : Nat}
    (h : words[name]? = some size) (hi : i < size) :
    (bitRenaming words new).apply (Word.bitName name i) = Word.bitName (new.apply name) i := by
  have lookup {n m : String} : (bitRenaming words new)[n]? = some m ↔
      ∃ word ∈ words.toList, (n, m) ∈ wordRenaming new word :=
    (NameMap.getElem?_ofPairs_eq_some_iff (nodup_wordRenaming words new)).trans List.mem_flatMap
  have entry : (name, size) ∈ words.toList :=
    Std.ExtTreeMap.mem_toList_iff_getElem?_eq_some.2 h
  cases htarget : new[name]? with
  | some target =>
    have found := lookup.2 ⟨_, entry, mem_wordRenaming_iff.2 ⟨target, i, htarget, hi, rfl, rfl⟩⟩
    rw [Renaming.apply, found, Renaming.apply, htarget, Option.getD_some, Option.getD_some]
  | none =>
    have missing : (bitRenaming words new)[Word.bitName name i]? = none := by
      rw [Option.eq_none_iff_forall_ne_some]
      intro m hm
      obtain ⟨word, -, hmem⟩ := lookup.1 hm
      obtain ⟨target, j, hnew, -, heq, -⟩ := mem_wordRenaming_iff.1 hmem
      rw [← (Word.bitName_inj.1 heq).1, htarget] at hnew
      cases hnew
    rw [Renaming.apply, missing, Renaming.apply, htarget, Option.getD_none, Option.getD_none]

/-- Where no two words meet the renamed bits are all different, and they are the bits of the renamed
words. -/
theorem renamed_bits {words : Bundle} {new : Renaming}
    (inj : ∀ a ∈ words, ∀ b ∈ words, new.apply a = new.apply b → a = b) :
    (∀ a, words.HasBit a → ∀ b, words.HasBit b →
      (bitRenaming words new).apply a = (bitRenaming words new).apply b → a = b) ∧
    ∀ n, (∃ old, words.HasBit old ∧ (bitRenaming words new).apply old = n) ↔
      Bundle.HasBit (NameMap.rename words new.apply) n := by
  have moved {name : String} {i : Nat} (h : words.HasBit (Word.bitName name i)) :
      (bitRenaming words new).apply (Word.bitName name i) = Word.bitName (new.apply name) i := by
    obtain ⟨size, hsize, hi⟩ := Bundle.hasBit_bitName_iff.1 h
    exact bitRenaming_apply hsize hi
  constructor
  · intro a ha b hb heq
    obtain ⟨name, i, rfl⟩ := ha.exists_eq
    obtain ⟨name', i', rfl⟩ := hb.exists_eq
    rw [moved ha, moved hb, Word.bitName_inj] at heq
    rw [inj _ ha.mem _ hb.mem heq.1, heq.2]
  · intro n
    constructor
    · rintro ⟨old, hbit, rfl⟩
      obtain ⟨name, i, rfl⟩ := hbit.exists_eq
      obtain ⟨size, hsize, hi⟩ := Bundle.hasBit_bitName_iff.1 hbit
      rw [moved hbit, Bundle.hasBit_bitName_iff]
      exact ⟨size, (NameMap.getElem?_rename_eq_some_iff inj).2 ⟨name, rfl, hsize⟩, hi⟩
    · rintro ⟨_, size, i, hsize, hi, rfl⟩
      obtain ⟨name, rfl, hname⟩ := (NameMap.getElem?_rename_eq_some_iff inj).1 hsize
      have hbit : words.HasBit (Word.bitName name i) :=
        Bundle.hasBit_bitName_iff.2 ⟨size, hname, hi⟩
      exact ⟨_, hbit, moved hbit⟩

theorem words_rename (c : WordCircuit) (kind kind' : Kind) (new : Renaming) :
    (c.rename kind new).words kind' =
      if kind' = kind then NameMap.rename (c.words kind) new.apply else c.words kind' := by
  cases kind <;> cases kind' <;> rfl

theorem graph_rename (c : WordCircuit) (kind : Kind) (new : Renaming) :
    (c.rename kind new).graph = c.graph.rename kind (bitRenaming (c.words kind) new) := by
  cases kind <;> rfl

/-- Renaming without clashes of words is renaming without clashes of bits. -/
theorem Exact.rename {c : WordCircuit} (exact : c.Exact) {kind : Kind} {new : Renaming}
    (inj : ∀ a ∈ c.words kind, ∀ b ∈ c.words kind, new.apply a = new.apply b → a = b) :
    (c.rename kind new).Exact := by
  obtain ⟨wf, bits⟩ := exact_iff.1 exact
  obtain ⟨injBits, renamed⟩ := renamed_bits inj
  have injNames : ∀ a ∈ c.graph.names kind, ∀ b ∈ c.graph.names kind,
      (bitRenaming (c.words kind) new).apply a = (bitRenaming (c.words kind) new).apply b →
        a = b := by
    intro a ha b hb
    exact injBits a ((bits kind a).1 ha) b ((bits kind b).1 hb)
  rw [exact_iff, graph_rename]
  refine ⟨wf.rename injNames, fun kind' n => ?_⟩
  rw [words_rename]
  by_cases h : kind' = kind
  · subst h
    rw [if_pos rfl, Graph.mem_names_rename_iff injNames, ← renamed]
    exact exists_congr fun old => and_congr_left' (bits kind' old)
  · rw [if_neg h, Graph.names_rename_of_ne _ _ h]
    exact bits kind' n

/-- Renaming the only output changes nothing but its name. -/
theorem Gives.renameOutput {c : WordCircuit} {inputs : Bundle} {a : String} {size : Nat}
    {F : (String → Word) → String → Word}
    (gives : c.Gives inputs ((∅ : Bundle).insert a size) F) (b : String) :
    (c.rename .output (NameMap.ofPairs [(a, b)])).Gives inputs ((∅ : Bundle).insert b size)
      fun env _ => F env a := by
  let new : Renaming := NameMap.ofPairs [(a, b)]
  have only (n : String) (hn : n ∈ c.outputs) : n = a := by
    rw [gives.outputs] at hn
    exact NameMap.mem_singleton_iff.1 hn
  have inj : ∀ n ∈ c.outputs, ∀ m ∈ c.outputs, new.apply n = new.apply m → n = m :=
    fun n hn m hm _ => (only n hn).trans (only m hm).symm
  have newA : new.apply a = b := by
    have : new[a]? = some b := (NameMap.getElem?_ofPairs_eq_some_iff (by simp)).2 (by simp)
    rw [Renaming.apply, this, Option.getD_some]
  have outA : c.outputs[a]? = some size := by
    rw [gives.outputs, NameMap.getElem?_singleton, if_pos rfl]
  have words : NameMap.rename c.outputs new.apply = (∅ : Bundle).insert b size := by
    rw [gives.outputs, NameMap.rename_singleton, newA]
  refine ⟨gives.exact.rename inj, gives.inputs, words, gives.latches, fun v hv env henv n hn => ?_⟩
  obtain rfl : n = b := by
    have : n ∈ (∅ : Bundle).insert b size := words ▸ hn
    exact NameMap.mem_singleton_iff.1 this
  rw [← gives.value v ⟨hv.zero, hv.gate⟩ env henv a (mem_iff_exists_getElem?.2 ⟨size, outA⟩)]
  show readWord _ n (((NameMap.rename c.outputs new.apply)[n]?).getD 0) = _
  rw [outputWord, outA, words, NameMap.getElem?_singleton, if_pos rfl]
  refine readWord_congr fun i hi => ?_
  have injBits : ∀ n ∈ c.graph.outputs, ∀ m ∈ c.graph.outputs,
      (bitRenaming c.outputs new).apply n = (bitRenaming c.outputs new).apply m → n = m := by
    intro n hn m hm
    exact (renamed_bits inj).1 n ((gives.exact.outputs n).1 hn) m ((gives.exact.outputs m).1 hm)
  obtain ⟨l, hl⟩ := mem_iff_exists_getElem?.1
    ((gives.exact.outputs (Word.bitName a i)).2 ⟨a, size, i, outA, hi, rfl⟩)
  have moved : (bitRenaming c.outputs new).apply (Word.bitName a i) = Word.bitName n i := by
    rw [bitRenaming_apply outA hi, newA]
  have hl' := (NameMap.getElem?_rename_eq_some_iff injBits).2 ⟨_, moved, hl⟩
  show ((NameMap.rename c.graph.outputs (bitRenaming c.outputs new).apply)[_]?).map _ = _
  rw [hl', Graph.outputValue, hl]

end WordCircuit

end AndInverter
