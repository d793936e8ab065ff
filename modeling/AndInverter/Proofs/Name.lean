import AndInverter.Graph.Unroll
import AndInverter.Word.BitName
import Std.Data.String.ToNat

/-! Names with numbers in them. The number stands after the last character that is no digit, so both
parts of a name can be read off. -/

namespace AndInverter

/-- What stands before digits ends with the last character that is no digit. -/
theorem append_cons_inj_of_digits {xs ys ds es : List Char} {c : Char} (hc : ¬ c.isDigit)
    (hd : ∀ d ∈ ds, d.isDigit) (he : ∀ d ∈ es, d.isDigit) (h : xs ++ c :: ds = ys ++ c :: es) :
    xs = ys ∧ ds = es := by
  rcases List.append_eq_append_iff.1 h with ⟨as, rfl, heq⟩ | ⟨as, rfl, heq⟩
  · rcases List.cons_eq_append_iff.1 heq with ⟨rfl, heq⟩ | ⟨as', rfl, rfl⟩
    · exact ⟨by simp, (List.cons.inj heq).2⟩
    · exact absurd (hd c (by simp)) hc
  · rcases List.cons_eq_append_iff.1 heq with ⟨rfl, heq⟩ | ⟨as', rfl, rfl⟩
    · exact ⟨by simp, (List.cons.inj heq).2.symm⟩
    · exact absurd (he c (by simp)) hc

theorem isDigit_of_mem_repr {n : Nat} {d : Char} (h : d ∈ n.repr.toList) : d.isDigit := by
  rw [Nat.toList_repr] at h
  exact Nat.isDigit_of_mem_toDigits (by decide) (by decide) h

theorem repr_ne_nil (n : Nat) : n.repr.toList ≠ [] := by
  rw [Nat.toList_repr]
  exact Nat.toDigits_ne_nil

theorem decimal_repr (n : Nat) : Text.decimal n.repr.toList = n := by
  rw [Nat.toList_repr]
  exact Nat.ofDigitChars_ten_toDigits

theorem numbered_inj {xs ys : List Char} {c : Char} (hc : ¬ c.isDigit) {m n : Nat}
    (h : xs ++ c :: m.repr.toList = ys ++ c :: n.repr.toList) : xs = ys ∧ m = n := by
  obtain ⟨hxs, hmn⟩ := append_cons_inj_of_digits hc (fun _ => isDigit_of_mem_repr)
    (fun _ => isDigit_of_mem_repr) h
  exact ⟨hxs, Nat.repr_inj.1 (String.toList_injective hmn)⟩

theorem timed_inj {a b : String} {s t : Nat} : timed a s = timed b t ↔ a = b ∧ s = t := by
  refine ⟨fun h => ?_, fun ⟨ha, hs⟩ => ha ▸ hs ▸ rfl⟩
  have chars : (a ++ "##time").toList ++ '_' :: s.repr.toList =
      (b ++ "##time").toList ++ '_' :: t.repr.toList := by
    simpa [timed, toString] using congrArg String.toList h
  obtain ⟨hab, hst⟩ := numbered_inj (by decide) chars
  exact ⟨String.toList_injective (by simpa using hab), hst⟩

theorem Word.bitName_inj {a b : String} {i j : Nat} :
    Word.bitName a i = Word.bitName b j ↔ a = b ∧ i = j := by
  refine ⟨fun h => ?_, fun ⟨ha, hi⟩ => ha ▸ hi ▸ rfl⟩
  have chars : a.toList ++ '[' :: i.repr.toList = b.toList ++ '[' :: j.repr.toList := by
    rw [List.append_cons, List.append_cons b.toList]
    simpa [Word.bitName, toString, ← List.append_assoc] using congrArg String.toList h
  obtain ⟨hab, hij⟩ := numbered_inj (by decide) chars
  exact ⟨String.toList_injective hab, hij⟩

theorem Word.index?_repr (i : Nat) : index? i.repr.toList = some i := by
  have digits : i.repr.toList.all Char.isDigit = true :=
    List.all_eq_true.2 fun _ => isDigit_of_mem_repr
  have nonempty : i.repr.toList.isEmpty = false := List.isEmpty_eq_false_iff.2 (repr_ne_nil i)
  rw [index?, digits, nonempty, decimal_repr]
  rfl

/-- The printed name of a bit is split where it was joined. -/
theorem Word.splitBit?_bitName (root : String) (i : Nat) :
    splitBit? (bitName root i) = if i < UInt64.size then some (root, i) else none := by
  have chars : (bitName root i).toList.reverse =
      ']' :: (i.repr.toList.reverse ++ '[' :: root.toList.reverse) := by
    simp [bitName, toString]
  have inside : ∀ c ∈ i.repr.toList.reverse, (c != '[') = true := by
    intro c hc
    have digit := isDigit_of_mem_repr (List.mem_reverse.1 hc)
    rw [bne_iff_ne]
    rintro rfl
    exact absurd digit (by decide)
  have digits : ((i.repr.toList.reverse ++ '[' :: root.toList.reverse).takeWhile (· != '[')).reverse =
      i.repr.toList := by
    rw [List.takeWhile_append_of_pos inside]
    simp
  have rest : (i.repr.toList.reverse ++ '[' :: root.toList.reverse).dropWhile (· != '[') =
      '[' :: root.toList.reverse := by
    rw [List.dropWhile_append_of_pos inside]
    simp
  simp only [splitBit?, chars, digits, rest, index?_repr]
  simp

end AndInverter
