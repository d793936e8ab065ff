import Std.Data.ExtTreeMap

/-! Literals: a node of a graph, taken as it is or negated. A literal is written as the number
`2 * id + negated`, so that `0` and `1` are the constants, node `0` being false. Node numbers have no
bound here. A program keeps that number in 32 bits, which is enough for the first `2 ^ 31` nodes. -/

namespace AndInverter

structure Literal where
  id : Nat
  negated : Bool
deriving DecidableEq, Inhabited

namespace Literal

/-- The number that stands for the literal. -/
def raw (l : Literal) : Nat := 2 * l.id + l.negated.toNat

def ofRaw (n : Nat) : Literal := ⟨n / 2, n % 2 == 1⟩

theorem ofRaw_raw (l : Literal) : ofRaw l.raw = l := by
  rcases l with ⟨id, _ | _⟩
  · simp [ofRaw, raw]
  · simp [ofRaw, raw]
    omega

theorem raw_ofRaw (n : Nat) : (ofRaw n).raw = n := by
  rcases Nat.mod_two_eq_zero_or_one n with h | h <;> simp [ofRaw, raw, h] <;> omega

theorem raw_inj {l m : Literal} : l.raw = m.raw ↔ l = m :=
  ⟨fun h => by rw [← ofRaw_raw l, h, ofRaw_raw], fun h => h ▸ rfl⟩

/-- The literal of a 32-bit number. -/
def ofWord (n : UInt32) : Literal := ofRaw n.toNat

/-- The literal of a 32-bit node number, of which the highest bit is lost. -/
def ofNode (id : UInt32) (negated : Bool) : Literal :=
  ofWord ((id <<< 1) + negated.toUInt32)

def positive (id : Nat) : Literal := ⟨id, false⟩

def ofBool (value : Bool) : Literal := ⟨0, value⟩

instance : Neg Literal := ⟨fun l => ⟨l.id, !l.negated⟩⟩

@[simp] theorem neg_id (l : Literal) : (-l).id = l.id := rfl

@[simp] theorem neg_negated (l : Literal) : (-l).negated = !l.negated := rfl

@[simp] theorem neg_neg (l : Literal) : - -l = l := by
  rcases l with ⟨id, negated⟩
  simp [Neg.neg]

def isConst (l : Literal) : Bool := l.id == 0

/-- The value of a constant literal. -/
def const? (l : Literal) : Option Bool :=
  if l.isConst then some l.negated else none

/-- The value of the literal where its node has the given value. -/
def apply (l : Literal) (value : Bool) : Bool := value ^^ l.negated

def render (l : Literal) : String :=
  (if l.negated then "~@" else "@") ++ toString l.id

/-- Literals are ordered by their numbers. -/
instance : Ord Literal := ⟨compareOn raw⟩

instance : Std.TransOrd Literal := inferInstanceAs (Std.TransCmp (compareOn raw))

instance : Std.LawfulEqOrd Literal where
  eq_of_compare h := raw_inj.1 (Nat.compare_eq_eq.1 h)

/-- The order of pairs of literals: by the first, then by the second. -/
def comparePair : Literal × Literal → Literal × Literal → Ordering :=
  compareLex (compareOn Prod.fst) (compareOn Prod.snd)

instance : Std.TransCmp comparePair :=
  inferInstanceAs (Std.TransCmp (compareLex (compareOn Prod.fst) (compareOn Prod.snd)))

instance : Std.LawfulEqCmp comparePair where
  eq_of_compare h := by
    obtain ⟨h₁, h₂⟩ := Ordering.then_eq_eq.1 h
    exact Prod.ext (Std.LawfulEqCmp.eq_of_compare h₁) (Std.LawfulEqCmp.eq_of_compare h₂)

end Literal

end AndInverter
