import AndInverter.Proofs.WordGate.Keeps

/-! The gates as data. Whichever gate can be made is exact. -/

namespace AndInverter

/-- Gates with one input word. -/
inductive UnaryGate where
  | identity
  | reverse
  | bitwiseNegate
  | reduceAnd
  | reduceOr
  | isNonzero
  | isZero
  | parity
  | negate
  | inc
  | dec
  | abs

/-- Gates with two input words of one size. -/
inductive BinaryGate where
  | bitwiseAnd
  | bitwiseOr
  | bitwiseXor
  | dotMod2
  | eq
  | ne
  | unsignedLt
  | unsignedLe
  | unsignedGt
  | unsignedGe
  | signedLt
  | signedLe
  | signedGt
  | signedGe

/-- A gate with its arguments. -/
inductive Component where
  | unary (gate : UnaryGate) (width : Nat) (input output : String)
  | binary (gate : BinaryGate) (width : Nat) (left right output : String)
  | add (width : Nat) (left right output : String) (hasCarry : Bool)
  | subtract (width : Nat) (left right output : String) (hasCarry : Bool)
  | mux (width : Nat) (test left right output : String)
  | source (width : Nat) (value : Int64) (output : String) (signed : Bool)
  | sourceBits (output : String) (word : Word)
  | sink (inputs : Bundle)
  | tee (width : Nat) (input : String) (outputs : List String)
  | copies (times : Nat) (input output : String)
  | slice (width start stop : Nat) (input output : String)
  | index (width position : Nat) (input output : String)
  | combine (leftWidth : Nat) (left : String) (rightWidth : Nat) (right output : String)
  | split (input : String) (leftWidth : Nat) (left : String) (rightWidth : Nat) (right : String)
  | leftShift (width shift : Nat) (input output : String)
  | logicalRightShift (width shift : Nat) (input output : String)
  | arithmeticRightShift (width shift : Nat) (input output : String)

def UnaryGate.build (width : Nat) (input output : String) : UnaryGate → Except Fault WordCircuit
  | identity => WordGate.identity width input output
  | reverse => WordGate.reverse width input output
  | bitwiseNegate => WordGate.bitwiseNegate width input output
  | reduceAnd => WordGate.reduceAnd width input output
  | reduceOr => WordGate.reduceOr width input output
  | isNonzero => WordGate.isNonzero width input output
  | isZero => WordGate.isZero width input output
  | parity => WordGate.parity width input output
  | negate => WordGate.negate width input output
  | inc => WordGate.inc width input output
  | dec => WordGate.dec width input output
  | abs => WordGate.abs width input output

def BinaryGate.build (width : Nat) (left right output : String) :
    BinaryGate → Except Fault WordCircuit
  | bitwiseAnd => WordGate.bitwiseAnd width left right output
  | bitwiseOr => WordGate.bitwiseOr width left right output
  | bitwiseXor => WordGate.bitwiseXor width left right output
  | dotMod2 => WordGate.dotMod2 width left right output
  | eq => WordGate.eq width left right output
  | ne => WordGate.ne width left right output
  | unsignedLt => WordGate.unsignedLt width left right output
  | unsignedLe => WordGate.unsignedLe width left right output
  | unsignedGt => WordGate.unsignedGt width left right output
  | unsignedGe => WordGate.unsignedGe width left right output
  | signedLt => WordGate.signedLt width left right output
  | signedLe => WordGate.signedLe width left right output
  | signedGt => WordGate.signedGt width left right output
  | signedGe => WordGate.signedGe width left right output

/-- The gate in a program that is built as `overflow` says. -/
def Component.buildWith (overflow : Overflow) : Component → Except Fault WordCircuit
  | unary gate width input output => gate.build width input output
  | binary gate width left right output => gate.build width left right output
  | add width left right output hasCarry => WordGate.add width left right output hasCarry
  | subtract width left right output hasCarry => WordGate.subtract width left right output hasCarry
  | mux width test left right output => WordGate.mux width test left right output
  | source width value output signed => WordGate.source width value output signed
  | sourceBits output word => WordGate.sourceBits output word
  | sink inputs => WordGate.sink inputs
  | tee width input outputs => WordGate.tee width input outputs
  | copies times input output => WordGate.copies times input output
  | slice width start stop input output => WordGate.slice width start stop input output
  | index width position input output => WordGate.index width position input output
  | combine leftWidth left rightWidth right output =>
    WordGate.combine leftWidth left rightWidth right output
  | split input leftWidth left rightWidth right =>
    WordGate.splitWith overflow input leftWidth left rightWidth right
  | leftShift width shift input output => WordGate.leftShift width shift input output
  | logicalRightShift width shift input output =>
    WordGate.logicalRightShiftWith overflow width shift input output
  | arithmeticRightShift width shift input output =>
    WordGate.arithmeticRightShiftWith overflow width shift input output

def Component.build (component : Component) : Except Fault WordCircuit :=
  component.buildWith .wraps

namespace WordGate

open WordBuild (Keeps)

variable {c : WordCircuit} {width : Nat} {input left right output : String}

theorem unary_exact {word : List Literal → Build (List Literal)} (quiet : ∀ xs, (word xs).Quiet)
    (h : unary width input output word = .ok c) : c.Exact := by
  apply Keeps.exact _ h
  exact (Keeps.input _ _).bind fun xs => (Keeps.bits (quiet xs)).bind fun ls => .output _ ls

theorem binary_exact {word : List Literal → List Literal → Build (List Literal)}
    (quiet : ∀ xs ys, (word xs ys).Quiet) (h : binary width left right output word = .ok c) :
    c.Exact := by
  apply Keeps.exact _ h
  exact (Keeps.input _ _).bind fun xs => (Keeps.input _ _).bind fun ys =>
    (Keeps.bits (quiet xs ys)).bind fun ls => .output _ ls

theorem test_exact {holds : List Literal → List Literal → Build Literal}
    (quiet : ∀ xs ys, (holds xs ys).Quiet) (h : test width left right output holds = .ok c) :
    c.Exact :=
  binary_exact (fun xs ys => .single (quiet xs ys)) h

theorem refute_exact {holds : List Literal → List Literal → Build Literal}
    (quiet : ∀ xs ys, (holds xs ys).Quiet) (h : refute width left right output holds = .ok c) :
    c.Exact :=
  binary_exact (fun xs ys => .single ((quiet xs ys).bind fun _ => .pure _)) h

theorem withCarry_exact {hasCarry : Bool}
    {sum : List Literal → List Literal → Build (List Literal × Literal)}
    (quiet : ∀ xs ys, (sum xs ys).Quiet)
    (h : withCarry width left right output hasCarry sum = .ok c) : c.Exact := by
  apply Keeps.exact _ h
  refine (Keeps.input _ _).bind fun xs => (Keeps.input _ _).bind fun ys =>
    (Keeps.bits (quiet xs ys)).bind fun (ls, carry) => (Keeps.output _ ls).bind fun _ => ?_
  cases hasCarry with
  | true => exact .output _ _
  | false => exact .pure _

theorem sourceBits_exact {word : Word} (h : sourceBits output word = .ok c) : c.Exact :=
  Keeps.exact (.output _ _) h

theorem slice_exact {start stop : Nat} (h : slice width start stop input output = .ok c) :
    c.Exact := by
  rw [slice] at h
  split at h
  · exact unary_exact (fun _ => .pure _) h
  · cases h

end WordGate

variable {c : WordCircuit} {width : Nat} {input left right output : String}

theorem UnaryGate.exact {gate : UnaryGate} (h : gate.build width input output = .ok c) :
    c.Exact := by
  cases gate with
  | identity | reverse | bitwiseNegate => exact WordGate.unary_exact (fun _ => .pure _) h
  | reduceAnd => exact WordGate.unary_exact (fun xs => .single (.andAll xs)) h
  | reduceOr | isNonzero => exact WordGate.unary_exact (fun xs => .single (.orAll xs)) h
  | isZero =>
    exact WordGate.unary_exact
      (fun xs => .single ((Build.Quiet.orAll xs).bind fun _ => .pure _)) h
  | parity => exact WordGate.unary_exact (fun xs => .single (.xorAll xs)) h
  | negate => exact WordGate.unary_exact .negative h
  | inc | dec =>
    exact WordGate.unary_exact (fun xs => (Build.Quiet.rippleAdd xs _ _).bind fun _ => .pure _) h
  | abs => exact WordGate.unary_exact .magnitude h

theorem BinaryGate.exact {gate : BinaryGate} (h : gate.build width left right output = .ok c) :
    c.Exact := by
  cases gate with
  | bitwiseAnd => exact WordGate.binary_exact (.bitwise .and) h
  | bitwiseOr => exact WordGate.binary_exact (.bitwise .or) h
  | bitwiseXor => exact WordGate.binary_exact (.bitwise .xor) h
  | dotMod2 =>
    exact WordGate.binary_exact (fun xs ys =>
      .single ((Build.Quiet.bitwise .and xs ys).bind fun ls => .xorAll ls)) h
  | eq => exact WordGate.test_exact .equal h
  | ne => exact WordGate.refute_exact .equal h
  | unsignedLt => exact WordGate.test_exact .lessUnsigned h
  | unsignedGt => exact WordGate.test_exact (fun xs ys => .lessUnsigned ys xs) h
  | unsignedLe => exact WordGate.refute_exact (fun xs ys => .lessUnsigned ys xs) h
  | unsignedGe => exact WordGate.refute_exact .lessUnsigned h
  | signedLt => exact WordGate.test_exact .lessSigned h
  | signedGt => exact WordGate.test_exact (fun xs ys => .lessSigned ys xs) h
  | signedLe => exact WordGate.refute_exact (fun xs ys => .lessSigned ys xs) h
  | signedGe => exact WordGate.refute_exact .lessSigned h

theorem Component.exact {component : Component} (h : component.build = .ok c) : c.Exact := by
  cases component with
  | unary gate width input output => exact gate.exact h
  | binary gate width left right output => exact gate.exact h
  | add | subtract => exact WordGate.withCarry_exact (fun xs ys => .rippleAdd xs _ _) h
  | mux width test left right output =>
    refine WordBuild.Keeps.exact ?_ h
    refine (WordBuild.Keeps.input _ _).bind fun ts => (WordBuild.Keeps.lift _).bind fun t => ?_
    exact (WordBuild.Keeps.input _ _).bind fun xs => (WordBuild.Keeps.input _ _).bind fun ys =>
      (WordBuild.Keeps.bits (.bitwise (.mux t) xs ys)).bind fun ls => .output _ ls
  | source width value output signed =>
    rw [build, buildWith, WordGate.source] at h
    split at h
    · exact WordGate.sourceBits_exact h
    · cases h
  | sourceBits output word => exact WordGate.sourceBits_exact h
  | sink inputs =>
    exact WordBuild.Keeps.exact (.forM (fun _ => (WordBuild.Keeps.input _ _).discard) _) h
  | tee width input outputs =>
    refine WordBuild.Keeps.exact ?_ h
    exact (WordBuild.Keeps.input _ _).bind fun xs => .forM (fun _ => .output _ xs) _
  | slice | index => exact WordGate.slice_exact h
  | combine leftWidth left rightWidth right output =>
    refine WordBuild.Keeps.exact ?_ h
    exact (WordBuild.Keeps.input _ _).bind fun xs => (WordBuild.Keeps.input _ _).bind fun ys =>
      .output _ _
  | split input leftWidth left rightWidth right =>
    refine WordBuild.Keeps.exact ?_ h
    exact (WordBuild.Keeps.lift _).bind fun _ => (WordBuild.Keeps.input _ _).bind fun xs =>
      (WordBuild.Keeps.lift _).bind fun _ => (WordBuild.Keeps.output _ _).bind fun _ => .output _ _
  | copies | leftShift => exact WordGate.unary_exact (fun _ => .pure _) h
  | logicalRightShift | arithmeticRightShift => exact WordGate.unary_exact (fun _ => .lift _) h

end AndInverter
