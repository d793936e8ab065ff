import AndInverter.Aiger.Write
import AndInverter.Cnf.Encode
import AndInverter.Proofs.Graph.Reachable

/-! Sessions. A store keeps graphs, and commands make graphs, grow them and ask about them. Two
stores whose graphs are the same, which says nothing about their gate tables, answer every session
alike. A table decides whether a gate is found or made; but the operations leave in it just the
gates that the nodes have. -/

namespace AndInverter

abbrev Store := List Graph

/-- A way to make a graph, from nothing or from graphs of a store. -/
inductive Making where
  | empty
  | source (values : List (String × Bool))
  | sink (names : List String)
  | identity (names : List String)
  | readLines (lines : List String)
  | readText (text : String)
  | readStored (path : String) (content : Option ByteArray)
  | copy (i : Nat)
  | seq (left right : Nat)
  | par (left right : Nat)
  | relabel (i : Nat) (kind : Kind) (new : Renaming)
  | omitOutputs (i : Nat) (names : List String)
  | feedback (i : Nat) (inputs outputs : List String) (initials : Option (List Bool))
      (latches : Option (List String)) (keepOutputs : Bool)
  | unroll (i : Nat) (horizon : Nat) (options : UnrollOptions)
  | compacted (i : Nat)

/-- A question about a graph. -/
inductive Question where
  | names (kind : Kind)
  | input (name : String)
  | output (name : String)
  | latch (name : String)
  | initialState
  | nodes
  | node (id : Nat)
  | gates
  | gate (id : Nat)
  | gateCount
  | maxId
  | contains (id : Nat)
  | isInput (id : Nat)
  | isLatch (id : Nat)
  | isGate (id : Nat)
  | eval (inputs : Valuation) (state : Option Valuation)
  | simulate (inputs : List Valuation) (state : Option Valuation)
  | layersFromLeaves
  | layersFromRoots
  | writeText
  | toCnf
  | render

/-- What a command answers. -/
inductive Answer where
  | done
  | literal (l : Literal)
  | found (l : Option Literal)
  | latch (latch : Option Latch)
  | names (names : List String)
  | state (state : Valuation)
  | nodes (numbered : List (Node × Nat))
  | gates (gates : List Gate)
  | count (n : Nat)
  | truth (value : Bool)
  | steps (steps : List Step)
  | layers (layers : List (List Nat))
  | text (text : String)
  | cnf (cnf : Cnf)

inductive Command where
  | make (making : Making)
  | grow (i : Nat) (step : Growth)
  | ask (i : Nat) (question : Question)
  | compare (i j : Nat)

/-- The step with its answer. -/
def Growth.answer : Growth → Build Answer
  | input name => .literal <$> Build.input name
  | latch name init => .literal <$> Build.latch name init
  | setNext name next => (fun _ => .done) <$> Build.setNext name next
  | output name l => (fun _ => .done) <$> Build.output name l
  | and left right => .literal <$> Build.and left right
  | or left right => .literal <$> Build.or left right
  | xor left right => .literal <$> Build.xor left right
  | xnor left right => .literal <$> Build.xnor left right
  | mux test thenCase elseCase => .literal <$> Build.mux test thenCase elseCase
  | andAll ls => .literal <$> Build.andAll ls
  | orAll ls => .literal <$> Build.orAll ls
  | xorAll ls => .literal <$> Build.xorAll ls

def Question.answer (g : Graph) : Question → Except Fault Answer
  | names kind => return .names (g.names kind)
  | input name => return .found (g.input? name)
  | output name => return .found (g.output? name)
  | latch name => return .latch (g.latch? name)
  | initialState => return .state g.initialState
  | nodes => return .nodes g.numbered
  | node id => return .nodes [(← g.node id, g.idAt id)]
  | gates => return .gates g.gates
  | gate id => return .gates [← g.gate id]
  | gateCount => return .count g.gateCount
  | maxId => return .count g.maxId
  | contains id => return .truth (g.contains id)
  | isInput id => return .truth (g.isInput id)
  | isLatch id => return .truth (g.isLatch id)
  | isGate id => return .truth (g.isGate id)
  | eval inputs state => return .steps [← g.eval inputs state]
  | simulate inputs state => return .steps (← g.simulate inputs state)
  | layersFromLeaves => return .layers g.layersFromLeaves
  | layersFromRoots => return .layers g.layersFromRoots
  | writeText => return .text (Aiger.writeText g)
  | toCnf => return .cnf (← g.toCnf)
  | render => return .text g.render

namespace Store

def graph (store : Store) (i : Nat) : Except Fault Graph := Fault.promised store[i]?

def make (store : Store) : Making → Except Fault Graph
  | .empty => return .empty
  | .source values => Graph.source values
  | .sink names => Graph.sink names
  | .identity names => Graph.identity names
  | .readLines lines => Aiger.readLines lines
  | .readText text => Aiger.readText text
  | .readStored path content => Aiger.readStored path content
  | .copy i => store.graph i
  | .seq left right => do (← store.graph left).seq (← store.graph right)
  | .par left right => do (← store.graph left).par (← store.graph right)
  | .relabel i kind new => do (← store.graph i).relabel kind new
  | .omitOutputs i names => return (← store.graph i).omitOutputs names
  | .feedback i inputs outputs initials latches keepOutputs => do
    (← store.graph i).feedback inputs outputs initials latches keepOutputs
  | .unroll i horizon options => do (← store.graph i).unroll horizon options
  | .compacted i => do (← store.graph i).compacted

/-- One command. A new graph comes last, and a graph that grows keeps its place. -/
def run (store : Store) : Command → Except Fault (Answer × Store)
  | .make making => return (.done, store ++ [← store.make making])
  | .grow i step => do
    let (answer, g) ← step.answer (← store.graph i)
    return (answer, store.set i g)
  | .ask i question => return (← question.answer (← store.graph i), store)
  | .compare i j => return (.truth ((← store.graph i).same (← store.graph j)), store)

end Store

/-- Whether the fault answers a command. Otherwise it is a mistake in using the library. -/
def Fault.isAnswer : Fault → Bool
  | .refused _ | .malformed => true
  | .violated _ | .inconsistent => false

/-- The answers to commands one after the other, and the graphs at the end. A command that is turned
down leaves the store alone, and a mistake ends the session. -/
def Store.session (store : Store) : List Command → List (Except Fault Answer) × Store
  | [] => ([], store)
  | command :: commands =>
    match store.run command with
    | .ok (answer, next) =>
      let (answers, last) := next.session commands
      (.ok answer :: answers, last)
    | .error fault =>
      if fault.isAnswer then
        let (answers, last) := store.session commands
        (.error fault :: answers, last)
      else
        ([.error fault], store)

namespace Graph

variable {g h : Graph}

theorem same_self (g : Graph) : g.same g = true := by
  simp [same]

/-- Of reachable graphs only equal ones are the same. -/
theorem Reachable.eq_of_same (hg : g.Reachable) (hh : h.Reachable) (same : g.same h = true) :
    g = h := by
  simp only [Graph.same, Bool.and_eq_true, beq_iff_eq] at same
  obtain ⟨⟨⟨⟨nodes, -⟩, inputs⟩, latches⟩, outputs⟩ := same
  exact hg.wellFormed.eq_of_nodes hh.wellFormed nodes inputs latches outputs

end Graph

/-! ### Reachable graphs lead to reachable graphs -/

theorem Growth.build_of_answer {step : Growth} {g h : Graph} {answer : Answer}
    (run : step.answer g = .ok (answer, h)) : step.build g = .ok ((), h) := by
  -- Either kind of step is a map of the construction that it is made of.
  have literal {build : Build Literal} (run : (Answer.literal <$> build) g = .ok (answer, h)) :
      discard build g = .ok ((), h) := by
    obtain ⟨l, run, -⟩ := Build.map_eq_ok_iff.1 run
    exact Build.discard_eq_ok_iff.2 ⟨l, run⟩
  have unit {build : Build Unit} (run : ((fun _ => Answer.done) <$> build) g = .ok (answer, h)) :
      build g = .ok ((), h) := by
    obtain ⟨_, run, -⟩ := Build.map_eq_ok_iff.1 run
    exact run
  cases step with
  | setNext | output => exact unit run
  | _ => exact literal run

namespace Store

variable {store store' : Store}

def Reachable (store : Store) : Prop := ∀ g ∈ store, g.Reachable

theorem Reachable.graph (reachable : store.Reachable) {i : Nat} {g : Graph}
    (found : store.graph i = .ok g) : g.Reachable :=
  reachable g (List.mem_of_getElem? (promised_eq_ok_iff.1 found))

/-- A command that takes a graph goes on from a reachable one. -/
theorem Reachable.take {α : Type} (reachable : store.Reachable) {i : Nat}
    {next : Graph → Except Fault α} {result : α} (run : (store.graph i >>= next) = .ok result) :
    ∃ g, g.Reachable ∧ next g = .ok result := by
  obtain ⟨g, found, run⟩ := except_bind_eq_ok_iff.1 run
  exact ⟨g, reachable.graph found, run⟩

theorem Reachable.make (reachable : store.Reachable) {making : Making} {g : Graph}
    (run : store.make making = .ok g) : g.Reachable := by
  cases making with
  | empty =>
    cases run
    exact .empty
  | source values => exact .source run
  | sink names => exact .sink run
  | identity names => exact .identity run
  | readLines lines => exact .readLines run
  | readText text => exact .readText run
  | readStored path content => exact .readStored run
  | copy i => exact reachable.graph run
  | seq left right =>
    obtain ⟨a, ha, run⟩ := reachable.take run
    obtain ⟨b, hb, run⟩ := reachable.take run
    exact .seq ha hb run
  | par left right =>
    obtain ⟨a, ha, run⟩ := reachable.take run
    obtain ⟨b, hb, run⟩ := reachable.take run
    exact .par ha hb run
  | relabel i kind new =>
    obtain ⟨a, ha, run⟩ := reachable.take run
    exact .relabel ha run
  | omitOutputs i names =>
    obtain ⟨a, ha, run⟩ := reachable.take run
    cases run
    exact .omitOutputs names ha
  | feedback i inputs outputs initials latches keepOutputs =>
    obtain ⟨a, ha, run⟩ := reachable.take run
    exact .feedback ha run
  | unroll i horizon options =>
    obtain ⟨a, ha, run⟩ := reachable.take run
    exact .unroll ha run
  | compacted i =>
    obtain ⟨a, ha, run⟩ := reachable.take run
    exact .compacted ha run

/-- One command leaves the graphs of the store reachable. -/
theorem Reachable.run (reachable : store.Reachable) {command : Command} {answer : Answer}
    {next : Store} (run : store.run command = .ok (answer, next)) : next.Reachable := by
  cases command with
  | make making =>
    obtain ⟨g, made, run⟩ := except_bind_eq_ok_iff.1 run
    cases run
    intro h hh
    rcases List.mem_append.1 hh with old | new
    · exact reachable h old
    · obtain rfl := List.mem_singleton.1 new
      exact reachable.make made
  | grow i step =>
    obtain ⟨g, hg, run⟩ := reachable.take run
    obtain ⟨⟨_, h⟩, grown, run⟩ := except_bind_eq_ok_iff.1 run
    cases run
    intro k hk
    rcases List.mem_or_eq_of_mem_set hk with old | rfl
    · exact reachable k old
    · exact .grow step hg (Growth.build_of_answer grown)
  | ask i question =>
    obtain ⟨g, -, run⟩ := reachable.take run
    obtain ⟨_, -, run⟩ := except_bind_eq_ok_iff.1 run
    cases run
    exact reachable
  | compare i j =>
    obtain ⟨g, -, run⟩ := reachable.take run
    obtain ⟨h, -, run⟩ := reachable.take run
    cases run
    exact reachable

/-! ### The same graphs answer alike -/

/-- Reachable graphs, the same place by place. Nothing is said about their gate tables. -/
structure Alike (store store' : Store) : Prop where
  reachable : store.Reachable
  reachable' : store'.Reachable
  same : List.Forall₂ (fun g h => g.same h = true) store store'

theorem Reachable.alike_self (reachable : store.Reachable) : store.Alike store :=
  ⟨reachable, reachable, List.forall₂_same.2 fun g _ => g.same_self⟩

theorem Alike.eq (alike : store.Alike store') : store = store' := by
  obtain ⟨reachable, reachable', same⟩ := alike
  -- Place by place: the table of a reachable graph lists the gates of its nodes and no more.
  induction same with
  | nil => rfl
  | cons head _ ih =>
    rw [Reachable, List.forall_mem_cons] at reachable reachable'
    rw [reachable.1.eq_of_same reachable'.1 head, ih reachable.2 reachable'.2]

/-- What two stores that are alike leave out is alike, too. -/
theorem Alike.pointwise (alike : store.Alike store') :
    List.Forall₂ (fun g h => g.Reachable ∧ h.Reachable ∧ g.same h = true ∧
      g.gateTable = h.gateTable) store store' := by
  obtain rfl := alike.eq
  exact List.forall₂_same.2 fun g hg =>
    ⟨alike.reachable g hg, alike.reachable g hg, g.same_self, rfl⟩

/-- A command gives both stores the same answer and leaves them alike, or fails on both alike. -/
theorem Alike.run (alike : store.Alike store') (command : Command) :
    (∃ answer next next', store.run command = .ok (answer, next) ∧
      store'.run command = .ok (answer, next') ∧ next.Alike next') ∨
    ∃ fault, store.run command = .error fault ∧ store'.run command = .error fault := by
  obtain rfl := alike.eq
  cases h : store.run command with
  | ok result =>
    obtain ⟨answer, next⟩ := result
    exact .inl ⟨answer, next, next, rfl, rfl, (alike.reachable.run h).alike_self⟩
  | error fault => exact .inr ⟨fault, rfl, rfl⟩

theorem Alike.session (alike : store.Alike store') (commands : List Command) :
    (store.session commands).1 = (store'.session commands).1 ∧
      (store.session commands).2.Alike (store'.session commands).2 := by
  induction commands generalizing store store' with
  | nil => exact ⟨rfl, alike⟩
  | cons command commands ih =>
    -- A command that answers goes on from the next stores; a fault leaves the stores as they are.
    rcases alike.run command with ⟨answer, next, next', run, run', alike'⟩ | ⟨fault, run, run'⟩
    · obtain ⟨answers, last⟩ := ih alike'
      simp only [Store.session, run, run']
      exact ⟨congrArg (_ :: ·) answers, last⟩
    · obtain ⟨answers, last⟩ := ih alike
      simp only [Store.session, run, run']
      cases fault.isAnswer with
      | true => exact ⟨congrArg (_ :: ·) answers, last⟩
      | false => exact ⟨rfl, alike⟩

/-- Equality that leaves out the gate table is a congruence. Let two stores hold reachable graphs
that are the same, place by place, however they were made. Whatever is made of them, alone or
together, whatever they are grown by and whatever is asked, all answers are equal: literals, results
and refusals; and where one session ends early the other does, for the same reason. At the end the
graphs are again reachable and the same, and have the same tables. -/
theorem same_congruence (reachable : store.Reachable) (reachable' : store'.Reachable)
    (same : List.Forall₂ (fun g h => g.same h = true) store store') (commands : List Command) :
    (store.session commands).1 = (store'.session commands).1 ∧
    List.Forall₂ (fun g h => g.Reachable ∧ h.Reachable ∧ g.same h = true ∧
      g.gateTable = h.gateTable) (store.session commands).2 (store'.session commands).2 := by
  have alike : store.Alike store' := ⟨reachable, reachable', same⟩
  obtain ⟨answers, last⟩ := alike.session commands
  exact ⟨answers, last.pointwise⟩

/-- A graph that was grown and one that was read. Neither can stand beside itself, and both have the
gate that is asked for next. -/
theorem same_congruence_reread : ∃ g h,
    Build.graph ([.input "a", .input "b", .and ⟨1, false⟩ ⟨2, true⟩, .output "y" ⟨3, false⟩].forM
      Growth.build) = .ok g ∧
    Aiger.readLines ["aag 3 2 0 1 1", "2", "4", "6", "6 2 5", "i0 a", "i1 b", "o0 y"] = .ok h ∧
    g.same h = true ∧
    let commands : List Command := [.make (.par 0 0), .grow 0 (.and ⟨2, true⟩ ⟨1, false⟩),
      .make (.unroll 0 2 ⟨true, true, false⟩), .compare 0 1, .ask 1 .toCnf, .ask 1 .writeText]
    (Store.session [g] commands).1 = (Store.session [h] commands).1 := by
  obtain ⟨g, hg, h, hh, same⟩ : ∃ g,
      Build.graph ([.input "a", .input "b", .and ⟨1, false⟩ ⟨2, true⟩, .output "y" ⟨3, false⟩].forM
        Growth.build) = .ok g ∧
      ∃ h, Aiger.readLines ["aag 3 2 0 1 1", "2", "4", "6", "6 2 5", "i0 a", "i1 b", "o0 y"] =
        .ok h ∧ g.same h = true := by
    decide +kernel
  refine ⟨g, h, hg, hh, same, (same_congruence ?_ ?_ (.cons same .nil) _).1⟩
  · exact List.forall_mem_singleton.2 (Graph.reachable_of_growths hg)
  · exact List.forall_mem_singleton.2 (.readLines hh)

/-- Without its table a graph is the same but makes a gate anew. -/
example : ∃ g, Build.graph ([.input "a", .input "b", .and ⟨1, false⟩ ⟨2, true⟩].forM
      Growth.build) = .ok g ∧
    g.same { g with gateTable := ∅ } = true ∧
    (g.conj ⟨1, false⟩ ⟨2, true⟩).1 = .positive 3 ∧
    (Graph.conj { g with gateTable := ∅ } ⟨1, false⟩ ⟨2, true⟩).1 = .positive 4 := by
  decide +kernel

end Store

end AndInverter
