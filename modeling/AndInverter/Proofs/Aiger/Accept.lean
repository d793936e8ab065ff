import AndInverter.Proofs.Aiger.Assemble

/-! Which lines are read. The lines of a file are accepted just where they are a listing whose lines
fit together, and any other lines are answered with a fault of the text. -/

namespace AndInverter.Aiger

/-- The graph of the lines is that of the file which they list. -/
theorem exists_file {lines : List String} {g : Graph} (h : readLines lines = .ok g) :
    ∃ f : File, f.IsListed lines ∧ f.graph = .ok g := by
  obtain ⟨f, hfile, hgraph⟩ := except_bind_eq_ok_iff.1 h
  exact ⟨f, ((ofLines_answers lines).ok_iff f).1 hfile, hgraph⟩

/-- What was read is well-formed, and is the graph of what was listed. -/
theorem exists_isGraph {lines : List String} {g : Graph} (h : readLines lines = .ok g) :
    ∃ f : File, f.IsListed lines ∧ g.WellFormed ∧ ∃ defs, f.IsGraph defs g := by
  obtain ⟨f, listed, hgraph⟩ := exists_file h
  rcases graph_cases listed.zero_not_mem_defined with ⟨g', hg', wf, -, isGraph⟩ | ⟨fault, herr, -⟩
  · obtain rfl := Except.ok.inj (hg'.symm.trans hgraph)
    exact ⟨f, listed, wf, isGraph⟩
  · rw [hgraph] at herr
    cases herr

theorem readLines_eq {lines : List String} {f : File} (listed : f.IsListed lines) :
    readLines lines = f.graph := by
  rw [readLines, ((ofLines_answers lines).ok_iff f).2 listed, except_ok_bind]

/-- Lines are accepted exactly where they list a file without contradictions: the header, the lines
that it announces with numbers of 32 bits, and symbols; every variable is defined once, every variable
that is used is defined, no gate depends on itself, and names are different. There is no other
outcome than acceptance and a fault of the text. -/
theorem readLines_accepts (lines : List String) :
    ((∃ g, readLines lines = .ok g) ↔ ∃ f : File, f.IsListed lines ∧ f.Consistent) ∧
      ∀ fault, readLines lines = .error fault → fault.IsReading := by
  refine ⟨⟨?_, ?_⟩, ?_⟩
  · rintro ⟨g, h⟩
    obtain ⟨f, listed, hgraph⟩ := exists_file h
    rcases graph_cases listed.zero_not_mem_defined with ⟨_, -, -, consistent, -⟩ | ⟨fault, herr, -⟩
    · exact ⟨f, listed, consistent⟩
    · rw [hgraph] at herr
      cases herr
  · rintro ⟨f, listed, consistent⟩
    rw [readLines_eq listed]
    rcases graph_cases listed.zero_not_mem_defined with ⟨g, hgraph, -⟩ | ⟨fault, -, blames⟩
    · exact ⟨g, hgraph⟩
    · exact absurd consistent blames.2
  · intro fault h
    cases hfile : File.ofLines lines with
    | error e =>
      rw [readLines, hfile] at h
      cases h
      exact (ofLines_answers lines).fault fault hfile
    | ok f =>
      have listed := ((ofLines_answers lines).ok_iff f).1 hfile
      rw [readLines_eq listed] at h
      rcases graph_cases listed.zero_not_mem_defined with ⟨g, hgraph, -⟩ | ⟨e, herr, blames⟩
      · rw [hgraph] at h
        cases h
      · rw [herr] at h
        cases h
        exact blames.1

end AndInverter.Aiger
