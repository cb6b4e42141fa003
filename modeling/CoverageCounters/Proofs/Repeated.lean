import CoverageCounters.Proofs.Instrumented

/-!
A program that was instrumented is left alone by every later pass over the same file. The prelude is
put behind the directives, however many there are, and the check at the start of a pass looks for the
name it binds among all items.
-/

namespace CoverageCounters

/-- A program binds what a statement of its prelude binds. -/
theorem Program.binds_prepend {name : String} {first : Node} {prelude : List Node} (p : Program)
    (hm : first ∈ prelude) (hb : first.binds name = true) : (p.prepend prelude).binds name = true := by
  refine List.any_eq_true.mpr ⟨first,?_,hb⟩
  exact List.mem_append_left _ (List.mem_append_right _ hm)

/-- A program with its prelude binds the name of the file. -/
theorem binds_prepend_prelude (p : Program) (path : String) (options : Options)
    (coverage : FileCoverage) (git : Option GitInfo) :
    (p.prepend (prelude path options coverage git)).binds (identifierOf path) = true :=
  p.binds_prepend List.mem_cons_self (Bootstrap.binds_coverage
    { identifier := identifierOf path, path, hash := coverage.hash.getD "",
      coverageVariable := options.coverageVariable,
      data := coverage.taggedPayload coverageSchema })

/-- A coverage in which nothing is recorded and nothing is counted. -/
structure FileCoverage.Blank (c : FileCoverage) : Prop where
  statementMap : c.statementMap = []
  fnMap : c.fnMap = []
  branchMap : c.branchMap = []
  s : c.s = []
  f : c.f = []
  b : c.b = []

theorem startMap_blank (path : String) (options : Options) :
    (startMap path options).freeze.2.data.Blank := by
  rw [CoverageMap.freeze_eq]
  unfold startMap
  split <;> exact ⟨rfl,rfl,rfl,rfl,rfl,rfl⟩

section Outcome

variable {program : Program} {file : SourceFile} {options : Options} {batch : Batch} {o : Outcome}

/-- Only a file that no comment leaves out is instrumented. -/
theorem fileIgnored_of_instrumented (h : (instrument program file options batch).outcome = .ok o)
    (hs : o.status = .instrumented) : file.directives.fileIgnored = false := by
  rw [Bool.eq_false_iff]
  intro hi
  rw [instrument,if_pos hi,returnIgnored_eq] at h
  cases h
  cases hs

/-- What a pass makes of a program that binds the name of its file. -/
theorem instrument_of_binds (hi : file.directives.fileIgnored = false)
    (hb : program.binds (identifierOf file.path) = true) :
    instrument program file options batch =
      ⟨program,batch,
        .ok ⟨.alreadyInstrumented,(startMap file.path options).freeze.2.data,none⟩,[]⟩ := by
  rw [instrument,if_neg (Bool.eq_false_iff.mp hi),if_pos hb,returnDeclared_eq]

/-- What a pass over a file leaves behind binds the name of the file. -/
theorem binds_instrument (h : (instrument program file options batch).outcome = .ok o)
    (hs : o.status = .instrumented) :
    (instrument program file options batch).program.binds (identifierOf file.path) = true := by
  rw [(instrument_of_instrumented h hs).2.2]
  exact binds_prepend_prelude _ _ _ _ _

end Outcome

/-- A pass over an instrumented program, with the same path and comments and whatever options and
batch, changes neither the program nor the batch, finds nothing to count and calls no listener; so does
every pass after it. -/
theorem instrument_again {program : Program} {file file' : SourceFile} {options : Options}
    {batch : Batch} {o : Outcome} (h : (instrument program file options batch).outcome = .ok o)
    (hs : o.status = .instrumented) (hp : file'.path = file.path)
    (hc : file'.comments = file.comments) :
    (∀ (options' : Options) (batch' : Batch), ∃ o' : Outcome,
      instrument (instrument program file options batch).program file' options' batch' =
        ⟨(instrument program file options batch).program,batch',.ok o',[]⟩ ∧
      o'.status = .alreadyInstrumented ∧ o'.coverage.Blank ∧ o'.url = none) ∧
    ∀ passes : List (Options × Batch),
      passes.foldl (fun p pass => (instrument p file' pass.1 pass.2).program)
        (instrument program file options batch).program =
      (instrument program file options batch).program := by
  have hi : file'.directives.fileIgnored = false := by
    have hf := fileIgnored_of_instrumented h hs
    unfold Directives.fileIgnored SourceFile.directives at hf ⊢
    rwa [hc]
  have hb : (instrument program file options batch).program.binds (identifierOf file'.path) = true := by
    rw [hp]
    exact binds_instrument h hs
  refine ⟨fun options' batch' => ⟨_,instrument_of_binds hi hb,rfl,startMap_blank _ _,rfl⟩,?_⟩
  intro passes
  induction passes with
  | nil => rfl
  | cons pass rest ih => rw [List.foldl_cons,instrument_of_binds hi hb,ih]

theorem instrument_again_sample :
    ∃ o, (instrument sampleProgram sampleFile {} (.new none)).outcome = .ok o ∧
      o.status = .instrumented ∧
      ∃ o', instrument (instrument sampleProgram sampleFile {} (.new none)).program sampleFile
          { ignoredMethods := ["render"] } (.new (some {})) =
        ⟨(instrument sampleProgram sampleFile {} (.new none)).program,.new (some {}),.ok o',[]⟩ ∧
        o'.status = .alreadyInstrumented := by
  obtain ⟨o,h,hs⟩ := exists_instrumented_sample
  obtain ⟨o',he,hs',-⟩ := (instrument_again h hs rfl rfl).1 { ignoredMethods := ["render"] }
    (.new (some {}))
  exact ⟨o,h,hs,o',he,hs'⟩

end CoverageCounters
