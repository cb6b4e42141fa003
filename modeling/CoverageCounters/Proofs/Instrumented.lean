import CoverageCounters.Pass.Program
import CoverageCounters.Proofs.CounterReading

/-!
What a pass that instruments a program leaves behind: the walked program with a prelude behind its
directives. The prelude is found again by the name it binds, and it holds no counters.
-/

namespace CoverageCounters

section Outcome

variable {program : Program} {file : SourceFile} {options : Options} {batch : Batch} {o : Outcome}

/-! Freezing does not fail, so each way through a pass has one end. -/

theorem returnIgnored_eq (program : Program) (file : SourceFile) (options : Options) (batch : Batch) :
    returnIgnored program file options batch =
      let o : Outcome := ⟨.ignored,(startMap file.path options).freeze.2.data,none⟩
      ⟨program,batch,.ok o,notify options o⟩ := by
  rw [returnIgnored,CoverageMap.freeze_eq]

theorem returnDeclared_eq (program : Program) (file : SourceFile) (options : Options)
    (batch : Batch) :
    returnDeclared program file options batch =
      ⟨program,batch,
        .ok ⟨.alreadyInstrumented,(startMap file.path options).freeze.2.data,none⟩,[]⟩ := by
  rw [returnDeclared,CoverageMap.freeze_eq]

theorem instrumentOpen_of_failure {e : InstrumentError}
    (hf : (program.walk (file.context options) (startMap file.path options)).2.failure = some e) :
    instrumentOpen program file options batch =
      ⟨(program.walk (file.context options) (startMap file.path options)).1,batch,.error e,[]⟩ := by
  unfold instrumentOpen
  dsimp only
  rw [hf]

theorem instrumentOpen_of_walked
    (hf : (program.walk (file.context options) (startMap file.path options)).2.failure = none) :
    instrumentOpen program file options batch =
      let walked := program.walk (file.context options) (startMap file.path options)
      let o : Outcome := ⟨.instrumented,walked.2.coverage.freeze.2.data,
        finalUrl? file.directives program.span walked.2.url⟩
      ⟨walked.1.prepend (prelude file.path options o.coverage batch.claim.1),batch.claim.2,.ok o,
        notify options o⟩ := by
  unfold instrumentOpen
  dsimp only
  rw [hf,CoverageMap.freeze_eq]

/-- A pass that instruments has walked the whole program without an error. -/
theorem instrument_of_instrumented (h : (instrument program file options batch).outcome = .ok o)
    (hs : o.status = .instrumented) :
    (program.walk (file.context options) (startMap file.path options)).2.failure = none ∧
    o.coverage =
      (program.walk (file.context options) (startMap file.path options)).2.coverage.freeze.2.data ∧
    (instrument program file options batch).program =
      (program.walk (file.context options) (startMap file.path options)).1.prepend
        (prelude file.path options o.coverage batch.claim.1) := by
  unfold instrument at h ⊢
  split at h
  · rw [returnIgnored_eq] at h
    cases h
    cases hs
  · rename_i hi
    split at h
    · rw [returnDeclared_eq] at h
      cases h
      cases hs
    · rename_i hb
      rw [if_neg hi,if_neg hb]
      cases hf : (program.walk (file.context options) (startMap file.path options)).2.failure with
      | some e =>
        rw [instrumentOpen_of_failure hf] at h
        cases h
      | none =>
        rw [instrumentOpen_of_walked hf] at h ⊢
        cases h
        exact ⟨rfl,rfl,rfl⟩

/-- A pass instruments a program that no comment leaves out and that does not bind the name yet, if its
walk meets no error. -/
theorem exists_instrumented (hi : file.directives.fileIgnored = false)
    (hb : program.binds (identifierOf file.path) = false)
    (hf : (program.walk (file.context options) (startMap file.path options)).2.failure.isNone = true) :
    ∃ o, (instrument program file options batch).outcome = .ok o ∧ o.status = .instrumented := by
  rw [Option.isNone_iff_eq_none] at hf
  rw [instrument,hi,hb,if_neg Bool.false_ne_true,if_neg Bool.false_ne_true,
    instrumentOpen_of_walked hf]
  exact ⟨_,rfl,rfl⟩

end Outcome

theorem Node.binds_of_isDirective {n : Node} (h : n.isDirective = true) (name : String) :
    n.binds name = false := by
  cases n with
  | expression s inner => rfl
  | _ => cases h

theorem isDirective_of_mem_take {statements : List Node} {n : Node}
    (h : n ∈ statements.take (prologueLength statements)) : n.isDirective = true := by
  have ht : statements.take (prologueLength statements) = statements.takeWhile Node.isDirective :=
    (List.prefix_iff_eq_take.mp (List.takeWhile_prefix _)).symm
  rw [ht] at h
  exact List.all_eq_true.mp List.all_takeWhile n h

/-- The first statement of a prelude binds the file's name. -/
theorem Bootstrap.binds_coverage (p : Parameters) : (coverage p).binds p.identifier = true := by
  have h : (Build.identifier p.identifier).identifierName? = some p.identifier := rfl
  simp [coverage,Build.bindings,Build.declarator,Node.binds,Node.declares,h]

namespace Program

/-- A program without its prelude: the statement that binds the name, and as many behind it as there
are others in the prelude. -/
def withoutPrelude (name : String) (others : Nat) (p : Program) : Program :=
  { p with
    body := p.body.takeWhile (fun n => !n.binds name) ++
      (p.body.dropWhile fun n => !n.binds name).drop (1 + others) }

theorem withoutPrelude_prepend {name : String} {first : Node} (p : Program) (rest : List Node)
    (h : first.binds name = true) :
    (p.prepend (first :: rest)).withoutPrelude name rest.length = p := by
  have hd : ∀ n ∈ p.body.take (prologueLength p.body), (!n.binds name) = true := by
    intro n hn
    rw [Node.binds_of_isDirective (isDirective_of_mem_take hn)]
    rfl
  have hf : ∀ more, (first :: more).takeWhile (fun n => !n.binds name) = [] := by simp [h]
  have hm : ∀ more, (first :: more).dropWhile (fun n => !n.binds name) = first :: more := by
    simp [h]
  have hr : (first :: (rest ++ p.body.drop (prologueLength p.body))).drop (1 + rest.length) =
      p.body.drop (prologueLength p.body) := by
    rw [Nat.add_comm,List.drop_succ_cons,List.drop_left]
  rw [withoutPrelude,prepend]
  dsimp only
  rw [List.append_assoc,List.takeWhile_append_of_pos hd,List.dropWhile_append_of_pos hd,
    List.cons_append,hf,hm,hr,List.append_nil,List.take_append_drop]

end Program

/-- The prelude of a pass is found again behind the directives. -/
theorem withoutPrelude_prepend_prelude (p : Program) (path : String) (options : Options)
    (coverage : FileCoverage) (git : Option GitInfo) :
    (p.prepend (prelude path options coverage git)).withoutPrelude (identifierOf path)
      git.toList.length = p := by
  have h := p.withoutPrelude_prepend (git.map Bootstrap.git).toList (Bootstrap.binds_coverage
    { identifier := identifierOf path, path, hash := coverage.hash.getD "",
      coverageVariable := options.coverageVariable,
      data := coverage.taggedPayload coverageSchema })
  have hl : (git.map Bootstrap.git).toList.length = git.toList.length := by cases git <;> rfl
  rw [hl] at h
  exact h

section Sample

/-- The program `switch (1 && 2) { case 3: if (4) () => 5; }` as it is read. -/
def sampleProgram : Program :=
  let literal (i lo : Nat) : Node :=
    .leaf .numericLiteral (.ofBounds lo (lo + 1)) [("value",.nat i)]
  let chain : Node := .logical (.ofBounds 9 15) .and (literal 1 9) (literal 2 14)
  let arrow : Node :=
    .function ⟨.arrow,.ofBounds 34 41,[],none⟩ none [] (.value (literal 5 40)) []
  let choice : Node :=
    .ifElse (.ofBounds 27 42) (literal 4 31) (.expression (.ofBounds 34 42) arrow) none
  let only : Case := .mk (.ofBounds 19 42) (some (literal 3 24)) [choice]
  ⟨.script,.ofBounds 1 44,[],[.switch (.ofBounds 1 44) chain [only]]⟩

def sampleFile : SourceFile :=
  ⟨"a.js",.ofString "switch (1 && 2) \x7b case 3: if (4) () => 5; \x7d",.empty⟩

theorem sampleProgram_mentions : sampleProgram.mentions (identifierOf "a.js") = false := by
  decide +kernel

theorem exists_instrumented_sample :
    ∃ o, (instrument sampleProgram sampleFile {} (.new none)).outcome = .ok o ∧
      o.status = .instrumented :=
  exists_instrumented (by decide +kernel) (by decide +kernel) (by decide +kernel)

end Sample
end CoverageCounters
