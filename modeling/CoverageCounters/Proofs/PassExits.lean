import CoverageCounters.Proofs.Repeated
import CoverageCounters.Proofs.Suppression

/-!
The ways a pass ends. A file that a comment leaves out, or that declares its own identifier, is returned
as it came. Any other is walked; the first error that a visit meets is the answer, and after it neither
a record nor a counter is added, nothing is reported and the metadata of the batch is not claimed.
-/

namespace CoverageCounters

/-! ### What decides between the exits -/

theorem CommentTable.mem_all {t : CommentTable} {c : Comment} :
    c ∈ t.all ↔ ∃ pos, c ∈ t.attachedAt pos := by
  simp only [all,attachedAt,List.mem_flatMap,List.mem_filter]
  constructor
  · rintro ⟨entry,he,hc⟩
    exact ⟨entry.1,entry,⟨he,decide_eq_true rfl⟩,hc⟩
  · rintro ⟨-,entry,⟨he,-⟩,hc⟩
    exact ⟨entry,he,hc⟩

/-- Some comment, attached wherever it may be, leaves out the whole file. -/
def SourceFile.Hinted (file : SourceFile) : Prop :=
  ∃ c pos, (c ∈ file.comments.leading.attachedAt pos ∨ c ∈ file.comments.trailing.attachedAt pos) ∧
    isFileHint c.text = true

theorem SourceFile.fileIgnored_iff (file : SourceFile) :
    file.directives.fileIgnored = true ↔ file.Hinted := by
  rw [Directives.fileIgnored,List.any_eq_true,Hinted]
  simp only [Comments.all,List.mem_append,CommentTable.mem_all,directives]
  constructor
  · rintro ⟨c,⟨pos,hc⟩ | ⟨pos,hc⟩,ht⟩
    · exact ⟨c,pos,.inl hc,ht⟩
    · exact ⟨c,pos,.inr hc,ht⟩
  · rintro ⟨c,pos,hc | hc,ht⟩
    · exact ⟨c,.inl ⟨pos,hc⟩,ht⟩
    · exact ⟨c,.inr ⟨pos,hc⟩,ht⟩

/-- A declaration of a name: a variable that is no pattern, a function, or a class. -/
inductive Node.Introduces (name : String) : Node → Prop where
  | binding {s span : Span} {data data' : Attributes} {declarators : List Declarator} {target : Node}
      {init : Option Node} (mem : Declarator.mk span data' target init ∈ declarators)
      (named : target.identifierName? = some name) : Introduces name (.bindings s data declarators)
  | function {head : FunctionHead} {id : Node} {before after : List Part} {body : Body}
      (kind : head.kind = .declaration) (named : id.identifierName? = some name) :
      Introduces name (.function head (some id) before body after)
  | classDeclaration {s : Span} {data : Attributes} {id : Node} {before after : List Part}
      {heritage : Option Node} (named : id.identifierName? = some name) :
      Introduces name (.classDeclaration s data id before heritage after)

/-- The top level of a program declares a name, bare or under an export. -/
inductive Program.Declares (name : String) (p : Program) : Prop where
  | bare {n : Node} (mem : n ∈ p.body) (introduces : n.Introduces name)
  | exported {s : Span} {n : Node} (mem : .exported s n ∈ p.body) (introduces : n.Introduces name)

theorem Node.declares_iff {name : String} {n : Node} :
    n.declares name = true ↔ n.Introduces name := by
  constructor
  · intro h
    cases n with
    | bindings s data declarators =>
      obtain ⟨⟨span,data',target,init⟩,hm,ht⟩ := List.any_eq_true.mp h
      exact .binding hm (of_decide_eq_true ht)
    | function head key before body after =>
      simp only [declares,Bool.and_eq_true,decide_eq_true_eq] at h
      cases key with
      | none => cases h.2
      | some id => exact .function h.1 h.2
    | classDeclaration s data id before heritage after =>
      exact .classDeclaration (of_decide_eq_true h)
    | _ => cases h
  · intro h
    cases h with
    | binding mem named => exact List.any_eq_true.mpr ⟨_,mem,decide_eq_true named⟩
    | function kind named =>
      simp only [declares,kind,Option.bind_some,named,decide_true,Bool.and_self]
    | classDeclaration named => exact decide_eq_true named

theorem Program.binds_iff {name : String} {p : Program} :
    p.binds name = true ↔ p.Declares name := by
  rw [binds,List.any_eq_true]
  constructor
  · rintro ⟨n,hm,hn⟩
    cases n with
    | exported s n => exact .exported hm (Node.declares_iff.mp hn)
    | _ => exact .bare hm (Node.declares_iff.mp hn)
  · rintro (⟨hm,hn⟩ | ⟨hm,hn⟩)
    · have hd := Node.declares_iff.mpr hn
      refine ⟨_,hm,?_⟩
      cases hn <;> exact hd
    · exact ⟨_,hm,Node.declares_iff.mpr hn⟩

/-! ### The walk and its first error -/

theorem Nested.mem_visitOrder {visits around : List Visit} {v : Visit} (h : Nested visits v around) :
    v ∈ visitOrder visits := by
  induction h with
  | outer h => exact mem_visitOrder_of_mem h
  | inner _ hw ih => exact visitOrder_inside_subset ih (mem_visitOrder_of_mem hw)

/-- A walk that ends with an error. It visits every construct of the program; up to the visit that the
error comes from there is none, and whatever is entered after that one records nothing, puts no counter
in and keeps the error. -/
structure Program.StopsAt (ctx : Context) (coverage : CoverageMap) (p : Program) (e : InstrumentError) :
    Prop where
  walk : (p.traced ctx coverage).1 = p.walk ctx coverage
  failure : (p.walk ctx coverage).2.failure = some e
  visits : ∀ site ∈ p.body.flatMap Node.sites,
    ∃ v ∈ visitOrder (p.traced ctx coverage).2, (v.key,v.name) = site
  first : ∃ earlier v later, visitOrder (p.traced ctx coverage).2 = earlier ++ v :: later ∧
    (∀ w ∈ earlier ++ [v], w.before.failure = none) ∧
    ∀ w ∈ later, w.Idle ⟨some e,(p.walk ctx coverage).2.coverage⟩

namespace Program

theorem traced_threads (ctx : Context) (coverage : CoverageMap) (p : Program) :
    Threads ⟨none,coverage⟩ (p.traced ctx coverage).2 (p.walk ctx coverage).2.standing := by
  have hb := tracedItems_brackets false fun n (_ : n ∈ p.body) => n.traced_bracketed ctx
  rw [← p.fst_traced ctx coverage]
  exact hb.threads { Traversal.start coverage with marks := p.prologueMarks } (fun _ h => nomatch h) rfl

theorem stopsAt {ctx : Context} {coverage : CoverageMap} {p : Program} {e : InstrumentError}
    (h : (p.walk ctx coverage).2.failure = some e) : p.StopsAt ctx coverage e := by
  have hs : (p.walk ctx coverage).2.standing = ⟨some e,(p.walk ctx coverage).2.coverage⟩ := by
    rw [Traversal.standing,h]
  refine ⟨p.fst_traced ctx coverage,h,fun site hsite => ?_,?_⟩
  · obtain ⟨v,around,hn,hv⟩ := (p.traced_brackets ctx coverage).2 site hsite
    exact ⟨v,hn.mem_visitOrder,hv⟩
  · rw [← hs]
    exact (p.traced_threads ctx coverage).first_failure rfl (by rw [hs]; rfl)

end Program

/-! ### The exits -/

namespace PassResult

def status? (r : PassResult) : Option Status :=
  match r.outcome with
  | .ok o => some o.status
  | .error _ => none

end PassResult

theorem notify_of_listens {options : Options} (h : options.listens = true) (o : Outcome) :
    notify options o = [(o.coverage.path,o.coverage)] :=
  if_pos h

theorem notify_of_not_listens {options : Options} (h : options.listens = false) (o : Outcome) :
    notify options o = [] :=
  if_neg (Bool.eq_false_iff.mp h)

section Exits

variable (program : Program) (file : SourceFile) (options : Options) (batch : Batch)

/-- What a pass can do. -/
theorem instrument_cases :
    (file.Hinted ∧ ∃ o : Outcome,
      o = ⟨.ignored,(startMap file.path options).freeze.2.data,none⟩ ∧
      instrument program file options batch = ⟨program,batch,.ok o,notify options o⟩) ∨
    (¬file.Hinted ∧ program.Declares (identifierOf file.path) ∧
      instrument program file options batch =
        ⟨program,batch,
          .ok ⟨.alreadyInstrumented,(startMap file.path options).freeze.2.data,none⟩,[]⟩) ∨
    (¬file.Hinted ∧ ¬program.Declares (identifierOf file.path) ∧ ∃ e,
      (program.walk (file.context options) (startMap file.path options)).2.failure = some e ∧
      instrument program file options batch =
        ⟨(program.walk (file.context options) (startMap file.path options)).1,batch,.error e,[]⟩) ∨
    (¬file.Hinted ∧ ¬program.Declares (identifierOf file.path) ∧
      (program.walk (file.context options) (startMap file.path options)).2.failure = none ∧
      ∃ o, (instrument program file options batch).outcome = .ok o ∧ o.status = .instrumented ∧
        (instrument program file options batch).notified = notify options o) := by
  rw [← file.fileIgnored_iff,← Program.binds_iff]
  unfold instrument
  split
  · rename_i hi
    exact .inl ⟨hi,_,rfl,returnIgnored_eq program file options batch⟩
  · rename_i hi
    split
    · rename_i hb
      exact .inr (.inl ⟨hi,hb,returnDeclared_eq program file options batch⟩)
    · rename_i hb
      cases hf : (program.walk (file.context options) (startMap file.path options)).2.failure with
      | some e => exact .inr (.inr (.inl ⟨hi,hb,e,rfl,instrumentOpen_of_failure hf⟩))
      | none =>
        rw [instrumentOpen_of_walked hf]
        exact .inr (.inr (.inr ⟨hi,hb,rfl,_,rfl,rfl,rfl⟩))

/-- How a pass over a file ends. -/
structure PassResult.Exits (r : PassResult) : Prop where
  ignored : r.status? = some .ignored ↔ file.Hinted
  declared : r.status? = some .alreadyInstrumented ↔
    ¬file.Hinted ∧ program.Declares (identifierOf file.path)
  /-- Any other program is walked, and is instrumented unless the walk meets an error. -/
  walked : ¬file.Hinted → ¬program.Declares (identifierOf file.path) →
    ((program.walk (file.context options) (startMap file.path options)).2.failure = none ∧
      r.status? = some .instrumented) ∨
    ∃ e, (program.walk (file.context options) (startMap file.path options)).2.failure = some e ∧
      r.outcome = .error e
  untouched : r.status? = some .ignored ∨ r.status? = some .alreadyInstrumented →
    r.program = program ∧ r.batch = batch ∧
    ∃ o, r.outcome = .ok o ∧ o.coverage.Blank ∧ o.url = none
  /-- An error is the first that the walk meets; the program has no prelude, and nothing of the batch is
  claimed. -/
  stopped : ∀ e, r.outcome = .error e →
    program.StopsAt (file.context options) (startMap file.path options) e ∧
    r.program = (program.walk (file.context options) (startMap file.path options)).1 ∧
    r.batch = batch
  /-- A listener is called once, with the coverage that is returned and its path. -/
  reported : r.status? = some .instrumented ∨ r.status? = some .ignored → options.listens = true →
    ∃ o, r.outcome = .ok o ∧ r.notified = [(o.coverage.path,o.coverage)]
  silent : r.status? = some .alreadyInstrumented ∨ r.status? = none ∨ options.listens = false →
    r.notified = []

/-- Every pass ends in one of four ways, and each does what it says and no more. -/
theorem pass_exits :
    (instrument program file options batch).Exits program file options batch := by
  have hb := startMap_blank file.path options
  rcases instrument_cases program file options batch with
    ⟨hi,o,ho,hr⟩ | ⟨hi,hd,hr⟩ | ⟨hi,hd,e,hf,hr⟩ | ⟨hi,hd,hf,o,ho,hs,hn⟩
  · rw [hr]
    subst ho
    exact {
      ignored := ⟨fun _ => hi,fun _ => rfl⟩
      declared := ⟨nofun,fun h => absurd hi h.1⟩
      walked := fun h => absurd hi h
      untouched := fun _ => ⟨rfl,rfl,_,rfl,hb,rfl⟩
      stopped := nofun
      reported := fun _ hl => ⟨_,rfl,notify_of_listens hl _⟩
      silent := fun h => h.elim nofun fun h => h.elim nofun fun h => notify_of_not_listens h _ }
  · rw [hr]
    exact {
      ignored := ⟨nofun,fun h => absurd h hi⟩
      declared := ⟨fun _ => ⟨hi,hd⟩,fun _ => rfl⟩
      walked := fun _ h => absurd hd h
      untouched := fun _ => ⟨rfl,rfl,_,rfl,hb,rfl⟩
      stopped := nofun
      reported := fun h _ => h.elim nofun nofun
      silent := fun _ => rfl }
  · rw [hr]
    exact {
      ignored := ⟨nofun,fun h => absurd h hi⟩
      declared := ⟨nofun,fun h => absurd h.2 hd⟩
      walked := fun _ _ => .inr ⟨e,hf,rfl⟩
      untouched := fun h => h.elim nofun nofun
      stopped := fun e' he => by cases he; exact ⟨Program.stopsAt hf,rfl,rfl⟩
      reported := fun h _ => h.elim nofun nofun
      silent := fun _ => rfl }
  · have hst : (instrument program file options batch).status? = some .instrumented := by
      rw [PassResult.status?,ho,← hs]
    exact {
      ignored := by rw [hst]; exact ⟨nofun,fun h => absurd h hi⟩
      declared := by rw [hst]; exact ⟨nofun,fun h => absurd h.2 hd⟩
      walked := fun _ _ => .inl ⟨hf,hst⟩
      untouched := by rw [hst]; exact fun h => h.elim nofun nofun
      stopped := by rw [ho]; nofun
      reported := fun _ hl => ⟨o,ho,hn.trans (notify_of_listens hl o)⟩
      silent := by
        rw [hst,hn]
        exact fun h => h.elim nofun fun h => h.elim nofun fun h => notify_of_not_listens h o }

end Exits

section Sample

/-- The program `switch (1) { case 2: 3; } 4;` as it is read, but with a switch that has no place. -/
def placelessSwitch : Program :=
  let only : Case :=
    .mk (.ofBounds 14 24) (some (sampleLiteral 2 19))
      [.expression (.ofBounds 22 24) (sampleLiteral 3 22)]
  ⟨.script,.ofBounds 1 29,[],
    [.switch .dummy (sampleLiteral 1 9) [only],.expression (.ofBounds 27 29) (sampleLiteral 4 27)]⟩

def placelessFile : SourceFile :=
  ⟨"a.js",.ofString "switch (1) \x7b case 2: 3; \x7d 4;",.empty⟩

end Sample

/-- A case whose switch has no place ends the pass; what stands in it and behind it is not counted. -/
theorem pass_exits_placeless :
    ∃ e, (instrument placelessSwitch placelessFile {} (.new (some {}))).outcome = .error e ∧
      e = .missingSwitchBranch (some ⟨⟨1,13⟩,⟨1,23⟩⟩) ∧
      placelessSwitch.StopsAt (placelessFile.context {}) (startMap "a.js" {}) e ∧
      (instrument placelessSwitch placelessFile {} (.new (some {}))).batch = .new (some {}) ∧
      (instrument placelessSwitch placelessFile {} (.new (some {}))).notified = [] := by
  have hx := pass_exits placelessSwitch placelessFile {} (.new (some {}))
  have hi : ¬placelessFile.Hinted := by
    rw [← SourceFile.fileIgnored_iff]
    decide +kernel
  have hd : ¬placelessSwitch.Declares (identifierOf "a.js") := by
    rw [← Program.binds_iff]
    decide +kernel
  have hf : (placelessSwitch.walk (placelessFile.context {}) (startMap "a.js" {})).2.failure =
      some (.missingSwitchBranch (some ⟨⟨1,13⟩,⟨1,23⟩⟩)) := by
    decide +kernel
  rcases hx.walked hi hd with ⟨hn,-⟩ | ⟨e,he,ho⟩
  · exact nomatch hf.symm.trans hn
  · obtain ⟨hs,-,hb⟩ := hx.stopped e ho
    refine ⟨e,ho,Option.some.inj (he.symm.trans hf),hs,hb,hx.silent (.inr (.inl ?_))⟩
    rw [PassResult.status?,ho]

end CoverageCounters
