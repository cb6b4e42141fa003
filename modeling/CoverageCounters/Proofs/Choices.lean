import Mathlib.Data.Fintype.EquivFin
import CoverageCounters.Proofs.Erasure
import CoverageCounters.Proofs.PassExits
import CoverageCounters.Proofs.StampedWalks

/-!
What a pass depends on. The path, the coverage variable, the source map and the batch go into the
prelude, the fingerprint and the name of the counter object. Whether a program is instrumented, what is
counted in it and where its counters stand is a matter of the program, its text, its comments and the
methods to ignore.
-/

namespace CoverageCounters

/-- The tables of one file are those of another. -/
structure FileCoverage.SameTables (c d : FileCoverage) : Prop where
  statementMap : c.statementMap = d.statementMap
  fnMap : c.fnMap = d.fnMap
  branchMap : c.branchMap = d.branchMap
  s : c.s = d.s
  f : c.f = d.f
  b : c.b = d.b

/-- The stamps of a map that is still open are not in its tables. -/
theorem CoverageMap.sameTables_stamped {m : CoverageMap} (stamp stamp' : Stamp)
    (h : m.frozen = false) :
    (m.stamped stamp).freeze.2.data.SameTables (m.stamped stamp').freeze.2.data := by
  have hs : ∀ stamp, (m.stamped stamp).frozen = false := fun _ => h
  rw [freeze_eq,freeze_eq,hs,hs,if_neg Bool.false_ne_true,if_neg Bool.false_ne_true]
  exact ⟨rfl,rfl,rfl,rfl,rfl,rfl⟩

namespace Program

/-- Some name does not stand anywhere in a program. -/
theorem exists_mentions_eq_false (p : Program) : ∃ name, p.mentions name = false := by
  obtain ⟨name,hn⟩ := Infinite.exists_notMem_finset (p.nodes.filterMap Node.identifierName?).toFinset
  refine ⟨name,?_⟩
  rw [mentions,List.any_eq_false]
  intro n hm ht
  exact hn (List.mem_toFinset.mpr (List.mem_filterMap.mpr ⟨n,hm,of_decide_eq_true ht⟩))

theorem counters_of_mentions {name : String} {p : Program} (h : p.mentions name = false) :
    p.counters name = [] := by
  rw [counters,nodes,List.filterMap_flatMap,List.flatMap_eq_nil_iff]
  exact fun n hn => Node.counters_of_mentions (mentions_eq_false_iff.mp h n hn)

end Program

/-- What a pass goes over: a program with its text and its comments, and the methods to ignore. -/
structure Subject where
  program : Program
  text : SourceText
  comments : Comments
  ignoredMethods : List String

/-- What may be chosen for a pass beside its subject. -/
structure Choice where
  path : String
  coverageVariable : String
  inputSourceMap : Option Json
  listens : Bool
  batch : Batch

namespace Choice

def identifier (c : Choice) : String := identifierOf c.path

def stamp (c : Choice) : Stamp :=
  ⟨c.identifier,c.path,c.inputSourceMap.map (Path.rebaseSourceMap c.path)⟩

end Choice

namespace Subject

def directives (x : Subject) : Directives := ⟨x.comments,x.text⟩

def file (x : Subject) (c : Choice) : SourceFile := ⟨c.path,x.text,x.comments⟩

def options (x : Subject) (c : Choice) : Options :=
  ⟨c.coverageVariable,x.ignoredMethods,c.inputSourceMap,c.listens⟩

def pass (x : Subject) (c : Choice) : PassResult :=
  instrument x.program (x.file c) (x.options c) c.batch

/-- The program that a pass leaves behind, without its prelude. -/
def tree (x : Subject) (c : Choice) : Program :=
  (x.pass c).program.withoutPrelude c.identifier c.batch.claim.1.toList.length

/-- Two choices give the same pass, up to the names in it. -/
structure Agree (x : Subject) (a b : Choice) : Prop where
  status : (x.pass a).status? = (x.pass b).status?
  error : ∀ e, (x.pass a).outcome = .error e ↔ (x.pass b).outcome = .error e
  tables : ∀ o o', (x.pass a).outcome = .ok o → (x.pass b).outcome = .ok o' →
    o.status = .instrumented → o.coverage.SameTables o'.coverage ∧ o.url = o'.url
  /-- Both trees are the program with counters of an object that it does not know, put on the object of
  the pass. -/
  template : (x.pass a).status? = some .instrumented →
    ∃ name template, x.program.mentions name = false ∧
      (Program.erase name template).normalize = x.program.normalize ∧
      x.tree a = template.renameCounters name a.identifier ∧
      x.tree b = template.renameCounters name b.identifier
  /-- If the program has no counters of the first object itself, the second tree is the first one with
  its counters on the second object. -/
  renamed : (x.pass a).status? = some .instrumented → x.program.counters a.identifier = [] →
    x.tree b = (x.tree a).renameCounters a.identifier b.identifier

def context (x : Subject) (name : String) : Context := ⟨name,x.directives,x.ignoredMethods⟩

section Passes

variable {x : Subject} {c : Choice} {name : String} {coverage : CoverageMap}

theorem startMap_eq (x : Subject) (c : Choice) :
    startMap c.path (x.options c) = (CoverageMap.new "").stamped c.stamp := by
  unfold startMap options Choice.stamp
  cases c.inputSourceMap <;> rfl

theorem outcome_of_ignored (c : Choice) (hi : x.directives.fileIgnored = true) :
    ∃ o, (x.pass c).outcome = .ok o ∧ o.status = .ignored := by
  have hi' : (x.file c).directives.fileIgnored = true := hi
  rw [pass,instrument,if_pos hi',returnIgnored_eq]
  exact ⟨_,rfl,rfl⟩

theorem pass_of_open (hi : x.directives.fileIgnored = false)
    (hb : x.program.binds c.identifier = false) :
    x.pass c = instrumentOpen x.program (x.file c) (x.options c) c.batch := by
  have hi' : ¬(x.file c).directives.fileIgnored = true := Bool.eq_false_iff.mp hi
  have hb' : ¬x.program.binds (identifierOf (x.file c).path) = true := Bool.eq_false_iff.mp hb
  rw [pass,instrument,if_neg hi',if_neg hb']

/-- What the walk of a pass answers with, and the state it ends in. -/
def walked (x : Subject) (c : Choice) : Program × Traversal :=
  x.program.walk (x.context c.identifier) (startMap c.path (x.options c))

theorem outcome_of_failure (hi : x.directives.fileIgnored = false)
    (hb : x.program.binds c.identifier = false) {e : InstrumentError}
    (hf : (x.walked c).2.failure = some e) : (x.pass c).outcome = .error e := by
  have hw : (x.program.walk ((x.file c).context (x.options c))
      (startMap (x.file c).path (x.options c))).2.failure = some e := hf
  rw [pass_of_open hi hb,instrumentOpen_of_failure hw]

theorem outcome_of_walked (hi : x.directives.fileIgnored = false)
    (hb : x.program.binds c.identifier = false) (hf : (x.walked c).2.failure = none) :
    (x.pass c).outcome = .ok ⟨.instrumented,(x.walked c).2.coverage.freeze.2.data,
      finalUrl? x.directives x.program.span (x.walked c).2.url⟩ := by
  have hw : (x.program.walk ((x.file c).context (x.options c))
      (startMap (x.file c).path (x.options c))).2.failure = none := hf
  rw [pass_of_open hi hb,instrumentOpen_of_walked hw]
  rfl

theorem tree_eq_of_instrumented (h : (x.pass c).status? = some .instrumented) :
    x.tree c = (x.walked c).1 := by
  unfold PassResult.status? at h
  split at h
  · rename_i o ho
    obtain ⟨-,-,hp⟩ := instrument_of_instrumented ho (Option.some.inj h)
    rw [tree,pass,hp]
    exact withoutPrelude_prepend_prelude _ _ _ _ _
  · cases h

/-- The walk of a pass is that with any object the program has no counters of, under the stamp of the
pass. -/
theorem walked_eq (ho : coverage.frozen = false) (hn : x.program.counters name = [])
    (hs : startMap c.path (x.options c) = coverage.stamped c.stamp) :
    x.walked c = ((x.program.walk (x.context name) coverage).1.renameCounters name c.identifier,
      (x.program.walk (x.context name) coverage).2.stamped (x.context name) c.stamp) := by
  rw [walked,hs]
  exact (Program.walk_stamped (x.context name) coverage c.stamp ho hn).1

theorem agree_of_untouched {a b : Choice} (hs : (x.pass a).status? = (x.pass b).status?)
    (he : ∀ e, (x.pass a).outcome = .error e ↔ (x.pass b).outcome = .error e)
    (hn : (x.pass a).status? ≠ some .instrumented) : x.Agree a b where
  status := hs
  error := he
  tables o _ ho _ h := absurd (by rw [PassResult.status?,ho,← h]) hn
  template h := absurd h hn
  renamed h := absurd h hn

theorem agree_of_ignored (a b : Choice) (hi : x.directives.fileIgnored = true) : x.Agree a b := by
  obtain ⟨o,ho,hs⟩ := x.outcome_of_ignored a hi
  obtain ⟨o',ho',hs'⟩ := x.outcome_of_ignored b hi
  have hsa : (x.pass a).status? = some .ignored := by rw [PassResult.status?,ho,← hs]
  have hsb : (x.pass b).status? = some .ignored := by rw [PassResult.status?,ho',← hs']
  refine agree_of_untouched (hsa.trans hsb.symm) ?_ ?_
  · rw [ho,ho']
    exact fun e => ⟨by rintro ⟨⟩,by rintro ⟨⟩⟩
  · rw [hsa]
    rintro ⟨⟩

theorem agree_of_failure {a b : Choice} {e : InstrumentError} (ha : (x.pass a).outcome = .error e)
    (hb : (x.pass b).outcome = .error e) : x.Agree a b := by
  have hsa : (x.pass a).status? = none := by rw [PassResult.status?,ha]
  have hsb : (x.pass b).status? = none := by rw [PassResult.status?,hb]
  refine agree_of_untouched (hsa.trans hsb.symm) ?_ ?_
  · rw [ha,hb]
    exact fun _ => Iff.rfl
  · rw [hsa]
    rintro ⟨⟩

/-- If the first object is none of the program's, the walk for the second one is that for the first with
its counters put on the second. -/
theorem walked_renamed (a b : Choice) (hn : x.program.counters a.identifier = []) :
    (x.walked b).1 = (x.walked a).1.renameCounters a.identifier b.identifier := by
  have hs : startMap b.path (x.options b) =
      (startMap a.path (x.options a)).stamped b.stamp := by
    rw [startMap_eq,startMap_eq]
    rfl
  have ho : (startMap a.path (x.options a)).frozen = false := by
    rw [startMap_eq]
    rfl
  rw [walked_eq ho hn hs]
  rfl

end Passes

/-- Passes with different choices agree, whatever they go over, unless it declares one of their names
already. -/
theorem passes_agree (x : Subject) (a b : Choice) (ha : x.program.binds a.identifier = false)
    (hb : x.program.binds b.identifier = false) : x.Agree a b := by
  cases hi : x.directives.fileIgnored with
  | true => exact agree_of_ignored a b hi
  | false =>
    -- both walks are the one for an object the program does not know
    obtain ⟨name,hm⟩ := x.program.exists_mentions_eq_false
    have hn := Program.counters_of_mentions hm
    have hwa : x.walked a = _ := walked_eq rfl hn (x.startMap_eq a)
    have hwb : x.walked b = _ := walked_eq rfl hn (x.startMap_eq b)
    have ho := (Program.walk_stamped (x.context name) (.new "") a.stamp rfl hn).2
    cases hf : (x.program.walk (x.context name) (.new "")).2.failure with
    | some e =>
      have hea := outcome_of_failure hi ha (by rw [hwa,Traversal.failure_stamped,hf])
      have heb := outcome_of_failure hi hb (by rw [hwb,Traversal.failure_stamped,hf])
      exact agree_of_failure hea heb
    | none =>
      have hoa := outcome_of_walked hi ha (by rw [hwa,Traversal.failure_stamped,hf])
      have hob := outcome_of_walked hi hb (by rw [hwb,Traversal.failure_stamped,hf])
      have hsa : (x.pass a).status? = some .instrumented := by rw [PassResult.status?,hoa]
      have hsb : (x.pass b).status? = some .instrumented := by rw [PassResult.status?,hob]
      have ht : (x.walked a).2.coverage.freeze.2.data.SameTables (x.walked b).2.coverage.freeze.2.data := by
        rw [hwa,hwb]
        exact CoverageMap.sameTables_stamped _ _ ho
      have he : ((x.program.walk (x.context name) (.new "")).1.erase name).normalize =
          x.program.normalize := Program.normalize_erase_walk _ _ hm
      have hu : (x.walked a).2.url = (x.walked b).2.url := by
        rw [hwa,hwb,Traversal.url_stamped,Traversal.url_stamped]
      exact {
        status := hsa.trans hsb.symm
        error := by rw [hoa,hob]; exact fun e => ⟨by rintro ⟨⟩,by rintro ⟨⟩⟩
        tables := by
          rw [hoa,hob]
          rintro o o' ⟨⟩ ⟨⟩ -
          exact ⟨ht,congrArg (finalUrl? x.directives x.program.span) hu⟩
        template := fun _ => ⟨name,_,hm,he,
          by rw [tree_eq_of_instrumented hsa,hwa],by rw [tree_eq_of_instrumented hsb,hwb]⟩
        renamed := fun _ hc => by
          rw [tree_eq_of_instrumented hsa,tree_eq_of_instrumented hsb,walked_renamed a b hc] }

section Sample

def sampleSubject : Subject := ⟨sampleProgram,sampleFile.text,sampleFile.comments,[]⟩

def plainChoice : Choice := ⟨"a.js",defaultCoverageVariable,none,true,.new none⟩

def otherChoice : Choice := ⟨"lib/b.js","__counts__",some (.object []),false,.new (some {})⟩

/-- The sample is instrumented for another path, variable, source map and batch as it is for its own. -/
theorem passes_agree_sample :
    sampleSubject.program.binds plainChoice.identifier = false ∧
    sampleSubject.program.binds otherChoice.identifier = false ∧
    plainChoice.identifier ≠ otherChoice.identifier ∧
    (∃ o, (sampleSubject.pass otherChoice).outcome = .ok o ∧ o.status = .instrumented ∧
      ∃ o', (sampleSubject.pass plainChoice).outcome = .ok o' ∧
        o'.coverage.SameTables o.coverage ∧ o'.url = o.url) ∧
    sampleSubject.tree otherChoice = (sampleSubject.tree plainChoice).renameCounters
      plainChoice.identifier otherChoice.identifier := by
  have ha : sampleSubject.program.binds plainChoice.identifier = false := by decide +kernel
  have hb : sampleSubject.program.binds otherChoice.identifier = false := by decide +kernel
  have h := passes_agree sampleSubject plainChoice otherChoice ha hb
  obtain ⟨o,ho,hs⟩ := exists_instrumented_sample
  have ho' : (sampleSubject.pass plainChoice).outcome = .ok o := ho
  have hst : (sampleSubject.pass plainChoice).status? = some .instrumented := by
    rw [PassResult.status?,ho',← hs]
  have hc : sampleSubject.program.counters plainChoice.identifier = [] :=
    Program.counters_of_mentions sampleProgram_mentions
  have hso := h.status.symm.trans hst
  unfold PassResult.status? at hso
  split at hso
  · rename_i q hq
    refine ⟨ha,hb,by decide +kernel,⟨q,hq,Option.some.inj hso,o,ho',h.tables o q ho' hq hs⟩,?_⟩
    exact h.renamed hst hc
  · cases hso

end Sample
end Subject

end CoverageCounters
