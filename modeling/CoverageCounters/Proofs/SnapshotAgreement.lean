import CoverageCounters.Proofs.Correspondence
import CoverageCounters.Proofs.CoverageCodec
import CoverageCounters.Proofs.MapHistory
import CoverageCounters.Proofs.PassExits

/-!
What a pass reports, what it hashes and what it puts into the program describe one object. The coverage
of a pass is that of a new map after some calls, frozen; its fingerprint is the digest of the payload,
the literal of the prelude denotes the payload, and the counters that the program gains are the slots of
the payload. The prelude is read by the names it binds and the payload by its keys.
-/

namespace CoverageCounters

/-! ### The map of a pass -/

namespace CoverageMap

variable {m m' m'' : CoverageMap}

/-- The second map is the first after some calls that do not close it. -/
def Grows (m m' : CoverageMap) : Prop := ∃ calls, .freeze ∉ calls ∧ m' = m.after calls

theorem Grows.refl (m : CoverageMap) : m.Grows m := ⟨[],nofun,rfl⟩

theorem Grows.trans (h₁ : m.Grows m') (h₂ : m'.Grows m'') : m.Grows m'' := by
  obtain ⟨calls,hc,rfl⟩ := h₁
  obtain ⟨later,hl,rfl⟩ := h₂
  refine ⟨calls ++ later,fun hm => ?_,(after_append m calls later).symm⟩
  exact (List.mem_append.mp hm).elim hc hl

theorem grows_perform (m : CoverageMap) {c : Call} (h : .freeze ≠ c) : m.Grows (m.perform c).2 :=
  ⟨[c],fun hm => h (List.mem_singleton.mp hm),rfl⟩

theorem Registers.exists_call (h : m.Registers m') :
    ∃ c : Call, c.registers = true ∧ (m.perform c).2 = m' := by
  cases h with
  | @statement loc i h => exact ⟨.statement loc,rfl,by rw [perform,h]; rfl⟩
  | @function name decl loc i h => exact ⟨.function name decl loc,rfl,by rw [perform,h]; rfl⟩
  | @branch kind loc i h => exact ⟨.branch kind loc,rfl,by rw [perform,h]; rfl⟩
  | @path b loc i h => exact ⟨.path b loc,rfl,by rw [perform,h]; rfl⟩

theorem Registers.grows (h : m.Registers m') : m.Grows m' := by
  obtain ⟨c,hc,rfl⟩ := h.exists_call
  refine grows_perform m fun he => ?_
  rw [← he] at hc
  cases hc

theorem Grows.frozen (h : m.Grows m') (hm : m.frozen = false) : m'.frozen = false := by
  obtain ⟨calls,hc,rfl⟩ := h
  rw [Bool.eq_false_iff,ne_eq,frozen_after_iff,hm]
  exact fun h => h.elim nofun hc

theorem Grows.sound (h : m.Grows m') (hm : m.Sound) : m'.Sound := by
  obtain ⟨calls,-,rfl⟩ := h
  exact hm.after calls

theorem path_after (m : CoverageMap) (calls : List Call) : (m.after calls).data.path = m.data.path := by
  induction calls generalizing m with
  | nil => rfl
  | cons c calls ih =>
    rw [after_cons,ih]
    have he := effect_perform m c
    generalize (m.perform c).1 = answer at he
    cases answer with
    | error e => rw [he.eq_of_error]
    | ok i => exact (he.spares nofun).path

theorem freeze_of_open (h : m.frozen = false) :
    m.freeze = (.ok (),⟨{ m.data with hash := some m.data.fingerprint },true⟩) := by
  rw [freeze_eq,if_neg (Bool.eq_false_iff.mp h)]

end CoverageMap

namespace Traversal

variable {ctx : Context} {visited marked : Key → Prop} {key : Key} {t u : Traversal}

theorem Acts.grows (h : Acts ctx key marked t u) : t.coverage.Grows u.coverage := by
  induction h with
  | refl => exact .refl _
  | register _ hm ih => exact ih.trans hm.grows
  | skip _ _ ih | branch _ _ ih | queue _ _ ih => exact ih

theorem Attempts.grows (h : Attempts ctx visited key t u) : t.coverage.Grows u.coverage := by
  cases h with
  | idle => exact .refl _
  | done _ h => exact h.grows
  | failed _ h e => exact h.grows

/-- A walk does nothing to the map but register. -/
theorem Run.grows (h : Run ctx visited t u) : t.coverage.Grows u.coverage := by
  induction h with
  | refl t | hoist t => exact .refl _
  | trans _ _ ih₁ ih₂ => exact ih₁.trans ih₂
  | visit _ hu _ ih => exact hu.grows.trans ih
  | item _ ih | chain _ ih => exact ih

end Traversal

theorem Program.grows_walk (ctx : Context) (coverage : CoverageMap) (p : Program) :
    coverage.Grows (p.walk ctx coverage).2.coverage := by
  have hr : Walk.Runs ctx (fun _ => True) (walkItems ctx p.body) :=
    walkItems_runs fun n _ => n.walk_runs fun _ _ => trivial
  exact (hr { Traversal.start coverage with marks := p.prologueMarks }).grows

theorem grows_startMap (path : String) (options : Options) :
    (CoverageMap.new path).Grows (startMap path options) := by
  unfold startMap
  split
  · exact .refl _
  · exact CoverageMap.grows_perform _ (c := .sourceMap _) nofun

section Outcome

variable {program : Program} {file : SourceFile} {options : Options} {batch : Batch} {o : Outcome}

/-- What a pass reports is a new map after some calls, frozen. -/
theorem exists_map_of_ok (h : (instrument program file options batch).outcome = .ok o) :
    ∃ m, (CoverageMap.new file.path).Grows m ∧ o.coverage = m.freeze.2.data := by
  have hs := grows_startMap file.path options
  rcases instrument_cases program file options batch with
    ⟨-,_,rfl,hr⟩ | ⟨-,-,hr⟩ | ⟨-,-,e,-,hr⟩ | ⟨-,-,-,o',ho,hi,-⟩
  · rw [hr] at h
    cases h
    exact ⟨_,hs,rfl⟩
  · rw [hr] at h
    cases h
    exact ⟨_,hs,rfl⟩
  · rw [hr] at h
    cases h
  · cases Except.ok.inj (h.symm.trans ho)
    exact ⟨_,hs.trans (program.grows_walk _ _),(instrument_of_instrumented h hi).2.1⟩

end Outcome

/-! ### The payload -/

namespace FileCoverage

/-- An object with its keys in order that holds a coverage but for its fingerprint, and beside it the tag
of the layout. -/
structure Tagged (x : FileCoverage) (payload : Json) : Prop where
  ordered : ∃ entries, payload = .object entries ∧ Json.Ordered entries
  field : ∀ key, payload.field? key =
    if key = schemaKey then some (.string coverageSchema)
    else if key = "hash" then none else x.toJson.canonical.field? key

theorem tagged_taggedPayload (x : FileCoverage) : x.Tagged (x.taggedPayload coverageSchema) := by
  refine ⟨⟨_,x.taggedPayload_eq _,(Json.ordered_sortEntries _).insertEntry _ _⟩,fun key => ?_⟩
  rw [field?_taggedPayload,lookup_entries,Json.field?_canonical,toJson_eq,Json.field?,lookup_entries]
  by_cases hk : key = "hash"
  · rw [hk]
    rfl
  · rw [if_neg hk,if_neg (Ne.symm hk),if_neg (Ne.symm hk)]
    rfl

theorem Tagged.tables {x : FileCoverage} {payload : Json} (h : x.Tagged payload) :
    payload.field? "s" = some (tableJson .nat x.s).canonical ∧
    payload.field? "f" = some (tableJson .nat x.f).canonical ∧
    payload.field? "b" = some (tableJson countsJson x.b).canonical := by
  refine ⟨?_,?_,?_⟩
  all_goals
    rw [h.field,if_neg (by decide),if_neg (by decide),Json.field?_canonical,toJson_eq,Json.field?,
      lookup_entries]
    rfl

end FileCoverage

/-- Whether an object has the slot that a counter counts up: its table has the number, and for a branch
the list there reaches as far as the path. -/
def Json.hasSlot (j : Json) : Counter → Bool
  | .statement i => ((j.field? "s").bind (field? (indexText i))).isSome
  | .function i => ((j.field? "f").bind (field? (indexText i))).isSome
  | .branch i path =>
    (((j.field? "b").bind (field? (indexText i))).bind asArray?).any fun counts => path < counts.length

theorem field?_tableJson {α : Type} (f : α → Json) (items : List α) (i : Nat) :
    (tableJson f items).canonical.field? (indexText i) = (items[i]?).map fun a => (f a).canonical := by
  rw [Json.field?_canonical,tableJson,Json.field?,lookup_indexed,Option.map_map]
  rfl

theorem isSome_field?_tableJson {α : Type} (f : α → Json) (items : List α) (i : Nat) :
    ((tableJson f items).canonical.field? (indexText i)).isSome = decide (i < items.length) := by
  rw [field?_tableJson,Option.isSome_map,Bool.eq_iff_iff,decide_eq_true_iff,isSome_getElem?]

/-- The slots of the payload are the entries of the tables. -/
theorem CoverageMap.Sound.hasSlot {m : CoverageMap} (h : m.Sound) {payload : Json}
    (hp : m.data.Tagged payload) (c : Counter) : payload.hasSlot c = m.data.has c := by
  obtain ⟨hs,hf,hb⟩ := hp.tables
  cases c with
  | statement i =>
    rw [Json.hasSlot,hs,Option.bind_some,isSome_field?_tableJson,h.s,List.length_replicate,
      FileCoverage.has]
  | function i =>
    rw [Json.hasSlot,hf,Option.bind_some,isSome_field?_tableJson,h.f,List.length_replicate,
      FileCoverage.has]
  | branch i path =>
    rw [Json.hasSlot,hb,Option.bind_some,field?_tableJson,h.getElem?_b,FileCoverage.has]
    cases m.data.branchMap[i]? with
    | none => rfl
    | some r => simp [FileCoverage.countsJson,Json.canonical,Json.canonicalItems_eq,Json.asArray?]

/-! ### The prelude -/

/-- What a declarator sets a name to. -/
def Declarator.init? (name : String) : Declarator → Option Node
  | mk _ _ target init => if target.identifierName? = some name then init else none

namespace Node

/-- What a `var` statement sets a name to. -/
def varInit? (name : String) : Node → Option Node
  | bindings _ data declarators =>
    if (Json.lookup "kind" data).bind Json.asString? = some "var" then
      declarators.findSome? (Declarator.init? name)
    else none
  | _ => none

/-- The statements of a function that is called, without arguments, where it is written. -/
def calledBody? : Node → Option (List Node)
  | plain head [.child field (paren _ (function _ _ _ (.block _ statements) _)),.children field' []] =>
    if head.form = .callExpression ∧ field = "callee" ∧ field' = "arguments" then some statements
    else none
  | _ => none

theorem varInit?_of_isDirective {n : Node} (h : n.isDirective = true) (name : String) :
    n.varInit? name = none := by
  cases n with
  | expression s inner => rfl
  | _ => cases h

end Node

namespace Program

/-- What the top level of a program sets a variable to. -/
def varInit? (p : Program) (name : String) : Option Node := p.body.findSome? (·.varInit? name)

/-- What a variable is set to in the function whose call gives a variable of the top level its value. -/
def bootLocal? (p : Program) (name inner : String) : Option Node :=
  (p.varInit? name).bind fun init => init.calledBody?.bind fun statements =>
    statements.findSome? (·.varInit? inner)

theorem varInit?_prepend {name : String} {first init : Node} (p : Program) (rest : List Node)
    (h : first.varInit? name = some init) : (p.prepend (first :: rest)).varInit? name = some init := by
  have hd : (p.body.take (prologueLength p.body)).findSome? (·.varInit? name) = none :=
    List.findSome?_eq_none_iff.mpr fun n hn =>
      Node.varInit?_of_isDirective (isDirective_of_mem_take hn) name
  rw [varInit?,prepend,List.append_assoc,List.findSome?_append,hd,Option.none_or,List.cons_append,
    List.findSome?_cons,h]

end Program

theorem Bootstrap.varInit?_coverage (p : Parameters) :
    (coverage p).varInit? p.identifier =
      some (Build.call (Build.paren (Build.function [locals p,reuse,stamp,publish])) []) := by
  have h : (Build.identifier p.identifier).identifierName? = some p.identifier := rfl
  simp [coverage,Build.bindings,Build.declarator,Node.varInit?,Json.lookup,Json.asString?,
    Declarator.init?,h]

theorem bootLocal?_prelude (p : Program) (path : String) (options : Options) (x : FileCoverage)
    (git : Option GitInfo) :
    (p.prepend (prelude path options x git)).bootLocal? (identifierOf path) "path" =
      some (Build.string path) ∧
    (p.prepend (prelude path options x git)).bootLocal? (identifierOf path) "hash" =
      some (Build.string (x.hash.getD "")) ∧
    (p.prepend (prelude path options x git)).bootLocal? (identifierOf path) "coverageData" =
      some (Build.data (x.taggedPayload coverageSchema)) := by
  have hv := p.varInit?_prepend (git.map Bootstrap.git).toList (Bootstrap.varInit?_coverage
    { identifier := identifierOf path, path, hash := x.hash.getD "",
      coverageVariable := options.coverageVariable, data := x.taggedPayload coverageSchema })
  simp only [Program.bootLocal?,prelude]
  rw [hv]
  exact ⟨rfl,rfl,rfl⟩

/-! ### The agreement -/

/-- A program that was instrumented, read against the one it was made from and against what the pass
reports: a `var` of its top level sets the name made from the path to the call of a function that has the
path, the fingerprint and the literal of the payload; and a counter stands as often as before, and once
more just if it counts on that name and the payload has its slot. -/
structure Program.Reflects (out program : Program) (x : FileCoverage) (hash : String) (payload : Json) :
    Prop where
  path : out.bootLocal? (identifierOf x.path) "path" = some (Build.string x.path)
  hash : out.bootLocal? (identifierOf x.path) "hash" = some (Build.string hash)
  data : out.bootLocal? (identifierOf x.path) "coverageData" = some (Build.data payload)
  counters : ∀ name c, (out.counters name).count c = (program.counters name).count c +
    if name = identifierOf x.path ∧ payload.hasSlot c = true then 1 else 0

theorem CoverageMap.due_eq (ctx : Context) (name : String) (c : Counter) (m : CoverageMap) :
    m.due ctx name c = if name = ctx.identifier ∧ m.data.has c = true then 1 else 0 := by
  rw [due,entries]
  by_cases hn : name = ctx.identifier <;> cases m.data.has c <;> simp [hn]

section Agreement

variable {program : Program} {file : SourceFile} {options : Options} {batch : Batch} {o : Outcome}

/-- The counters that a program gains are those of the tables, on the object with the file's name. -/
theorem count_counters_of_instrumented (h : (instrument program file options batch).outcome = .ok o)
    (hs : o.status = .instrumented) (name : String) (c : Counter) :
    ((instrument program file options batch).program.counters name).count c =
      (program.counters name).count c +
        if name = identifierOf file.path ∧ o.coverage.has c = true then 1 else 0 := by
  obtain ⟨hf,hc,hp⟩ := instrument_of_instrumented h hs
  rw [Program.count_counters,Program.count_counters,hp,Program.tally_prepend _ c (counters_prelude ..),
    hc,has_freeze]
  have hg := Program.gain_walk (startMap_parallel file.path options) name
    (entries_startMap file.path options c) hf
  have hi : (file.context options).identifier = identifierOf file.path := rfl
  rw [gain,CoverageMap.due_eq,hi] at hg
  split at hg <;> rename_i hn
  · rw [if_pos hn]
    omega
  · rw [if_neg hn]
    omega

/-- What a pass reports has the path of the file and its own fingerprint, and the slots of its payload
are the entries of its tables. -/
theorem reported_of_ok (h : (instrument program file options batch).outcome = .ok o) :
    o.coverage.path = file.path ∧ o.coverage.hash = some o.coverage.fingerprint ∧
    ∀ payload, o.coverage.Tagged payload → ∀ c, payload.hasSlot c = o.coverage.has c := by
  obtain ⟨m,hm,ho⟩ := exists_map_of_ok h
  have hopen : m.frozen = false := hm.frozen rfl
  have hsound : m.freeze.2.Sound := (hm.sound (CoverageMap.sound_new _)).effect .freeze
  rw [ho]
  refine ⟨?_,?_,fun payload hp c => hsound.hasSlot hp c⟩
  · obtain ⟨calls,-,rfl⟩ := hm
    rw [CoverageMap.freeze_of_open hopen]
    exact CoverageMap.path_after _ calls
  · rw [CoverageMap.freeze_of_open hopen]
    rfl

theorem reflects_of_instrumented (h : (instrument program file options batch).outcome = .ok o)
    (hs : o.status = .instrumented) :
    (instrument program file options batch).program.Reflects program o.coverage o.coverage.fingerprint
      (o.coverage.taggedPayload coverageSchema) := by
  obtain ⟨hpath,hhash,hslot⟩ := reported_of_ok h
  obtain ⟨-,-,hp⟩ := instrument_of_instrumented h hs
  obtain ⟨hl,hlh,hld⟩ := bootLocal?_prelude
    (program.walk (file.context options) (startMap file.path options)).1 file.path options o.coverage
    batch.claim.1
  rw [← hp,← hpath] at hl hlh hld
  rw [hhash] at hlh
  refine ⟨hl,hlh,hld,fun name c => ?_⟩
  rw [hslot _ o.coverage.tagged_taggedPayload,hpath]
  exact count_counters_of_instrumented h hs name c

/-- A pass that ends well reports the path and the fingerprint of what it reports: the digest of an
object with all its fields but the fingerprint, and the tag of the layout. If it instruments, the
prelude and the counters of the program are those of the same object. -/
theorem snapshot_agreement (h : (instrument program file options batch).outcome = .ok o) :
    o.coverage.path = file.path ∧
    ∃ hash payload, o.coverage.hash = some hash ∧ hash = o.coverage.fingerprint ∧
      hash = Sha256.hex payload.compact ∧ o.coverage.Tagged payload ∧
      (o.status = .instrumented →
        (instrument program file options batch).program.Reflects program o.coverage hash payload) := by
  obtain ⟨hpath,hhash,-⟩ := reported_of_ok h
  exact ⟨hpath,_,_,hhash,rfl,rfl,o.coverage.tagged_taggedPayload,reflects_of_instrumented h⟩

end Agreement

theorem snapshot_agreement_sample :
    ∃ o hash payload, (instrument sampleProgram sampleFile {} (.new none)).outcome = .ok o ∧
      o.status = .instrumented ∧ o.coverage.path = "a.js" ∧ o.coverage.hash = some hash ∧
      hash = o.coverage.fingerprint ∧ o.coverage.Tagged payload ∧
      (instrument sampleProgram sampleFile {} (.new none)).program.Reflects sampleProgram o.coverage
        hash payload := by
  obtain ⟨o,h,hs⟩ := exists_instrumented_sample
  obtain ⟨hpath,hash,payload,hh,hf,-,ht,hr⟩ := snapshot_agreement h
  exact ⟨o,hash,payload,h,hs,hpath,hh,hf,ht,hr hs⟩

end CoverageCounters
