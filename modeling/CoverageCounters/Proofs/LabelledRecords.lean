import CoverageCounters.Proofs.Collected
import CoverageCounters.Proofs.HintedExpressions

/-!
Records with the names around them. A class method, object method or named function expression puts its
name on everything that is recorded at it and inside it; nothing is left out by name yet. What a list of
names to ignore leaves is then a filter: the records that carry none of its names.
-/

namespace CoverageCounters

/-- What is recorded for a part of a program, each record with the names of the constructs around it that
can be ignored by name, outermost first. -/
structure LabelledRecords where
  statements : List (List String × Location) := []
  functions : List (List String × FunctionEntry) := []
  branches : List (List String × BranchRecord) := []

def outside {α : Type} (ignored : List String) (entries : List (List String × α)) :
    List (List String × α) :=
  entries.filter fun e => !e.1.any ignored.contains

/-- The same pass with other names to ignore. -/
def Context.ignoring (ctx : Context) (ignored : List String) : Context :=
  { ctx with ignoredMethods := ignored }

namespace LabelledRecords

def empty : LabelledRecords := {}

def append (a b : LabelledRecords) : LabelledRecords :=
  ⟨a.statements ++ b.statements,a.functions ++ b.functions,a.branches ++ b.branches⟩

instance : EmptyCollection LabelledRecords := ⟨empty⟩

instance : Append LabelledRecords := ⟨append⟩

def bare (r : Records) : LabelledRecords :=
  ⟨r.statements.map fun a => ([],a),r.functions.map fun a => ([],a),r.branches.map fun a => ([],a)⟩

def named (name : Option String) (r : LabelledRecords) : LabelledRecords :=
  ⟨r.statements.map fun e => (name.toList ++ e.1,e.2),r.functions.map fun e => (name.toList ++ e.1,e.2),
    r.branches.map fun e => (name.toList ++ e.1,e.2)⟩

/-- The records of a construct that the one around it may ask to leave out. -/
def unlessAsked (asked : Bool) (s : Span) (r : LabelledRecords) : LabelledRecords :=
  if asked && !s.isDummy then ∅ else r

/-- The records of a construct that a hint may leave out. -/
def unlessHinted (ctx : Context) (s : Span) (r : LabelledRecords) : LabelledRecords :=
  if ctx.directives.skips s then ∅ else r

/-- The records of a body, which stands in a block of its own if the construct around it is counted. -/
def ofBody (ctx : Context) (counted : Bool) (body : Node) (r : LabelledRecords) : LabelledRecords :=
  if counted && !body.isBlock then unlessHinted ctx body.span r else r

/-- What is left of records if those that carry some of the names are not made. -/
def leaving (ignored : List String) (r : LabelledRecords) : Records :=
  ⟨(outside ignored r.statements).map (·.2),(outside ignored r.functions).map (·.2),
    (outside ignored r.branches).map (·.2)⟩

end LabelledRecords

open LabelledRecords

mutual

/-- The records of a node and of what is inside it with the names around them, in the order of the
walk. -/
def Node.labelled (ctx : Context) (chain : Bool) : Node → LabelledRecords
  | .plain _ parts => labelledParts ctx parts
  | .paren s inner => unlessHinted ctx s (inner.labelled ctx chain)
  | .logical s _ left right =>
    unlessHinted ctx s
      ((if chain then ∅ else bare (ctx.chainRecords s left right)) ++
        (left.labelled ctx left.isChain ++ right.labelled ctx right.isChain))
  | .conditional s test consequent alternate =>
    unlessHinted ctx s
      (bare (ctx.conditionalRecords s consequent alternate) ++
        (test.labelled ctx false ++ (consequent.labelled ctx false ++ alternate.labelled ctx false)))
  | .function head key before body after =>
    unlessHinted ctx (head.recordedSpan key) <| named (head.ignorableName? key) <|
      bare (ctx.functionRecords head key body) ++
        (labelledOption ctx key ++ (labelledParts ctx before ++
          (labelledBody ctx (!(head.recordedSpan key).isDummy) body ++ labelledParts ctx after)))
  | .defaulted _ s target value =>
    unlessHinted ctx s
      (bare (ctx.defaultRecords s value) ++ (target.labelled ctx false ++ labelledOption ctx value))
  | .classDeclaration s _ name before heritage after =>
    unlessHinted ctx s
      (name.labelled ctx false ++ (labelledParts ctx before ++
        (labelledOption ctx heritage ++ labelledParts ctx after)))
  | .expression s inner =>
    unlessHinted ctx s (bare (ctx.statementRecords s) ++ inner.labelled ctx false)
  | .simple _ s parts =>
    unlessHinted ctx s (bare (ctx.statementRecords s) ++ labelledParts ctx parts)
  | .compound _ s _ init head body =>
    unlessHinted ctx s
      (bare (ctx.statementRecords s) ++
        (labelledInit ctx (!s.isDummy) init ++ (labelledParts ctx head ++
          ofBody ctx (!s.isDummy) body (body.labelled ctx false))))
  | .ifElse s test consequent alternate =>
    unlessHinted ctx s
      (bare (ctx.ifRecords s) ++
        (test.labelled ctx false ++
          (.unlessAsked (ctx.directives.hintFor? s = some .consequent) consequent.span
            (ofBody ctx (!s.isDummy) consequent (consequent.labelled ctx false)) ++
          labelledElse ctx (ctx.directives.hintFor? s = some .alternate) (!s.isDummy) alternate)))
  | .switch s discriminant cases =>
    unlessHinted ctx s
      (bare (ctx.switchRecords s cases) ++ (discriminant.labelled ctx false ++ labelledCases ctx cases))
  | .bindings s _ declarators => unlessHinted ctx s (labelledDeclarators ctx declarators)
  | .block s statements => unlessHinted ctx s (labelledItems ctx false statements)
  | .exported _ declaration => declaration.labelled ctx false
  | .namespaceBlock _ items => labelledItems ctx false items

def labelledPart (ctx : Context) : Part → LabelledRecords
  | .child _ n => n.labelled ctx false
  | .children _ nodes => labelledNodes ctx nodes

def labelledParts (ctx : Context) : List Part → LabelledRecords
  | [] => ∅
  | p :: rest => labelledPart ctx p ++ labelledParts ctx rest

def labelledNodes (ctx : Context) : List Node → LabelledRecords
  | [] => ∅
  | n :: rest => n.labelled ctx false ++ labelledNodes ctx rest

def labelledOption (ctx : Context) : Option Node → LabelledRecords
  | none => ∅
  | some n => n.labelled ctx false

def labelledInit (ctx : Context) (counted : Bool) : Option Node → LabelledRecords
  | none => ∅
  | some n =>
    match Action.initKey? n with
    | some key => .unlessAsked counted key.span (n.labelled ctx false)
    | none => n.labelled ctx false

def labelledElse (ctx : Context) (asked counted : Bool) : Option Node → LabelledRecords
  | none => ∅
  | some n => .unlessAsked asked n.span (ofBody ctx counted n (n.labelled ctx false))

def labelledBody (ctx : Context) (counted : Bool) : Body → LabelledRecords
  | .absent => ∅
  | .block s statements => unlessHinted ctx s (labelledItems ctx counted statements)
  | .value e =>
    if counted then
      unlessHinted ctx e.span (unlessHinted ctx e.span
        (bare (ctx.statementRecords e.span) ++ e.labelled ctx false))
    else e.labelled ctx false

def labelledItems (ctx : Context) (prologue : Bool) : List Node → LabelledRecords
  | [] => ∅
  | n :: rest =>
    .unlessAsked (prologue && n.isDirective) n.span (n.labelled ctx false) ++
      labelledItems ctx (prologue && n.isDirective) rest

def labelledCase (ctx : Context) : Case → LabelledRecords
  | .mk s test consequent =>
    unlessHinted ctx s (labelledOption ctx test ++ labelledItems ctx false consequent)

def labelledCases (ctx : Context) : List Case → LabelledRecords
  | [] => ∅
  | c :: rest => labelledCase ctx c ++ labelledCases ctx rest

def labelledDeclarator (ctx : Context) : Declarator → LabelledRecords
  | .mk s _ target init =>
    unlessHinted ctx s
      ((if s.isDummy then ∅ else bare (ctx.initializerRecords init)) ++
        (target.labelled ctx false ++ labelledOption ctx init))

def labelledDeclarators (ctx : Context) : List Declarator → LabelledRecords
  | [] => ∅
  | d :: rest => labelledDeclarator ctx d ++ labelledDeclarators ctx rest

end

/-- The records of a program with the names around them. -/
def Program.labelled (ctx : Context) (p : Program) : LabelledRecords := labelledItems ctx true p.body

/-! ### What a list of names leaves -/

section Outside

variable {α : Type} {ignored : List String}

theorem outside_append (l l' : List (List String × α)) :
    outside ignored (l ++ l') = outside ignored l ++ outside ignored l' :=
  List.filter_append l l'

theorem outside_bare (l : List α) :
    outside ignored (l.map fun a => ([],a)) = l.map fun a => ([],a) := by
  refine List.filter_eq_self.mpr fun e he => ?_
  obtain ⟨a,-,rfl⟩ := List.mem_map.mp he
  rfl

theorem map_outside_named (ctx : Context) (name : Option String) (l : List (List String × α)) :
    (outside ignored (l.map fun e => (name.toList ++ e.1,e.2))).map (·.2) =
      if (ctx.ignoring ignored).ignores name then [] else (outside ignored l).map (·.2) := by
  rw [outside,List.filter_map,List.map_map]
  cases name with
  | none => rfl
  | some x =>
    change _ = if ignored.contains x = true then _ else _
    cases hx : ignored.contains x with
    | true =>
      rw [if_pos rfl,List.map_eq_nil_iff,List.filter_eq_nil_iff]
      intro e _
      simp only [Function.comp_apply,Option.toList_some,List.cons_append,List.any_cons,hx,Bool.true_or,
        Bool.not_true,Bool.false_eq_true,not_false_eq_true]
    | false =>
      rw [if_neg Bool.false_ne_true]
      refine congrArg (List.map _) (List.filter_congr fun e _ => ?_)
      simp only [Function.comp_apply,Option.toList_some,List.cons_append,List.nil_append,List.any_cons,hx,
        Bool.false_or]

end Outside

namespace LabelledRecords

variable {ctx : Context} {ignored : List String}

@[simp] theorem leaving_append (a b : LabelledRecords) :
    leaving ignored (a ++ b) = leaving ignored a ++ leaving ignored b := by
  obtain ⟨s,f,l⟩ := a
  obtain ⟨s',f',l'⟩ := b
  change leaving ignored ⟨s ++ s',f ++ f',l ++ l'⟩ = _
  simp only [leaving,outside_append,List.map_append,Records.append_def]

@[simp] theorem leaving_bare (r : Records) : leaving ignored (bare r) = r := by
  have hm : ∀ {α : Type} (l : List α), (outside ignored (l.map fun a => ([],a))).map (·.2) = l := by
    intro α l
    rw [outside_bare,List.map_map]
    exact List.map_id l
  simp only [leaving,bare,hm]

@[simp] theorem leaving_unlessAsked (asked : Bool) (s : Span) (r : LabelledRecords) :
    leaving ignored (unlessAsked asked s r) = .unlessAsked asked s (leaving ignored r) := by
  unfold unlessAsked Records.unlessAsked
  split <;> rfl

theorem leaving_unlessHinted (s : Span) (r : LabelledRecords) :
    leaving ignored (unlessHinted ctx s r) =
      (ctx.ignoring ignored).unlessLeftOut s none (leaving ignored r) := by
  have hl : (ctx.ignoring ignored).leavesOut s none = ctx.directives.skips s := Bool.or_false _
  unfold unlessHinted Context.unlessLeftOut
  rw [hl]
  split <;> rfl

theorem leaving_ofBody (counted : Bool) (body : Node) (r : LabelledRecords) :
    leaving ignored (ofBody ctx counted body r) =
      (ctx.ignoring ignored).bodyRecords counted body (leaving ignored r) := by
  unfold ofBody Context.bodyRecords
  split
  · exact leaving_unlessHinted _ _
  · rfl

/-- Under a name that is ignored nothing is left. -/
theorem leaving_named (s : Span) (name : Option String) (r : LabelledRecords) :
    leaving ignored (unlessHinted ctx s (named name r)) =
      (ctx.ignoring ignored).unlessLeftOut s name (leaving ignored r) := by
  have hn : leaving ignored (named name r) =
      if (ctx.ignoring ignored).ignores name then ∅ else leaving ignored r := by
    simp only [leaving,named,map_outside_named ctx]
    split <;> rfl
  have hl : (ctx.ignoring ignored).leavesOut s none = ctx.directives.skips s := Bool.or_false _
  rw [leaving_unlessHinted,hn,Context.unlessLeftOut,Context.unlessLeftOut,hl,Context.leavesOut]
  change (if ctx.directives.skips s then ∅ else _) =
    if ctx.directives.skips s || (ctx.ignoring ignored).ignores name then _ else _
  cases ctx.directives.skips s <;> cases (ctx.ignoring ignored).ignores name <;> rfl

end LabelledRecords

mutual

theorem Node.leaving_labelled (ctx : Context) (ignored : List String) (chain : Bool) : ∀ n : Node,
    (n.labelled ctx chain).leaving ignored = n.collect (ctx.ignoring ignored) chain
  | .plain _ parts => leaving_labelledParts ctx ignored parts
  | .paren s inner => by
    rw [Node.labelled,Node.collect,leaving_unlessHinted,inner.leaving_labelled]
  | .logical s _ left right => by
    rw [Node.labelled,Node.collect,leaving_unlessHinted,leaving_append,leaving_append,left.leaving_labelled,
      right.leaving_labelled]
    cases chain
    · rw [if_neg Bool.false_ne_true,if_neg Bool.false_ne_true,leaving_bare]
      rfl
    · rfl
  | .conditional s test consequent alternate => by
    rw [Node.labelled,Node.collect,leaving_unlessHinted,leaving_append,leaving_append,leaving_append,leaving_bare,
      test.leaving_labelled,consequent.leaving_labelled,alternate.leaving_labelled]
    rfl
  | .function head key before body after => by
    rw [Node.labelled,Node.collect,leaving_named,leaving_append,leaving_append,leaving_append,leaving_append,
      leaving_bare,leaving_labelledOption,leaving_labelledParts,leaving_labelledBody,leaving_labelledParts]
    rfl
  | .defaulted _ s target value => by
    rw [Node.labelled,Node.collect,leaving_unlessHinted,leaving_append,leaving_append,leaving_bare,
      target.leaving_labelled,leaving_labelledOption]
    rfl
  | .classDeclaration s _ name before heritage after => by
    rw [Node.labelled,Node.collect,leaving_unlessHinted,leaving_append,leaving_append,leaving_append,
      name.leaving_labelled,leaving_labelledParts,leaving_labelledOption,leaving_labelledParts]
  | .expression s inner => by
    rw [Node.labelled,Node.collect,leaving_unlessHinted,leaving_append,leaving_bare,inner.leaving_labelled]
    rfl
  | .simple _ s parts => by
    rw [Node.labelled,Node.collect,leaving_unlessHinted,leaving_append,leaving_bare,leaving_labelledParts]
    rfl
  | .compound _ s _ init head body => by
    rw [Node.labelled,Node.collect,leaving_unlessHinted,leaving_append,leaving_append,leaving_append,leaving_bare,
      leaving_labelledInit,leaving_labelledParts,leaving_ofBody,body.leaving_labelled]
    rfl
  | .ifElse s test consequent alternate => by
    rw [Node.labelled,Node.collect,leaving_unlessHinted,leaving_append,leaving_append,leaving_append,leaving_bare,
      test.leaving_labelled,leaving_unlessAsked,leaving_ofBody,consequent.leaving_labelled,leaving_labelledElse]
    rfl
  | .switch s discriminant cases => by
    rw [Node.labelled,Node.collect,leaving_unlessHinted,leaving_append,leaving_append,leaving_bare,
      discriminant.leaving_labelled,leaving_labelledCases]
    rfl
  | .bindings s _ declarators => by
    rw [Node.labelled,Node.collect,leaving_unlessHinted,leaving_labelledDeclarators]
  | .block s statements => by
    rw [Node.labelled,Node.collect,leaving_unlessHinted,leaving_labelledItems]
  | .exported _ declaration => declaration.leaving_labelled ctx ignored false
  | .namespaceBlock _ items => leaving_labelledItems ctx ignored false items

theorem leaving_labelledPart (ctx : Context) (ignored : List String) : ∀ p : Part,
    (labelledPart ctx p).leaving ignored = collectPart (ctx.ignoring ignored) p
  | .child _ n => n.leaving_labelled ctx ignored false
  | .children _ nodes => leaving_labelledNodes ctx ignored nodes

theorem leaving_labelledParts (ctx : Context) (ignored : List String) : ∀ parts : List Part,
    (labelledParts ctx parts).leaving ignored = collectParts (ctx.ignoring ignored) parts
  | [] => rfl
  | p :: rest => by
    rw [labelledParts,collectParts,leaving_append,leaving_labelledPart,leaving_labelledParts]

theorem leaving_labelledNodes (ctx : Context) (ignored : List String) : ∀ nodes : List Node,
    (labelledNodes ctx nodes).leaving ignored = collectNodes (ctx.ignoring ignored) nodes
  | [] => rfl
  | n :: rest => by
    rw [labelledNodes,collectNodes,leaving_append,n.leaving_labelled,leaving_labelledNodes]

theorem leaving_labelledOption (ctx : Context) (ignored : List String) : ∀ o : Option Node,
    (labelledOption ctx o).leaving ignored = collectOption (ctx.ignoring ignored) o
  | none => rfl
  | some n => n.leaving_labelled ctx ignored false

theorem leaving_labelledInit (ctx : Context) (ignored : List String) (counted : Bool) : ∀ o : Option Node,
    (labelledInit ctx counted o).leaving ignored = collectInit (ctx.ignoring ignored) counted o
  | none => rfl
  | some n => by
    rw [labelledInit,collectInit]
    cases Action.initKey? n with
    | some key => exact (leaving_unlessAsked _ _ _).trans (by rw [n.leaving_labelled])
    | none => exact n.leaving_labelled ctx ignored false

theorem leaving_labelledElse (ctx : Context) (ignored : List String) (asked counted : Bool) :
    ∀ o : Option Node, (labelledElse ctx asked counted o).leaving ignored =
      collectElse (ctx.ignoring ignored) asked counted o
  | none => rfl
  | some n => by
    rw [labelledElse,collectElse,leaving_unlessAsked,leaving_ofBody,n.leaving_labelled]

theorem leaving_labelledBody (ctx : Context) (ignored : List String) (counted : Bool) : ∀ b : Body,
    (labelledBody ctx counted b).leaving ignored = collectBody (ctx.ignoring ignored) counted b
  | .absent => rfl
  | .block s statements => by
    rw [labelledBody,collectBody,leaving_unlessHinted,leaving_labelledItems]
  | .value e => by
    rw [labelledBody,collectBody]
    split
    · rw [leaving_unlessHinted,leaving_unlessHinted,leaving_append,leaving_bare,e.leaving_labelled]
      rfl
    · exact e.leaving_labelled ctx ignored false

theorem leaving_labelledItems (ctx : Context) (ignored : List String) (prologue : Bool) :
    ∀ items : List Node, (labelledItems ctx prologue items).leaving ignored =
      collectItems (ctx.ignoring ignored) prologue items
  | [] => rfl
  | n :: rest => by
    rw [labelledItems,collectItems,leaving_append,leaving_unlessAsked,n.leaving_labelled,
      leaving_labelledItems]

theorem leaving_labelledCases (ctx : Context) (ignored : List String) : ∀ cases : List Case,
    (labelledCases ctx cases).leaving ignored = collectCases (ctx.ignoring ignored) cases
  | [] => rfl
  | .mk s test consequent :: rest => by
    rw [labelledCases,labelledCase,collectCases,collectCase,leaving_append,leaving_unlessHinted,
      leaving_append,leaving_labelledOption,leaving_labelledItems,leaving_labelledCases]

theorem leaving_labelledDeclarators (ctx : Context) (ignored : List String) :
    ∀ declarators : List Declarator, (labelledDeclarators ctx declarators).leaving ignored =
      collectDeclarators (ctx.ignoring ignored) declarators
  | [] => rfl
  | .mk s _ target init :: rest => by
    rw [labelledDeclarators,labelledDeclarator,collectDeclarators,collectDeclarator,leaving_append,
      leaving_unlessHinted,leaving_append,leaving_append,target.leaving_labelled,leaving_labelledOption,
      leaving_labelledDeclarators]
    split
    · rfl
    · rw [leaving_bare]
      rfl

end

/-- Under any list of names to ignore a program calls for the records that carry none of them. -/
theorem Program.leaving_labelled (ctx : Context) (ignored : List String) (p : Program) :
    (p.labelled ctx).leaving ignored = p.collect (ctx.ignoring ignored) :=
  leaving_labelledItems ctx ignored true p.body

/-! ### More names to ignore -/

/-- The entries that carry a name of the longer list that is not in the shorter one. -/
def newlyIgnored {α : Type} (less more : List String) (e : List String × α) : Bool :=
  e.1.any fun name => decide (name ∈ more ∧ name ∉ less)

/-- Of two tables, read off labelled entries: the first has what carries no name of the shorter list, and
the second is the first without what carries a name that is only in the longer one. -/
structure Drops {α : Type} (less more : List String) (entries : List (List String × α))
    (first second : List α) : Prop where
  first_eq : first = (outside less entries).map (·.2)
  second_eq : second = ((outside less entries).filter fun e => !newlyIgnored less more e).map (·.2)
  sublist : second.Sublist first

section Drops

variable {α β : Type} {less more : List String}

theorem outside_of_subset (h : ∀ name ∈ less, name ∈ more) (entries : List (List String × α)) :
    outside more entries = (outside less entries).filter fun e => !newlyIgnored less more e := by
  rw [outside,outside,List.filter_filter]
  refine List.filter_congr fun e _ => ?_
  rw [Bool.eq_iff_iff]
  simp only [newlyIgnored,Bool.not_eq_true',Bool.and_eq_true,List.any_eq_false,List.contains_iff_mem,
    decide_eq_true_eq]
  constructor
  · exact fun hm => ⟨fun x hx hn => hm x hx hn.1,fun x hx hl => hm x hx (h x hl)⟩
  · exact fun hm x hx hmore => hm.1 x hx ⟨hmore,hm.2 x hx⟩

theorem drops_outside (h : ∀ name ∈ less, name ∈ more) (entries : List (List String × α)) :
    Drops less more entries ((outside less entries).map (·.2)) ((outside more entries).map (·.2)) := by
  rw [outside_of_subset h]
  exact ⟨rfl,rfl,List.filter_sublist.map _⟩

theorem drops_map (h : ∀ name ∈ less, name ∈ more) (entries : List (List String × α)) (f : α → β) :
    Drops less more (entries.map fun e => (e.1,f e.2)) (((outside less entries).map (·.2)).map f)
      (((outside more entries).map (·.2)).map f) := by
  have hf : ∀ ignored, ((outside ignored entries).map (·.2)).map f =
      (outside ignored (entries.map fun e => (e.1,f e.2))).map (·.2) := by
    intro ignored
    rw [outside,outside,List.filter_map,List.map_map,List.map_map]
    rfl
  rw [hf,hf]
  exact drops_outside h _

end Drops

/-- With more names to ignore nothing more is counted: the statements, the places of the functions and the
branches are those counted before, in their order, without those recorded at or inside a method or named
function expression whose name is ignored now and was not before. -/
theorem ignoring_more_drops {program : Program} {file : SourceFile} (options : Options)
    {batch batch' : Batch} {less more : List String} {o o' : Outcome}
    (hd : program.hasDistinctPlaces = true) (hsub : ∀ name ∈ less, name ∈ more)
    (h : (instrument program file { options with ignoredMethods := less } batch).outcome = .ok o)
    (hs : o.status = .instrumented)
    (h' : (instrument program file { options with ignoredMethods := more } batch').outcome = .ok o')
    (hs' : o'.status = .instrumented) :
    let labelled := program.labelled (file.context options)
    Drops less more labelled.statements o.coverage.statementMap o'.coverage.statementMap ∧
    Drops less more (labelled.functions.map fun e => (e.1,(e.2.decl,e.2.loc)))
      (o.coverage.fnMap.map fun r => (r.decl,r.loc)) (o'.coverage.fnMap.map fun r => (r.decl,r.loc)) ∧
    Drops less more (labelled.branches.map fun e => (e.1,(e.2.kind,e.2.loc,e.2.locations)))
      (o.coverage.branchMap.map fun b => (b.kind,b.loc,b.locations))
      (o'.coverage.branchMap.map fun b => (b.kind,b.loc,b.locations)) := by
  obtain ⟨hf,ho,-⟩ := instrument_of_instrumented h hs
  obtain ⟨hf',ho',-⟩ := instrument_of_instrumented h' hs'
  obtain ⟨hst,hfn,hbr⟩ := (Program.extends_walk hd hf).freeze.of_startMap
  obtain ⟨hst',hfn',hbr'⟩ := (Program.extends_walk hd hf').freeze.of_startMap
  have hc : ∀ ignored, program.collect (file.context { options with ignoredMethods := ignored }) =
      (program.labelled (file.context options)).leaving ignored :=
    fun ignored => (program.leaving_labelled (file.context options) ignored).symm
  have hrecord : ∀ es : List FunctionEntry,
      (es.mapIdx fun i e => e.record i).map (fun r => (r.decl,r.loc)) = es.map fun e => (e.decl,e.loc) := by
    intro es
    refine List.ext_getElem? fun i => ?_
    rw [List.getElem?_map,List.getElem?_mapIdx,List.getElem?_map,Option.map_map]
    rfl
  rw [ho,ho',hst,hfn,hbr,hst',hfn',hbr',hc,hc,hrecord,hrecord]
  exact ⟨drops_outside hsub _,drops_map hsub _ fun e : FunctionEntry => (e.decl,e.loc),
    drops_map hsub _ fun b : BranchRecord => (b.kind,b.loc,b.locations)⟩

/-- Of the methods that are counted one is ignored by its name. -/
theorem ignoring_more_drops_method :
    methodsProgram.hasDistinctPlaces = true ∧
    ∃ o o', (instrument methodsProgram methodsFile { ignoredMethods := [] } (.new none)).outcome = .ok o ∧
      o.status = .instrumented ∧
      (instrument methodsProgram methodsFile { ignoredMethods := ["n"] } (.new none)).outcome = .ok o' ∧
      o'.status = .instrumented ∧ o.coverage.statementMap.length = 2 ∧
      o'.coverage.statementMap.length = 1 ∧ o.coverage.fnMap.length = 1 ∧ o'.coverage.fnMap.length = 0 := by
  have hd : methodsProgram.hasDistinctPlaces = true := by decide +kernel
  have hb : methodsProgram.binds (identifierOf methodsFile.path) = false := by decide +kernel
  have hi : ∀ ignored ∈ [[],["n"]], ∃ o,
      (instrument methodsProgram methodsFile { ignoredMethods := ignored } (.new none)).outcome = .ok o ∧
      o.status = .instrumented := by
    intro ignored hm
    refine exists_instrumented rfl hb ?_
    revert ignored
    decide +kernel
  obtain ⟨o,h,hs⟩ := hi [] (by simp)
  obtain ⟨o',h',hs'⟩ := hi ["n"] (by simp)
  have hsub : ∀ name ∈ ([] : List String), name ∈ ["n"] := fun _ hn => absurd hn List.not_mem_nil
  obtain ⟨hst,hfn,-⟩ := ignoring_more_drops {} hd hsub h hs h' hs'
  have hcounts :
      let labelled := methodsProgram.labelled (methodsFile.context {})
      let functions := labelled.functions.map fun e => (e.1,(e.2.decl,e.2.loc))
      (outside [] labelled.statements).length = 2 ∧ (outside ["n"] labelled.statements).length = 1 ∧
      (outside [] functions).length = 1 ∧ (outside ["n"] functions).length = 0 := by
    decide +kernel
  obtain ⟨hst₁,hst₂,hfn₁,hfn₂⟩ := hcounts
  refine ⟨hd,o,o',h,hs,h',hs',?_,?_,?_,?_⟩
  · rw [hst.first_eq,List.length_map,hst₁]
  · rw [hst.second_eq,List.length_map,← outside_of_subset hsub,hst₂]
  · rw [← List.length_map (fun r : FunctionRecord => (r.decl,r.loc)),hfn.first_eq,List.length_map,hfn₁]
  · rw [← List.length_map (fun r : FunctionRecord => (r.decl,r.loc)),hfn.second_eq,List.length_map,
      ← outside_of_subset hsub,hfn₂]

end CoverageCounters
