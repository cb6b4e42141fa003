import Mathlib.Data.List.Forall2
import CoverageCounters.Proofs.Reached

/-!
The branches of an instrumented program, chains apart, are those of the constructs at which counting is
on: one for each `if`, conditional expression, switch and default value, with the paths that hints leave
to it, in the order of the walk.
-/

namespace CoverageCounters

/-- Constructs with a branch of their own, chains apart. -/
def Node.isChoice : Node → Bool
  | ifElse _ _ _ _ | conditional _ _ _ _ | switch _ _ _ => true
  | defaulted _ _ _ value => value.isSome
  | _ => false

namespace Context

/-- Places in the text, each with its location. -/
def Locates (ctx : Context) (spans : List Span) (locations : List Location) : Prop :=
  spans.map ctx.location? = locations.map some

/-- The branch of a construct. Both paths of an `if` are where the `if` is, and its hint leaves one out,
whether or not there is an `else`; the sides of a conditional expression and the cases of a switch are
paths unless a hint leaves them out; a default value is the one path of its branch. -/
inductive Describes (ctx : Context) : Node → BranchRecord → Prop where
  | ifElse {s : Span} {loc : Location} (test consequent : Node) (alternate : Option Node)
      (h : ctx.location? s = some loc) :
      Describes ctx (.ifElse s test consequent alternate)
        ⟨loc,.ifElse,
          (if ctx.directives.hintFor? s = some .consequent then [] else [loc]) ++
            (if ctx.directives.hintFor? s = some .alternate then [] else [loc]),
          loc.start.line⟩
  | conditional {s : Span} {loc : Location} {consequent alternate : Node} {paths : List Location}
      (test : Node) (h : ctx.location? s = some loc)
      (hp : ctx.Locates
        (([consequent,alternate].filter fun n =>
          ctx.directives.hintForExpression? n ≠ some .next).map Node.span) paths) :
      Describes ctx (.conditional s test consequent alternate)
        ⟨loc,.conditional,paths,loc.start.line⟩
  | switch {s : Span} {loc : Location} {cases : List Case} {paths : List Location}
      (discriminant : Node) (h : ctx.location? s = some loc)
      (hp : ctx.Locates
        ((cases.filter fun c => ctx.directives.hintFor? c.span ≠ some .next).map Case.span) paths) :
      Describes ctx (.switch s discriminant cases) ⟨loc,.switch,paths,loc.start.line⟩
  | defaulted {s : Span} {loc path : Location} {value : Node} (form : DefaultForm) (target : Node)
      (h : ctx.location? s = some loc) (hp : ctx.location? value.span = some path) :
      Describes ctx (.defaulted form s target (some value))
        ⟨loc,.defaultValue,[path],loc.start.line⟩

variable {ctx : Context}

/-- What is left of some things after those that are left out have a location each. -/
theorem locates_filterMap {α : Type} (place : α → Span) (omitted : α → Bool) (keep : α → Bool)
    (xs : List α) (hk : ∀ x, keep x = !omitted x) (hs : ∀ x ∈ xs, (place x).isDummy = false) :
    ctx.Locates ((xs.filter keep).map place)
      (xs.filterMap fun x => if omitted x then none else ctx.location? (place x)) := by
  induction xs with
  | nil => rfl
  | cons x rest ih =>
    have hr := ih fun y hy => hs y (List.mem_cons_of_mem _ hy)
    obtain ⟨loc,hl⟩ := ctx.exists_location (hs x List.mem_cons_self)
    unfold Locates at hr ⊢
    cases ho : omitted x with
    | true => simpa [hk,ho] using hr
    | false => simpa [hk,ho,hl] using hr

end Context

namespace Node

variable {ctx : Context} {n : Node}

theorem hasPlaces_of_mem_reached {operand : Bool} (h : n.hasPlaces = true) :
    ∀ site ∈ n.reached ctx operand, site.2.hasPlaces = true := by
  induction n using induction_children generalizing operand with
  | step n ih =>
    intro site hs
    rw [reached_eq] at hs
    split at hs
    · cases hs
    · rcases List.mem_cons.mp hs with rfl | hs
      · exact h
      · obtain ⟨m,hm,hs⟩ := List.mem_flatMap.mp hs
        have hc := mem_children_of_mem_kept hm
        exact ih m hc (hasPlaces_of_mem_children h hc) site hs

theorem branches_of_location? {s : Span} {loc : Location} (h : ctx.location? s = some loc)
    (kind : BranchKind) (paths : Location → List Location) :
    (ctx.branchRecords kind s paths).branches = [⟨loc,kind,paths loc,loc.start.line⟩] := by
  rw [Context.branchRecords,h]
  rfl

theorem ownBranches_of_isChoice (hp : n.hasPlaces = true) (hn : n.isChoice = true) (operand : Bool) :
    ∃ r, n.ownBranches ctx operand = [r] ∧ r.kind ≠ .binary ∧ ctx.Describes n r := by
  have hreal : ∀ s ∈ n.spans, s.isDummy = false := fun s hs => isDummy_eq_false hp hs
  cases n with
  | ifElse s test consequent alternate =>
    obtain ⟨loc,hl⟩ := ctx.exists_location (hreal s List.mem_cons_self)
    exact ⟨_,branches_of_location? hl _ _,by simp,.ifElse test consequent alternate hl⟩
  | conditional s test consequent alternate =>
    obtain ⟨loc,hl⟩ := ctx.exists_location (hreal s List.mem_cons_self)
    refine ⟨_,branches_of_location? hl _ _,by simp,.conditional test hl ?_⟩
    refine Context.locates_filterMap span ctx.directives.skipsOperand _ _ (fun m => ?_) fun m hm => ?_
    · simp [Directives.skipsOperand]
    · refine hreal m.span (List.mem_cons_of_mem _ ?_)
      exact List.mem_map_of_mem hm
  | switch s discriminant cases =>
    obtain ⟨loc,hl⟩ := ctx.exists_location (hreal s List.mem_cons_self)
    refine ⟨⟨loc,.switch,ctx.casePaths cases,loc.start.line⟩,?_,by simp,.switch discriminant hl ?_⟩
    · rw [ownBranches,Context.switchRecords,branches_append,branches_statementRecords,List.append_nil]
      exact branches_of_location? hl _ _
    · refine Context.locates_filterMap Case.span (fun c => ctx.leavesOut c.span none) _ _ (fun c => ?_)
        fun c hc => ?_
      · simp [Context.leavesOut,Directives.skips]
      · exact hreal c.span (List.mem_cons_of_mem _ (List.mem_map_of_mem hc))
  | defaulted form s target value =>
    obtain ⟨v,rfl⟩ := Option.isSome_iff_exists.mp hn
    obtain ⟨loc,hl⟩ := ctx.exists_location (hreal s List.mem_cons_self)
    obtain ⟨path,hv⟩ := ctx.exists_location (s := v.span) (hreal v.span (by simp [spans]))
    refine ⟨⟨loc,.defaultValue,[path],loc.start.line⟩,?_,by simp,.defaulted form target hl hv⟩
    rw [ownBranches,Context.defaultRecords,branches_of_location? hl,hv]
    rfl
  | _ => cases hn

theorem kind_of_mem_ownBranches {operand : Bool} {r : BranchRecord} (hn : n.isChoice = false)
    (hr : r ∈ n.ownBranches ctx operand) : r.kind = .binary := by
  cases n with
  | logical s operator left right =>
    rw [ownBranches] at hr
    split at hr
    · cases hr
    · obtain ⟨loc,-,rfl⟩ := List.mem_map.mp hr
      rfl
  | defaulted form s target value =>
    cases value with
    | none => cases hr
    | some v => cases hn
  | ifElse | conditional | switch => cases hn
  | _ => cases hr

end Node

/-- Where each chosen element yields one result that is looked for and no other element yields any, the
results stand beside the elements. -/
theorem forall₂_filter_flatMap {α β : Type} {R : α → β → Prop} {xs : List α} {f : α → List β}
    {p : α → Bool} {q : β → Bool}
    (hp : ∀ x ∈ xs, p x = true → ∃ r, f x = [r] ∧ q r = true ∧ R x r)
    (hn : ∀ x ∈ xs, p x = false → ∀ r ∈ f x, q r = false) :
    List.Forall₂ R (xs.filter p) ((xs.flatMap f).filter q) := by
  induction xs with
  | nil => exact .nil
  | cons x rest ih =>
    have hr := ih (fun y hy => hp y (List.mem_cons_of_mem _ hy))
      fun y hy => hn y (List.mem_cons_of_mem _ hy)
    rw [List.flatMap_cons,List.filter_append]
    cases hx : p x with
    | true =>
      obtain ⟨r,hf,hq,h⟩ := hp x List.mem_cons_self hx
      rw [List.filter_cons_of_pos hx,hf,List.filter_cons_of_pos hq]
      exact .cons h hr
    | false =>
      have hf : (f x).filter q = [] := by
        rw [List.filter_eq_nil_iff]
        exact fun r hm => Bool.eq_false_iff.mp (hn x List.mem_cons_self hx r hm)
      rw [List.filter_cons_of_neg (by simp [hx]),hf]
      exact hr

namespace Program

variable {ctx : Context} {p : Program}

/-- The constructs of a program at which counting is on that have a branch of their own, chains apart. -/
def choices (ctx : Context) (p : Program) : List Node :=
  ((p.reached ctx).map Prod.snd).filter Node.isChoice

theorem hasPlaces_of_mem_reached (h : p.hasPlaces = true) :
    ∀ site ∈ p.reached ctx, site.2.hasPlaces = true := by
  intro site hs
  obtain ⟨n,hn,hs⟩ := List.mem_flatMap.mp hs
  have hp := List.all_eq_true.mp h n ((List.dropWhile_sublist _).subset hn)
  exact Node.hasPlaces_of_mem_reached hp site hs

theorem branchMap_walk {path : String} {options : Options} (hp : p.hasPlaces = true)
    (hd : p.hasDistinctPlaces = true) (hf : (p.walk ctx (startMap path options)).2.failure = none) :
    (p.walk ctx (startMap path options)).2.coverage.freeze.2.data.branchMap =
      branchesOf ctx (p.reached ctx) := by
  rw [(extends_walk hd hf).freeze.of_startMap.2.2,branches_collect hp]

end Program

/-- The branches of an instrumented program that are no chains stand beside the constructs at which
counting is on and that call for one: each construct has its branch, and there is no other. -/
theorem choices_instrument {program : Program} {file : SourceFile} {options : Options} {batch : Batch}
    {o : Outcome} (hp : program.hasPlaces = true) (hd : program.hasDistinctPlaces = true)
    (h : (instrument program file options batch).outcome = .ok o) (hs : o.status = .instrumented) :
    List.Forall₂ (file.context options).Describes (program.choices (file.context options))
      (o.coverage.branchMap.filter fun r => r.kind ≠ .binary) := by
  obtain ⟨hf,ho,-⟩ := instrument_of_instrumented h hs
  rw [ho,Program.branchMap_walk hp hd hf,Program.choices,List.filter_map,List.forall₂_map_left_iff]
  refine forall₂_filter_flatMap (fun site hsite hc => ?_) fun site _ hc r hr => ?_
  · obtain ⟨r,hr,hk,hdesc⟩ := Node.ownBranches_of_isChoice
      (Program.hasPlaces_of_mem_reached hp site hsite) hc site.1
    exact ⟨r,hr,decide_eq_true hk,hdesc⟩
  · exact decide_eq_false (not_not_intro (Node.kind_of_mem_ownBranches hc hr))

theorem choices_instrument_sample :
    sampleProgram.hasPlaces = true ∧ sampleProgram.hasDistinctPlaces = true ∧
    ∃ o, (instrument sampleProgram sampleFile {} (.new none)).outcome = .ok o ∧
      o.status = .instrumented ∧
      List.Forall₂ (sampleFile.context {}).Describes (sampleProgram.choices (sampleFile.context {}))
        (o.coverage.branchMap.filter fun r => r.kind ≠ .binary) := by
  have hp : sampleProgram.hasPlaces = true := by decide +kernel
  have hd : sampleProgram.hasDistinctPlaces = true := by decide +kernel
  obtain ⟨o,h,hs⟩ := exists_instrumented_sample
  exact ⟨hp,hd,o,h,hs,choices_instrument hp hd h hs⟩

end CoverageCounters
