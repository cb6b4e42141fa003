import CoverageCounters.Proofs.Laying
import CoverageCounters.Proofs.Safety

/-!
Every counter of an instrumented program stands at the construct that it counts. By induction on the
tree, the walk of each node puts the counters of the node where they belong; only the place in front of
a list item is reached from below, by the statement at that item, by one behind its labels, or by an
initializer that takes its name.
-/

namespace CoverageCounters

open Walk Traversal

namespace Node

variable {ctx : Context}

/-- The children of a node that stand where no statement can be. -/
def inlineNodes : Node → List Node
  | block _ _ | namespaceBlock _ _ => []
  | function _ key before (.value e) after =>
    key.toList ++ before.flatMap Part.nodes ++ [e] ++ after.flatMap Part.nodes
  | function _ key before _ after =>
    key.toList ++ before.flatMap Part.nodes ++ after.flatMap Part.nodes
  | simple form _ parts =>
    match form, parts with
    | .labeled, [.child _ label,.child "body" _] => [label]
    | _, _ => parts.flatMap Part.nodes
  | compound _ _ _ init head _ => init.toList ++ head.flatMap Part.nodes
  | ifElse _ test _ _ => [test]
  | switch _ discriminant cases =>
    discriminant :: cases.flatMap fun c => c.test.toList
  | n => n.children

/-- Whether statements stand only in lists, as bodies and behind labels. -/
def hasStatementsInPlace (n : Node) : Bool :=
  n.subnodes.all fun m => m.inlineNodes.all fun e => !e.isCounted

theorem hasStatementsInPlace_of_mem_children {m n : Node} (h : n.hasStatementsInPlace = true)
    (hm : m ∈ n.children) : m.hasStatementsInPlace = true := by
  rw [hasStatementsInPlace,subnodes,List.all_cons,Bool.and_eq_true] at h
  rw [hasStatementsInPlace,List.all_eq_true]
  exact fun x hx => List.all_eq_true.mp h.2 x (subnodes_subset_of_mem_children hm hx)

theorem isCounted_of_mem_inlineNodes {m n : Node} (h : n.hasStatementsInPlace = true)
    (hm : m ∈ n.inlineNodes) : m.isCounted = false := by
  rw [hasStatementsInPlace,subnodes,List.all_cons,Bool.and_eq_true] at h
  simpa using List.all_eq_true.mp h.1 m hm

theorem isCounted_walk {n : Node} (h : n.isCounted = false) (given : List (Option Counter))
    (t : Traversal) : ((n.walk ctx given).run t).1.isCounted = false := by
  cases n with
  | expression | simple | compound | switch => cases h
  | ifElse s test consequent alternate =>
    rw [walk,run_visiting]
    dsimp only
    split <;> rfl
  | _ => rfl

/-- An initializer that takes its name still does when it is walked. -/
theorem takesName_walk (n : Node) (given : List (Option Counter)) (t : Traversal) :
    ((n.walk ctx given).run t).1.takesName = n.takesName := by
  induction n using induction_children generalizing given t with
  | step n ih =>
    cases n with
    | paren s inner => exact ih inner List.mem_cons_self given _
    | ifElse s test consequent alternate =>
      rw [walk,run_visiting]
      dsimp only
      split <;> rfl
    | _ => rfl

/-- A node that is walked behind a counter. -/
theorem exists_run_behind (ctx : Context) (c : Counter) (n : Node) (given : List (Option Counter))
    (t : Traversal) :
    ∃ e, ((Walk.behind? ctx (some c) (n.walk ctx given)).run t).1 = Build.after (c.node ctx.identifier) e ∧
      e.span = n.span := by
  rw [Walk.behind?,behind,passing,run_visiting_pure]
  exact ⟨_,rfl,n.span_walk given _⟩

variable {m : CoverageMap}

theorem Laid.inline {n : Node} (h : n.Laid ctx m) (hn : n.isCounted = false) : n.LaidInline ctx m :=
  fun given => (h false given (fun hb => by cases hb)).mono (fun _ _ => id)
    fun t _ hs => not_inFront (isCounted_walk hn given t) hs

end Node

section Declarators

variable {ctx : Context} {m : CoverageMap}

/-- A counter stands in every declaration with the given declarator. -/
def DeclaratorHeld (ctx : Context) (d : FileCoverage) (declarator : Declarator) (c : Counter) : Prop :=
  ∀ s data declarators, declarator ∈ declarators → Held ctx d [.bindings s data declarators] c

/-- The place of an initializer that takes its name. -/
def NamedAt (declarator : Declarator) (r : Span) : Prop :=
  ∃ s data target e, declarator = .mk s data target (some e) ∧ e.takesName = true ∧ r = e.span

theorem DeclaratorHeld.of_inside {d : FileCoverage} {declarator : Declarator} {c : Counter}
    (h : Held ctx d declarator.nodes c) : DeclaratorHeld ctx d declarator c :=
  fun _ _ _ hd => h.inside fun _ hx => List.mem_flatMap.mpr ⟨declarator,hd,hx⟩

theorem walkDeclarator_lays {hoistable : Bool} {d : Declarator} (hs : d.span.isDummy = false)
    (h : ∀ n ∈ d.nodes, n.LaidInline ctx m) :
    Lays ctx m false (walkDeclarator ctx hoistable d) (DeclaratorHeld ctx m.data)
      fun out r => hoistable = true ∧ NamedAt out r := by
  obtain ⟨s,data,target,init⟩ := d
  rw [walkDeclarator]
  refine .visiting
    (fun x c => x = some c ∧ ∃ i, ∃ e ∈ init, c = .statement i ∧ m.data.CountsAt ctx e.span c)
    (fun x r => x = none ∧ hoistable = true ∧ ∃ e ∈ init, e.takesName = true ∧ r = e.span)
    (.coverInitializer hoistable init) hs (fun t x u => Action.coverInitializer_accounts) (fun x => ?_) ?_ ?_
  · refine (h target List.mem_cons_self []).bind (fun target' => ?_) fun target' t c hc => ?_
    · refine (walkOption_lays x fun n hn => h n (List.mem_cons_of_mem _ hn)).map _ (fun init' c hc => ?_)
        fun _ _ => False.elim
      exact .of_inside hc.tail
    · exact .of_inside (hc.of_mem List.mem_cons_self)
  -- an initializer that is counted in place stands behind its counter
  · rintro x t c ⟨rfl,i,e,rfl,rfl,hc⟩ s' data' declarators hd
    obtain ⟨e',he,hs⟩ := Node.exists_run_behind ctx (.statement i) e [] ((target.walk ctx []).run t).2
    change .mk s data _ (some ((behind? ctx (some (.statement i)) (e.walk ctx [])).run
      ((target.walk ctx []).run t).2).1) ∈ declarators at hd
    rw [he] at hd
    refine .here (.initializer hd ?_)
    rwa [hs]
  · rintro x t r ⟨rfl,hh,e,rfl,he,rfl⟩
    exact ⟨hh,s,data,_,_,rfl,(e.takesName_walk [] _).trans he,(e.span_walk [] _).symm⟩

theorem walkDeclarators_lays {hoistable : Bool} {declarators : List Declarator}
    (hs : ∀ d ∈ declarators, d.span.isDummy = false)
    (h : ∀ n ∈ declarators.flatMap Declarator.nodes, n.LaidInline ctx m) :
    Lays ctx m false (walkDeclarators ctx hoistable declarators)
      (fun out c => ∃ d ∈ out, DeclaratorHeld ctx m.data d c)
      fun out r => hoistable = true ∧ ∃ d ∈ out, NamedAt d r := by
  induction declarators with
  | nil => exact .pure []
  | cons d rest ih =>
    rw [List.flatMap_cons] at h
    rw [walkDeclarators]
    refine (walkDeclarator_lays (hs d List.mem_cons_self) fun n hn =>
      h n (List.mem_append_left _ hn)).bind_front (fun x => ?_)
      (fun x t c hc => ⟨x,List.mem_cons_self,hc⟩) fun x t r hr => ⟨hr.1,x,List.mem_cons_self,hr.2⟩
    refine (ih (fun d hd => hs d (List.mem_cons_of_mem _ hd)) fun n hn =>
      h n (List.mem_append_right _ hn)).map _ (fun xs c hc => ?_) fun xs r hr => ?_
    · obtain ⟨d,hd,hc⟩ := hc
      exact ⟨d,List.mem_cons_of_mem _ hd,hc⟩
    · obtain ⟨hh,d,hd,hr⟩ := hr
      exact ⟨hh,d,List.mem_cons_of_mem _ hd,hr⟩

end Declarators

section Cases

variable {ctx : Context} {m : CoverageMap} {switch : Key}

/-- A counter stands in every switch at the given place with the given case. -/
def CaseHeld (ctx : Context) (d : FileCoverage) (s : Span) (case : Case) (c : Counter) : Prop :=
  ∀ discriminant cases, case ∈ cases → Held ctx d [.switch s discriminant cases] c

theorem CaseHeld.of_inside {d : FileCoverage} {s : Span} {case : Case} {c : Counter}
    (h : Held ctx d case.nodes c) : CaseHeld ctx d s case c :=
  fun _ _ hc => h.inside fun _ hx => List.mem_cons_of_mem _ (List.mem_flatMap.mpr ⟨case,hc,hx⟩)

theorem ListHeld.caseHeld {d : FileCoverage} {s r : Span} {test : Option Node} {items : List Node}
    {c : Counter} (h : ListHeld ctx d items c) : CaseHeld ctx d s (.mk r test items) c :=
  fun _ _ hc => h.held (List.mem_map.mpr ⟨_,hc,rfl⟩) fun _ hx =>
    List.mem_cons_of_mem _ (List.mem_flatMap.mpr ⟨_,hc,List.mem_append_right _ hx⟩)

theorem walkCase_lays {c : Case} (hs : c.span.isDummy = false)
    (htest : ∀ n ∈ c.test.toList, n.LaidInline ctx m) (h : ∀ n ∈ c.consequent, n.Laid ctx m) :
    Lays ctx m false (walkCase ctx switch c) (CaseHeld ctx m.data switch.span) Nowhere := by
  obtain ⟨s,test,consequent⟩ := c
  rw [walkCase]
  refine .visiting (fun x c => x = some c ∧ ∃ b j, c = .branch b j ∧ m.data.BranchAt ctx switch.span b)
    Nowhere (.coverCase s switch) hs (fun t x u hn hrun _ => Action.coverCase_accounts hn hrun) (fun x => ?_) ?_
    fun _ _ _ => False.elim
  · refine (walkOption_lays none htest).bind (fun test' => ?_) fun test' t c hc => ?_
    · refine .afterCounter x fun first => (walkItems_lays h).map _ (fun items c hc => ?_) fun _ _ => id
      obtain ⟨item,hi,hc⟩ := hc
      exact (hc.placed (List.mem_append_right first hi)).caseHeld
    · exact .of_inside hc.append_left
  · rintro x t c ⟨rfl,b,j,rfl,hb⟩ discriminant cases hc
    rw [run_bind,run_counterItem_bind] at hc
    exact .here (.case hc hb)

theorem walkCases_lays {cases : List Case} (hs : ∀ c ∈ cases, c.span.isDummy = false)
    (htest : ∀ c ∈ cases, ∀ n ∈ c.test.toList, n.LaidInline ctx m)
    (h : ∀ c ∈ cases, ∀ n ∈ c.consequent, n.Laid ctx m) :
    Lays ctx m false (walkCases ctx switch cases)
      (fun out c => ∃ case ∈ out, CaseHeld ctx m.data switch.span case c) Nowhere := by
  induction cases with
  | nil => exact .pure []
  | cons c rest ih =>
    rw [walkCases]
    refine (walkCase_lays (hs c List.mem_cons_self) (htest c List.mem_cons_self)
      (h c List.mem_cons_self)).bind (fun x => ?_) fun x t c hc => ⟨x,List.mem_cons_self,hc⟩
    refine (ih (fun c hc => hs c (List.mem_cons_of_mem _ hc)) (fun c hc => htest c (List.mem_cons_of_mem _ hc))
      fun c hc => h c (List.mem_cons_of_mem _ hc)).map _ (fun xs c hc => ?_) fun _ _ => id
    obtain ⟨case,hm,hc⟩ := hc
    exact ⟨case,List.mem_cons_of_mem _ hm,hc⟩

end Cases

/-- Each operand of a chain that is counted stands behind its counter. -/
theorem Wraps.held {ctx : Context} {d : FileCoverage} {b first : Nat} {n out : Node} {operands : List Node}
    (h : Wraps ctx b first n out operands) {j : Nat} {o : Node} (ho : operands[j]? = some o)
    (hc : d.CountsAt ctx o.span (.branch b (first + j))) : Held ctx d [out] (.branch b (first + j)) := by
  induction h generalizing j with
  | bare => cases ho
  | hinted => cases ho
  | @operand first n e hn hs hm =>
    obtain ⟨hj,ho⟩ := List.getElem?_eq_some_iff.mp ho
    have hj : j = 0 := Nat.lt_one_iff.mp hj
    subst hj
    subst ho
    refine .here (.value ?_)
    rw [hm.span]
    exact hc
  | @logical first s left right l r xs ys operator hs hl hr ihl ihr =>
    by_cases hj : j < xs.length
    · rw [List.getElem?_append_left hj] at ho
      exact (ihl ho hc).of_child (.head _)
    · have hle := Nat.le_of_not_lt hj
      rw [List.getElem?_append_right hle] at ho
      have he : first + xs.length + (j - xs.length) = first + j := by omega
      rw [← he] at hc ⊢
      exact (ihr ho hc).of_child (.tail _ (.head _))
  | paren hn hs hm ih => exact (ih ho hc).of_child (.head _)

namespace Node

variable {ctx : Context} {m : CoverageMap}

theorem Laid.of_false {n : Node} (hd : n.declaresVariables = false)
    (h : ∀ given, Lays ctx m false (n.walk ctx given) (fun x => Held ctx m.data [x]) fun x => x.InFront false) :
    n.Laid ctx m := by
  intro hoist given hh
  cases hoist with
  | false => exact h given
  | true =>
    rw [hd] at hh
    cases hh rfl

theorem Laid.of_inline {n : Node} (hd : n.declaresVariables = false) (h : n.LaidInline ctx m) :
    n.Laid ctx m :=
  .of_false hd fun given => (h given).mono (fun _ _ => id) fun _ _ => False.elim

/-- A statement that is counted in front of itself, and otherwise only walked. -/
theorem lays_statement {key : Key} {action : Action Unit} {inside : Walk Node} {s : Span}
    (ha : Action.Acting ctx key (Within fun _ => True) action) (hs : key.span.isDummy = false)
    (hact : ∀ t x u, t.Noted ctx m → action.run.run t = (.ok x,u) → u.coverage.Keeps m →
      Accounts ctx m t u (fun _ => False) (· = s))
    (hi : Lays ctx m false inside (fun x => Held ctx m.data [x]) fun x => x.InFront false)
    (hown : ∀ t, (inside.run t).1.isCounted = true ∧ (inside.run t).1.span = s) :
    Lays ctx m false (visiting ctx key none action () fun _ => inside) (fun x => Held ctx m.data [x])
      fun x => x.InFront false := by
  refine .visiting (fun _ _ => False) (fun _ => (· = s)) ha hs hact (fun _ => hi)
    (fun _ _ _ => False.elim) fun _ t r hr => ?_
  obtain ⟨hc,he⟩ := hown t
  rw [hr,← he]
  exact .own hc

theorem logical_laid {s : Span} {operator : LogicalOperator} {left right : Node}
    (hp : (logical s operator left right).hasPlaces = true) (hl : left.LaidInline ctx m)
    (hr : right.LaidInline ctx m) : (logical s operator left right).LaidInline ctx m := by
  have hs : s.isDummy = false := isDummy_eq_false hp List.mem_cons_self
  have hreal : ∀ n ∈ ctx.directives.operands left ++ ctx.directives.operands right,
      n.span.isDummy = false := fun n => isDummy_of_mem_chain hp
  have hw : ∀ counters, Lays ctx m false (walkChain ctx s operator left right counters)
      (fun x => Held ctx m.data [x]) Nowhere := fun counters =>
    .withChain true ((Lays.operand hl).bind (fun l => (Lays.operand hr).map _
      (fun r c hc => hc.of_child (.tail _ (.head _))) fun _ _ => id) fun l t c hc => hc.of_child (.head _))
  intro given
  refine ⟨walk_runs_true _ given,fun t ht hb hf hk => ?_⟩
  cases hc : t.inChain with
  | true =>
    rw [run_walk_inChain hc] at hf hk ⊢
    have hv : Lays ctx m false (visiting ctx ⟨.logical,s⟩ none (pure []) [] fun _ : List (Option Counter) =>
        walkChain ctx s operator left right given) (fun x => Held ctx m.data [x]) Nowhere :=
      .visiting (fun _ _ => False) Nowhere (.pure []) hs
        (fun t x u hn hrun _ => by cases hrun; exact .refl hn) (fun _ => hw given)
        (fun _ _ _ => False.elim) fun _ _ _ => False.elim
    exact hv.accounts t ht hb hf hk
  | false =>
    rw [run_walk_outermost hc] at hf hk ⊢
    let operands := ctx.directives.operands left ++ ctx.directives.operands right
    have hv : Lays ctx m false (visiting ctx ⟨.logical,s⟩ none (Action.coverChain ctx s left right) []
        (walkChain ctx s operator left right)) (fun x => Held ctx m.data [x]) Nowhere := by
      refine .visiting_of (fun _ => True)
        (fun x c => ctx.directives.skips s = false ∧ ∃ b j o, x = ctx.numbered b 0 operands ∧
          (ctx.countedOperands operands)[j]? = some o ∧ c = .branch b j ∧ m.data.CountsAt ctx o.span c)
        Nowhere (.coverChain s left right) hs (fun x => (hw x).runs)
        (fun t x u hn hskip hrun hkeep => ⟨trivial,?_⟩) (fun x _ => hw x) ?_ fun _ _ _ => False.elim
      · refine (Action.coverChain_accounts hreal hn hrun hkeep).mono (fun c hc => ⟨hskip,?_⟩) fun _ => id
        obtain ⟨j,o,ho,rfl,hat⟩ := hc
        exact ⟨_,j,o,Action.coverChain_numbers hn.parallel hs hreal hrun,ho,rfl,hat⟩
      · rintro x t c hq ⟨hskip,b,j,o,rfl,ho,rfl,hat⟩
        have hwraps : Wraps ctx b 0 (logical s operator left right)
            ((walkChain ctx s operator left right (ctx.numbered b 0 operands)).run t).1
            (ctx.countedOperands operands) :=
          walkChain_wraps operator (of_decide_eq_false hskip) hq fun n _ => n.walk_wraps
        rw [← Nat.zero_add j] at hat ⊢
        exact hwraps.held ho hat
    exact hv.accounts t ht hb hf hk

/-- A value that is chosen stands behind the counter of its path. -/
theorem held_behind {n : Node} {b j : Nat} (hc : m.data.CountsAt ctx n.span (.branch b j)) (t : Traversal) :
    Held ctx m.data [((Walk.behind? ctx (some (.branch b j)) (n.walk ctx [])).run t).1] (.branch b j) := by
  obtain ⟨e,he,hs⟩ := exists_run_behind ctx (.branch b j) n [] t
  rw [he]
  refine .here (.value ?_)
  rwa [hs]

theorem conditional_laid {s : Span} {test consequent alternate : Node} (hs : s.isDummy = false)
    (ht : test.LaidInline ctx m) (hc : consequent.LaidInline ctx m) (ha : alternate.LaidInline ctx m) :
    (conditional s test consequent alternate).LaidInline ctx m := by
  intro given
  rw [walk]
  refine .visiting (fun x c => ∃ b j, c = .branch b j ∧ (x.1 = some c ∧ m.data.CountsAt ctx consequent.span c ∨
    x.2 = some c ∧ m.data.CountsAt ctx alternate.span c)) Nowhere (.coverConditional s _ _) hs
    (fun t x u => Action.coverConditional_accounts) (fun x => ?_) ?_ fun _ _ _ => False.elim
  · refine (ht []).bind (fun test' => ?_) fun _ _ _ h => h.of_child (.head _)
    refine ((hc []).behind? x.1).bind (fun consequent' => ?_) fun _ _ _ h => h.of_child (.tail _ (.head _))
    exact ((ha []).behind? x.2).map _ (fun _ _ h => h.of_child (.tail _ (.tail _ (.head _)))) fun _ _ => id
  · rintro ⟨_,_⟩ t c ⟨b,j,rfl,⟨rfl,hat⟩ | ⟨rfl,hat⟩⟩
    · exact (held_behind hat _).of_child (.tail _ (.head _))
    · exact (held_behind hat _).of_child (.tail _ (.tail _ (.head _)))

theorem defaulted_laid {form : DefaultForm} {s : Span} {target : Node} {value : Option Node}
    (hs : s.isDummy = false) (ht : target.LaidInline ctx m) (hv : ∀ n ∈ value.toList, n.LaidInline ctx m) :
    (defaulted form s target value).LaidInline ctx m := by
  intro given
  rw [walk]
  refine .visiting (fun x c => x = some c ∧ ∃ b j, ∃ v ∈ value, c = .branch b j ∧ m.data.CountsAt ctx v.span c)
    Nowhere (.coverDefault s value) hs (fun t x u => Action.coverDefault_accounts) (fun x => ?_) ?_
    fun _ _ _ => False.elim
  · refine (ht []).bind (fun target' => ?_) fun _ _ _ h => h.of_child (.head _)
    exact (walkOption_lays x hv).map _ (fun _ _ h => h.inside fun _ => .tail _) fun _ _ => id
  · rintro x t c ⟨rfl,b,j,v,rfl,rfl,hat⟩
    exact (held_behind hat _).of_child (.tail _ (.head _))

/-- The body of a function that is counted is a block with the counter among its statements. -/
theorem exists_run_walkBody (ctx : Context) {body : Body} {p : Span × List Node}
    (hb : p ∈ Action.bodyContent? body) (c : Counter) (t : Traversal) :
    ∃ statements, ((walkBody ctx (some c) body).run t).1 = .block p.1 statements ∧
      c.statementNode ctx.identifier ∈ statements := by
  cases body with
  | absent => cases hb
  | block s statements =>
    cases hb
    rw [walkBody,walkStatements_eq,passing,run_visiting_pure]
    simp only [run_bind,run_counterItem,run_pure]
    exact ⟨_,rfl,by simp⟩
  | value e =>
    cases hb
    rw [walkBody,asReturn,passing,run_visiting_pure,run_counterItem_bind]
    exact ⟨_,rfl,by simp⟩

theorem function_laid {head : FunctionHead} {key : Option Node} {before : List Part} {body : Body}
    {after : List Part} (hp : (function head key before body after).hasPlaces = true)
    (hk : ∀ n ∈ key.toList, n.LaidInline ctx m) (hb : ∀ n ∈ before.flatMap Part.nodes, n.LaidInline ctx m)
    (hv : ∀ e, body = .value e → e.LaidInline ctx m) (hi : ∀ n ∈ body.statements, n.Laid ctx m)
    (ha : ∀ n ∈ after.flatMap Part.nodes, n.LaidInline ctx m) :
    (function head key before body after).LaidInline ctx m := by
  have hreal : ∀ p ∈ Action.bodyContent? body, p.1.isDummy = false := fun p hm =>
    isDummy_eq_false hp (List.mem_cons_of_mem _ (List.mem_map.mpr ⟨p,Option.mem_toList.mpr hm,rfl⟩))
  have hvalue : ∀ e, body = .value e → e.span.isDummy = false ∧ e.LaidInline ctx m := by
    rintro e rfl
    exact ⟨hreal _ rfl,hv e rfl⟩
  intro given
  rw [walk]
  refine .visiting
    (fun x c => x = some c ∧ ∃ i, ∃ p ∈ Action.bodyContent? body, c = .function i ∧ m.data.CountsAt ctx p.1 c)
    Nowhere (.coverFunction head key body fun _ _ _ _ => Or.inr trivial) (isDummy_eq_false hp List.mem_cons_self)
    (fun t x u => Action.coverFunction_accounts hreal) (fun x => ?_) ?_ fun _ _ _ => False.elim
  · refine (walkOption_lays none hk).bind (fun key' => ?_) fun _ _ _ h => h.inside fun _ hx => ?_
    · refine (walkParts_lays hb).bind (fun before' => ?_) fun _ _ _ h => h.inside fun _ hx => ?_
      · refine (walkBody_lays x hvalue hi).bind (fun body' => ?_) fun _ _ _ h => h _ _ _ _
        exact (walkParts_lays ha).map _ (fun _ _ h => h.inside fun _ hx => List.mem_append_right _ hx)
          fun _ _ => id
      · exact List.mem_append_left _ (List.mem_append_left _ (List.mem_append_right _ hx))
    · exact List.mem_append_left _ (List.mem_append_left _ (List.mem_append_left _ hx))
  · rintro x t c ⟨rfl,i,p,hbody,rfl,hat⟩
    obtain ⟨statements,he,hc⟩ := exists_run_walkBody ctx hbody (.function i)
      ((walkParts ctx before).run ((walkOption ctx none key).run t).2).2
    change Held ctx m.data [.function head _ _ ((walkBody ctx (some (.function i)) body).run
      ((walkParts ctx before).run ((walkOption ctx none key).run t).2).2).1 _] _
    rw [he]
    exact .here (.function hc hat)

theorem classDeclaration_laid {s : Span} {data : Attributes} {name : Node} {before : List Part}
    {heritage : Option Node} {after : List Part} (hs : s.isDummy = false)
    (h : ∀ n ∈ (classDeclaration s data name before heritage after).children, n.LaidInline ctx m) :
    (classDeclaration s data name before heritage after).LaidInline ctx m := by
  simp only [children,List.mem_append,List.mem_cons] at h
  intro given
  rw [walk]
  refine .visiting (fun _ _ => False) Nowhere (.pure true) hs
    (fun t x u hn hrun _ => by cases hrun; exact .refl hn) (fun counted => ?_) (fun _ _ _ => False.elim)
    fun _ _ _ => False.elim
  refine (h name (.inl (.inl (.inl rfl))) []).bind (fun name' => ?_) fun _ _ _ h => h.of_child (.head _)
  refine (walkParts_lays fun n hn => h n (.inl (.inl (.inr hn)))).bind (fun before' => ?_)
    fun _ _ _ h => h.inside fun _ hx => .tail _ (List.mem_append_left _ (List.mem_append_left _ hx))
  refine (walkHeritage_lays counted fun n hn => h n (.inl (.inr hn))).bind (fun heritage' => ?_)
    fun _ _ _ h => h.inside fun _ hx => .tail _ (List.mem_append_left _ (List.mem_append_right _ hx))
  exact (walkParts_lays fun n hn => h n (.inr hn)).map _
    (fun _ _ h => h.inside fun _ hx => .tail _ (List.mem_append_right _ hx)) fun _ _ => id

/-- A statement behind a label is in front of the label. -/
theorem labeled_laid {field : String} {s : Span} {label body : Node} (hs : s.isDummy = false)
    (hl : label.LaidInline ctx m) (hb : body.Laid ctx m) :
    (simple .labeled s [.child field label,.child "body" body]).Laid ctx m := by
  refine .of_false rfl fun given => ?_
  rw [walk]
  refine lays_statement (.coverStatement _ s) hs (fun t x u => Action.coverStatement_accounts) ?_
    fun t => ⟨rfl,rfl⟩
  change Lays ctx m false (label.walk ctx [] >>= fun label' => body.walk ctx [] >>= fun body' =>
    pure (simple .labeled s [.child field label',.child "body" body'])) _ _
  refine (hl []).bind (fun label' => ?_) fun _ _ _ h => h.of_child (.head _)
  refine (hb false [] fun h => by cases h).map _ (fun _ _ h => h.of_child (.tail _ (.head _)))
    fun body' r hr => ?_
  exact .labeled (.tail _ (.head _)) hr

theorem compound_laid {form : CompoundForm} {s : Span} {data : Attributes} {init : Option Node}
    {head : List Part} {body : Node} (hs : s.isDummy = false) (hi : ∀ n ∈ init.toList, n.LaidInline ctx m)
    (hh : ∀ n ∈ head.flatMap Part.nodes, n.LaidInline ctx m) (hb : body.Laid ctx m) :
    (compound form s data init head body).Laid ctx m := by
  refine .of_false rfl fun given => ?_
  rw [walk]
  have hr : ∀ counted, Runs ctx (fun _ => True) (asBody ctx counted body fun given => body.walk ctx given) :=
    fun _ => .asBody (fun _ _ => trivial) body.walk_runs_true
  refine .visiting_of (· = true) (fun _ _ => False) (fun _ => (· = s))
    (.coverCompound form s fun _ _ => Or.inr trivial) hs
    (fun counted => (walkOption_lays none hi).runs.bind fun _ => (walkParts_lays hh).runs.bind fun _ =>
      (hr counted).bind fun _ => .pure _)
    (fun t x u hn _ hrun hkeep => Action.coverCompound_accounts hn hrun hkeep) ?_
    (fun _ _ _ _ => False.elim) fun x t r hr => ?_
  · rintro counted rfl
    refine (walkOption_lays none hi).bind (fun init' => ?_) fun _ _ _ h => h.inside fun _ hx => ?_
    · refine (walkParts_lays hh).bind (fun head' => ?_) fun _ _ _ h => h.inside fun _ hx => ?_
      · exact (hb.inBlock none).map _
          (fun _ _ h => h.of_child (List.mem_append_right _ List.mem_cons_self)) fun _ _ => False.elim
      · exact List.mem_append_left _ (List.mem_append_right _ hx)
    · exact List.mem_append_left _ (List.mem_append_left _ hx)
  · rw [hr]
    exact .own rfl

/-- A side of an `if` that is counted is a block with the counter first. -/
theorem exists_run_inBlock (ctx : Context) (c : Counter) (n : Node) (t : Traversal) :
    ∃ place rest, ((inBlock ctx (some c) n fun given => n.walk ctx given).run t).1 =
      .block place (c.statementNode ctx.identifier :: rest) := by
  unfold Walk.inBlock
  split
  · rename_i hb
    cases n with
    | block s statements =>
      dsimp only
      rw [Node.walk,passing,run_visiting_pure]
      exact ⟨_,_,congrArg Prod.fst (run_counterItem_bind c _ _)⟩
    | _ => cases hb
  · rw [passing,run_visiting_pure,run_counterItem_bind]
    exact ⟨_,_,rfl⟩

theorem exists_run_walkElse (ctx : Context) (c : Counter) (o : Option Node) (t : Traversal) :
    ∃ place rest, ((walkElse ctx (some c) o).run t).1 =
      .block place (c.statementNode ctx.identifier :: rest) := by
  cases o with
  | none =>
    rw [walkElse,passing,run_visiting_pure,run_counterItem_bind]
    exact ⟨_,_,rfl⟩
  | some n =>
    rw [walkElse]
    exact exists_run_inBlock ctx c n t

theorem ifElse_laid {s : Span} {test consequent : Node} {alternate : Option Node} (hs : s.isDummy = false)
    (ht : test.LaidInline ctx m) (hc : consequent.Laid ctx m) (ha : ∀ n ∈ alternate.toList, n.Laid ctx m) :
    (ifElse s test consequent alternate).LaidInline ctx m := by
  intro given
  rw [walk]
  have hr : ∀ n : Node, Runs ctx (fun _ => True) (n.walk ctx []) := fun n => n.walk_runs_true []
  refine .visiting_of (fun x => ∃ sides, x = some sides)
    (fun x c => ∃ sides, x = some sides ∧ (sides.1 = some c ∨ sides.2 = some c) ∧
      ∃ b j, c = .branch b j ∧ m.data.BranchAt ctx s b)
    Nowhere (.coverIf s (Or.inr trivial) (Or.inr trivial)) hs (fun x => ?_) (fun t x u hn _ hrun hkeep => ?_)
    ?_ ?_ fun _ _ _ => False.elim
  · refine (hr test).bind fun _ => ?_
    cases x with
    | none =>
      exact (hr consequent).bind fun _ =>
        (walkOption_runs none fun n _ => n.walk_runs_true).bind fun _ => .pure _
    | some sides =>
      exact (hc.inBlock sides.1).runs.bind fun _ => (walkElse_lays sides.2 ha).runs.bind fun _ => .pure _
  · obtain ⟨sides,rfl,hacc⟩ := Action.coverIf_accounts hn hrun hkeep
    exact ⟨⟨sides,rfl⟩,hacc.mono (fun c h => ⟨sides,rfl,h⟩) fun _ => id⟩
  · rintro x ⟨sides,rfl⟩
    refine (ht []).bind (fun test' => ?_) fun _ _ _ h => h.of_child (.head _)
    refine (hc.inBlock sides.1).bind (fun consequent' => ?_) fun _ _ _ h => h.of_child (.tail _ (.head _))
    exact (walkElse_lays sides.2 ha).map _ (fun _ _ h => h.of_child (.tail _ (.tail _ (.head _)))) fun _ _ => id
  · rintro x t c - ⟨⟨_,_⟩,rfl,rfl | rfl,b,j,rfl,hat⟩
    · obtain ⟨place,rest,he⟩ := exists_run_inBlock ctx (.branch b j) consequent ((test.walk ctx []).run t).2
      change Held ctx m.data [.ifElse s _ ((inBlock ctx (some (.branch b j)) consequent
        fun given => consequent.walk ctx given).run ((test.walk ctx []).run t).2).1 _] _
      rw [he]
      exact .here (.consequent hat)
    · rename_i first
      let u := ((inBlock ctx first consequent fun given => consequent.walk ctx given).run
        ((test.walk ctx []).run t).2).2
      obtain ⟨place,rest,he⟩ := exists_run_walkElse ctx (.branch b j) alternate u
      change Held ctx m.data [.ifElse s _ _ (some ((walkElse ctx (some (.branch b j)) alternate).run u).1)] _
      rw [he]
      exact .here (.alternate hat)

theorem switch_laid {s : Span} {discriminant : Node} {cases : List Case} (hs : s.isDummy = false)
    (hc : ∀ c ∈ cases, c.span.isDummy = false) (hd : discriminant.LaidInline ctx m)
    (ht : ∀ c ∈ cases, ∀ n ∈ c.test.toList, n.LaidInline ctx m)
    (hi : ∀ c ∈ cases, ∀ n ∈ c.consequent, n.Laid ctx m) : (switch s discriminant cases).Laid ctx m := by
  refine .of_false rfl fun given => ?_
  rw [walk]
  refine lays_statement (.coverSwitch s) hs (fun t x u => Action.coverSwitch_accounts) ?_ fun t => ⟨rfl,rfl⟩
  refine (hd []).bind (fun discriminant' => ?_) fun _ _ _ h => h.of_child (.head _)
  refine (walkCases_lays hc ht hi).map _ (fun cases' c h => ?_) fun _ _ => False.elim
  obtain ⟨case,hm,h⟩ := h
  exact h _ _ hm

theorem bindings_laid {s : Span} {data : Attributes} {declarators : List Declarator}
    (hs : ∀ d ∈ declarators, d.span.isDummy = false)
    (h : ∀ n ∈ declarators.flatMap Declarator.nodes, n.LaidInline ctx m) :
    (bindings s data declarators).Laid ctx m := by
  intro hoist given _
  rw [walk]
  have hr : ∀ hoistable, Runs ctx (fun _ => True) (walkDeclarators ctx hoistable declarators) :=
    fun _ => (walkDeclarators_lays hs h).runs
  refine .takeHoist (fun b => .passing (Or.inr trivial) ((hr b).bind fun _ => .pure _)) (.passing ?_)
  refine (walkDeclarators_lays hs h).map _ (fun out c hc => ?_) fun out r hr => ?_
  · obtain ⟨d,hd,hc⟩ := hc
    exact hc _ _ _ hd
  · obtain ⟨rfl,-,hd,s,data,target,e,rfl,he,rfl⟩ := hr
    exact .initializer hd he

theorem exported_laid {s : Span} {declaration : Node} (hn : declaration.isCounted = false)
    (h : declaration.Laid ctx m) : (exported s declaration).Laid ctx m := by
  intro hoist given hd
  rw [walk]
  cases hoist with
  | false =>
    exact (h.inline hn []).map _ (fun _ _ h => h.of_child (.head _)) fun _ _ => False.elim
  | true =>
    cases declaration with
    | bindings r data declarators =>
      have hw : Lays ctx m true ((bindings r data declarators).walk ctx []) (fun x => Held ctx m.data [x])
          fun x place => (∃ declared, x = .bindings r data declared) ∧ x.InFront true place :=
        (h true [] fun _ => rfl).mono (fun _ _ => id) fun _ _ hs => ⟨⟨_,rfl⟩,hs⟩
      refine hw.map _ (fun _ _ h => h.of_child (.head _)) ?_
      rintro x place ⟨⟨declared,rfl⟩,hs⟩
      cases hs with
      | own hn => cases hn
      | initializer hd he => exact .initializer hd he
    | _ => cases hd rfl

theorem inlineNodes_subset_children (n : Node) : n.inlineNodes ⊆ n.children := by
  intro x hx
  unfold inlineNodes at hx
  split at hx
  · cases hx
  · cases hx
  · exact hx
  · simp only [children,List.mem_append] at hx ⊢
    rcases hx with (hx | hx) | hx
    · exact .inl (.inl (.inl hx))
    · exact .inl (.inl (.inr hx))
    · exact .inr hx
  · split at hx
    · rw [List.mem_singleton.mp hx]
      exact .head _
    · exact hx
  · exact List.mem_append_left _ hx
  · rw [List.mem_singleton.mp hx]
    exact .head _
  · simp only [children,List.mem_cons,List.mem_flatMap] at hx ⊢
    refine hx.imp id ?_
    rintro ⟨⟨s,test,consequent⟩,hc,hx⟩
    exact ⟨_,hc,List.mem_append_left _ hx⟩
  · exact hx

theorem mem_inlineNodes_function {head : FunctionHead} {key : Option Node} {before : List Part} {body : Body}
    {after : List Part} {n : Node}
    (h : n ∈ key.toList ++ before.flatMap Part.nodes ++ after.flatMap Part.nodes) :
    n ∈ (function head key before body after).inlineNodes := by
  cases body with
  | value e =>
    exact (List.mem_append.mp h).elim (fun h => List.mem_append_left _ (List.mem_append_left _ h))
      (List.mem_append_right _)
  | _ => exact h

/-- Only a label has a statement among its parts. -/
theorem simple_inlineNodes (form : SimpleForm) (s : Span) (parts : List Part) :
    (∃ field label body, form = .labeled ∧ parts = [.child field label,.child "body" body]) ∨
      (simple form s parts).inlineNodes = (simple form s parts).children := by
  unfold inlineNodes
  dsimp only
  split
  · exact .inl ⟨_,_,_,rfl,rfl⟩
  · exact .inr rfl

/-- The walk of a node puts its counters in place, by induction on the tree. -/
theorem walk_laid (n : Node) (hp : n.hasPlaces = true) (hi : n.hasStatementsInPlace = true) :
    n.Laid ctx m := by
  induction n using induction_children with
  | step n ih =>
    have hc : ∀ k ∈ n.children, k.Laid ctx m := fun k hk =>
      ih k hk (hasPlaces_of_mem_children hp hk) (hasStatementsInPlace_of_mem_children hi hk)
    have hin : ∀ k ∈ n.inlineNodes, k.LaidInline ctx m := fun k hk =>
      (hc k (inlineNodes_subset_children n hk)).inline (isCounted_of_mem_inlineNodes hi hk)
    have hreal : ∀ s ∈ n.spans, s.isDummy = false := fun s hs => isDummy_eq_false hp hs
    clear ih
    cases n with
    | plain head parts =>
      refine .of_inline rfl fun given => ?_
      exact (walkParts_lays hin).map _ (fun _ _ h => h.inside fun _ => id) fun _ _ => id
    | paren s inner =>
      refine .of_inline rfl fun given => .passing ?_
      exact (hin inner (.head _) given).map _ (fun _ _ h => h.of_child (.head _)) fun _ _ => id
    | logical s operator left right =>
      exact .of_inline rfl (logical_laid hp (hin left (.head _)) (hin right (.tail _ (.head _))))
    | conditional s test consequent alternate =>
      exact .of_inline rfl (conditional_laid (hreal s (.head _)) (hin test (.head _))
        (hin consequent (.tail _ (.head _))) (hin alternate (.tail _ (.tail _ (.head _)))))
    | function head key before body after =>
      have hparts : ∀ n ∈ key.toList ++ before.flatMap Part.nodes ++ after.flatMap Part.nodes,
          n.LaidInline ctx m := fun n hn => hin n (mem_inlineNodes_function hn)
      simp only [List.mem_append] at hparts
      refine .of_inline rfl (function_laid hp (fun n hn => hparts n (.inl (.inl hn)))
        (fun n hn => hparts n (.inl (.inr hn))) ?_ (fun n hn => hc n ?_) fun n hn => hparts n (.inr hn))
      · rintro e rfl
        exact hin e (List.mem_append_left _ (List.mem_append_right _ (.head _)))
      · exact List.mem_append_left _ (List.mem_append_right _ (body.statements_subset hn))
    | defaulted form s target value =>
      exact .of_inline rfl (defaulted_laid (hreal s (.head _)) (hin target (.head _)) fun n hn => hin n (.tail _ hn))
    | classDeclaration s data name before heritage after =>
      exact .of_inline rfl (classDeclaration_laid (hreal s (.head _)) hin)
    | expression s inner =>
      refine .of_false rfl fun given => ?_
      refine lays_statement (.coverStatement _ s) (hreal s (.head _))
        (fun t x u => Action.coverStatement_accounts) ?_ fun t => ⟨rfl,rfl⟩
      exact (hin inner (.head _) []).map _ (fun _ _ h => h.of_child (.head _)) fun _ _ => False.elim
    | simple form s parts =>
      obtain ⟨field,label,body,rfl,rfl⟩ | hchildren := simple_inlineNodes form s parts
      · exact labeled_laid (hreal s (.head _)) (hin label (.head _)) (hc body (.tail _ (.head _)))
      · rw [hchildren] at hin
        refine .of_false rfl fun given => ?_
        refine lays_statement (.coverStatement _ s) (hreal s (.head _))
          (fun t x u => Action.coverStatement_accounts) ?_ fun t => ⟨rfl,rfl⟩
        exact (walkParts_lays hin).map _ (fun _ _ h => h.inside fun _ => id) fun _ _ => False.elim
    | compound form s data init head body =>
      exact compound_laid (hreal s (.head _)) (fun n hn => hin n (List.mem_append_left _ hn))
        (fun n hn => hin n (List.mem_append_right _ hn)) (hc body (List.mem_append_right _ (.head _)))
    | ifElse s test consequent alternate =>
      exact .of_inline rfl (ifElse_laid (hreal s (.head _)) (hin test (.head _)) (hc consequent (.tail _ (.head _)))
        fun n hn => hc n (.tail _ (.tail _ hn)))
    | switch s discriminant cases =>
      refine switch_laid (hreal s (.head _)) (fun c hm => hreal _ (.tail _ (List.mem_map.mpr ⟨c,hm,rfl⟩)))
        (hin discriminant (.head _)) (fun c hm n hn => hin n (.tail _ (List.mem_flatMap.mpr ⟨c,hm,hn⟩)))
        fun c hm n hn => hc n (.tail _ (List.mem_flatMap.mpr ⟨c,hm,?_⟩))
      obtain ⟨r,test,consequent⟩ := c
      exact List.mem_append_right _ hn
    | bindings s data declarators =>
      refine bindings_laid (fun d hd => hreal _ (.tail _ (List.mem_flatMap.mpr ⟨d,hd,?_⟩))) hin
      obtain ⟨r,data,target,init⟩ := d
      exact .head _
    | block s statements =>
      refine .of_inline rfl fun given => .passing (.afterCounter _ fun first =>
        (walkItems_lays hc).map _ (fun items c h => ?_) fun _ _ => id)
      obtain ⟨item,hm,h⟩ := h
      exact (h.placed (List.mem_append_right first hm)).held (List.mem_singleton_self _) fun _ => id
    | exported s declaration =>
      exact exported_laid (isCounted_of_mem_inlineNodes hi (.head _)) (hc declaration (.head _))
    | namespaceBlock s items =>
      refine .of_inline rfl fun given => (walkItems_lays hc).map _ (fun items c h => ?_) fun _ _ => id
      obtain ⟨item,hm,h⟩ := h
      exact (h.placed hm).held (List.mem_singleton_self _) fun _ => id

end Node

/-- The directives at the head of a body end before the first statement that is none. -/
theorem prologueLength_append_cons_le {n : Node} (before rest : List Node) (h : n.isDirective = false) :
    prologueLength (before ++ n :: rest) ≤ before.length := by
  rw [prologueLength,List.takeWhile_append]
  split
  · simp [h]
  · exact (List.takeWhile_sublist _).length_le

namespace Program

variable {ctx : Context} {p : Program} {coverage m : CoverageMap} {c : Counter}

/-- Whether statements of a program stand only in lists, as bodies and behind labels. -/
def hasStatementsInPlace (p : Program) : Bool := p.body.all Node.hasStatementsInPlace

/-- Each counter that a walk adds to the tables stands in the walked program. -/
theorem listHeld_walk (hp : p.hasPlaces = true) (hi : p.hasStatementsInPlace = true)
    (hc : coverage.Parallel) (hf : (p.walk ctx coverage).2.failure = none)
    (hk : (p.walk ctx coverage).2.coverage.Keeps m)
    (h : (p.walk ctx coverage).2.coverage.data.has c = true) :
    coverage.data.has c = true ∨ ListHeld ctx m.data (p.walk ctx coverage).1.body c := by
  have hlaid : ∀ n ∈ p.body, n.Laid ctx m := fun n hn =>
    n.walk_laid (List.all_eq_true.mp hp n hn) (List.all_eq_true.mp hi n hn)
  have hsteady : Steady ctx m { Traversal.start coverage with marks := p.prologueMarks } := by
    refine ⟨⟨hc,fun key b hb => ?_⟩,fun a ha => (by cases ha),List.forall_mem_nil _⟩
    rw [branch?_prologueMarks] at hb
    cases hb
  obtain ⟨new,-,hnew,hcount⟩ := ((walkItems_lays hlaid).accounts _ hsteady rfl hf hk).counters
  rcases hcount c h with hold | hqueued | ⟨item,hm,hheld⟩
  · exact .inl hold
  · obtain ⟨-,-,-,⟨⟩,-⟩ := hnew _ hqueued
  · exact .inr (hheld.placed hm)

/-- What is put behind the directives at the head of a program does not come between a counter and what
it counts. -/
theorem listHeld_prepend {d : FileCoverage} (nodes : List Node) (h : ListHeld ctx d p.body c) :
    ListHeld ctx d (p.prepend nodes).body c := by
  rcases h with ⟨n,hn,hs⟩ | ⟨i,rfl,before,between,item,after,s,he,hb,hs,hat⟩
  · exact .inl ⟨n,nodes_subset_prepend p nodes hn,hs⟩
  · have hle : prologueLength p.body ≤ before.length := by
      rw [he]
      exact prologueLength_append_cons_le before _ rfl
    have hbody : (p.prepend nodes).body = p.body.take (prologueLength p.body) ++ nodes ++
        p.body.drop (prologueLength p.body) := rfl
    have hsplit : (p.prepend nodes).body =
        (before.take (prologueLength p.body) ++ nodes ++ before.drop (prologueLength p.body)) ++
          (Counter.statement i).statementNode ctx.identifier :: (between ++ item :: after) := by
      rw [hbody]
      generalize prologueLength p.body = k at hle
      rw [he,List.take_append_of_le_length hle,List.drop_append_of_le_length hle,List.append_assoc,
        List.append_assoc,List.append_assoc]
    exact .inr ⟨i,rfl,_,between,item,after,s,hsplit,hb,hs,hat⟩

end Program

/-- Each counter in the tables of an instrumented program stands at the construct that it counts: in front
of an item of the program, or in a list, a declaration, a function, an `if`, a switch or a value inside.
The pass puts it in once. -/
theorem counters_stand_instrument {program : Program} {file : SourceFile} {options : Options} {batch : Batch}
    {o : Outcome} {c : Counter} (hp : program.hasPlaces = true) (hi : program.hasStatementsInPlace = true)
    (h : (instrument program file options batch).outcome = .ok o) (hs : o.status = .instrumented)
    (hc : o.coverage.has c = true) :
    ((∃ i, c = .statement i ∧ Leads (file.context options) o.coverage
        (instrument program file options batch).program.body i) ∨
      ∃ n ∈ (instrument program file options batch).program.nodes,
        StandsIn (file.context options) o.coverage n c) ∧
    ((instrument program file options batch).program.counters (identifierOf file.path)).count c =
      (program.counters (identifierOf file.path)).count c + 1 := by
  have hcount := count_counters_of_instrumented h hs (identifierOf file.path) c
  rw [if_pos ⟨rfl,hc⟩] at hcount
  refine ⟨?_,hcount⟩
  obtain ⟨hf,ho,hprogram⟩ := instrument_of_instrumented h hs
  rw [ho,has_freeze] at hc
  have hk := CoverageMap.keeps_after
    (program.walk (file.context options) (startMap file.path options)).2.coverage [.freeze]
  have hheld := Program.listHeld_walk hp hi (startMap_parallel file.path options) hf hk hc
  rcases hheld with hold | hheld
  · have hz := entries_startMap file.path options c
    rw [CoverageMap.entries,hold] at hz
    cases hz
  · rw [hprogram,ho]
    exact (Program.listHeld_prepend _ hheld).symm

theorem counters_stand_sample :
    sampleProgram.hasPlaces = true ∧ sampleProgram.hasStatementsInPlace = true ∧
    ∃ o, (instrument sampleProgram sampleFile {} (.new none)).outcome = .ok o ∧
      o.status = .instrumented ∧ o.coverage.has (.branch 1 0) = true ∧
      ((∃ i, Counter.branch 1 0 = .statement i ∧ Leads (sampleFile.context {}) o.coverage
          (instrument sampleProgram sampleFile {} (.new none)).program.body i) ∨
        ∃ n ∈ (instrument sampleProgram sampleFile {} (.new none)).program.nodes,
          StandsIn (sampleFile.context {}) o.coverage n (.branch 1 0)) ∧
      ((instrument sampleProgram sampleFile {} (.new none)).program.counters
        (identifierOf sampleFile.path)).count (.branch 1 0) = 1 := by
  have hp : sampleProgram.hasPlaces = true := by decide +kernel
  have hi : sampleProgram.hasStatementsInPlace = true := by decide +kernel
  obtain ⟨o,h,hs⟩ := exists_instrumented_sample
  have hc : o.coverage.has (.branch 1 0) = true := by
    rw [(instrument_of_instrumented h hs).2.1,has_freeze]
    decide +kernel
  obtain ⟨hstands,hcount⟩ := counters_stand_instrument hp hi h hs hc
  have hzero : (sampleProgram.counters (identifierOf sampleFile.path)).count (.branch 1 0) = 0 := by
    decide +kernel
  rw [hzero] at hcount
  exact ⟨hp,hi,o,h,hs,hc,hstands,hcount⟩

end CoverageCounters
