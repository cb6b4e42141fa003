import CoverageCounters.Proofs.Collected

/-!
The constructs of a program at which counting is on. A construct leaves itself out by the hint in front
of it or by its name, and some constructs leave out a part: a loop its init clause, an `if` the side that
its hint names, a function the directives at the head of its body. Of what is left, the branches that the
collector reads off are those of each construct, one after the other.
-/

namespace CoverageCounters

namespace Context

variable (ctx : Context)

/-- The body of a statement. One that is no block stands in a block of its own, at the same place. -/
def keptBody (body : Node) : List Node :=
  if !body.isBlock && ctx.leavesOut body.span none then [] else [body]

/-- The nodes of a case or a declarator, which a hint in front of it leaves out. -/
def keptNodes (s : Span) (nodes : List Node) : List Node :=
  if ctx.leavesOut s none then [] else nodes

end Context

/-- What is counted in the body of a function. -/
def Body.kept (ctx : Context) : Body → List Node
  | .absent => []
  | .block s statements => ctx.keptNodes s (statements.dropWhile Node.isDirective)
  | .value e => ctx.keptNodes e.span [e]

namespace Node

/-- Whether a node leaves itself out, with all that is inside. -/
def leftOut (ctx : Context) : Node → Bool
  | plain _ _ | exported _ _ | namespaceBlock _ _ => false
  | function head key _ _ _ => ctx.leavesOut (head.recordedSpan key) (head.ignorableName? key)
  | n => ctx.leavesOut n.span none

/-- The children of a node that the node does not leave out. -/
def kept (ctx : Context) : Node → List Node
  | function _ key before body after =>
    key.toList ++ before.flatMap Part.nodes ++ body.kept ctx ++ after.flatMap Part.nodes
  | compound _ _ _ init head body =>
    init.toList.filter (fun n => (Action.initKey? n).isNone) ++ head.flatMap Part.nodes ++
      ctx.keptBody body
  | ifElse s test consequent alternate =>
    test :: ((if ctx.directives.hintFor? s = some .consequent then [] else ctx.keptBody consequent) ++
      if ctx.directives.hintFor? s = some .alternate then []
      else alternate.toList.flatMap ctx.keptBody)
  | switch _ discriminant cases =>
    discriminant :: cases.flatMap fun c => ctx.keptNodes c.span c.nodes
  | bindings _ _ declarators => declarators.flatMap fun d => ctx.keptNodes d.span d.nodes
  | n => n.children

/-- Whether the children of a node are operands of a logical expression, directly or through
parentheses. -/
def handsOn (operand : Bool) : Node → Bool
  | logical _ _ _ _ => true
  | paren _ _ => operand
  | _ => false

theorem mem_of_mem_keptBody {ctx : Context} {m body : Node} (h : m ∈ ctx.keptBody body) :
    m = body := by
  unfold Context.keptBody at h
  split at h
  · cases h
  · exact List.mem_singleton.mp h

theorem mem_of_mem_keptNodes {ctx : Context} {s : Span} {m : Node} {nodes : List Node}
    (h : m ∈ ctx.keptNodes s nodes) : m ∈ nodes := by
  unfold Context.keptNodes at h
  split at h
  · cases h
  · exact h

theorem mem_of_mem_keptOfBody {ctx : Context} {m : Node} {body : Body} (h : m ∈ body.kept ctx) :
    m ∈ body.nodes := by
  cases body with
  | absent => cases h
  | block s statements => exact (List.dropWhile_sublist _).subset (mem_of_mem_keptNodes h)
  | value e => exact mem_of_mem_keptNodes h

theorem mem_children_of_mem_kept {ctx : Context} {m n : Node} (h : m ∈ n.kept ctx) :
    m ∈ n.children := by
  cases n with
  | function head key before body after =>
    simp only [kept,children,List.mem_append] at h ⊢
    exact h.imp (Or.imp id mem_of_mem_keptOfBody) id
  | compound form s data init head body =>
    simp only [kept,children,List.mem_append,List.mem_singleton] at h ⊢
    exact h.imp (Or.imp (fun h => (List.mem_filter.mp h).1) id) mem_of_mem_keptBody
  | ifElse s test consequent alternate =>
    simp only [kept,children,List.mem_cons,List.mem_append] at h ⊢
    rcases h with h | h | h
    · exact .inl h
    · split at h
      · cases h
      · exact .inr (.inl (mem_of_mem_keptBody h))
    · split at h
      · cases h
      · obtain ⟨a,ha,hm⟩ := List.mem_flatMap.mp h
        rw [mem_of_mem_keptBody hm]
        exact .inr (.inr ha)
  | switch s discriminant cases =>
    refine (List.mem_cons.mp h).elim (fun h => h ▸ List.mem_cons_self) fun h => ?_
    obtain ⟨c,hc,hm⟩ := List.mem_flatMap.mp h
    exact List.mem_cons_of_mem _ (List.mem_flatMap.mpr ⟨c,hc,mem_of_mem_keptNodes hm⟩)
  | bindings s data declarators =>
    obtain ⟨d,hd,hm⟩ := List.mem_flatMap.mp h
    exact List.mem_flatMap.mpr ⟨d,hd,mem_of_mem_keptNodes hm⟩
  | _ => exact h

/-- The constructs of a node at which counting is on, in the order of the walk, each with whether it is
an operand of a logical expression. -/
def reached (ctx : Context) (operand : Bool) (n : Node) : List (Bool × Node) :=
  if n.leftOut ctx then []
  else (operand,n) :: (n.kept ctx).attach.flatMap fun ⟨m,_⟩ => m.reached ctx (n.handsOn operand)
termination_by sizeOf n
decreasing_by exact sizeOf_of_mem_children (mem_children_of_mem_kept ‹_›)

theorem reached_eq (ctx : Context) (operand : Bool) (n : Node) :
    n.reached ctx operand =
      if n.leftOut ctx then []
      else (operand,n) :: (n.kept ctx).flatMap (reached ctx (n.handsOn operand)) := by
  rw [reached]
  split
  · rfl
  · congr 1
    calc (n.kept ctx).attach.flatMap (fun m => m.val.reached ctx (n.handsOn operand))
        = ((n.kept ctx).attach.map Subtype.val).flatMap (reached ctx (n.handsOn operand)) :=
          (List.flatMap_map Subtype.val _ _).symm
      _ = (n.kept ctx).flatMap (reached ctx (n.handsOn operand)) := by
          rw [List.attach_map_subtype_val]

/-- The branch of a construct alone; an operand belongs to the branch of its chain. -/
def ownBranches (ctx : Context) (operand : Bool) : Node → List BranchRecord
  | logical s _ left right => if operand then [] else (ctx.chainRecords s left right).branches
  | conditional s _ consequent alternate => (ctx.conditionalRecords s consequent alternate).branches
  | defaulted _ s _ value => (ctx.defaultRecords s value).branches
  | ifElse s _ _ _ => (ctx.ifRecords s).branches
  | switch s _ cases => (ctx.switchRecords s cases).branches
  | _ => []

/-- The places of a node and of its parts that are looked up in the text. -/
def spans : Node → List Span
  | plain _ _ => []
  | logical s _ left right => [s,left.span,right.span]
  | conditional s _ consequent alternate => [s,consequent.span,alternate.span]
  | function head key _ body _ =>
    head.recordedSpan key :: (Action.bodyContent? body).toList.map (·.1)
  | defaulted _ s _ value => s :: value.toList.map span
  | compound _ s _ _ _ body => [s,body.span]
  | ifElse s _ consequent alternate => s :: consequent.span :: alternate.toList.map span
  | switch s _ cases => s :: cases.map Case.span
  | bindings s _ declarators =>
    s :: declarators.flatMap fun | .mk s _ _ init => s :: init.toList.map span
  | n => [n.span]

/-- Whether a node was read from a text: all that is looked up has a place there. -/
def hasPlaces (n : Node) : Bool := n.subnodes.all fun m => m.spans.all fun s => !s.isDummy

theorem hasPlaces_of_mem_children {m n : Node} (h : n.hasPlaces = true) (hm : m ∈ n.children) :
    m.hasPlaces = true := by
  rw [hasPlaces,subnodes,List.all_cons,Bool.and_eq_true] at h
  rw [hasPlaces,List.all_eq_true]
  exact fun x hx => List.all_eq_true.mp h.2 x (subnodes_subset_of_mem_children hm hx)

theorem isDummy_eq_false {n : Node} {s : Span} (h : n.hasPlaces = true) (hs : s ∈ n.spans) :
    s.isDummy = false := by
  rw [hasPlaces,subnodes,List.all_cons,Bool.and_eq_true] at h
  simpa using List.all_eq_true.mp h.1 s hs

theorem isDummy_of_isDirective {n : Node} (h : n.hasPlaces = true) (hd : n.isDirective = true) :
    n.span.isDummy = false := by
  cases n with
  | expression s inner => exact isDummy_eq_false h List.mem_cons_self
  | _ => cases hd

theorem isDummy_initKey? {n : Node} {key : Key} (h : n.hasPlaces = true)
    (hk : Action.initKey? n = some key) : key.span.isDummy = false := by
  refine isDummy_eq_false h ?_
  cases n with
  | function head name before body after =>
    simp only [Action.initKey?,expressionKey?] at hk
    split at hk
    · cases hk
      exact List.mem_cons_self
    · cases hk
  | bindings | conditional | logical | paren =>
    cases hk
    exact List.mem_cons_self
  | _ => cases hk

end Node

def branchesOf (ctx : Context) (sites : List (Bool × Node)) : List BranchRecord :=
  sites.flatMap fun site => site.2.ownBranches ctx site.1

section Branches

variable {ctx : Context}

@[simp] theorem branchesOf_nil : branchesOf ctx [] = [] := rfl

@[simp] theorem branchesOf_append (sites rest : List (Bool × Node)) :
    branchesOf ctx (sites ++ rest) = branchesOf ctx sites ++ branchesOf ctx rest :=
  List.flatMap_append

@[simp] theorem branches_empty : (∅ : Records).branches = [] := rfl

@[simp] theorem branches_append (r r' : Records) : (r ++ r').branches = r.branches ++ r'.branches :=
  rfl

@[simp] theorem branches_statementRecords (s : Span) : (ctx.statementRecords s).branches = [] := rfl

@[simp] theorem branches_initializerRecords (init : Option Node) :
    (ctx.initializerRecords init).branches = [] := by
  cases init <;> rfl

@[simp] theorem branches_functionRecords (head : FunctionHead) (key : Option Node) (body : Body) :
    (ctx.functionRecords head key body).branches = [] := by
  unfold Context.functionRecords
  split <;> rfl

def reachedIn (ctx : Context) (nodes : List Node) : List (Bool × Node) :=
  nodes.flatMap (Node.reached ctx false)

@[simp] theorem reachedIn_nil : reachedIn ctx [] = [] := rfl

@[simp] theorem reachedIn_cons (n : Node) (nodes : List Node) :
    reachedIn ctx (n :: nodes) = n.reached ctx false ++ reachedIn ctx nodes :=
  List.flatMap_cons

@[simp] theorem reachedIn_append (nodes rest : List Node) :
    reachedIn ctx (nodes ++ rest) = reachedIn ctx nodes ++ reachedIn ctx rest :=
  List.flatMap_append

theorem reachedIn_keptNodes (s : Span) (nodes : List Node) :
    reachedIn ctx (ctx.keptNodes s nodes) =
      if ctx.leavesOut s none then [] else reachedIn ctx nodes := by
  unfold Context.keptNodes
  split <;> rfl

/-- The collector reads the branches of a node off the constructs that are reached in it. -/
def Node.Branches (ctx : Context) (n : Node) : Prop :=
  ∀ operand, (n.collect ctx (operand && n.isChain)).branches = branchesOf ctx (n.reached ctx operand)

theorem Node.Branches.alone {n : Node} (h : n.Branches ctx) :
    (n.collect ctx false).branches = branchesOf ctx (n.reached ctx false) :=
  h false

theorem branches_collectNodes {nodes : List Node} (h : ∀ n ∈ nodes, n.Branches ctx) :
    (collectNodes ctx nodes).branches = branchesOf ctx (reachedIn ctx nodes) := by
  induction nodes with
  | nil => rfl
  | cons n rest ih =>
    rw [collectNodes,branches_append,(h n List.mem_cons_self).alone,
      ih fun m hm => h m (List.mem_cons_of_mem _ hm),reachedIn_cons,branchesOf_append]

theorem branches_collectPart {p : Part} (h : ∀ n ∈ p.nodes, n.Branches ctx) :
    (collectPart ctx p).branches = branchesOf ctx (reachedIn ctx p.nodes) := by
  cases p with
  | child field n => simpa [collectPart,Part.nodes] using (h n (List.mem_singleton_self n)).alone
  | children field nodes => exact branches_collectNodes h

theorem branches_collectParts {parts : List Part}
    (h : ∀ n ∈ parts.flatMap Part.nodes, n.Branches ctx) :
    (collectParts ctx parts).branches = branchesOf ctx (reachedIn ctx (parts.flatMap Part.nodes)) := by
  induction parts with
  | nil => rfl
  | cons p rest ih =>
    rw [List.flatMap_cons] at h ⊢
    rw [collectParts,branches_append,branches_collectPart fun n hn => h n (List.mem_append_left _ hn),
      ih fun n hn => h n (List.mem_append_right _ hn),reachedIn_append,branchesOf_append]

theorem branches_collectOption {o : Option Node} (h : ∀ n ∈ o.toList, n.Branches ctx) :
    (collectOption ctx o).branches = branchesOf ctx (reachedIn ctx o.toList) := by
  cases o with
  | none => rfl
  | some n => simpa [collectOption] using (h n (List.mem_singleton_self n)).alone

theorem branches_collectItems {items : List Node} (h : ∀ n ∈ items, n.Branches ctx) :
    (collectItems ctx false items).branches = branchesOf ctx (reachedIn ctx items) := by
  induction items with
  | nil => rfl
  | cons n rest ih =>
    rw [collectItems,branches_append,reachedIn_cons,branchesOf_append,Bool.false_and,
      ih fun m hm => h m (List.mem_cons_of_mem _ hm)]
    exact congrArg (· ++ _) (h n List.mem_cons_self).alone

/-- The directives at the head of a list are left out. -/
theorem collectItems_prologue {items : List Node} (hp : ∀ n ∈ items, n.hasPlaces = true) :
    collectItems ctx true items = collectItems ctx false (items.dropWhile Node.isDirective) := by
  induction items with
  | nil => rfl
  | cons n rest ih =>
    cases hd : n.isDirective with
    | false =>
      rw [List.dropWhile_cons_of_neg (by simp [hd]),collectItems,collectItems,hd]
      rfl
    | true =>
      have hs := Node.isDummy_of_isDirective (hp n List.mem_cons_self) hd
      rw [List.dropWhile_cons_of_pos hd,collectItems,hd,← ih fun m hm => hp m (List.mem_cons_of_mem _ hm),
        Records.unlessAsked,hs]
      exact Records.empty_append _

theorem branches_unlessLeftOut {s : Span} {r : Records} {nodes : List Node}
    (h : r.branches = branchesOf ctx (reachedIn ctx nodes)) :
    (ctx.unlessLeftOut s none r).branches =
      branchesOf ctx (reachedIn ctx (ctx.keptNodes s nodes)) := by
  unfold Context.unlessLeftOut Context.keptNodes
  split
  · rfl
  · exact h

theorem branches_collectBody {body : Body} (hp : ∀ n ∈ body.nodes, n.hasPlaces = true)
    (h : ∀ n ∈ body.nodes, n.Branches ctx) :
    (collectBody ctx true body).branches = branchesOf ctx (reachedIn ctx (body.kept ctx)) := by
  cases body with
  | absent => rfl
  | block s statements =>
    have hp : ∀ n ∈ statements, n.hasPlaces = true := hp
    rw [collectBody,collectItems_prologue hp]
    exact branches_unlessLeftOut
      (branches_collectItems fun n hn => h n ((List.dropWhile_sublist _).subset hn))
  | value e =>
    have he : (ctx.statementRecords e.span ++ e.collect ctx false).branches =
        branchesOf ctx (reachedIn ctx [e]) := by
      simpa using (h e (List.mem_singleton_self e)).alone
    have hk := branches_unlessLeftOut (s := e.span) (branches_unlessLeftOut (s := e.span) he)
    have hkept : ctx.keptNodes e.span (ctx.keptNodes e.span [e]) = ctx.keptNodes e.span [e] := by
      unfold Context.keptNodes
      split <;> rfl
    rw [hkept] at hk
    exact hk

theorem branches_bodyRecords {body : Node} (h : body.Branches ctx) :
    (ctx.bodyRecords true body (body.collect ctx false)).branches =
      branchesOf ctx (reachedIn ctx (ctx.keptBody body)) := by
  have hb : (body.collect ctx false).branches = branchesOf ctx (reachedIn ctx [body]) := by
    simpa using h.alone
  unfold Context.bodyRecords Context.keptBody
  cases hk : body.isBlock with
  | true => exact hb
  | false => exact branches_unlessLeftOut hb

theorem branches_collectInit {init : Option Node} (hp : ∀ n ∈ init.toList, n.hasPlaces = true)
    (h : ∀ n ∈ init.toList, n.Branches ctx) :
    (collectInit ctx true init).branches =
      branchesOf ctx (reachedIn ctx (init.toList.filter fun n => (Action.initKey? n).isNone)) := by
  cases init with
  | none => rfl
  | some n =>
    rw [collectInit]
    cases hk : Action.initKey? n with
    | none => simpa [hk] using (h n (List.mem_singleton_self n)).alone
    | some key =>
      have hs := Node.isDummy_initKey? (hp n (List.mem_singleton_self n)) hk
      simp [Records.unlessAsked,hs,hk]

theorem branches_collectElse (asked : Bool) {o : Option Node}
    (hs : ∀ n ∈ o.toList, n.span.isDummy = false) (h : ∀ n ∈ o.toList, n.Branches ctx) :
    (collectElse ctx asked true o).branches =
      branchesOf ctx (reachedIn ctx (if asked then [] else o.toList.flatMap ctx.keptBody)) := by
  cases o with
  | none => cases asked <;> rfl
  | some n =>
    have hn := hs n (List.mem_singleton_self n)
    cases asked with
    | true => simp [collectElse,Records.unlessAsked,hn]
    | false => simpa [collectElse,Records.unlessAsked] using
        branches_bodyRecords (h n (List.mem_singleton_self n))

theorem branches_collectCase {c : Case} (h : ∀ n ∈ c.nodes, n.Branches ctx) :
    (collectCase ctx c).branches = branchesOf ctx (reachedIn ctx (ctx.keptNodes c.span c.nodes)) := by
  obtain ⟨s,test,consequent⟩ := c
  simp only [Case.nodes,List.mem_append] at h
  refine branches_unlessLeftOut ?_
  rw [branches_append,branches_collectOption fun n hn => h n (.inl hn),
    branches_collectItems fun n hn => h n (.inr hn),Case.nodes,reachedIn_append,branchesOf_append]

theorem branches_collectCases {cases : List Case}
    (h : ∀ n ∈ cases.flatMap Case.nodes, n.Branches ctx) :
    (collectCases ctx cases).branches =
      branchesOf ctx (reachedIn ctx (cases.flatMap fun c => ctx.keptNodes c.span c.nodes)) := by
  induction cases with
  | nil => rfl
  | cons c rest ih =>
    simp only [List.flatMap_cons,List.mem_append] at h
    rw [collectCases,branches_append,branches_collectCase fun n hn => h n (.inl hn),
      ih fun n hn => h n (.inr hn),List.flatMap_cons,reachedIn_append,branchesOf_append]

theorem branches_collectDeclarators {declarators : List Declarator}
    (h : ∀ n ∈ declarators.flatMap Declarator.nodes, n.Branches ctx) :
    (collectDeclarators ctx declarators).branches =
      branchesOf ctx (reachedIn ctx (declarators.flatMap fun d => ctx.keptNodes d.span d.nodes)) := by
  induction declarators with
  | nil => rfl
  | cons d rest ih =>
    simp only [List.flatMap_cons,List.mem_append] at h
    obtain ⟨s,data,target,init⟩ := d
    have hi : (if s.isDummy then ∅ else ctx.initializerRecords init : Records).branches = [] := by
      split
      · rfl
      · exact branches_initializerRecords init
    have hd : ((if s.isDummy then ∅ else ctx.initializerRecords init) ++
        (target.collect ctx false ++ collectOption ctx init)).branches =
        branchesOf ctx (reachedIn ctx (target :: init.toList)) := by
      rw [branches_append,hi,branches_append,(h target (.inl List.mem_cons_self)).alone,
        branches_collectOption fun n hn => h n (.inl (List.mem_cons_of_mem _ hn)),reachedIn_cons,
        branchesOf_append,List.nil_append]
    rw [collectDeclarators,collectDeclarator,branches_append,List.flatMap_cons,reachedIn_append,
      branchesOf_append,ih fun n hn => h n (.inr hn)]
    exact congrArg (· ++ _) (branches_unlessLeftOut hd)

end Branches

namespace Node

variable {ctx : Context}

/-- A construct that leaves itself out has no branches; otherwise its own come before those inside. -/
theorem branches_of_kept {n : Node} {operand : Bool} (own rest : Records)
    (hr : n.collect ctx (operand && n.isChain) = if n.leftOut ctx then ∅ else own ++ rest)
    (ho : own.branches = n.ownBranches ctx operand)
    (h : rest.branches = branchesOf ctx ((n.kept ctx).flatMap (reached ctx (n.handsOn operand)))) :
    (n.collect ctx (operand && n.isChain)).branches = branchesOf ctx (n.reached ctx operand) := by
  rw [hr,reached_eq]
  split
  · rfl
  · rw [branches_append,ho,h]
    rfl

/-- A construct that is no part of a chain hands nothing on to what is inside. -/
theorem branches_of_kept_alone {n : Node} (own rest : Records) (hn : n.isChain = false)
    (hh : ∀ operand, n.handsOn operand = false)
    (hr : n.collect ctx false = if n.leftOut ctx then ∅ else own ++ rest)
    (ho : ∀ operand, own.branches = n.ownBranches ctx operand)
    (h : rest.branches = branchesOf ctx (reachedIn ctx (n.kept ctx))) : n.Branches ctx := by
  intro operand
  refine branches_of_kept own rest ?_ (ho operand) ?_
  · rw [hn,Bool.and_false]
    exact hr
  · rw [hh]
    exact h

/-- The branches that the collector reads off a node are those of the constructs that are reached. -/
theorem branches_collect (n : Node) (hp : n.hasPlaces = true) : n.Branches ctx := by
  induction n using induction_children with
  | step n ih =>
    have hpc : ∀ m ∈ n.children, m.hasPlaces = true := fun m hm => hasPlaces_of_mem_children hp hm
    have hc : ∀ m ∈ n.children, m.Branches ctx := fun m hm => ih m hm (hpc m hm)
    have hreal : ∀ s ∈ n.spans, s.isDummy = false := fun s hs => isDummy_eq_false hp hs
    clear ih
    cases n with
    | plain head parts =>
      exact branches_of_kept_alone ∅ _ rfl (fun _ => rfl) rfl (fun _ => rfl) (branches_collectParts hc)
    | paren s inner =>
      intro operand
      refine branches_of_kept ∅ (inner.collect ctx (operand && inner.isChain)) rfl rfl ?_
      simp [kept,children,handsOn,hc inner List.mem_cons_self operand]
    | logical s operator left right =>
      intro operand
      have hl := hc left (by simp [children]) true
      have hr := hc right (by simp [children]) true
      rw [Bool.true_and] at hl hr
      refine branches_of_kept (if operand then ∅ else ctx.chainRecords s left right)
        (left.collect ctx left.isChain ++ right.collect ctx right.isChain) ?_ ?_ ?_
      · cases operand <;> rfl
      · cases operand <;> rfl
      · simp [kept,children,handsOn,hl,hr]
    | conditional s test consequent alternate =>
      refine branches_of_kept_alone (ctx.conditionalRecords s consequent alternate) _ rfl
        (fun _ => rfl) rfl (fun _ => rfl) ?_
      simp [kept,children,(hc test (by simp [children])).alone,
        (hc consequent (by simp [children])).alone,(hc alternate (by simp [children])).alone]
    | function head key before body after =>
      simp only [children,List.mem_append] at hc hpc
      refine branches_of_kept_alone (ctx.functionRecords head key body) _ rfl (fun _ => rfl) rfl
        (fun _ => branches_functionRecords head key body) ?_
      rw [hreal _ List.mem_cons_self]
      simp [kept,branches_collectOption fun n hn => hc n (.inl (.inl (.inl hn))),
        branches_collectParts fun n hn => hc n (.inl (.inl (.inr hn))),
        branches_collectBody (fun n hn => hpc n (.inl (.inr hn))) fun n hn => hc n (.inl (.inr hn)),
        branches_collectParts fun n hn => hc n (.inr hn)]
    | defaulted form s target value =>
      refine branches_of_kept_alone (ctx.defaultRecords s value) _ rfl (fun _ => rfl) rfl
        (fun _ => rfl) ?_
      simp [kept,children,(hc target List.mem_cons_self).alone,
        branches_collectOption fun n hn => hc n (List.mem_cons_of_mem _ hn)]
    | classDeclaration s data name before heritage after =>
      simp only [children,List.mem_append,List.mem_cons] at hc
      refine branches_of_kept_alone ∅ (name.collect ctx false ++ (collectParts ctx before ++
        (collectOption ctx heritage ++ collectParts ctx after))) rfl (fun _ => rfl) rfl (fun _ => rfl) ?_
      simp [kept,children,(hc name (.inl (.inl (.inl rfl)))).alone,
        branches_collectParts fun n hn => hc n (.inl (.inl (.inr hn))),
        branches_collectOption fun n hn => hc n (.inl (.inr hn)),
        branches_collectParts fun n hn => hc n (.inr hn)]
    | expression s inner =>
      refine branches_of_kept_alone (ctx.statementRecords s) _ rfl (fun _ => rfl) rfl
        (fun _ => rfl) ?_
      simp [kept,children,(hc inner List.mem_cons_self).alone]
    | simple form s parts =>
      exact branches_of_kept_alone (ctx.statementRecords s) _ rfl (fun _ => rfl) rfl (fun _ => rfl)
        (branches_collectParts hc)
    | compound form s data init head body =>
      simp only [children,List.mem_append,List.mem_singleton] at hc hpc
      refine branches_of_kept_alone (ctx.statementRecords s) _ rfl (fun _ => rfl) rfl
        (fun _ => rfl) ?_
      rw [hreal s List.mem_cons_self]
      simp [kept,branches_collectInit (fun n hn => hpc n (.inl (.inl hn)))
          fun n hn => hc n (.inl (.inl hn)),
        branches_collectParts fun n hn => hc n (.inl (.inr hn)),
        branches_bodyRecords (hc body (.inr rfl))]
    | ifElse s test consequent alternate =>
      simp only [children,List.mem_cons] at hc
      simp only [spans,List.mem_cons,List.mem_map] at hreal
      have helse := branches_collectElse (ctx.directives.hintFor? s = some .alternate)
        (fun n hn => hreal n.span (.inr (.inr ⟨n,hn,rfl⟩))) fun n hn => hc n (.inr (.inr hn))
      have hthen := branches_bodyRecords (hc consequent (.inr (.inl rfl)))
      refine branches_of_kept_alone (ctx.ifRecords s) _ rfl (fun _ => rfl) rfl (fun _ => rfl) ?_
      rw [hreal s (.inl rfl)]
      simp only [branches_append,(hc test (.inl rfl)).alone,Bool.not_false,helse,kept,reachedIn_cons,
        reachedIn_append,branchesOf_append,Records.unlessAsked,hreal consequent.span (.inr (.inl rfl)),
        Bool.and_true,decide_eq_true_eq]
      split
      · rfl
      · rw [hthen]
    | switch s discriminant cases =>
      refine branches_of_kept_alone (ctx.switchRecords s cases) _ rfl (fun _ => rfl) rfl
        (fun _ => rfl) ?_
      simp [kept,(hc discriminant List.mem_cons_self).alone,
        branches_collectCases fun n hn => hc n (List.mem_cons_of_mem _ hn)]
    | bindings s data declarators =>
      exact branches_of_kept_alone ∅ _ rfl (fun _ => rfl) rfl (fun _ => rfl)
        (branches_collectDeclarators hc)
    | block s statements =>
      exact branches_of_kept_alone ∅ _ rfl (fun _ => rfl) rfl (fun _ => rfl) (branches_collectItems hc)
    | exported s declaration =>
      refine branches_of_kept_alone ∅ _ rfl (fun _ => rfl) rfl (fun _ => rfl) ?_
      simpa [kept,children] using (hc declaration List.mem_cons_self).alone
    | namespaceBlock s items =>
      exact branches_of_kept_alone ∅ _ rfl (fun _ => rfl) rfl (fun _ => rfl) (branches_collectItems hc)

end Node

namespace Program

variable {ctx : Context} {p : Program}

/-- Whether a program was read from a text. -/
def hasPlaces (p : Program) : Bool := p.body.all Node.hasPlaces

/-- The constructs of a program at which counting is on; the directives at its head are left out. -/
def reached (ctx : Context) (p : Program) : List (Bool × Node) :=
  reachedIn ctx (p.body.dropWhile Node.isDirective)

theorem branches_collect (h : p.hasPlaces = true) :
    (p.collect ctx).branches = branchesOf ctx (p.reached ctx) := by
  have hp : ∀ n ∈ p.body, n.hasPlaces = true := List.all_eq_true.mp h
  rw [collect,collectItems_prologue hp]
  exact branches_collectItems fun n hn =>
    n.branches_collect (hp n ((List.dropWhile_sublist _).subset hn))

end Program
end CoverageCounters
