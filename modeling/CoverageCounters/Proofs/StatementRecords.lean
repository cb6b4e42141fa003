import CoverageCounters.Proofs.Located

/-!
The statements that are recorded. Each construct at which counting is on has its own: a statement its
place, a declaration those of its initializers, and an arrow that of the value it returns. Up to the order
in which they are met, the table of statements has these and no others.
-/

namespace CoverageCounters

/-- The place of the initializer of a declarator, unless a hint leaves the declarator out. -/
def Declarator.statements (ctx : Context) : Declarator → List Location
  | .mk s _ _ init => (ctx.keptNodes s init.toList).flatMap fun e => (ctx.location? e.span).toList

namespace Node

def isExport : Node → Bool
  | exported _ _ => true
  | _ => false

/-- What is recorded as a statement for a construct itself. -/
def ownStatements (ctx : Context) : Node → List Location
  | expression s _ | simple _ s _ | compound _ s _ _ _ _ | switch s _ _ => (ctx.location? s).toList
  | function _ _ _ (.value e) _ =>
    (ctx.keptNodes e.span [e]).flatMap fun e => (ctx.location? e.span).toList
  | bindings _ _ declarators => declarators.flatMap (Declarator.statements ctx)
  | exported _ (bindings s _ declarators) =>
    if ctx.leavesOut s none then [] else declarators.flatMap (Declarator.statements ctx)
  | _ => []

end Node

def statementsOf (ctx : Context) (sites : List (Bool × Node)) : List Location :=
  sites.flatMap fun site => site.2.ownStatements ctx

namespace Node

variable {ctx : Context}

/-- What is recorded as a statement for a node and what is inside. -/
def stated (ctx : Context) (n : Node) : List Location := statementsOf ctx (n.located ctx true)

theorem ownStatements_of_isBlock {n : Node} (h : n.isBlock = true) : n.ownStatements ctx = [] := by
  cases n with
  | block => rfl
  | _ => cases h

theorem statementsOf_located (n : Node) (listed : Bool) :
    statementsOf ctx (n.located ctx listed) =
      if n.leftOut ctx then [] else n.ownStatements ctx ++ statementsOf ctx (n.inside ctx) := by
  rw [located_eq]
  split
  · rfl
  · rw [statementsOf,List.flatMap_append]
    congr 1
    split
    · rename_i hb
      rw [ownStatements_of_isBlock hb]
      rfl
    · exact List.append_nil _

/-- Whether a construct is an item of a list does not matter. -/
theorem statementsOf_located_eq (n : Node) (listed : Bool) :
    statementsOf ctx (n.located ctx listed) = n.stated ctx := by
  rw [stated,statementsOf_located,statementsOf_located]

theorem statementsOf_inside (n : Node) :
    statementsOf ctx (n.inside ctx) = ((n.roles ctx).map Prod.snd).flatMap (stated ctx) := by
  rw [statementsOf,inside,List.flatMap_assoc,List.flatMap_map]
  exact congrArg (List.flatMap · _) (funext fun r => r.2.statementsOf_located_eq r.1)

/-- A construct that leaves itself out has no statements; otherwise its own come with those inside. -/
theorem stated_eq {n : Node} (h : n.isExport = false) :
    n.stated ctx =
      if n.leftOut ctx then [] else n.ownStatements ctx ++ (n.kept ctx).flatMap (stated ctx) := by
  have hr : (n.roles ctx).map Prod.snd = n.kept ctx := by
    refine (n.map_roles ctx).resolve_right ?_
    rintro ⟨s,r,data,declarators,rfl,-⟩
    cases h
  rw [stated,statementsOf_located,statementsOf_inside,hr]

theorem stated_exported (s : Span) (declaration : Node) :
    (exported s declaration).stated ctx = declaration.stated ctx := by
  cases declaration with
  | bindings r data declarators =>
    have hr : ((exported s (bindings r data declarators)).roles ctx).map Prod.snd =
        ctx.keptNodes r ((bindings r data declarators).kept ctx) := map_snd_pair _ _
    rw [stated,statementsOf_located,statementsOf_inside,hr,stated_eq (n := bindings r data declarators) rfl,
      Context.keptNodes]
    change (if ctx.leavesOut r none then [] else _) ++ _ = if ctx.leavesOut r none then [] else _
    split <;> rfl
  | _ =>
    rw [stated,statementsOf_located,statementsOf_inside]
    exact List.append_nil _

end Node

section Collected

variable {ctx : Context}

@[simp] theorem statements_empty : (∅ : Records).statements = [] := rfl

@[simp] theorem statements_append (r r' : Records) :
    (r ++ r').statements = r.statements ++ r'.statements := rfl

/-- The collector reads the statements of a node off the constructs that are located in it. -/
def Node.Stated (ctx : Context) (n : Node) : Prop :=
  ∀ chain, (n.collect ctx chain).statements.Perm (n.stated ctx)

theorem statements_collectNodes {nodes : List Node} (h : ∀ n ∈ nodes, n.Stated ctx) :
    (collectNodes ctx nodes).statements.Perm (nodes.flatMap (Node.stated ctx)) := by
  induction nodes with
  | nil => exact .refl _
  | cons n rest ih =>
    exact (h n List.mem_cons_self false).append (ih fun m hm => h m (List.mem_cons_of_mem _ hm))

theorem statements_collectPart {p : Part} (h : ∀ n ∈ p.nodes, n.Stated ctx) :
    (collectPart ctx p).statements.Perm (p.nodes.flatMap (Node.stated ctx)) := by
  cases p with
  | child field n => simpa [collectPart,Part.nodes] using h n (List.mem_singleton_self n) false
  | children field nodes => exact statements_collectNodes h

theorem statements_collectParts {parts : List Part} (h : ∀ n ∈ parts.flatMap Part.nodes, n.Stated ctx) :
    (collectParts ctx parts).statements.Perm ((parts.flatMap Part.nodes).flatMap (Node.stated ctx)) := by
  induction parts with
  | nil => exact .refl _
  | cons p rest ih =>
    rw [List.flatMap_cons] at h
    rw [List.flatMap_cons,List.flatMap_append]
    exact (statements_collectPart fun n hn => h n (List.mem_append_left _ hn)).append
      (ih fun n hn => h n (List.mem_append_right _ hn))

theorem statements_collectOption {o : Option Node} (h : ∀ n ∈ o.toList, n.Stated ctx) :
    (collectOption ctx o).statements.Perm (o.toList.flatMap (Node.stated ctx)) := by
  cases o with
  | none => exact .refl _
  | some n => simpa [collectOption] using h n (List.mem_singleton_self n) false

theorem statements_collectItems {items : List Node} (h : ∀ n ∈ items, n.Stated ctx) :
    (collectItems ctx false items).statements.Perm (items.flatMap (Node.stated ctx)) := by
  induction items with
  | nil => exact .refl _
  | cons n rest ih =>
    exact (h n List.mem_cons_self false).append (ih fun m hm => h m (List.mem_cons_of_mem _ hm))

theorem statements_unlessLeftOut {s : Span} {r : Records} {nodes : List Node}
    (h : r.statements.Perm (nodes.flatMap (Node.stated ctx))) :
    (ctx.unlessLeftOut s none r).statements.Perm
      ((ctx.keptNodes s nodes).flatMap (Node.stated ctx)) := by
  unfold Context.unlessLeftOut Context.keptNodes
  split
  · exact .refl _
  · exact h

theorem statements_collectBody {body : Body} (hp : ∀ n ∈ body.nodes, n.hasPlaces = true)
    (h : ∀ n ∈ body.nodes, n.Stated ctx) (head : FunctionHead) (key : Option Node)
    (before after : List Part) :
    (collectBody ctx true body).statements.Perm
      ((Node.function head key before body after).ownStatements ctx ++
        (body.kept ctx).flatMap (Node.stated ctx)) := by
  cases body with
  | absent => exact .refl _
  | block s statements =>
    have hp : ∀ n ∈ statements, n.hasPlaces = true := hp
    rw [collectBody,collectItems_prologue hp]
    exact statements_unlessLeftOut
      (statements_collectItems fun n hn => h n ((List.dropWhile_sublist _).subset hn))
  | value e =>
    have he := h e (List.mem_singleton_self e) false
    rw [collectBody,Node.ownStatements,Body.kept,if_pos rfl]
    unfold Context.unlessLeftOut Context.keptNodes
    split
    · exact .refl _
    · simpa [Context.statementRecords] using he.append_left (ctx.location? e.span).toList

theorem statements_bodyRecords {body : Node} (h : body.Stated ctx) :
    (ctx.bodyRecords true body (body.collect ctx false)).statements.Perm
      ((ctx.keptBody body).flatMap (Node.stated ctx)) := by
  have hb : (body.collect ctx false).statements.Perm ([body].flatMap (Node.stated ctx)) := by
    simpa using h false
  unfold Context.bodyRecords Context.keptBody
  cases hk : body.isBlock with
  | true => exact hb
  | false => exact statements_unlessLeftOut hb

theorem statements_collectInit {init : Option Node} (hp : ∀ n ∈ init.toList, n.hasPlaces = true)
    (h : ∀ n ∈ init.toList, n.Stated ctx) :
    (collectInit ctx true init).statements.Perm
      ((init.toList.filter fun n => (Action.initKey? n).isNone).flatMap (Node.stated ctx)) := by
  cases init with
  | none => exact .refl _
  | some n =>
    rw [collectInit]
    cases hk : Action.initKey? n with
    | none => simpa [hk] using h n (List.mem_singleton_self n) false
    | some key =>
      have hs := Node.isDummy_initKey? (hp n (List.mem_singleton_self n)) hk
      simp [Records.unlessAsked,hs,hk]

theorem statements_collectElse (asked : Bool) {o : Option Node}
    (hs : ∀ n ∈ o.toList, n.span.isDummy = false) (h : ∀ n ∈ o.toList, n.Stated ctx) :
    (collectElse ctx asked true o).statements.Perm
      ((if asked then [] else o.toList.flatMap ctx.keptBody).flatMap (Node.stated ctx)) := by
  cases o with
  | none => cases asked <;> exact .refl _
  | some n =>
    have hn := hs n (List.mem_singleton_self n)
    cases asked with
    | true => simp [collectElse,Records.unlessAsked,hn]
    | false => simpa [collectElse,Records.unlessAsked] using
        statements_bodyRecords (h n (List.mem_singleton_self n))

theorem statements_collectCases {cases : List Case}
    (h : ∀ n ∈ cases.flatMap Case.nodes, n.Stated ctx) :
    (collectCases ctx cases).statements.Perm
      ((cases.flatMap fun c => ctx.keptNodes c.span c.nodes).flatMap (Node.stated ctx)) := by
  induction cases with
  | nil => exact .refl _
  | cons c rest ih =>
    simp only [List.flatMap_cons,List.mem_append] at h
    rw [List.flatMap_cons,List.flatMap_append]
    refine List.Perm.append ?_ (ih fun n hn => h n (.inr hn))
    obtain ⟨s,test,consequent⟩ := c
    simp only [Case.nodes,List.mem_append] at h
    refine statements_unlessLeftOut ?_
    rw [Case.nodes,List.flatMap_append]
    exact (statements_collectOption fun n hn => h n (.inl (.inl hn))).append
      (statements_collectItems fun n hn => h n (.inl (.inr hn)))

theorem statements_collectDeclarator {d : Declarator} (hs : d.span.isDummy = false)
    (h : ∀ n ∈ d.nodes, n.Stated ctx) :
    (collectDeclarator ctx d).statements.Perm
      (d.statements ctx ++ (ctx.keptNodes d.span d.nodes).flatMap (Node.stated ctx)) := by
  obtain ⟨s,data,target,init⟩ := d
  have hs : s.isDummy = false := hs
  have hi : (ctx.initializerRecords init).statements =
      init.toList.flatMap fun e => (ctx.location? e.span).toList := by
    cases init with
    | none => rfl
    | some e => exact (List.append_nil _).symm
  have hn := (h target List.mem_cons_self false).append
    (statements_collectOption fun n hn => h n (List.mem_cons_of_mem _ hn))
  rw [collectDeclarator,Declarator.statements,if_neg (by rw [hs]; exact Bool.false_ne_true)]
  unfold Context.unlessLeftOut Context.keptNodes
  change List.Perm _ (_ ++ List.flatMap _ (if ctx.leavesOut s none then [] else target :: init.toList))
  split
  · exact .refl _
  · rw [← hi]
    exact hn.append_left _

/-- The initializers of a declaration are recorded before what is inside each of them. -/
theorem statements_collectDeclarators {declarators : List Declarator}
    (hs : ∀ d ∈ declarators, d.span.isDummy = false)
    (h : ∀ n ∈ declarators.flatMap Declarator.nodes, n.Stated ctx) :
    (collectDeclarators ctx declarators).statements.Perm
      (declarators.flatMap (Declarator.statements ctx) ++
        (declarators.flatMap fun d => ctx.keptNodes d.span d.nodes).flatMap (Node.stated ctx)) := by
  induction declarators with
  | nil => exact .refl _
  | cons d rest ih =>
    simp only [List.flatMap_cons,List.mem_append] at h
    have hd := statements_collectDeclarator (hs d List.mem_cons_self) fun n hn => h n (.inl hn)
    have hr := ih (fun e he => hs e (List.mem_cons_of_mem _ he)) fun n hn => h n (.inr hn)
    simp only [List.flatMap_cons,List.flatMap_append]
    refine (hd.append hr).trans ?_
    simp only [List.append_assoc]
    exact (List.perm_append_comm_assoc _ _ _).append_left _

end Collected

namespace Node

variable {ctx : Context}

/-- A construct that leaves itself out has no statements, neither its own nor those inside. -/
theorem stated_of_kept {n : Node} (rest : Bool → Records) (hn : n.isExport = false)
    (hr : ∀ chain, n.collect ctx chain = if n.leftOut ctx then ∅ else rest chain)
    (h : ∀ chain, (rest chain).statements.Perm
      (n.ownStatements ctx ++ (n.kept ctx).flatMap (stated ctx))) : n.Stated ctx := by
  intro chain
  rw [hr,stated_eq hn]
  split
  · exact .refl _
  · exact h chain

/-- The statements that the collector reads off a node are those of the constructs located in it. -/
theorem statements_collect (n : Node) (hp : n.hasPlaces = true) : n.Stated ctx := by
  induction n using induction_children with
  | step n ih =>
    have hpc : ∀ m ∈ n.children, m.hasPlaces = true := fun m hm => hasPlaces_of_mem_children hp hm
    have hc : ∀ m ∈ n.children, m.Stated ctx := fun m hm => ih m hm (hpc m hm)
    have hreal : ∀ s ∈ n.spans, s.isDummy = false := fun s hs => isDummy_eq_false hp hs
    clear ih
    cases n with
    | plain head parts => exact stated_of_kept _ rfl (fun _ => rfl) fun _ => statements_collectParts hc
    | paren s inner =>
      refine stated_of_kept (inner.collect ctx ·) rfl (fun _ => rfl) fun chain => ?_
      simpa [kept,children,ownStatements] using hc inner List.mem_cons_self chain
    | logical s operator left right =>
      refine stated_of_kept _ rfl (fun _ => rfl) fun chain => ?_
      have hown : (if chain then ∅ else ctx.chainRecords s left right : Records).statements = [] := by
        cases chain <;> rfl
      have h := (hc left (by simp [children]) left.isChain).append
        (hc right (by simp [children]) right.isChain)
      simpa [kept,children,ownStatements,hown] using h
    | conditional s test consequent alternate =>
      refine stated_of_kept _ rfl (fun _ => rfl) fun _ => ?_
      have h := (hc test (by simp [children]) false).append
        ((hc consequent (by simp [children]) false).append (hc alternate (by simp [children]) false))
      simpa [kept,children,ownStatements,Context.conditionalRecords,Context.branchRecords] using h
    | function head key before body after =>
      simp only [children,List.mem_append] at hc hpc
      refine stated_of_kept _ rfl (fun _ => rfl) fun _ => ?_
      have hown : (ctx.functionRecords head key body).statements = [] := by
        unfold Context.functionRecords
        split <;> rfl
      have hkey := statements_collectOption fun n hn => hc n (.inl (.inl (.inl hn)))
      have hbefore := statements_collectParts fun n hn => hc n (.inl (.inl (.inr hn)))
      have hbody := statements_collectBody (fun n hn => hpc n (.inl (.inr hn)))
        (fun n hn => hc n (.inl (.inr hn))) head key before after
      have hafter := statements_collectParts fun n hn => hc n (.inr hn)
      rw [hreal _ List.mem_cons_self]
      refine (List.Perm.append (.of_eq hown) (hkey.append (hbefore.append (hbody.append hafter)))).trans ?_
      simp only [kept,List.flatMap_append,List.nil_append,List.append_assoc]
      exact ((List.perm_append_comm_assoc _ _ _).append_left _).trans (List.perm_append_comm_assoc _ _ _)
    | defaulted form s target value =>
      refine stated_of_kept _ rfl (fun _ => rfl) fun _ => ?_
      have hown : (ctx.defaultRecords s value).statements = [] := by cases value <;> rfl
      have h := (hc target List.mem_cons_self false).append
        (statements_collectOption fun n hn => hc n (List.mem_cons_of_mem _ hn))
      simpa [kept,children,ownStatements,hown] using h
    | classDeclaration s data name before heritage after =>
      simp only [children,List.mem_append,List.mem_cons] at hc
      refine stated_of_kept _ rfl (fun _ => rfl) fun _ => ?_
      have h := (hc name (.inl (.inl (.inl rfl))) false).append
        ((statements_collectParts fun n hn => hc n (.inl (.inl (.inr hn)))).append
          ((statements_collectOption fun n hn => hc n (.inl (.inr hn))).append
            (statements_collectParts fun n hn => hc n (.inr hn))))
      simpa [kept,children,ownStatements] using h
    | expression s inner =>
      refine stated_of_kept _ rfl (fun _ => rfl) fun _ => ?_
      simpa [kept,children,ownStatements,Context.statementRecords] using
        (hc inner List.mem_cons_self false).append_left (ctx.location? s).toList
    | simple form s parts =>
      refine stated_of_kept _ rfl (fun _ => rfl) fun _ => ?_
      exact (statements_collectParts hc).append_left _
    | compound form s data init head body =>
      simp only [children,List.mem_append,List.mem_singleton] at hc hpc
      refine stated_of_kept _ rfl (fun _ => rfl) fun _ => ?_
      rw [hreal s List.mem_cons_self]
      have h := (statements_collectInit (fun n hn => hpc n (.inl (.inl hn)))
        fun n hn => hc n (.inl (.inl hn))).append
          ((statements_collectParts fun n hn => hc n (.inl (.inr hn))).append
            (statements_bodyRecords (hc body (.inr rfl))))
      simpa [kept,ownStatements,Context.statementRecords] using h.append_left (ctx.location? s).toList
    | ifElse s test consequent alternate =>
      simp only [children,List.mem_cons] at hc
      simp only [spans,List.mem_cons,List.mem_map] at hreal
      have helse := statements_collectElse (ctx.directives.hintFor? s = some .alternate)
        (fun n hn => hreal n.span (.inr (.inr ⟨n,hn,rfl⟩))) fun n hn => hc n (.inr (.inr hn))
      have hthen := statements_bodyRecords (hc consequent (.inr (.inl rfl)))
      have hside : (Records.unlessAsked (ctx.directives.hintFor? s = some .consequent) consequent.span
          (ctx.bodyRecords true consequent (consequent.collect ctx false))).statements.Perm
          ((if ctx.directives.hintFor? s = some .consequent then [] else ctx.keptBody consequent).flatMap
            (stated ctx)) := by
        rw [Records.unlessAsked,hreal consequent.span (.inr (.inl rfl)),Bool.not_false,Bool.and_true]
        simp only [decide_eq_true_eq]
        split
        · exact .refl _
        · exact hthen
      refine stated_of_kept _ rfl (fun _ => rfl) fun _ => ?_
      rw [hreal s (.inl rfl)]
      have h := (hc test (.inl rfl) false).append (hside.append helse)
      simpa [kept,ownStatements,Context.ifRecords,Context.branchRecords] using h
    | switch s discriminant cases =>
      refine stated_of_kept _ rfl (fun _ => rfl) fun _ => ?_
      have h := (hc discriminant List.mem_cons_self false).append
        (statements_collectCases fun n hn => hc n (List.mem_cons_of_mem _ hn))
      simpa [kept,ownStatements,Context.switchRecords,Context.branchRecords,Context.statementRecords]
        using h.append_left (ctx.location? s).toList
    | bindings s data declarators =>
      refine stated_of_kept _ rfl (fun _ => rfl) fun _ => statements_collectDeclarators (fun d hd => ?_) hc
      refine hreal _ (List.mem_cons_of_mem _ (List.mem_flatMap.mpr ⟨d,hd,?_⟩))
      obtain ⟨s,data,target,init⟩ := d
      exact List.mem_cons_self
    | block s statements => exact stated_of_kept _ rfl (fun _ => rfl) fun _ => statements_collectItems hc
    | exported s declaration =>
      intro chain
      rw [stated_exported]
      exact hc declaration List.mem_cons_self false
    | namespaceBlock s items => exact stated_of_kept _ rfl (fun _ => rfl) fun _ => statements_collectItems hc

end Node

namespace Program

variable {ctx : Context} {p : Program}

theorem statements_collect (h : p.hasPlaces = true) :
    (p.collect ctx).statements.Perm (statementsOf ctx (p.located ctx)) := by
  have hp : ∀ n ∈ p.body, n.hasPlaces = true := List.all_eq_true.mp h
  rw [collect,collectItems_prologue hp,located,statementsOf,List.flatMap_assoc]
  exact statements_collectItems fun n hn =>
    n.statements_collect (hp n ((List.dropWhile_sublist _).subset hn))

/-- A walk without an error leaves the statements of the constructs at which counting is on. -/
theorem statementMap_walk {path : String} {options : Options} (hp : p.hasPlaces = true)
    (hd : p.hasDistinctPlaces = true) (hf : (p.walk ctx (startMap path options)).2.failure = none) :
    ((p.walk ctx (startMap path options)).2.coverage.freeze.2.data.statementMap).Perm
      (statementsOf ctx (p.located ctx)) := by
  rw [(extends_walk hd hf).freeze.of_startMap.1]
  exact statements_collect hp

end Program
end CoverageCounters
