import CoverageCounters.Proofs.WalkRun

/-!
What the walk reads of the comments. It asks for hints and source-map references only at the places of
the nodes it goes over, so comments that say the same there give the same walk.
-/

namespace CoverageCounters

/-- The comments without those that lead the given position. -/
def Comments.withoutLeading (c : Comments) (pos : Nat) : Comments :=
  { c with leading := ⟨c.leading.entries.filter (·.1 ≠ pos)⟩ }

theorem Comments.attachedAt_withoutLeading (c : Comments) {pos lo : Nat} (h : lo ≠ pos) :
    (c.withoutLeading pos).leading.attachedAt lo = c.leading.attachedAt lo := by
  unfold CommentTable.attachedAt withoutLeading
  rw [List.filter_filter]
  congr 2
  funext e
  by_cases he : e.1 = lo
  · simp [he,h]
  · simp [he]

namespace Context

/-- The same pass over a file with other comments. -/
def withComments (ctx : Context) (c : Comments) : Context :=
  { ctx with directives := { ctx.directives with comments := c } }

/-- Other comments say the same about a place. -/
structure SameAt (ctx : Context) (c : Comments) (s : Span) : Prop where
  hint : (ctx.withComments c).directives.hintFor? s = ctx.directives.hintFor? s
  url : (ctx.withComments c).directives.sourceMapUrl? s = ctx.directives.sourceMapUrl? s

variable {ctx : Context} {c : Comments} {s : Span}

theorem sameAt_dummy : ctx.SameAt c .dummy := ⟨rfl,rfl⟩

theorem SameAt.skips (h : ctx.SameAt c s) :
    (ctx.withComments c).directives.skips s = ctx.directives.skips s := by
  rw [Directives.skips,h.hint,Directives.skips]

theorem scanBack_withComments (ctx : Context) (c : Comments) (cursor : Nat)
    (trailing : List TrailingComment) :
    (ctx.withComments c).directives.scanBack cursor trailing =
      ctx.directives.scanBack cursor trailing := by
  induction trailing generalizing cursor with
  | nil => rfl
  | cons t rest ih =>
    rw [Directives.scanBack,Directives.scanBack,ih]
    rfl

/-- The comments in front of a construct say nothing about places that start elsewhere. -/
theorem sameAt_withoutLeading {pos : Nat} (h : s.lo ≠ pos) :
    ctx.SameAt (ctx.directives.comments.withoutLeading pos) s := by
  have ha : CommentTable.attachedAt (ctx.withComments
      (ctx.directives.comments.withoutLeading pos)).directives.comments.leading s.lo =
      ctx.directives.comments.leading.attachedAt s.lo :=
    ctx.directives.comments.attachedAt_withoutLeading h
  refine ⟨?_,?_⟩
  · unfold Directives.hintFor? Directives.adjacentHint?
    rw [ha,scanBack_withComments]
    rfl
  · unfold Directives.sourceMapUrl?
    rw [ha]
    rfl

end Context

namespace Node

/-- The places of a node that a walk can ask about, apart from those of the nodes inside it. -/
def ownPlaces (n : Node) : List Span := n.span :: n.ownKeys.map Key.span

/-- The places of a node and of all nodes inside it. -/
def places (n : Node) : List Span := n.subnodes.flatMap ownPlaces

theorem places_eq (n : Node) : n.places = n.ownPlaces ++ n.children.flatMap places := by
  rw [places,subnodes,List.flatMap_cons,inner_eq,List.flatMap_assoc]
  rfl

end Node

section Same

variable {ctx : Context} {c : Comments}

/-- Other comments say the same about all places of a node. -/
def Node.Same (ctx : Context) (c : Comments) (n : Node) : Prop := ∀ s ∈ n.places, ctx.SameAt c s

namespace Node.Same

variable {n m : Node}

theorem child (h : n.Same ctx c) (hm : m ∈ n.children) : m.Same ctx c := by
  intro s hs
  refine h s ?_
  rw [places_eq]
  exact List.mem_append_right _ (List.mem_flatMap.mpr ⟨m,hm,hs⟩)

theorem span (h : n.Same ctx c) : ctx.SameAt c n.span := by
  refine h _ ?_
  rw [places_eq]
  exact List.mem_append_left _ List.mem_cons_self

theorem key (h : n.Same ctx c) {k : Key} (hk : k ∈ n.ownKeys) : ctx.SameAt c k.span := by
  refine h _ ?_
  rw [places_eq]
  exact List.mem_append_left _ (List.mem_cons_of_mem _ (List.mem_map_of_mem hk))

end Node.Same

namespace Directives

theorem hintForExpression?_withComments {n : Node} (h : n.Same ctx c) :
    (ctx.withComments c).directives.hintForExpression? n = ctx.directives.hintForExpression? n := by
  induction n using Node.induction_children with
  | step n ih =>
    cases n with
    | paren s inner =>
      have hi := ih inner List.mem_cons_self (h.child List.mem_cons_self)
      have hs : ctx.SameAt c s := h.span
      rw [hintForExpression?,hintForExpression?,hi,hs.hint]
    | _ => exact h.span.hint

theorem skipsOperand_withComments {n : Node} (h : n.Same ctx c) :
    (ctx.withComments c).directives.skipsOperand n = ctx.directives.skipsOperand n := by
  rw [skipsOperand,hintForExpression?_withComments h,skipsOperand]

theorem operands_withComments {n : Node} (h : n.Same ctx c) :
    (ctx.withComments c).directives.operands n = ctx.directives.operands n := by
  induction n using Node.induction_children with
  | step n ih =>
    cases n with
    | logical s operator left right =>
      have hl := ih left (by simp [Node.children]) (h.child (by simp [Node.children]))
      have hr := ih right (by simp [Node.children]) (h.child (by simp [Node.children]))
      have hs : ctx.SameAt c s := h.span
      rw [operands,operands,hl,hr,hs.skips]
    | paren s inner =>
      have hi := ih inner List.mem_cons_self (h.child List.mem_cons_self)
      have hs : ctx.SameAt c s := h.span
      rw [operands,operands,hi,hs.skips]
    | _ => rfl

/-- The operands of a chain are nodes of the chain. -/
theorem same_of_mem_operands {n m : Node} (h : n.Same ctx c)
    (hm : m ∈ ctx.directives.operands n) : m.Same ctx c := by
  induction n using Node.induction_children with
  | step n ih =>
    cases n with
    | logical s operator left right =>
      rw [operands] at hm
      split at hm
      · cases hm
      · rcases List.mem_append.mp hm with hm | hm
        · exact ih left (by simp [Node.children]) (h.child (by simp [Node.children])) hm
        · exact ih right (by simp [Node.children]) (h.child (by simp [Node.children])) hm
    | paren s inner =>
      rw [operands] at hm
      split at hm
      · split at hm
        · cases hm
        · exact ih inner List.mem_cons_self (h.child List.mem_cons_self) hm
      · rw [List.mem_singleton.mp hm]
        exact h
    | _ =>
      rw [List.mem_singleton.mp hm]
      exact h

end Directives

namespace Action

theorem coverIf_withComments {s : Span} (h : ctx.SameAt c s) (consequent : Node)
    (alternate : Option Node) :
    coverIf (ctx.withComments c) s consequent alternate = coverIf ctx s consequent alternate := by
  unfold coverIf
  rw [h.hint]
  rfl

theorem coverOperand_withComments {n : Node} (h : n.Same ctx c) (branch : Nat) :
    coverOperand (ctx.withComments c) branch n = coverOperand ctx branch n := by
  unfold coverOperand
  rw [Directives.skipsOperand_withComments h]
  rfl

theorem coverConditional_withComments {s : Span} {consequent alternate : Node}
    (hc : consequent.Same ctx c) (ha : alternate.Same ctx c) :
    coverConditional (ctx.withComments c) s consequent alternate =
      coverConditional ctx s consequent alternate := by
  unfold coverConditional
  simp only [coverOperand_withComments hc,coverOperand_withComments ha]
  rfl

theorem mapM_coverOperand_withComments (branch : Nat) {nodes : List Node}
    (h : ∀ n ∈ nodes, n.Same ctx c) :
    nodes.mapM (coverOperand (ctx.withComments c) branch) = nodes.mapM (coverOperand ctx branch) := by
  induction nodes with
  | nil => rfl
  | cons n rest ih =>
    rw [List.mapM_cons,List.mapM_cons,coverOperand_withComments (h n List.mem_cons_self),
      ih fun m hm => h m (List.mem_cons_of_mem _ hm)]

theorem coverChain_withComments {s : Span} {left right : Node} (hl : left.Same ctx c)
    (hr : right.Same ctx c) :
    coverChain (ctx.withComments c) s left right = coverChain ctx s left right := by
  have hm : ∀ branch, (ctx.directives.operands left ++ ctx.directives.operands right).mapM
      (coverOperand (ctx.withComments c) branch) = _ := fun branch =>
    mapM_coverOperand_withComments branch fun n hn => (List.mem_append.mp hn).elim
      (Directives.same_of_mem_operands hl) (Directives.same_of_mem_operands hr)
  unfold coverChain
  rw [Directives.operands_withComments hl,Directives.operands_withComments hr]
  simp only [hm]
  rfl

end Action

namespace Walk

variable {α β : Type} {key : Key} {walk walk' : Walk Node}

theorem visiting_withComments {name : Option String} {action action' : Action α} {idle : α}
    {inside inside' : α → Walk β} (hk : ctx.SameAt c key.span) (ha : action' = action)
    (hi : ∀ a, inside' a = inside a) :
    visiting (ctx.withComments c) key name action' idle inside' =
      visiting ctx key name action idle inside := by
  have he : ∀ t : Traversal, t.enter (ctx.withComments c) key name = t.enter ctx key name := by
    intro t
    simp only [Traversal.enter,Traversal.startsSuppression,hk.skips,hk.url]
    rfl
  rw [ha,funext hi]
  unfold visiting
  simp only [he]

theorem passing_withComments {inside inside' : Walk β} (hk : ctx.SameAt c key.span)
    (hi : inside' = inside) :
    passing (ctx.withComments c) key inside' = passing ctx key inside :=
  visiting_withComments hk rfl fun _ => hi

theorem behind?_withComments (counter : Option Counter) (h : walk' = walk) :
    behind? (ctx.withComments c) counter walk' = behind? ctx counter walk := by
  subst h
  cases counter with
  | none => rfl
  | some counter => exact passing_withComments Context.sameAt_dummy rfl

theorem operand_withComments {n : Node} (counters : List (Option Counter))
    {walk walk' : List (Option Counter) → Walk Node} (h : ∀ given, walk' given = walk given) :
    operand (ctx.withComments c) n counters walk' = operand ctx n counters walk := by
  rw [operand,operand,h,behind?_withComments _ (h [])]

/-- Nothing is asked about the place of a counter. -/
theorem counterItem_withComments (counter : Option Counter) :
    counterItem (ctx.withComments c) counter = counterItem ctx counter := by
  cases counter with
  | none => rfl
  | some counter =>
    refine congrArg (fun walk => asItem false walk >>= fun item => pure [item]) ?_
    exact visiting_withComments Context.sameAt_dummy rfl fun _ => rfl

theorem inBlock_withComments (counter : Option Counter) {body : Node} (hb : body.Same ctx c)
    {walk walk' : List (Option Counter) → Walk Node} (h : ∀ given, walk' given = walk given) :
    inBlock (ctx.withComments c) counter body walk' = inBlock ctx counter body walk := by
  obtain rfl : walk' = walk := funext h
  unfold inBlock
  rw [counterItem_withComments]
  split
  · rfl
  · exact passing_withComments hb.span rfl

theorem asBody_withComments (counted : Bool) {body : Node} (hb : body.Same ctx c)
    {walk walk' : List (Option Counter) → Walk Node} (h : ∀ given, walk' given = walk given) :
    asBody (ctx.withComments c) counted body walk' = asBody ctx counted body walk := by
  cases counted with
  | false => exact h []
  | true => exact inBlock_withComments none hb h

theorem asReturn_withComments (counter : Counter) {s : Span} (hs : ctx.SameAt c s)
    (h : walk' = walk) :
    asReturn (ctx.withComments c) counter s walk' = asReturn ctx counter s walk := by
  subst h
  unfold asReturn
  refine passing_withComments hs ?_
  rw [counterItem_withComments,visiting_withComments hs rfl fun _ => rfl]
  rfl

theorem inParens_withComments (wanted : Bool) (heritage : Node) (h : walk' = walk) :
    inParens (ctx.withComments c) wanted heritage walk' = inParens ctx wanted heritage walk := by
  subst h
  unfold inParens
  split
  · exact passing_withComments Context.sameAt_dummy rfl
  · rfl

end Walk

section Lists

open Walk

theorem walkNodes_withComments {nodes : List Node}
    (h : ∀ n ∈ nodes, n.walk (ctx.withComments c) [] = n.walk ctx []) :
    walkNodes (ctx.withComments c) nodes = walkNodes ctx nodes := by
  induction nodes with
  | nil => rfl
  | cons n rest ih =>
    rw [walkNodes,walkNodes,h n List.mem_cons_self,ih fun m hm => h m (List.mem_cons_of_mem _ hm)]

theorem walkPart_withComments {p : Part}
    (h : ∀ n ∈ p.nodes, n.walk (ctx.withComments c) [] = n.walk ctx []) :
    walkPart (ctx.withComments c) p = walkPart ctx p := by
  cases p with
  | child field n => rw [walkPart,walkPart,h n (List.mem_singleton_self n)]
  | children field nodes =>
    have hn : walkNodes (ctx.withComments c) nodes = walkNodes ctx nodes := walkNodes_withComments h
    rw [walkPart,walkPart,hn]

theorem walkParts_withComments {parts : List Part}
    (h : ∀ n ∈ parts.flatMap Part.nodes, n.walk (ctx.withComments c) [] = n.walk ctx []) :
    walkParts (ctx.withComments c) parts = walkParts ctx parts := by
  induction parts with
  | nil => rfl
  | cons p rest ih =>
    rw [List.flatMap_cons] at h
    rw [walkParts,walkParts,walkPart_withComments fun n hn => h n (List.mem_append_left _ hn),
      ih fun n hn => h n (List.mem_append_right _ hn)]

theorem walkOption_withComments (counter : Option Counter) {o : Option Node}
    (h : ∀ n ∈ o.toList, n.walk (ctx.withComments c) [] = n.walk ctx []) :
    walkOption (ctx.withComments c) counter o = walkOption ctx counter o := by
  cases o with
  | none => rfl
  | some n =>
    rw [walkOption,walkOption,behind?_withComments counter (h n (List.mem_singleton_self n))]

theorem walkElse_withComments (counter : Option Counter) {o : Option Node}
    (hs : ∀ n ∈ o.toList, n.Same ctx c)
    (h : ∀ n ∈ o.toList, ∀ given, n.walk (ctx.withComments c) given = n.walk ctx given) :
    walkElse (ctx.withComments c) counter o = walkElse ctx counter o := by
  cases o with
  | none =>
    rw [walkElse,walkElse,counterItem_withComments]
    exact passing_withComments Context.sameAt_dummy rfl
  | some n =>
    rw [walkElse,walkElse]
    exact inBlock_withComments counter (hs n (List.mem_singleton_self n))
      (h n (List.mem_singleton_self n))

theorem walkHeritage_withComments (counted : Bool) {o : Option Node}
    (h : ∀ n ∈ o.toList, n.walk (ctx.withComments c) [] = n.walk ctx []) :
    walkHeritage (ctx.withComments c) counted o = walkHeritage ctx counted o := by
  cases o with
  | none => rfl
  | some n =>
    rw [walkHeritage,walkHeritage,inParens_withComments counted n (h n (List.mem_singleton_self n))]

theorem walkItems_withComments {items : List Node}
    (h : ∀ n ∈ items, n.walk (ctx.withComments c) [] = n.walk ctx []) :
    walkItems (ctx.withComments c) items = walkItems ctx items := by
  induction items with
  | nil => rfl
  | cons n rest ih =>
    rw [walkItems,walkItems,h n List.mem_cons_self,ih fun m hm => h m (List.mem_cons_of_mem _ hm)]

theorem walkStatements_withComments (counter : Option Counter) {statements : List Node}
    (h : ∀ n ∈ statements, n.walk (ctx.withComments c) [] = n.walk ctx []) :
    walkStatements (ctx.withComments c) counter statements = walkStatements ctx counter statements := by
  have hf := walkItems_withComments fun n hn => h n ((List.takeWhile_sublist Node.isDirective).mem hn)
  have hb := walkItems_withComments fun n hn => h n ((List.dropWhile_sublist Node.isDirective).mem hn)
  rw [walkStatements_eq,walkStatements_eq,counterItem_withComments,hf,hb]

theorem walkBody_withComments (counter : Option Counter) {body : Body}
    (hs : ∀ k ∈ body.keys, ctx.SameAt c k.span)
    (h : ∀ n ∈ body.nodes, n.walk (ctx.withComments c) [] = n.walk ctx []) :
    walkBody (ctx.withComments c) counter body = walkBody ctx counter body := by
  cases body with
  | absent => rfl
  | block s statements =>
    have hw : walkStatements (ctx.withComments c) counter statements =
        walkStatements ctx counter statements := walkStatements_withComments counter h
    rw [walkBody,walkBody,hw]
    exact passing_withComments (hs ⟨.block,s⟩ (List.mem_singleton_self _)) rfl
  | value e =>
    have he := h e (List.mem_singleton_self e)
    cases counter with
    | none => rw [walkBody,walkBody,he]
    | some counter => exact asReturn_withComments counter (hs ⟨.block,e.span⟩ List.mem_cons_self) he

theorem walkCase_withComments (switch : Key) {k : Case} (hs : ctx.SameAt c k.span)
    (h : ∀ n ∈ k.nodes, n.walk (ctx.withComments c) [] = n.walk ctx []) :
    walkCase (ctx.withComments c) switch k = walkCase ctx switch k := by
  obtain ⟨s,test,consequent⟩ := k
  simp only [Case.nodes,List.mem_append] at h
  refine visiting_withComments hs rfl fun counter => ?_
  rw [walkOption_withComments none fun n hn => h n (.inl hn),counterItem_withComments,
    walkItems_withComments fun n hn => h n (.inr hn)]

theorem walkCases_withComments (switch : Key) {cases : List Case}
    (hs : ∀ k ∈ cases, ctx.SameAt c k.span)
    (h : ∀ n ∈ cases.flatMap Case.nodes, n.walk (ctx.withComments c) [] = n.walk ctx []) :
    walkCases (ctx.withComments c) switch cases = walkCases ctx switch cases := by
  induction cases with
  | nil => rfl
  | cons k rest ih =>
    simp only [List.flatMap_cons,List.mem_append] at h
    rw [walkCases,walkCases,
      walkCase_withComments switch (hs k List.mem_cons_self) fun n hn => h n (.inl hn),
      ih (fun k hk => hs k (List.mem_cons_of_mem _ hk)) fun n hn => h n (.inr hn)]

theorem walkDeclarator_withComments (hoistable : Bool) {d : Declarator} (hs : ctx.SameAt c d.span)
    (h : ∀ n ∈ d.nodes, n.walk (ctx.withComments c) [] = n.walk ctx []) :
    walkDeclarator (ctx.withComments c) hoistable d = walkDeclarator ctx hoistable d := by
  obtain ⟨s,data,target,init⟩ := d
  refine visiting_withComments hs rfl fun counter => ?_
  rw [h target List.mem_cons_self,
    walkOption_withComments counter fun n hn => h n (List.mem_cons_of_mem _ hn)]

theorem walkDeclarators_withComments (hoistable : Bool) {declarators : List Declarator}
    (hs : ∀ d ∈ declarators, ctx.SameAt c d.span)
    (h : ∀ n ∈ declarators.flatMap Declarator.nodes,
      n.walk (ctx.withComments c) [] = n.walk ctx []) :
    walkDeclarators (ctx.withComments c) hoistable declarators =
      walkDeclarators ctx hoistable declarators := by
  induction declarators with
  | nil => rfl
  | cons d rest ih =>
    simp only [List.flatMap_cons,List.mem_append] at h
    rw [walkDeclarators,walkDeclarators,
      walkDeclarator_withComments hoistable (hs d List.mem_cons_self) fun n hn => h n (.inl hn),
      ih (fun d hd => hs d (List.mem_cons_of_mem _ hd)) fun n hn => h n (.inr hn)]

end Lists

namespace Node

open CoverageCounters.Walk CoverageCounters.Action

/-- Comments that say the same about all places of a node give the same walk of it. -/
theorem walk_withComments {n : Node} (h : n.Same ctx c) (given : List (Option Counter)) :
    n.walk (ctx.withComments c) given = n.walk ctx given := by
  induction n using induction_children generalizing given with
  | step n ih =>
    have hs : ∀ m ∈ n.children, m.Same ctx c := fun m hm => h.child hm
    have hw : ∀ m ∈ n.children, ∀ given, m.walk (ctx.withComments c) given = m.walk ctx given :=
      fun m hm => ih m hm (hs m hm)
    have ho : ∀ k ∈ n.ownKeys, ctx.SameAt c k.span := fun k hk => h.key hk
    clear ih
    cases n with
    | plain head parts => rw [walk,walk,walkParts_withComments fun n hn => hw n hn []]
    | paren s inner =>
      rw [walk,walk,hw inner List.mem_cons_self]
      exact passing_withComments (ho _ List.mem_cons_self) rfl
    | logical s operator left right =>
      have hl : left ∈ (logical s operator left right).children := by simp [children]
      have hr : right ∈ (logical s operator left right).children := by simp [children]
      simp only [walk]
      congr 1
      funext t
      refine visiting_withComments (ho _ List.mem_cons_self) ?_ fun own => ?_
      · rw [coverChain_withComments (hs left hl) (hs right hr)]
      · rw [Directives.operands_withComments (hs left hl),operand_withComments _ (hw left hl),
          operand_withComments _ (hw right hr)]
    | conditional s test consequent alternate =>
      have hc : consequent ∈ (conditional s test consequent alternate).children := by simp [children]
      have ha : alternate ∈ (conditional s test consequent alternate).children := by simp [children]
      refine visiting_withComments (ho _ List.mem_cons_self)
        (coverConditional_withComments (hs _ hc) (hs _ ha)) fun counters => ?_
      rw [hw test List.mem_cons_self,behind?_withComments _ (hw _ hc []),
        behind?_withComments _ (hw _ ha [])]
    | function head key before body after =>
      simp only [children,List.mem_append] at hw
      refine visiting_withComments (ho _ List.mem_cons_self) rfl fun counter => ?_
      rw [walkOption_withComments none fun n hn => hw n (.inl (.inl (.inl hn))) [],
        walkParts_withComments fun n hn => hw n (.inl (.inl (.inr hn))) [],
        walkBody_withComments counter (fun k hk => ho k (List.mem_cons_of_mem _ hk))
          fun n hn => hw n (.inl (.inr hn)) [],
        walkParts_withComments fun n hn => hw n (.inr hn) []]
    | defaulted form s target value =>
      refine visiting_withComments (ho _ List.mem_cons_self) rfl fun counter => ?_
      rw [hw target List.mem_cons_self,
        walkOption_withComments counter fun n hn => hw n (List.mem_cons_of_mem _ hn) []]
    | classDeclaration s data name before heritage after =>
      simp only [children,List.mem_append,List.mem_cons] at hw
      refine visiting_withComments (ho _ List.mem_cons_self) rfl fun counted => ?_
      rw [hw name (.inl (.inl (.inl rfl))),
        walkParts_withComments fun n hn => hw n (.inl (.inl (.inr hn))) [],
        walkHeritage_withComments counted fun n hn => hw n (.inl (.inr hn)) [],
        walkParts_withComments fun n hn => hw n (.inr hn) []]
    | expression s inner =>
      refine visiting_withComments (ho _ List.mem_cons_self) rfl fun _ => ?_
      rw [hw inner List.mem_cons_self]
    | simple form s parts =>
      refine visiting_withComments (ho _ List.mem_cons_self) rfl fun _ => ?_
      rw [walkParts_withComments fun n hn => hw n hn []]
    | compound form s data init head body =>
      simp only [children,List.mem_append,List.mem_singleton] at hs hw
      refine visiting_withComments (ho _ List.mem_cons_self) rfl fun counted => ?_
      rw [walkOption_withComments none fun n hn => hw n (.inl (.inl hn)) [],
        walkParts_withComments fun n hn => hw n (.inl (.inr hn)) [],
        asBody_withComments counted (hs body (.inr rfl)) (hw body (.inr rfl))]
    | ifElse s test consequent alternate =>
      simp only [children,List.mem_cons] at hs hw
      refine visiting_withComments h.span (coverIf_withComments h.span _ _) fun counters => ?_
      rw [hw test (.inl rfl)]
      cases counters with
      | none =>
        simp only [hw consequent (.inr (.inl rfl)),
          walkOption_withComments none fun n hn => hw n (.inr (.inr hn)) []]
      | some counters =>
        simp only [inBlock_withComments counters.1 (hs consequent (.inr (.inl rfl)))
            (hw consequent (.inr (.inl rfl))),
          walkElse_withComments counters.2 (fun n hn => hs n (.inr (.inr hn)))
            fun n hn => hw n (.inr (.inr hn))]
    | switch s discriminant cases =>
      refine visiting_withComments (ho _ List.mem_cons_self) rfl fun _ => ?_
      rw [hw discriminant List.mem_cons_self,walkCases_withComments _
        (fun k hk => ho _ (List.mem_cons_of_mem _ (List.mem_map.mpr ⟨k,hk,rfl⟩)))
        fun n hn => hw n (List.mem_cons_of_mem _ hn) []]
    | bindings s data declarators =>
      simp only [walk]
      congr 1
      funext hoistable
      refine passing_withComments (ho _ List.mem_cons_self) ?_
      rw [walkDeclarators_withComments hoistable
        (fun d hd => ho _ (List.mem_cons_of_mem _ (List.mem_map.mpr ⟨d,hd,rfl⟩)))
        fun n hn => hw n hn []]
    | block s statements =>
      have hi : walkItems (ctx.withComments c) statements = walkItems ctx statements :=
        walkItems_withComments fun n hn => hw n hn []
      rw [walk,walk,hi,counterItem_withComments]
      exact passing_withComments (ho _ List.mem_cons_self) rfl
    | exported s declaration => rw [walk,walk,hw declaration List.mem_cons_self]
    | namespaceBlock s items =>
      have hi : walkItems (ctx.withComments c) items = walkItems ctx items :=
        walkItems_withComments fun n hn => hw n hn []
      rw [walk,walk,hi]

end Node

end Same

end CoverageCounters
