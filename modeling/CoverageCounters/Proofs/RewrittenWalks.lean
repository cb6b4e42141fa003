import CoverageCounters.Proofs.TreeVisits

/-!
Counters are walked as the nodes they are. The walk hands counters down to the constructs they belong to;
here what it makes of a construct with its counters is shown to be the walk of the construct with the
counters in it: in front of an expression, first in a block, or behind the directives of a function.
-/

namespace CoverageCounters

open Walk

variable {ctx : Context}

namespace Counter

/-- Nothing is visited inside a counter. -/
@[simp] theorem walk_node (c : Counter) (identifier : String) (given : List (Option Counter)) :
    (c.node identifier).walk ctx given = pure (c.node identifier) := by
  cases c <;>
    simp [node,Build.increment,Build.element,Build.member,Build.identifier,Build.index,Node.leaf,
      Node.walk,walkParts,walkPart]

/-- A counter that stands as a statement is visited as a statement. -/
theorem walk_statementNode (c : Counter) (identifier : String) (given : List (Option Counter)) :
    (c.statementNode identifier).walk ctx given =
      visiting ctx ⟨.expressionStatement,.dummy⟩ none
        (Action.coverStatement ctx .expressionStatement .dummy) () fun _ =>
          pure (c.statementNode identifier) := by
  simp [statementNode,Build.statement,Node.walk]

end Counter

namespace Node

/-- An expression behind a counter is visited as the pair that it is. -/
theorem walk_behind? (n : Node) (c : Option Counter) :
    (n.behind? ctx c).walk ctx [] = Walk.behind? ctx c (n.walk ctx []) := by
  cases c with
  | none => rfl
  | some c =>
    simp [Node.behind?,Walk.behind?,behind,Build.after,Build.paren,Build.sequence,Node.walk,walkParts,
      walkPart,walkNodes]

theorem isChain_behind? (n : Node) (c : Option Counter) (h : n.isChain = false) :
    (n.behind? ctx c).isChain = false := by
  cases c with
  | none => exact h
  | some c => rfl

end Node

section Lists

/-- A counter in front of a list is walked as its first item. -/
theorem walkItems_counterStatements (c : Option Counter) (items : List Node) :
    walkItems ctx (counterStatements ctx c ++ items) = do
      let first ← counterItem ctx c
      let items ← walkItems ctx items
      return first ++ items := by
  cases c with
  | none => simp [counterStatements]
  | some c =>
    simp only [counterStatements,Option.toList,List.map_cons,List.map_nil,List.singleton_append,
      walkItems,Counter.walk_statementNode,counterItem,bind_assoc,pure_bind]
    rfl

theorem walkItems_append (items items' : List Node) :
    walkItems ctx (items ++ items') = do
      let front ← walkItems ctx items
      let back ← walkItems ctx items'
      return front ++ back := by
  induction items with
  | nil => simp [walkItems]
  | cons n rest ih => simp [walkItems,ih]

/-- Without a counter to put in, the statements of a function are a list as any other. -/
theorem walkStatements_none (statements : List Node) :
    walkStatements ctx none statements = walkItems ctx statements := by
  rw [walkStatements_eq,counterItem_none]
  simp only [pure_bind,List.append_nil,← walkItems_append,List.takeWhile_append_dropWhile]

/-- The block that a missing `else` becomes is walked with the counter in it. -/
theorem walkElse_none (c : Option Counter) :
    walkElse ctx c none = (Node.block .dummy (counterStatements ctx c)).walk ctx [] := by
  have h : walkItems ctx (counterStatements ctx c ++ []) = _ := walkItems_counterStatements c []
  rw [List.append_nil] at h
  simp [walkElse,Node.walk,h,walkItems]

end Lists

namespace Node

/-- A block with a counter first is walked as it stands. -/
theorem walk_block (s : Span) (statements : List Node) (given : List (Option Counter)) :
    (block s statements).walk ctx given =
      (block s (counterStatements ctx given.head?.join ++ statements)).walk ctx [] := by
  simp [Node.walk,walkItems_counterStatements]

/-- A body with a counter first is walked as the block that it becomes. -/
theorem inBlock_eq_walk (c : Option Counter) (n : Node) :
    inBlock ctx c n (fun given => n.walk ctx given) = (n.asBlock? ctx c).walk ctx [] := by
  by_cases h : n.isBlock = true
  · obtain ⟨s,statements,rfl⟩ := exists_block_of_isBlock h
    rw [inBlock,if_pos h,walk_block]
    rfl
  · rw [inBlock,if_neg h,asBlock?_of_not_isBlock h]
    simp [Node.walk,walkItems_counterStatements,walkItems]

/-- The heritage of a class is walked inside the parentheses that are put around it. -/
theorem inParens_eq_walk (wanted : Bool) (n : Node) :
    inParens ctx wanted n (n.walk ctx []) =
      (if wanted && !n.isParen then Build.paren n else n).walk ctx [] := by
  unfold inParens
  split
  · rw [Build.paren,Node.walk]
    rfl
  · rfl

end Node

/-- The body of a function with its counter is walked as it stands: the counter behind the directives, and
the value of an arrow in a return. -/
theorem walkBody_withCounter (c : Option Counter) (b : Body) :
    walkBody ctx c b = walkBody ctx none (b.withCounter ctx c) := by
  cases b with
  | absent => rfl
  | block s statements =>
    rw [Body.withCounter,walkBody,walkBody,walkStatements_none,walkStatements_eq,List.append_assoc,
      walkItems_append,walkItems_counterStatements]
    simp
  | value e =>
    cases c with
    | none => rfl
    | some c =>
      have h : walkItems ctx (counterStatements ctx (some c) ++ [e.returned]) = _ :=
        walkItems_counterStatements (some c) [e.returned]
      simp only [counterStatements,Option.toList,List.map_cons,List.map_nil,List.singleton_append] at h
      rw [Body.withCounter,walkBody,walkBody,walkStatements_none,h,asReturn]
      simp [walkItems,Node.returned,Node.walk,walkParts,walkPart,SimpleForm.kind]
      rfl

namespace Node

variable {n : Node}

theorem isChain_withGiven (chain : Bool) (given : List (Option Counter)) (n : Node) :
    (n.withGiven ctx chain given).isChain = n.isChain := by
  induction n using induction_children with
  | step n ih =>
    cases n with
    | paren s inner => exact ih inner List.mem_cons_self
    | logical s operator left right => cases chain <;> rfl
    | _ => rfl

/-- To walk a node where it stands in a chain, or outside of one, with the counters it is given is to walk
it with those counters in it. -/
def WalksAsGiven (ctx : Context) (n : Node) : Prop :=
  ∀ (given : List (Option Counter)) (t : Traversal),
    ((n.withGiven ctx t.inChain given).walk ctx []).run t = (n.walk ctx given).run t

/-- An operand behind its counter is walked as it stands in the chain. -/
theorem WalksAsGiven.operand (h : n.WalksAsGiven ctx) (counters : List (Option Counter)) {t : Traversal}
    (ht : t.inChain = true) :
    (operand ctx (n.asOperand ctx counters (n.withGiven ctx true counters)) [] fun given =>
        (n.asOperand ctx counters (n.withGiven ctx true counters)).walk ctx given).run t =
      (operand ctx n counters fun given => n.walk ctx given).run t := by
  cases hc : n.isChain with
  | true =>
    have hw := h counters t
    rw [ht] at hw
    simpa only [asOperand,hc,if_true,Walk.operand,isChain_withGiven] using hw
  | false =>
    simp only [asOperand,hc,Bool.false_eq_true,if_false,Walk.operand,n.isChain_behind? _ hc,
      List.head?_nil,Option.join_none,Walk.behind?,walk_behind?]

theorem run_walkChain (s : Span) (operator : LogicalOperator) (left right : Node)
    (counters : List (Option Counter)) (t : Traversal) :
    (walkChain ctx s operator left right counters).run t =
      let n := (ctx.directives.operands left).length
      let first := (operand ctx left (counters.take n) fun given => left.walk ctx given).run
        { t with inChain := true }
      let second := (operand ctx right (counters.drop n) fun given => right.walk ctx given).run first.2
      (.logical s operator first.1 second.1,{ second.2 with inChain := t.inChain }) := rfl

/-- The operands of a chain behind their counters are walked as they stand. -/
theorem walkChain_withGiven {left right : Node} (hl : left.WalksAsGiven ctx) (hr : right.WalksAsGiven ctx)
    (s : Span) (operator : LogicalOperator) (counters : List (Option Counter)) :
    let front := counters.take (ctx.directives.operands left).length
    let back := counters.drop (ctx.directives.operands left).length
    walkChain ctx s operator (left.asOperand ctx front (left.withGiven ctx true front))
        (right.asOperand ctx back (right.withGiven ctx true back)) [] =
      walkChain ctx s operator left right counters := by
  intro front back
  funext t
  have hin : ((operand ctx left front fun given => left.walk ctx given).run
      { t with inChain := true }).2.inChain = true :=
    (Runs.operand (left.walk_runs fun _ _ => trivial) { t with inChain := true }).inChain_eq
  have hfirst := hl.operand front (t := { t with inChain := true }) rfl
  have hsecond := hr.operand back hin
  change (walkChain ctx s operator _ _ []).run t = (walkChain ctx s operator _ _ counters).run t
  simp only [run_walkChain,List.take_nil,List.drop_nil,hfirst,front,back] at hsecond ⊢
  rw [hsecond]

/-- What the walk makes of a node with the counters it is given is the walk of the node with those
counters in it. -/
theorem walks_as_given (ctx : Context) (n : Node) : n.WalksAsGiven ctx := by
  induction n using induction_children with
  | step n ih =>
    intro given t
    cases n with
    | paren s inner =>
      have hi : ((inner.withGiven ctx t.inChain given).walk ctx []).run
          (t.enter ctx ⟨.parenthesized,s⟩ none) =
          (inner.walk ctx given).run (t.enter ctx ⟨.parenthesized,s⟩ none) :=
        ih inner List.mem_cons_self given (t.enter ctx ⟨.parenthesized,s⟩ none)
      rw [withGiven,Node.walk,Node.walk,passing,passing,run_visiting_pure,run_visiting_pure,run_bind,
        run_bind,hi]
    | logical s operator left right =>
      have hl := ih left (by simp [children])
      have hr := ih right (by simp [children])
      cases hc : t.inChain with
      | false =>
        rw [withGiven,if_neg Bool.false_ne_true,run_walk_outermost hc,run_walk_outermost hc]
      | true =>
        rw [run_walk_inChain hc,← walkChain_withGiven hl hr,← run_walk_inChain hc]
        rfl
    | block s statements => exact congrFun (walk_block s statements given).symm t
    | _ => rfl

end Node

/-- A visit made of the construct that it found what the walk makes of it as it stands, from where the
visit started. Only what was settled before the visit is told beside it: whether variables may be hoisted,
and the switch of a case. -/
inductive Visit.AsFound (ctx : Context) (v : Visit) : Prop where
  | node {n m : Node} (hf : v.found = .node n) (hl : v.left = .node m)
      (h : (n.walk ctx []).run v.before = (m,v.after)) : v.AsFound ctx
  | bindings {s : Span} {data : Attributes} {declarators : List Declarator} {m : Node} (hoist : Bool)
      (hf : v.found = .node (.bindings s data declarators)) (hl : v.left = .node m)
      (h : ((Node.bindings s data declarators).walk ctx []).run { v.before with hoist } = (m,v.after)) :
      v.AsFound ctx
  | body {b c : Body} (hf : v.found = .body b) (hl : v.left = .body c)
      (h : (walkBody ctx none b).run v.before = (c,v.after)) : v.AsFound ctx
  | case {c d : Case} (switch : Key) (hf : v.found = .case c) (hl : v.left = .case d)
      (h : (walkCase ctx switch c).run v.before = (d,v.after)) : v.AsFound ctx
  | declarator {d e : Declarator} (hoistable : Bool) (hf : v.found = .declarator d)
      (hl : v.left = .declarator e)
      (h : (walkDeclarator ctx hoistable d).run v.before = (e,v.after)) : v.AsFound ctx

namespace Traced

/-- All visits of a walk make of constructs what the walk makes of them as they stand. -/
def VisitsFound {α : Type} (ctx : Context) (w : Traced α) : Prop :=
  ∀ t, ∀ v ∈ visitOrder (w t).2, v.AsFound ctx

namespace VisitsFound

variable {α β : Type} {w : Traced α} {f : α → Traced β}

theorem pure (a : α) : VisitsFound ctx (Pure.pure a : Traced α) :=
  fun _ _ hv => absurd hv List.not_mem_nil

theorem bind (hw : VisitsFound ctx w) (hf : ∀ a, VisitsFound ctx (f a)) : VisitsFound ctx (w >>= f) := by
  intro t v hv
  change v ∈ visitOrder ((w t).2 ++ _) at hv
  rw [visitOrder_append,List.mem_append] at hv
  exact hv.elim (hw t v) (hf _ _ v)

theorem map (hw : VisitsFound ctx w) (g : α → β) : VisitsFound ctx (w >>= fun a => Pure.pure (g a)) :=
  hw.bind fun a => .pure (g a)

theorem withChain (inChain : Bool) (hw : VisitsFound ctx w) :
    VisitsFound ctx (Traced.withChain inChain w) := fun t => hw { t with inChain }

theorem asItem {w : Traced Node} (declares : Bool) (hw : VisitsFound ctx w) :
    VisitsFound ctx (Traced.asItem declares w) :=
  fun t => hw { t with frames := [] :: t.frames, hoist := declares }

section Visiting

variable {construct : β → Construct} {found : β} {key : Key} {name : Option String} {action : Action α}
  {idle : α} {inside : α → Traced β} {t : Traversal}

/-- A visit is as found, and so are those inside it. -/
theorem visiting_at (hi : ∀ a, VisitsFound ctx (inside a))
    (h : ∀ v : Visit, v.found = construct found → v.before = t →
      v.left = construct (Traced.visiting ctx construct found key name action idle inside t).1.1 →
      v.after = (Traced.visiting ctx construct found key name action idle inside t).1.2 →
      v.AsFound ctx) :
    ∀ v ∈ visitOrder (Traced.visiting ctx construct found key name action idle inside t).2,
      v.AsFound ctx := by
  intro v hv
  change v ∈ visitOrder [_] at hv
  rw [visitOrder_cons,visitOrder,List.append_nil] at hv
  rcases List.mem_cons.mp hv with rfl | hv
  · exact h _ rfl rfl rfl rfl
  · exact hi _ _ v hv

end Visiting

section Nodes

variable {found : Node} {key : Key} {name : Option String} {action : Action α} {idle : α}
  {inside : α → Traced Node}

theorem node_at {t : Traversal} (hi : ∀ a, VisitsFound ctx (inside a))
    (h : (found.walk ctx []).run t =
      (Traced.visiting ctx .node found key name action idle inside t).1) :
    ∀ v ∈ visitOrder (Traced.visiting ctx .node found key name action idle inside t).2,
      v.AsFound ctx := by
  refine visiting_at hi fun v hf hb hl ha => .node hf hl ?_
  rw [hb,ha,h]

theorem node (hi : ∀ a, VisitsFound ctx (inside a))
    (h : found.walk ctx [] = (Traced.visiting ctx .node found key name action idle inside).erase) :
    VisitsFound ctx (Traced.visiting ctx .node found key name action idle inside) :=
  fun t => node_at hi (congrFun h t)

end Nodes

theorem body {found : Body} {key : Key} {inside : Traced Body} (hi : VisitsFound ctx inside)
    (h : walkBody ctx none found = (Traced.passing ctx .body found key inside).erase) :
    VisitsFound ctx (Traced.passing ctx .body found key inside) :=
  fun t => visiting_at (fun _ => hi) fun v hf hb hl ha => .body hf hl (by
    rw [hb,ha]
    exact congrFun h t)

/-- A counter is visited as the statement that it is. -/
theorem counterItem (c : Option Counter) : VisitsFound ctx (Traced.counterItem ctx c) := by
  cases c with
  | none => exact pure []
  | some c =>
    refine (asItem _ (node (fun _ => pure _) ?_)).map _
    exact c.walk_statementNode ctx.identifier []

theorem behind? {n : Node} (c : Option Counter) (hn : ∀ given, VisitsFound ctx (n.traced ctx given)) :
    VisitsFound ctx (Traced.behind? ctx c n (n.traced ctx [])) := by
  cases c with
  | none => exact hn []
  | some c =>
    refine node (fun _ => (hn []).map _) ?_
    rw [n.walk_behind?]
    change _ = (Traced.behind? ctx (some c) n (n.traced ctx [])).erase
    rw [erase_behind?,n.erase_traced]

theorem operand {n : Node} (counters : List (Option Counter))
    (hn : ∀ given, VisitsFound ctx (n.traced ctx given)) :
    VisitsFound ctx (Traced.operand ctx n counters fun given => n.traced ctx given) := by
  unfold Traced.operand
  split
  · exact hn counters
  · exact (behind? _ hn).withChain false

theorem inBlock {n : Node} (c : Option Counter) (hn : ∀ given, VisitsFound ctx (n.traced ctx given)) :
    VisitsFound ctx (Traced.inBlock ctx c n fun given => n.traced ctx given) := by
  have h : (Traced.inBlock ctx c n fun given => n.traced ctx given).erase =
      (n.asBlock? ctx c).walk ctx [] := by
    simp only [erase_inBlock,n.erase_traced,← n.inBlock_eq_walk]
  unfold Traced.inBlock at h ⊢
  split at h
  · rename_i hb
    rw [if_pos hb]
    exact hn [c]
  · rename_i hb
    rw [if_neg hb]
    exact node (fun _ => (counterItem c).bind fun _ => ((hn []).asItem _).map _) h.symm

theorem asBody {n : Node} (counted : Bool) (hn : ∀ given, VisitsFound ctx (n.traced ctx given)) :
    VisitsFound ctx (Traced.asBody ctx counted n fun given => n.traced ctx given) := by
  cases counted with
  | false => exact hn []
  | true => exact inBlock none hn

theorem inParens {n : Node} (wanted : Bool) (hn : ∀ given, VisitsFound ctx (n.traced ctx given)) :
    VisitsFound ctx (Traced.inParens ctx wanted n (n.traced ctx [])) := by
  have h : (Traced.inParens ctx wanted n (n.traced ctx [])).erase =
      (if wanted && !n.isParen then Build.paren n else n).walk ctx [] := by
    rw [erase_inParens,n.erase_traced,n.inParens_eq_walk]
  unfold Traced.inParens at h ⊢
  split at h
  · rename_i hp
    rw [if_pos hp]
    exact node (fun _ => (hn []).map _) h.symm
  · rename_i hp
    rw [if_neg hp]
    exact hn []

end VisitsFound

end Traced

open Traced

/-- The walk of a node visits constructs as they stand, whatever it is given. -/
def Node.VisitsFound (ctx : Context) (n : Node) : Prop :=
  ∀ given, Traced.VisitsFound ctx (n.traced ctx given)

section Lists

theorem tracedNodes_found {nodes : List Node} (h : ∀ n ∈ nodes, n.VisitsFound ctx) :
    Traced.VisitsFound ctx (tracedNodes ctx nodes) := by
  induction nodes with
  | nil => exact .pure []
  | cons n rest ih =>
    exact (h n List.mem_cons_self []).bind fun _ => (ih fun m hm => h m (List.mem_cons_of_mem _ hm)).map _

theorem tracedParts_found {parts : List Part} (h : ∀ n ∈ parts.flatMap Part.nodes, n.VisitsFound ctx) :
    Traced.VisitsFound ctx (tracedParts ctx parts) := by
  induction parts with
  | nil => exact .pure []
  | cons p rest ih =>
    rw [List.flatMap_cons] at h
    have hp : Traced.VisitsFound ctx (tracedPart ctx p) := by
      cases p with
      | child field n => exact (h n (by simp [Part.nodes]) []).map _
      | children field nodes =>
        exact (tracedNodes_found fun n hn => h n (List.mem_append_left _ hn)).map _
    exact hp.bind fun _ => (ih fun n hn => h n (List.mem_append_right _ hn)).map _

theorem tracedOption_found (counter : Option Counter) {o : Option Node}
    (h : ∀ n ∈ o.toList, n.VisitsFound ctx) : Traced.VisitsFound ctx (tracedOption ctx counter o) := by
  cases o with
  | none => exact .pure none
  | some n => exact (VisitsFound.behind? counter (h n (List.mem_singleton_self n))).map _

theorem tracedElse_found (counter : Option Counter) {o : Option Node}
    (h : ∀ n ∈ o.toList, n.VisitsFound ctx) : Traced.VisitsFound ctx (tracedElse ctx counter o) := by
  cases o with
  | none =>
    refine VisitsFound.node (fun _ => (VisitsFound.counterItem counter).map _) ?_
    rw [← walkElse_none,← erase_tracedElse]
    rfl
  | some n => exact VisitsFound.inBlock counter (h n (List.mem_singleton_self n))

theorem tracedHeritage_found (counted : Bool) {o : Option Node}
    (h : ∀ n ∈ o.toList, n.VisitsFound ctx) : Traced.VisitsFound ctx (tracedHeritage ctx counted o) := by
  cases o with
  | none => exact .pure none
  | some n => exact (VisitsFound.inParens counted (h n (List.mem_singleton_self n))).map _

theorem tracedItems_found {items : List Node} (h : ∀ n ∈ items, n.VisitsFound ctx) :
    Traced.VisitsFound ctx (tracedItems ctx items) := by
  induction items with
  | nil => exact .pure []
  | cons n rest ih =>
    exact ((h n List.mem_cons_self []).asItem _).bind fun _ =>
      (ih fun m hm => h m (List.mem_cons_of_mem _ hm)).map _

theorem tracedStatements_found (counter : Option Counter) {statements : List Node}
    (h : ∀ n ∈ statements, n.VisitsFound ctx) :
    Traced.VisitsFound ctx (tracedStatements ctx counter statements) := by
  rw [tracedStatements_eq]
  exact (tracedItems_found fun n hn => h n ((List.takeWhile_sublist _).mem hn)).bind fun _ =>
    (VisitsFound.counterItem counter).bind fun _ =>
      (tracedItems_found fun n hn => h n ((List.dropWhile_sublist _).mem hn)).map _

theorem tracedBody_found (counter : Option Counter) {body : Body}
    (h : ∀ n ∈ body.nodes, n.VisitsFound ctx) : Traced.VisitsFound ctx (tracedBody ctx counter body) := by
  have hw := (erase_tracedBody ctx counter body).trans (walkBody_withCounter counter body)
  cases body with
  | absent => exact .pure _
  | block s statements => exact .body ((tracedStatements_found counter h).map _) hw.symm
  | value e =>
    have he := h e (List.mem_singleton_self e) []
    cases counter with
    | none => exact he.map _
    | some c =>
      have hreturn : Traced.VisitsFound ctx (Traced.visiting ctx .node e.returned ⟨.return,e.span⟩
          none (Action.coverStatement ctx .return e.span) () fun _ => do
            return .simple .return e.span [.child "argument" (← e.traced ctx [])]) := by
        refine .node (fun _ => he.map _) ?_
        have hw : (e.returned.traced ctx []).erase = e.returned.walk ctx [] :=
          e.returned.erase_traced ctx []
        rw [← hw]
        simp [Node.returned,Node.traced,tracedParts,tracedPart,SimpleForm.kind]
      exact .body ((VisitsFound.counterItem (some c)).bind fun _ => (hreturn.asItem false).map _) hw.symm

theorem tracedCases_found (switch : Key) {cases : List Case}
    (h : ∀ n ∈ cases.flatMap Case.nodes, n.VisitsFound ctx) :
    Traced.VisitsFound ctx (tracedCases ctx switch cases) := by
  induction cases with
  | nil => exact .pure []
  | cons c rest ih =>
    have hw := erase_tracedCase ctx switch c
    obtain ⟨s,test,consequent⟩ := c
    simp only [List.flatMap_cons,Case.nodes,List.mem_append] at h
    have hc : Traced.VisitsFound ctx (tracedCase ctx switch (.mk s test consequent)) := by
      refine fun t => VisitsFound.visiting_at (fun counter => ?_) fun v hf hb hl ha => ?_
      · exact (tracedOption_found none fun n hn => h n (.inl (.inl hn))).bind fun _ =>
          (VisitsFound.counterItem counter).bind fun _ =>
            (tracedItems_found fun n hn => h n (.inl (.inr hn))).map _
      · refine .case switch hf hl ?_
        rw [hb,ha,← hw]
        rfl
    exact hc.bind fun _ => (ih fun n hn => h n (.inr hn)).map _

theorem tracedDeclarators_found (hoistable : Bool) {declarators : List Declarator}
    (h : ∀ n ∈ declarators.flatMap Declarator.nodes, n.VisitsFound ctx) :
    Traced.VisitsFound ctx (tracedDeclarators ctx hoistable declarators) := by
  induction declarators with
  | nil => exact .pure []
  | cons d rest ih =>
    have hw := erase_tracedDeclarator ctx hoistable d
    obtain ⟨s,data,target,init⟩ := d
    simp only [List.flatMap_cons,Declarator.nodes,List.mem_append,List.mem_cons] at h
    have hd : Traced.VisitsFound ctx (tracedDeclarator ctx hoistable (.mk s data target init)) := by
      refine fun t => VisitsFound.visiting_at (fun counter => ?_) fun v hf hb hl ha => ?_
      · exact (h target (.inl (.inl rfl)) []).bind fun _ =>
          (tracedOption_found counter fun n hn => h n (.inl (.inr hn))).map _
      · refine .declarator hoistable hf hl ?_
        rw [hb,ha,← hw]
        rfl
    exact hd.bind fun _ => (ih fun n hn => h n (.inr hn)).map _

end Lists

namespace Node

/-- The walk of a node for which its own visit is the walk of it as it stands. -/
theorem visitsFound_of_visiting {α : Type} {n : Node} {key : Key} {name : Option String}
    {action : Action α} {idle : α} {inside : α → Traced Node}
    (hw : n.traced ctx [] = Traced.visiting ctx .node n key name action idle inside)
    (hi : ∀ a, Traced.VisitsFound ctx (inside a)) : Traced.VisitsFound ctx (n.traced ctx []) := by
  have he := n.erase_traced ctx []
  rw [hw] at he ⊢
  exact .node hi he.symm

theorem visits_found (ctx : Context) (n : Node) : n.VisitsFound ctx := by
  induction n using induction_children with
  | step n hc =>
    intro given
    cases n with
    | plain head parts => exact (tracedParts_found hc).map _
    | paren s inner =>
      intro t
      rw [traced_paren]
      refine VisitsFound.node_at (fun _ => (hc inner List.mem_cons_self given).map _) ?_
      rw [walks_as_given,← erase_traced]
      rfl
    | logical s operator left right =>
      intro t
      rw [traced_logical]
      refine VisitsFound.node_at (fun own => .withChain true ?_) ?_
      · exact (VisitsFound.operand _ (hc left (by simp [children]))).bind fun _ =>
          (VisitsFound.operand _ (hc right (by simp [children]))).map _
      · rw [walks_as_given,← erase_traced]
        rfl
    | conditional s test consequent alternate =>
      refine visitsFound_of_visiting (n := .conditional s test consequent alternate) rfl
        fun counters => ?_
      exact (hc test (by simp [children]) []).bind fun _ =>
        (VisitsFound.behind? _ (hc consequent (by simp [children]))).bind fun _ =>
          (VisitsFound.behind? _ (hc alternate (by simp [children]))).map _
    | function head key before body after =>
      simp only [children,List.mem_append] at hc
      refine visitsFound_of_visiting (n := .function head key before body after) rfl fun counter => ?_
      exact (tracedOption_found none fun n hn => hc n (.inl (.inl (.inl hn)))).bind fun _ =>
        (tracedParts_found fun n hn => hc n (.inl (.inl (.inr hn)))).bind fun _ =>
          (tracedBody_found counter fun n hn => hc n (.inl (.inr hn))).bind fun _ =>
            (tracedParts_found fun n hn => hc n (.inr hn)).map _
    | defaulted form s target value =>
      refine visitsFound_of_visiting (n := .defaulted form s target value) rfl fun counter => ?_
      exact (hc target List.mem_cons_self []).bind fun _ =>
        (tracedOption_found counter fun n hn => hc n (List.mem_cons_of_mem _ hn)).map _
    | classDeclaration s data name before heritage after =>
      simp only [children,List.mem_append,List.mem_cons] at hc
      refine visitsFound_of_visiting (n := .classDeclaration s data name before heritage after) rfl
        fun counted => ?_
      exact (hc name (.inl (.inl (.inl rfl))) []).bind fun _ =>
        (tracedParts_found fun n hn => hc n (.inl (.inl (.inr hn)))).bind fun _ =>
          (tracedHeritage_found counted fun n hn => hc n (.inl (.inr hn))).bind fun _ =>
            (tracedParts_found fun n hn => hc n (.inr hn)).map _
    | expression s inner =>
      exact visitsFound_of_visiting (n := .expression s inner) rfl
        fun _ => (hc inner List.mem_cons_self []).map _
    | simple form s parts =>
      exact visitsFound_of_visiting (n := .simple form s parts) rfl
        fun _ => (tracedParts_found hc).map _
    | compound form s data init head body =>
      simp only [children,List.mem_append,List.mem_singleton] at hc
      refine visitsFound_of_visiting (n := .compound form s data init head body) rfl fun counted => ?_
      exact (tracedOption_found none fun n hn => hc n (.inl (.inl hn))).bind fun _ =>
        (tracedParts_found fun n hn => hc n (.inl (.inr hn))).bind fun _ =>
          (VisitsFound.asBody counted (hc body (.inr rfl))).map _
    | ifElse s test consequent alternate =>
      simp only [children,List.mem_cons] at hc
      refine visitsFound_of_visiting (n := .ifElse s test consequent alternate) rfl
        fun counters => (hc test (.inl rfl) []).bind fun _ => ?_
      cases counters with
      | none =>
        exact (hc consequent (.inr (.inl rfl)) []).bind fun _ =>
          (tracedOption_found none fun n hn => hc n (.inr (.inr hn))).map _
      | some counters =>
        exact (VisitsFound.inBlock _ (hc consequent (.inr (.inl rfl)))).bind fun _ =>
          (tracedElse_found counters.2 fun n hn => hc n (.inr (.inr hn))).map _
    | switch s discriminant cases =>
      simp only [children,List.mem_cons] at hc
      refine visitsFound_of_visiting (n := .switch s discriminant cases) rfl fun _ => ?_
      exact (hc discriminant (.inl rfl) []).bind fun _ =>
        (tracedCases_found _ fun n hn => hc n (.inr hn)).map _
    | bindings s data declarators =>
      intro t
      refine VisitsFound.visiting_at (t := { t with hoist := false })
        (fun _ => (tracedDeclarators_found t.hoist hc).map _) fun v hf hb hl ha => ?_
      refine .bindings t.hoist hf hl ?_
      rw [hb,ha,← erase_traced]
      rfl
    | block s statements =>
      refine VisitsFound.node (fun _ => (VisitsFound.counterItem _).bind fun _ =>
        (tracedItems_found hc).map _) ?_
      have h := (block s statements).erase_traced ctx given
      rw [walk_block] at h
      exact h.symm
    | exported s declaration => exact (hc declaration List.mem_cons_self []).map _
    | namespaceBlock s items => exact (tracedItems_found hc).map _

end Node

/-- Every visit of a pass makes of the construct that it found, with the counters that were put in before,
what the walk makes of it as it stands. -/
theorem Program.visits_found (ctx : Context) (coverage : CoverageMap) (p : Program) :
    ∀ v ∈ visitOrder (p.traced ctx coverage).2, v.AsFound ctx :=
  tracedItems_found (fun n _ => n.visits_found ctx) _

end CoverageCounters
