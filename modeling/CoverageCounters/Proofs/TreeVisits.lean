import CoverageCounters.Proofs.FunctionEntries
import CoverageCounters.Proofs.Suppression

/-!
The walk goes over the tree. Apart from what it builds or changes on its way down, the constructs of a
program are visited as they stand in it, each once and in the order of the tree, and the functions among
them are recorded in that order, some of them left out.
-/

namespace CoverageCounters

/-- Constructs that are found as they stand in the program: the walk builds none of this form, and puts
nothing into one before it gets there. -/
def Node.standsAlone : Node → Bool
  | conditional _ _ _ _ | function _ _ _ _ _ | defaulted _ _ _ _ | classDeclaration _ _ _ _ _ _
  | compound _ _ _ _ _ _ | ifElse _ _ _ _ | switch _ _ _ => true
  | _ => false

theorem Node.recordedFunction?_of_not_standsAlone {n : Node} (h : n.standsAlone = false)
    (ctx : Context) : n.recordedFunction? ctx = none := by
  cases n with
  | function head key before body after => cases h
  | _ => rfl

/-- The node that is found, if it stands alone. -/
def Construct.alone? : Construct → Option Node
  | node n => if n.standsAlone then some n else none
  | _ => none

theorem Construct.standsAlone_of_alone? {c : Construct} {n : Node} (h : c.alone? = some n) :
    c = .node n ∧ n.standsAlone = true := by
  cases c with
  | node m =>
    simp only [alone?] at h
    split at h
    · rename_i hm
      cases h
      exact ⟨rfl,hm⟩
    · cases h
  | _ => cases h

theorem visitOrder_append (visits rest : List Visit) :
    visitOrder (visits ++ rest) = visitOrder visits ++ visitOrder rest := by
  induction visits with
  | nil => rfl
  | cons v visits ih => simp [visitOrder_cons,ih]

namespace Traced

open Walk

variable {α β : Type} {ctx : Context} {nodes nodes' : List Node}

/-- A walk that goes over the given nodes: it finds those that stand alone, each once and in their order,
visits each as the walk of that node does, and adds no functions but some of theirs, in order. -/
structure Sweeps (ctx : Context) (nodes : List Node) (w : Traced α) : Prop where
  order : ∀ t, (visitOrder (w t).2).filterMap (·.found.alone?) = nodes.filter Node.standsAlone
  walked : ∀ t, ∀ v ∈ visitOrder (w t).2, ∀ n ∈ v.found.alone?, ∃ u, (n.traced ctx [] u).2 = [v]
  functions : ∀ t : Traversal, ∃ added : List FunctionEntry,
    added.Sublist (nodes.filterMap (Node.recordedFunction? ctx)) ∧
      t.coverage.Gains added (w t).1.2.coverage

namespace Sweeps

theorem pure (a : α) : Sweeps ctx [] (Pure.pure a : Traced α) :=
  ⟨fun _ => rfl,fun _ _ hv => absurd hv List.not_mem_nil,fun t => ⟨[],.slnil,.refl t.coverage⟩⟩

theorem bind {w : Traced α} {f : α → Traced β} (hw : Sweeps ctx nodes w)
    (hf : ∀ a, Sweeps ctx nodes' (f a)) : Sweeps ctx (nodes ++ nodes') (w >>= f) := by
  have hv : ∀ t, ((w >>= f) t).2 = (w t).2 ++ (f (w t).1.1 (w t).1.2).2 := fun _ => rfl
  refine ⟨fun t => ?_,fun t v hm => ?_,fun t => ?_⟩
  · rw [hv,visitOrder_append,List.filterMap_append,hw.order,(hf _).order,List.filter_append]
  · rw [hv,visitOrder_append,List.mem_append] at hm
    exact hm.elim (hw.walked t v) ((hf _).walked _ v)
  · obtain ⟨added,hs,hg⟩ := hw.functions t
    obtain ⟨added',hs',hg'⟩ := (hf (w t).1.1).functions (w t).1.2
    rw [List.filterMap_append]
    exact ⟨added ++ added',hs.append hs',hg.trans hg'⟩

theorem map {w : Traced α} (h : Sweeps ctx nodes w) (f : α → β) :
    Sweeps ctx nodes (w >>= fun a => Pure.pure (f a)) := by
  have hb := h.bind fun a => pure (f a)
  rwa [List.append_nil] at hb

/-- A step that visits nothing and records nothing, whatever its answer. -/
theorem ofWalk_bind {w : Walk α} {f : α → Traced β} (hs : ∀ t, (w t).2.coverage = t.coverage)
    (hf : ∀ a, Sweeps ctx nodes (f a)) : Sweeps ctx nodes (ofWalk w >>= f) := by
  refine ⟨fun t => (hf _).order (w t).2,fun t => (hf _).walked (w t).2,fun t => ?_⟩
  obtain ⟨added,hsub,hg⟩ := (hf (w t).1).functions (w t).2
  rw [hs t] at hg
  exact ⟨added,hsub,hg⟩

/-- A node that is never found as it stands need not be met. -/
theorem cons {w : Traced α} {n : Node} (hn : n.standsAlone = false) (h : Sweeps ctx nodes w) :
    Sweeps ctx (n :: nodes) w := by
  refine ⟨fun t => ?_,h.walked,fun t => ?_⟩
  · rw [h.order,List.filter_cons_of_neg (by simp [hn])]
  · rw [List.filterMap_cons_none (Node.recordedFunction?_of_not_standsAlone hn ctx)]
    exact h.functions t

theorem attempt_enters {key : Key} {action : Action α} {es : List FunctionEntry}
    (h : action.Enters es) (idle : α) (t : Traversal) :
    ∃ added : List FunctionEntry, added.Sublist es ∧
      t.coverage.Gains added ((attempt key action idle).run t).2.coverage := by
  obtain ⟨added,hs,hg⟩ := h t
  rw [run_attempt]
  split
  · cases hr : action.run.run t with
    | mk r u =>
      rw [hr] at hg
      cases r <;> exact ⟨added,hs,hg⟩
  · exact ⟨[],List.nil_sublist es,.refl t.coverage⟩

/-- A visit goes over what it finds, if that stands alone, and then over what is inside. -/
theorem visit {construct : β → Construct} {found : β} {key : Key} {name : Option String}
    {action : Action α} {idle : α} {inside : α → Traced β}
    (hw : ∀ n ∈ (construct found).alone?, ∀ t,
      (n.traced ctx [] t).2 = (visiting ctx construct found key name action idle inside t).2)
    (ha : action.Enters ((construct found).alone?.toList.filterMap (Node.recordedFunction? ctx)))
    (hi : ∀ x, Sweeps ctx nodes (inside x)) :
    Sweeps ctx ((construct found).alone?.toList ++ nodes)
      (visiting ctx construct found key name action idle inside) := by
  have hv : ∀ t : Traversal, ∃ v,
      (visiting ctx construct found key name action idle inside t).2 = [v] ∧
      v.found = construct found ∧
      v.inside = (inside ((attempt key action idle).run (t.enter ctx key name)).1
        ((attempt key action idle).run (t.enter ctx key name)).2).2 := fun _ => ⟨_,rfl,rfl,rfl⟩
  refine ⟨fun t => ?_,fun t w hm n hn => ?_,fun t => ?_⟩
  · obtain ⟨v,hv,hf,hin⟩ := hv t
    rw [hv,visitOrder_cons,hin,visitOrder,List.append_nil,List.filter_append,← (hi _).order]
    cases hc : (construct found).alone? with
    | none => rw [List.filterMap_cons_none (hf ▸ hc)]; rfl
    | some n =>
      rw [List.filterMap_cons_some (hf ▸ hc),Option.toList_some,
        List.filter_cons_of_pos (Construct.standsAlone_of_alone? hc).2]
      rfl
  · obtain ⟨v,hv,hf,hin⟩ := hv t
    rw [hv,visitOrder_cons,hin,visitOrder,List.append_nil] at hm
    rcases List.mem_cons.mp hm with rfl | hm
    · exact ⟨t,(hw n (hf ▸ hn) t).trans hv⟩
    · exact (hi _).walked _ w hm n hn
  · obtain ⟨added,hs,hg⟩ := attempt_enters ha idle (t.enter ctx key name)
    obtain ⟨added',hs',hg'⟩ := (hi ((attempt key action idle).run (t.enter ctx key name)).1).functions
      ((attempt key action idle).run (t.enter ctx key name)).2
    rw [List.filterMap_append]
    exact ⟨added ++ added',hs.append hs',hg.trans hg'⟩

/-- A visit of what the walk has built or changed, or of no node. -/
theorem around {construct : β → Construct} {found : β} {key : Key} {name : Option String}
    {action : Action α} {idle : α} {inside : α → Traced β} (hf : (construct found).alone? = none)
    (ha : action.Enters []) (hi : ∀ x, Sweeps ctx nodes (inside x)) :
    Sweeps ctx nodes (visiting ctx construct found key name action idle inside) := by
  have h : Sweeps ctx ((construct found).alone?.toList ++ nodes)
      (visiting ctx construct found key name action idle inside) :=
    visit (by simp [hf]) (by simpa [hf] using ha) hi
  rwa [hf] at h

theorem alone {n : Node} {key : Key} {name : Option String} {action : Action α} {idle : α}
    {inside : α → Traced Node} (hn : n.standsAlone = true)
    (hw : n.traced ctx [] = visiting ctx .node n key name action idle inside)
    (ha : action.Enters (n.recordedFunction? ctx).toList) (hi : ∀ x, Sweeps ctx nodes (inside x)) :
    Sweeps ctx (n :: nodes) (visiting ctx .node n key name action idle inside) := by
  have hc : (Construct.node n).alone? = some n := if_pos hn
  have h : Sweeps ctx ((Construct.node n).alone?.toList ++ nodes)
      (visiting ctx .node n key name action idle inside) := by
    refine visit (fun m hm t => ?_) ?_ hi
    · rw [hc] at hm
      cases hm
      rw [hw]
    · rw [hc]
      cases he : n.recordedFunction? ctx <;> simpa [he] using ha
  rwa [hc] at h

theorem passing {construct : β → Construct} {found : β} {key : Key} {inside : Traced β}
    (hf : (construct found).alone? = none) (hi : Sweeps ctx nodes inside) :
    Sweeps ctx nodes (passing ctx construct found key inside) :=
  around hf (.pure ()) fun _ => hi

theorem withChain {w : Traced α} (inChain : Bool) (h : Sweeps ctx nodes w) :
    Sweeps ctx nodes (withChain inChain w) :=
  ⟨fun t => h.order { t with inChain },fun t => h.walked { t with inChain },
    fun t => h.functions { t with inChain }⟩

theorem asItem {w : Traced Node} (declares : Bool) (h : Sweeps ctx nodes w) :
    Sweeps ctx nodes (asItem declares w) :=
  ⟨fun t => h.order { t with frames := [] :: t.frames, hoist := declares },
    fun t => h.walked { t with frames := [] :: t.frames, hoist := declares },
    fun t => h.functions { t with frames := [] :: t.frames, hoist := declares }⟩

theorem behind? {n : Node} {w : Traced Node} (c : Option Counter) (h : Sweeps ctx nodes w) :
    Sweeps ctx nodes (behind? ctx c n w) := by
  cases c with
  | none => exact h
  | some c => exact passing rfl (h.map _)

theorem operand {n : Node} {counters : List (Option Counter)}
    {w : List (Option Counter) → Traced Node} (h : ∀ c, Sweeps ctx nodes (w c)) :
    Sweeps ctx nodes (operand ctx n counters w) := by
  unfold Traced.operand
  split
  · exact h counters
  · exact withChain false ((h []).behind? _)

/-- A counter in a list is visited, but the walk has built it. -/
theorem counterItem (c : Option Counter) : Sweeps ctx [] (counterItem ctx c) := by
  cases c with
  | none => exact .pure []
  | some c => exact (asItem false (around rfl (.coverStatement _ _) fun _ => .pure _)).map _

theorem afterCounter {f : List (List Node × Node) → Traced α} (c : Option Counter)
    (h : ∀ first, Sweeps ctx nodes (f first)) : Sweeps ctx nodes (Traced.counterItem ctx c >>= f) :=
  (counterItem c).bind h

theorem inBlock {body : Node} {walk : List (Option Counter) → Traced Node} (c : Option Counter)
    (h : ∀ given, Sweeps ctx nodes (walk given)) : Sweeps ctx nodes (inBlock ctx c body walk) := by
  unfold Traced.inBlock
  split
  · exact h [c]
  · rename_i hb
    refine passing ?_ (.afterCounter c fun first => ((h []).asItem _).map _)
    rw [Node.asBlock?_of_not_isBlock hb]
    rfl

theorem asBody {body : Node} {walk : List (Option Counter) → Traced Node} (counted : Bool)
    (h : ∀ given, Sweeps ctx nodes (walk given)) :
    Sweeps ctx nodes (asBody ctx counted body walk) := by
  cases counted with
  | false => exact h []
  | true => exact inBlock none h

theorem asReturn {e : Node} {w : Traced Node} (c : Counter) (h : Sweeps ctx nodes w) :
    Sweeps ctx nodes (asReturn ctx c e w) :=
  passing rfl (.afterCounter (some c) fun _ =>
    (asItem false (around rfl (.coverStatement _ _) fun _ => h.map _)).map _)

theorem inParens {heritage : Node} {w : Traced Node} (wanted : Bool) (h : Sweeps ctx nodes w) :
    Sweeps ctx nodes (inParens ctx wanted heritage w) := by
  unfold Traced.inParens
  split
  · exact passing rfl (h.map _)
  · exact h

end Sweeps
end Traced

open Traced

/-- The walk of a node goes over the node and all nodes inside it. -/
def Node.Swept (ctx : Context) (n : Node) : Prop :=
  ∀ given, Sweeps ctx n.subnodes (n.traced ctx given)

section Lists

variable {ctx : Context}

theorem tracedNodes_sweeps {nodes : List Node} (h : ∀ n ∈ nodes, n.Swept ctx) :
    Sweeps ctx (nodes.flatMap Node.subnodes) (tracedNodes ctx nodes) := by
  induction nodes with
  | nil => exact .pure []
  | cons n rest ih =>
    rw [tracedNodes,List.flatMap_cons]
    exact (h n List.mem_cons_self []).bind fun _ =>
      (ih fun m hm => h m (List.mem_cons_of_mem _ hm)).map _

theorem tracedPart_sweeps {p : Part} (h : ∀ n ∈ p.nodes, n.Swept ctx) :
    Sweeps ctx (p.nodes.flatMap Node.subnodes) (tracedPart ctx p) := by
  cases p with
  | child field n =>
    simp only [Part.nodes,List.flatMap_cons,List.flatMap_nil,List.append_nil]
    exact (h n (List.mem_singleton_self n) []).map _
  | children field nodes => exact (tracedNodes_sweeps h).map _

theorem tracedParts_sweeps {parts : List Part}
    (h : ∀ n ∈ parts.flatMap Part.nodes, n.Swept ctx) :
    Sweeps ctx ((parts.flatMap Part.nodes).flatMap Node.subnodes) (tracedParts ctx parts) := by
  induction parts with
  | nil => exact .pure []
  | cons p rest ih =>
    rw [List.flatMap_cons] at h
    rw [tracedParts,List.flatMap_cons,List.flatMap_append]
    exact (tracedPart_sweeps fun n hn => h n (List.mem_append_left _ hn)).bind fun _ =>
      (ih fun n hn => h n (List.mem_append_right _ hn)).map _

theorem tracedOption_sweeps (counter : Option Counter) {o : Option Node}
    (h : ∀ n ∈ o.toList, n.Swept ctx) :
    Sweeps ctx (o.toList.flatMap Node.subnodes) (tracedOption ctx counter o) := by
  cases o with
  | none => exact .pure none
  | some n =>
    simp only [Option.toList,List.flatMap_cons,List.flatMap_nil,List.append_nil]
    exact ((h n (List.mem_singleton_self n) []).behind? counter).map _

theorem tracedElse_sweeps (counter : Option Counter) {o : Option Node}
    (h : ∀ n ∈ o.toList, n.Swept ctx) :
    Sweeps ctx (o.toList.flatMap Node.subnodes) (tracedElse ctx counter o) := by
  cases o with
  | none => exact .passing rfl ((Sweeps.counterItem counter).map _)
  | some n =>
    simp only [Option.toList,List.flatMap_cons,List.flatMap_nil,List.append_nil]
    rw [tracedElse]
    exact .inBlock counter (h n (List.mem_singleton_self n))

theorem tracedHeritage_sweeps (counted : Bool) {o : Option Node}
    (h : ∀ n ∈ o.toList, n.Swept ctx) :
    Sweeps ctx (o.toList.flatMap Node.subnodes) (tracedHeritage ctx counted o) := by
  cases o with
  | none => exact .pure none
  | some n =>
    simp only [Option.toList,List.flatMap_cons,List.flatMap_nil,List.append_nil]
    exact ((h n (List.mem_singleton_self n) []).inParens counted).map _

theorem tracedItems_sweeps {items : List Node} (h : ∀ n ∈ items, n.Swept ctx) :
    Sweeps ctx (items.flatMap Node.subnodes) (tracedItems ctx items) := by
  induction items with
  | nil => exact .pure []
  | cons n rest ih =>
    rw [tracedItems,List.flatMap_cons]
    exact ((h n List.mem_cons_self []).asItem n.declaresVariables).bind fun _ =>
      (ih fun m hm => h m (List.mem_cons_of_mem _ hm)).map _

theorem tracedStatements_sweeps (counter : Option Counter) {statements : List Node}
    (h : ∀ n ∈ statements, n.Swept ctx) :
    Sweeps ctx (statements.flatMap Node.subnodes) (tracedStatements ctx counter statements) := by
  rw [tracedStatements_eq]
  have hfront := tracedItems_sweeps fun n hn => h n ((List.takeWhile_sublist Node.isDirective).mem hn)
  have hback := tracedItems_sweeps fun n hn => h n ((List.dropWhile_sublist Node.isDirective).mem hn)
  have hs := hfront.bind fun front => .afterCounter counter fun first =>
    hback.map fun back => front ++ first ++ back
  rwa [← List.flatMap_append,List.takeWhile_append_dropWhile] at hs

theorem tracedBody_sweeps (counter : Option Counter) {body : Body}
    (h : ∀ n ∈ body.nodes, n.Swept ctx) :
    Sweeps ctx (body.nodes.flatMap Node.subnodes) (tracedBody ctx counter body) := by
  cases body with
  | absent => exact .pure _
  | block s statements => exact .passing rfl ((tracedStatements_sweeps counter h).map _)
  | value e =>
    simp only [Body.nodes,List.flatMap_cons,List.flatMap_nil,List.append_nil]
    have he := h e (List.mem_singleton_self e) []
    cases counter with
    | none => exact he.map _
    | some c => exact he.asReturn c

theorem tracedCase_sweeps (switch : Key) {c : Case} (h : ∀ n ∈ c.nodes, n.Swept ctx) :
    Sweeps ctx (c.nodes.flatMap Node.subnodes) (tracedCase ctx switch c) := by
  obtain ⟨s,test,consequent⟩ := c
  simp only [Case.nodes,List.mem_append,List.flatMap_append] at h ⊢
  rw [tracedCase]
  refine .around rfl (.coverCase s switch) fun counter => ?_
  exact (tracedOption_sweeps none fun n hn => h n (.inl hn)).bind fun _ =>
    .afterCounter counter fun _ => (tracedItems_sweeps fun n hn => h n (.inr hn)).map _

theorem tracedCases_sweeps (switch : Key) {cases : List Case}
    (h : ∀ n ∈ cases.flatMap Case.nodes, n.Swept ctx) :
    Sweeps ctx ((cases.flatMap Case.nodes).flatMap Node.subnodes) (tracedCases ctx switch cases) := by
  induction cases with
  | nil => exact .pure []
  | cons c rest ih =>
    simp only [List.flatMap_cons,List.mem_append] at h
    rw [tracedCases,List.flatMap_cons,List.flatMap_append]
    exact (tracedCase_sweeps switch fun n hn => h n (.inl hn)).bind fun _ =>
      (ih fun n hn => h n (.inr hn)).map _

theorem tracedDeclarator_sweeps (hoistable : Bool) {d : Declarator}
    (h : ∀ n ∈ d.nodes, n.Swept ctx) :
    Sweeps ctx (d.nodes.flatMap Node.subnodes) (tracedDeclarator ctx hoistable d) := by
  obtain ⟨s,data,target,init⟩ := d
  rw [tracedDeclarator]
  refine .around rfl (.coverInitializer hoistable init) fun counter => ?_
  exact (h target List.mem_cons_self []).bind fun _ =>
    (tracedOption_sweeps counter fun n hn => h n (List.mem_cons_of_mem _ hn)).map _

theorem tracedDeclarators_sweeps (hoistable : Bool) {declarators : List Declarator}
    (h : ∀ n ∈ declarators.flatMap Declarator.nodes, n.Swept ctx) :
    Sweeps ctx ((declarators.flatMap Declarator.nodes).flatMap Node.subnodes)
      (tracedDeclarators ctx hoistable declarators) := by
  induction declarators with
  | nil => exact .pure []
  | cons d rest ih =>
    simp only [List.flatMap_cons,List.mem_append] at h
    rw [tracedDeclarators,List.flatMap_cons,List.flatMap_append]
    exact (tracedDeclarator_sweeps hoistable fun n hn => h n (.inl hn)).bind fun _ =>
      (ih fun n hn => h n (.inr hn)).map _

end Lists

namespace Node

variable {ctx : Context}

theorem tracedChain_sweeps {s : Span} {operator : LogicalOperator} {left right : Node}
    (counters : List (Option Counter)) (hl : left.Swept ctx) (hr : right.Swept ctx) :
    Sweeps ctx (left.subnodes ++ right.subnodes)
      (tracedChain ctx s operator left right counters) :=
  .withChain true ((Sweeps.operand hl).bind fun _ => (Sweeps.operand hr).map _)

/-- The walk of every node goes over the node and all nodes inside it. -/
theorem traced_sweeps (ctx : Context) (n : Node) : n.Swept ctx := by
  induction n using induction_children with
  | step n hc =>
    intro given
    rw [subnodes,inner_eq]
    cases n with
    | plain head parts => exact .cons rfl ((tracedParts_sweeps hc).map _)
    | paren s inner =>
      simp only [children,List.flatMap_cons,List.flatMap_nil,List.append_nil]
      refine .cons rfl (.ofWalk_bind (fun _ => rfl) fun t => .passing ?_ ?_)
      · cases t.inChain <;> rfl
      · exact (hc inner List.mem_cons_self given).map _
    | logical s operator left right =>
      simp only [children,List.flatMap_cons,List.flatMap_nil,List.append_nil]
      refine .cons rfl (.ofWalk_bind (fun _ => rfl) fun t => .around ?_ ?_ fun own => ?_)
      · cases t.inChain <;> rfl
      · cases t.inChain
        · exact .coverChain s left right
        · exact .pure []
      · exact tracedChain_sweeps _ (hc left (by simp [children])) (hc right (by simp [children]))
    | conditional s test consequent alternate =>
      simp only [children,List.flatMap_cons,List.flatMap_nil,List.append_nil]
      rw [traced]
      refine .alone rfl (by rw [traced]) (.coverConditional s _ _) fun counters => ?_
      exact (hc test (by simp [children]) []).bind fun _ =>
        ((hc consequent (by simp [children]) []).behind? _).bind fun _ =>
          ((hc alternate (by simp [children]) []).behind? _).map _
    | function head key before body after =>
      simp only [children,List.mem_append] at hc
      simp only [children,List.flatMap_append,List.append_assoc]
      rw [traced]
      refine .alone rfl (by rw [traced]) (.coverFunction head key before after body) fun counter => ?_
      exact (tracedOption_sweeps none fun n hn => hc n (.inl (.inl (.inl hn)))).bind fun _ =>
        (tracedParts_sweeps fun n hn => hc n (.inl (.inl (.inr hn)))).bind fun _ =>
          (tracedBody_sweeps counter fun n hn => hc n (.inl (.inr hn))).bind fun _ =>
            (tracedParts_sweeps fun n hn => hc n (.inr hn)).map _
    | defaulted form s target value =>
      simp only [children,List.flatMap_cons]
      rw [traced]
      refine .alone rfl (by rw [traced]) (.coverDefault s value) fun counter => ?_
      exact (hc target List.mem_cons_self []).bind fun _ =>
        (tracedOption_sweeps counter fun n hn => hc n (List.mem_cons_of_mem _ hn)).map _
    | classDeclaration s data name before heritage after =>
      simp only [children,List.mem_append,List.mem_cons] at hc
      simp only [children,List.flatMap_append,List.flatMap_cons,List.append_assoc]
      rw [traced]
      refine .alone rfl (by rw [traced]) (.pure true) fun counted => ?_
      exact (hc name (.inl (.inl (.inl rfl))) []).bind fun _ =>
        (tracedParts_sweeps fun n hn => hc n (.inl (.inl (.inr hn)))).bind fun _ =>
          (tracedHeritage_sweeps counted fun n hn => hc n (.inl (.inr hn))).bind fun _ =>
            (tracedParts_sweeps fun n hn => hc n (.inr hn)).map _
    | expression s inner =>
      simp only [children,List.flatMap_cons,List.flatMap_nil,List.append_nil]
      rw [traced]
      exact .cons rfl (.around rfl (.coverStatement _ s) fun _ =>
        (hc inner List.mem_cons_self []).map _)
    | simple form s parts =>
      rw [traced]
      exact .cons rfl (.around rfl (.coverStatement _ s) fun _ => (tracedParts_sweeps hc).map _)
    | compound form s data init head body =>
      simp only [children,List.mem_append,List.mem_singleton] at hc
      simp only [children,List.flatMap_append,List.flatMap_cons,List.flatMap_nil,List.append_nil,
        List.append_assoc]
      rw [traced]
      refine .alone rfl (by rw [traced]) (.coverCompound form s init) fun counted => ?_
      exact (tracedOption_sweeps none fun n hn => hc n (.inl (.inl hn))).bind fun _ =>
        (tracedParts_sweeps fun n hn => hc n (.inl (.inr hn))).bind fun _ =>
          (Sweeps.asBody counted (hc body (.inr rfl))).map _
    | ifElse s test consequent alternate =>
      simp only [children,List.mem_cons] at hc
      simp only [children,List.flatMap_cons]
      rw [traced]
      refine .alone rfl (by rw [traced]) (.coverIf s consequent alternate) fun counters => ?_
      refine (hc test (.inl rfl) []).bind fun _ => ?_
      cases counters with
      | none =>
        exact (hc consequent (.inr (.inl rfl)) []).bind fun _ =>
          (tracedOption_sweeps none fun n hn => hc n (.inr (.inr hn))).map _
      | some counters =>
        exact (Sweeps.inBlock _ (hc consequent (.inr (.inl rfl)))).bind fun _ =>
          (tracedElse_sweeps counters.2 fun n hn => hc n (.inr (.inr hn))).map _
    | switch s discriminant cases =>
      simp only [children,List.flatMap_cons]
      rw [traced]
      refine .alone rfl (by rw [traced]) (.coverSwitch s) fun _ => ?_
      exact (hc discriminant List.mem_cons_self []).bind fun _ =>
        (tracedCases_sweeps _ fun n hn => hc n (List.mem_cons_of_mem _ hn)).map _
    | bindings s data declarators =>
      refine .cons rfl (.ofWalk_bind (fun _ => rfl) fun hoistable => ?_)
      exact .passing rfl ((tracedDeclarators_sweeps hoistable hc).map _)
    | block s statements =>
      rw [traced]
      exact .cons rfl (.passing rfl (.afterCounter _ fun _ => (tracedItems_sweeps hc).map _))
    | exported s declaration =>
      simp only [children,List.flatMap_cons,List.flatMap_nil,List.append_nil]
      exact .cons rfl ((hc declaration List.mem_cons_self []).map _)
    | namespaceBlock s items => exact .cons rfl ((tracedItems_sweeps hc).map _)

end Node

/-- The walk of a program goes over all its nodes. -/
theorem Program.traced_sweeps (ctx : Context) (p : Program) :
    Sweeps ctx p.nodes (tracedItems ctx p.body) :=
  tracedItems_sweeps fun n _ => n.traced_sweeps ctx

end CoverageCounters
