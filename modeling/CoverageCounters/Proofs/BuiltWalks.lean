import CoverageCounters.Proofs.VisitOrder
import CoverageCounters.Proofs.WalkRun

/-!
How a walk with a record is built. It is put together from answers, notes about the item being walked,
visits, list items and chains, one after the other and one inside the other. What holds of these
parts and is kept when they are put together holds of the walk of every tree.
-/

namespace CoverageCounters

open Traversal

namespace Traced

/-- A walk with a record that is put together from visits, list items and chains. -/
inductive Built (ctx : Context) : {α : Type} → Traced α → Prop where
  | pure {α : Type} (a : α) : Built ctx (Pure.pure a : Traced α)
  | bind {α β : Type} {w : Traced α} {f : α → Traced β} (hw : Built ctx w)
      (hf : ∀ a, Built ctx (f a)) : Built ctx (w >>= f)
  | note {α : Type} {w : Walk α} (hn : ∀ t : Traversal, ∃ hoist, (w t).2 = { t with hoist }) :
      Built ctx (ofWalk w)
  | visiting {α β : Type} {construct : β → Construct} {found : β} {key : Key} {name : Option String}
      {action : Action α} {idle : α} {inside : α → Traced β}
      (ha : Action.Acting ctx key (Within fun _ => True) action) (hi : ∀ a, Built ctx (inside a)) :
      Built ctx (visiting ctx construct found key name action idle inside)
  | asItem {w : Traced Node} (declares : Bool) (h : Built ctx w) : Built ctx (asItem declares w)
  | withChain {α : Type} {w : Traced α} (inChain : Bool) (h : Built ctx w) :
      Built ctx (withChain inChain w)

namespace Built

variable {α β : Type} {ctx : Context}

theorem map {w : Traced α} (h : Built ctx w) (f : α → β) :
    Built ctx (w >>= fun a => Pure.pure (f a)) :=
  h.bind fun a => .pure (f a)

theorem get : Built ctx (ofWalk MonadState.get) := .note fun t => ⟨t.hoist,rfl⟩

theorem takeHoist : Built ctx (ofWalk Walk.takeHoist) := .note fun _ => ⟨false,rfl⟩

theorem passing {construct : β → Construct} {found : β} {key : Key} {inside : Traced β}
    (h : Built ctx inside) : Built ctx (passing ctx construct found key inside) :=
  .visiting (.pure ()) fun _ => h

theorem behind? {n : Node} {w : Traced Node} (c : Option Counter) (h : Built ctx w) :
    Built ctx (behind? ctx c n w) := by
  cases c with
  | none => exact h
  | some c => exact .passing (h.map _)

theorem operand {n : Node} {counters : List (Option Counter)}
    {walk : List (Option Counter) → Traced Node} (h : ∀ given, Built ctx (walk given)) :
    Built ctx (operand ctx n counters walk) := by
  unfold Traced.operand
  split
  · exact h counters
  · exact .withChain false ((h []).behind? _)

theorem counterItem (c : Option Counter) : Built ctx (counterItem ctx c) := by
  cases c with
  | none => exact .pure []
  | some c => exact ((Built.visiting (.coverStatement _ _) fun _ => .pure _).asItem false).map _

theorem inBlock {n : Node} {w : List (Option Counter) → Traced Node} (c : Option Counter)
    (h : ∀ given, Built ctx (w given)) : Built ctx (inBlock ctx c n w) := by
  unfold Traced.inBlock
  split
  · exact h [c]
  · exact .passing ((counterItem c).bind fun _ => ((h []).asItem _).map _)

theorem asBody {n : Node} {w : List (Option Counter) → Traced Node} (counted : Bool)
    (h : ∀ given, Built ctx (w given)) : Built ctx (asBody ctx counted n w) := by
  cases counted with
  | false => exact h []
  | true => exact .inBlock none h

theorem asReturn {e : Node} {w : Traced Node} (c : Counter) (h : Built ctx w) :
    Built ctx (asReturn ctx c e w) :=
  .passing ((counterItem (some c)).bind fun _ =>
    ((Built.visiting (.coverStatement _ _) fun _ => h.map _).asItem false).map _)

theorem inParens {n : Node} {w : Traced Node} (wanted : Bool) (h : Built ctx w) :
    Built ctx (inParens ctx wanted n w) := by
  unfold Traced.inParens
  split
  · exact .passing (h.map _)
  · exact h

end Built
end Traced

open Traced

section Lists

variable {ctx : Context}

theorem tracedNodes_built {nodes : List Node} (h : ∀ n ∈ nodes, ∀ given, Built ctx (n.traced ctx given)) :
    Built ctx (tracedNodes ctx nodes) := by
  induction nodes with
  | nil => exact .pure []
  | cons n rest ih =>
    rw [tracedNodes]
    exact (h n List.mem_cons_self []).bind fun _ =>
      (ih fun m hm => h m (List.mem_cons_of_mem _ hm)).map _

theorem tracedParts_built {parts : List Part}
    (h : ∀ n ∈ parts.flatMap Part.nodes, ∀ given, Built ctx (n.traced ctx given)) :
    Built ctx (tracedParts ctx parts) := by
  induction parts with
  | nil => exact .pure []
  | cons p rest ih =>
    rw [List.flatMap_cons] at h
    have hp : Built ctx (tracedPart ctx p) := by
      cases p with
      | child field n => exact (h n (by simp [Part.nodes]) []).map _
      | children field nodes => exact (tracedNodes_built fun n hn => h n (List.mem_append_left _ hn)).map _
    rw [tracedParts]
    exact hp.bind fun _ => (ih fun n hn => h n (List.mem_append_right _ hn)).map _

theorem tracedOption_built (counter : Option Counter) {o : Option Node}
    (h : ∀ n ∈ o.toList, ∀ given, Built ctx (n.traced ctx given)) :
    Built ctx (tracedOption ctx counter o) := by
  cases o with
  | none => exact .pure none
  | some n => exact ((h n (List.mem_singleton_self n) []).behind? counter).map _

theorem tracedElse_built (counter : Option Counter) {o : Option Node}
    (h : ∀ n ∈ o.toList, ∀ given, Built ctx (n.traced ctx given)) :
    Built ctx (tracedElse ctx counter o) := by
  cases o with
  | none =>
    rw [tracedElse]
    exact .passing ((Built.counterItem counter).map _)
  | some n =>
    rw [tracedElse]
    exact .inBlock counter (h n (List.mem_singleton_self n))

theorem tracedHeritage_built (counted : Bool) {o : Option Node}
    (h : ∀ n ∈ o.toList, ∀ given, Built ctx (n.traced ctx given)) :
    Built ctx (tracedHeritage ctx counted o) := by
  cases o with
  | none => exact .pure none
  | some n => exact ((h n (List.mem_singleton_self n) []).inParens counted).map _

theorem tracedItems_built {items : List Node} (h : ∀ n ∈ items, ∀ given, Built ctx (n.traced ctx given)) :
    Built ctx (tracedItems ctx items) := by
  induction items with
  | nil => exact .pure []
  | cons n rest ih =>
    rw [tracedItems]
    exact ((h n List.mem_cons_self []).asItem n.declaresVariables).bind fun _ =>
      (ih fun m hm => h m (List.mem_cons_of_mem _ hm)).map _

theorem tracedStatements_built (counter : Option Counter) {statements : List Node}
    (h : ∀ n ∈ statements, ∀ given, Built ctx (n.traced ctx given)) :
    Built ctx (tracedStatements ctx counter statements) := by
  rw [tracedStatements_eq]
  exact (tracedItems_built fun n hn => h n ((List.takeWhile_sublist _).mem hn)).bind fun _ =>
    (Built.counterItem counter).bind fun _ =>
      (tracedItems_built fun n hn => h n ((List.dropWhile_sublist _).mem hn)).map _

theorem tracedBody_built (counter : Option Counter) {body : Body}
    (h : ∀ n ∈ body.nodes, ∀ given, Built ctx (n.traced ctx given)) :
    Built ctx (tracedBody ctx counter body) := by
  cases body with
  | absent => exact .pure _
  | block s statements => exact .passing ((tracedStatements_built counter h).map _)
  | value e =>
    have he := h e (List.mem_singleton_self e) []
    cases counter with
    | none => exact he.map _
    | some c => exact he.asReturn c

theorem tracedCases_built (switch : Key) {cases : List Case}
    (h : ∀ n ∈ cases.flatMap Case.nodes, ∀ given, Built ctx (n.traced ctx given)) :
    Built ctx (tracedCases ctx switch cases) := by
  induction cases with
  | nil => exact .pure []
  | cons c rest ih =>
    obtain ⟨s,test,consequent⟩ := c
    simp only [List.flatMap_cons,Case.nodes,List.mem_append] at h
    rw [tracedCases,tracedCase]
    refine (Built.visiting (.coverCase s switch) fun counter => ?_).bind fun _ =>
      (ih fun n hn => h n (.inr hn)).map _
    exact (tracedOption_built none fun n hn => h n (.inl (.inl hn))).bind fun _ =>
      (Built.counterItem counter).bind fun _ =>
        (tracedItems_built fun n hn => h n (.inl (.inr hn))).map _

theorem tracedDeclarators_built (hoistable : Bool) {declarators : List Declarator}
    (h : ∀ n ∈ declarators.flatMap Declarator.nodes, ∀ given, Built ctx (n.traced ctx given)) :
    Built ctx (tracedDeclarators ctx hoistable declarators) := by
  induction declarators with
  | nil => exact .pure []
  | cons d rest ih =>
    obtain ⟨s,data,target,init⟩ := d
    simp only [List.flatMap_cons,Declarator.nodes,List.mem_append,List.mem_cons] at h
    rw [tracedDeclarators,tracedDeclarator]
    refine (Built.visiting (.coverInitializer hoistable init) fun counter => ?_).bind fun _ =>
      (ih fun n hn => h n (.inr hn)).map _
    exact (h target (.inl (.inl rfl)) []).bind fun _ =>
      (tracedOption_built counter fun n hn => h n (.inl (.inr hn))).map _

end Lists

/-- The walk of every node is put together from visits, list items and chains. -/
theorem Node.traced_built (ctx : Context) (n : Node) (given : List (Option Counter)) :
    Built ctx (n.traced ctx given) := by
  induction n using induction_children generalizing given with
  | step n hc =>
    replace hc : ∀ m ∈ n.children, ∀ given, Built ctx (m.traced ctx given) := fun m hm given => hc m hm given
    cases n with
    | plain head parts => exact (tracedParts_built hc).map _
    | paren s inner => exact Built.get.bind fun _ => .passing ((hc inner List.mem_cons_self given).map _)
    | logical s operator left right =>
      refine Built.get.bind fun t => .visiting ?_ fun own => ?_
      · cases t.inChain
        · exact .coverChain s left right
        · exact .pure []
      · exact .withChain true ((Built.operand (hc left (by simp [children]))).bind fun _ =>
          (Built.operand (hc right (by simp [children]))).map _)
    | conditional s test consequent alternate =>
      rw [traced]
      refine .visiting (.coverConditional s _ _) fun counters => ?_
      exact (hc test (by simp [children]) []).bind fun _ =>
        ((hc consequent (by simp [children]) []).behind? _).bind fun _ =>
          ((hc alternate (by simp [children]) []).behind? _).map _
    | function head key before body after =>
      simp only [children,List.mem_append] at hc
      rw [traced]
      refine .visiting (.coverFunction head key body fun _ _ _ _ => .inr trivial) fun counter => ?_
      exact (tracedOption_built none fun n hn => hc n (.inl (.inl (.inl hn)))).bind fun _ =>
        (tracedParts_built fun n hn => hc n (.inl (.inl (.inr hn)))).bind fun _ =>
          (tracedBody_built counter fun n hn => hc n (.inl (.inr hn))).bind fun _ =>
            (tracedParts_built fun n hn => hc n (.inr hn)).map _
    | defaulted form s target value =>
      rw [traced]
      refine .visiting (.coverDefault s value) fun counter => ?_
      exact (hc target List.mem_cons_self []).bind fun _ =>
        (tracedOption_built counter fun n hn => hc n (List.mem_cons_of_mem _ hn)).map _
    | classDeclaration s data name before heritage after =>
      simp only [children,List.mem_append,List.mem_cons] at hc
      rw [traced]
      refine .visiting (.pure true) fun counted => ?_
      exact (hc name (.inl (.inl (.inl rfl))) []).bind fun _ =>
        (tracedParts_built fun n hn => hc n (.inl (.inl (.inr hn)))).bind fun _ =>
          (tracedHeritage_built counted fun n hn => hc n (.inl (.inr hn))).bind fun _ =>
            (tracedParts_built fun n hn => hc n (.inr hn)).map _
    | expression s inner =>
      rw [traced]
      exact .visiting (.coverStatement _ s) fun _ => (hc inner List.mem_cons_self []).map _
    | simple form s parts =>
      rw [traced]
      exact .visiting (.coverStatement _ s) fun _ => (tracedParts_built hc).map _
    | compound form s data init head body =>
      simp only [children,List.mem_append,List.mem_singleton] at hc
      rw [traced]
      refine .visiting (.coverCompound form s fun _ _ => .inr trivial) fun counted => ?_
      exact (tracedOption_built none fun n hn => hc n (.inl (.inl hn))).bind fun _ =>
        (tracedParts_built fun n hn => hc n (.inl (.inr hn))).bind fun _ =>
          (Built.asBody counted (hc body (.inr rfl))).map _
    | ifElse s test consequent alternate =>
      simp only [children,List.mem_cons] at hc
      rw [traced]
      refine .visiting (.coverIf s (.inr trivial) (.inr trivial)) fun counters => ?_
      refine (hc test (.inl rfl) []).bind fun _ => ?_
      cases counters with
      | none =>
        exact (hc consequent (.inr (.inl rfl)) []).bind fun _ =>
          (tracedOption_built none fun n hn => hc n (.inr (.inr hn))).map _
      | some counters =>
        exact (Built.inBlock _ (hc consequent (.inr (.inl rfl)))).bind fun _ =>
          (tracedElse_built counters.2 fun n hn => hc n (.inr (.inr hn))).map _
    | switch s discriminant cases =>
      simp only [children,List.mem_cons] at hc
      rw [traced]
      refine .visiting (.coverSwitch s) fun _ => ?_
      exact (hc discriminant (.inl rfl) []).bind fun _ =>
        (tracedCases_built _ fun n hn => hc n (.inr hn)).map _
    | bindings s data declarators =>
      exact Built.takeHoist.bind fun hoistable => .passing ((tracedDeclarators_built hoistable hc).map _)
    | block s statements =>
      rw [traced]
      exact .passing ((Built.counterItem _).bind fun _ => (tracedItems_built hc).map _)
    | exported s declaration => exact (hc declaration List.mem_cons_self []).map _
    | namespaceBlock s items => exact (tracedItems_built hc).map _

theorem Program.traced_built (ctx : Context) (p : Program) : Built ctx (tracedItems ctx p.body) :=
  tracedItems_built fun n _ => n.traced_built ctx

end CoverageCounters
