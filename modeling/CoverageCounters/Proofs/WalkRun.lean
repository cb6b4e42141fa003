import CoverageCounters.Proofs.ActionSteps
import CoverageCounters.Proofs.Children

/-!
The runs of a walk. Whatever tree is walked, the state changes only by visits, list items and notes
that are put back, one inside the other; a run lists them with the keys that are visited. What holds
of a state before and after every walk is an induction over runs.
-/

namespace CoverageCounters

namespace Node

/-- The key of the block that is put around a body that is none. -/
def blockKeys (n : Node) : List Key := if n.isBlock then [] else [⟨.block,n.span⟩]

end Node

namespace Body

/-- The keys of a body; a value is walked as a block and a return at its place. -/
def keys : Body → List Key
  | absent => []
  | block s _ => [⟨.block,s⟩]
  | value e => [⟨.block,e.span⟩,⟨.return,e.span⟩]

end Body

namespace Node

/-- The keys under which a node is visited, apart from those of the nodes inside it. -/
def ownKeys : Node → List Key
  | plain _ _ => []
  | paren s _ => [⟨.parenthesized,s⟩]
  | logical s _ _ _ => [⟨.logical,s⟩]
  | conditional s _ _ _ => [⟨.conditional,s⟩]
  | function head key _ body _ => head.key key :: body.keys
  | defaulted form s _ _ => [⟨form.kind,s⟩]
  | classDeclaration s _ _ _ _ _ => [⟨.classDeclaration,s⟩]
  | expression s _ => [⟨.expressionStatement,s⟩]
  | simple form s _ => [⟨form.kind,s⟩]
  | compound form s _ _ _ body => ⟨form.kind,s⟩ :: body.blockKeys
  | ifElse s _ consequent alternate =>
    ⟨.if,s⟩ :: consequent.blockKeys ++ alternate.toList.flatMap blockKeys
  | switch s _ cases => ⟨.switch,s⟩ :: cases.map fun c => ⟨.switchCase,c.span⟩
  | bindings s _ declarators =>
    ⟨.variableDeclaration,s⟩ :: declarators.map fun d => ⟨.variableDeclarator,d.span⟩
  | block s _ => [⟨.block,s⟩]
  | exported _ _ => []
  | namespaceBlock _ _ => []

/-- All keys under which a node and the nodes inside it are visited. -/
def keys (n : Node) : List Key := n.subnodes.flatMap ownKeys

theorem keys_eq (n : Node) : n.keys = n.ownKeys ++ n.children.flatMap keys := by
  rw [keys,subnodes,List.flatMap_cons,inner_eq,List.flatMap_assoc]
  rfl

end Node

namespace Traversal

/-- A key that has no place in the text, or is among the given ones. -/
def Within (visited : Key → Prop) (k : Key) : Prop := k.isSynthetic = true ∨ visited k

/-- What happens between entering a node and walking what is inside. -/
inductive Attempts (ctx : Context) (visited : Key → Prop) (key : Key) (t : Traversal) :
    Traversal → Prop where
  | idle : Attempts ctx visited key t t
  | done {u : Traversal} (hc : t.counts key = true) (h : Acts ctx key (Within visited) t u) :
      Attempts ctx visited key t u
  | failed {u : Traversal} (hc : t.counts key = true) (h : Acts ctx key (Within visited) t u)
      (e : InstrumentError) :
      Attempts ctx visited key t { u with failure := u.failure.or (some e) }

/-- The second state follows the first by a walk that visits only the given keys. -/
inductive Run (ctx : Context) (visited : Key → Prop) : Traversal → Traversal → Prop where
  | refl (t : Traversal) : Run ctx visited t t
  | trans {t u v : Traversal} (h₁ : Run ctx visited t u) (h₂ : Run ctx visited u v) :
      Run ctx visited t v
  | visit {t u v : Traversal} {key : Key} {name : Option String} (hk : Within visited key)
      (hu : Attempts ctx visited key (t.enter ctx key name) u) (h : Run ctx visited u v) :
      Run ctx visited t (v.leave key (t.depth + 1))
  | item {t u : Traversal} {declares : Bool}
      (h : Run ctx visited { t with frames := [] :: t.frames, hoist := declares } u) :
      Run ctx visited t { u with frames := u.frames.tail, hoist := false }
  | hoist (t : Traversal) : Run ctx visited t { t with hoist := false }
  | chain {t u : Traversal} {inChain : Bool} (h : Run ctx visited { t with inChain } u) :
      Run ctx visited t { u with inChain := t.inChain }

/-- The key of a counter that stands as a statement. -/
def counterKey : Key := ⟨.expressionStatement,.dummy⟩

/-- The state behind a counter that was walked as an item: without a mark that nothing can set, and
without a suppression that started deeper than where the walk stands. -/
def pastCounter (t : Traversal) : Traversal :=
  { t with
    anchor := if t.anchor = some ⟨counterKey,t.depth + 1⟩ then none else t.anchor
    hoist := false
    marks := t.marks.clear counterKey }

end Traversal

namespace Walk

open Traversal

variable {α β : Type} {ctx : Context} {visited : Key → Prop}

@[simp] theorem run_pure (a : α) (t : Traversal) : (pure a : Walk α).run t = (a,t) := rfl

@[simp] theorem run_bind (w : Walk α) (f : α → Walk β) (t : Traversal) :
    (w >>= f).run t = (f (w.run t).1).run (w.run t).2 := rfl

theorem run_attempt (key : Key) (action : Action α) (idle : α) (t : Traversal) :
    (attempt key action idle).run t =
      if t.counts key then
        match action.run.run t with
        | (.ok a,u) => (a,u)
        | (.error e,u) => (idle,{ u with failure := u.failure.or (some e) })
      else (idle,t) := by
  unfold attempt
  by_cases hc : t.counts key = true
  · rw [if_pos hc,run_bind]
    change ((if t.counts key then _ else _ : Walk α)).run t = _
    rw [if_pos hc,run_bind]
    cases hr : action.run.run t with
    | mk r u => cases r <;> rfl
  · rw [if_neg hc,run_bind]
    change ((if t.counts key then _ else _ : Walk α)).run t = _
    rw [if_neg hc]
    rfl

theorem run_visiting (ctx : Context) (key : Key) (name : Option String) (action : Action α)
    (idle : α) (inside : α → Walk β) (t : Traversal) :
    (visiting ctx key name action idle inside).run t =
      let entered := (attempt key action idle).run (t.enter ctx key name)
      let walked := (inside entered.1).run entered.2
      (walked.1,walked.2.leave key (t.depth + 1)) := rfl

/-- A visit for which nothing is done only enters, walks what is inside and leaves. -/
theorem run_visiting_pure {ctx : Context} {key : Key} {name : Option String} (a idle : α)
    (inside : Walk β) (t : Traversal) :
    (visiting ctx key name (pure a) idle fun _ => inside).run t =
      ((inside.run (t.enter ctx key name)).1,
        (inside.run (t.enter ctx key name)).2.leave key (t.depth + 1)) := by
  have h : ((attempt key (pure a) idle).run (t.enter ctx key name)).2 = t.enter ctx key name := by
    rw [run_attempt]
    split <;> rfl
  rw [run_visiting]
  dsimp only
  rw [h]

/-- Nothing is done at a node without a place. -/
theorem run_visiting_of_isSynthetic {key : Key} (h : key.isSynthetic = true) (name : Option String)
    (action : Action α) (idle : α) (inside : α → Walk β) (t : Traversal) :
    (visiting ctx key name action idle inside).run t =
      (((inside idle).run (t.enter ctx key name)).1,
        ((inside idle).run (t.enter ctx key name)).2.leave key (t.depth + 1)) := by
  have ha : (attempt key action idle).run (t.enter ctx key name) = (idle,t.enter ctx key name) := by
    rw [run_attempt,counts,h,Bool.not_true,Bool.and_false]
    rfl
  rw [run_visiting]
  dsimp only
  rw [ha]

theorem run_asItem (declares : Bool) (walk : Walk Node) (t : Traversal) :
    (asItem declares walk).run t =
      let walked := walk.run { t with frames := [] :: t.frames, hoist := declares }
      ((walked.2.frames.headD [],walked.1),
        { walked.2 with frames := walked.2.frames.tail, hoist := false }) := rfl

/-- A suppression that starts at a counter ends with it. -/
theorem anchor_leave_enter (ctx : Context) (t : Traversal) :
    ((t.enter ctx counterKey none).leave counterKey (t.depth + 1)).anchor =
      if t.anchor = some ⟨counterKey,t.depth + 1⟩ then none else t.anchor := by
  cases ha : t.anchor with
  | none =>
    cases hs : t.startsSuppression ctx counterKey none <;> simp [enter,leave,hs,ha]
  | some a => simp [enter,leave,startsSuppression,isSuppressed,ha]

@[simp] theorem counterItem_none (ctx : Context) : counterItem ctx none = pure [] := rfl

/-- A counter that is walked as an item is left as it is, and nothing is queued before it. -/
theorem run_counterItem (ctx : Context) (c : Counter) (t : Traversal) :
    (counterItem ctx (some c)).run t = ([([],c.statementNode ctx.identifier)],t.pastCounter) := by
  rw [counterItem,run_bind,run_asItem]
  dsimp only
  rw [run_visiting_of_isSynthetic rfl,pastCounter,← anchor_leave_enter ctx t]
  rfl

theorem run_counterItem_bind (c : Counter) (f : List (List Node × Node) → Walk α) (t : Traversal) :
    (counterItem ctx (some c) >>= f).run t =
      (f [([],c.statementNode ctx.identifier)]).run t.pastCounter := by
  rw [run_bind,run_counterItem]

/-- The items that a counter is walked as, if there is one. -/
def counterItems (ctx : Context) (c : Option Counter) : List (List Node × Node) :=
  c.toList.map fun c => ([],c.statementNode ctx.identifier)

/-- The statement of a counter, if there is one. -/
def counterStatements (ctx : Context) (c : Option Counter) : List Node :=
  c.toList.map fun c => c.statementNode ctx.identifier

@[simp] theorem placed_counterItems (ctx : Context) (c : Option Counter) :
    placed (counterItems ctx c) = counterStatements ctx c := by
  cases c <;> rfl

theorem fst_run_counterItem (ctx : Context) (c : Option Counter) (t : Traversal) :
    ((counterItem ctx c).run t).1 = counterItems ctx c := by
  cases c with
  | none => rfl
  | some c => rw [run_counterItem]; rfl

/-- A walk is a run, wherever it starts. -/
def Runs (ctx : Context) (visited : Key → Prop) (w : Walk α) : Prop :=
  ∀ t, Run ctx visited t (w.run t).2

namespace Runs

theorem pure (a : α) : Runs ctx visited (Pure.pure a : Walk α) := fun t => .refl t

theorem bind {w : Walk α} {f : α → Walk β} (hw : Runs ctx visited w)
    (hf : ∀ a, Runs ctx visited (f a)) : Runs ctx visited (w >>= f) :=
  fun t => (hw t).trans (hf _ _)

theorem attempts {key : Key} {action : Action α}
    (ha : Action.Acting ctx key (Within visited) action) (idle : α) (t : Traversal) :
    Attempts ctx visited key t ((attempt key action idle).run t).2 := by
  rw [run_attempt]
  by_cases hc : t.counts key = true
  · rw [if_pos hc]
    have h := ha t
    cases hr : action.run.run t with
    | mk r u =>
      rw [hr] at h
      cases r with
      | ok x => exact .done hc h
      | error e => exact .failed hc h e
  · rw [if_neg hc]
    exact .idle

theorem visiting {key : Key} {name : Option String} {action : Action α} {idle : α}
    {inside : α → Walk β} (hk : Within visited key)
    (ha : Action.Acting ctx key (Within visited) action)
    (hi : ∀ a, Runs ctx visited (inside a)) :
    Runs ctx visited (visiting ctx key name action idle inside) := by
  intro t
  rw [run_visiting]
  exact .visit hk (attempts ha idle _) (hi _ _)

theorem passing {key : Key} {inside : Walk β} (hk : Within visited key)
    (hi : Runs ctx visited inside) : Runs ctx visited (passing ctx key inside) :=
  visiting hk (.pure ()) fun _ => hi

theorem asItem {walk : Walk Node} (declares : Bool) (h : Runs ctx visited walk) :
    Runs ctx visited (asItem declares walk) :=
  fun _ => .item (h _)

theorem takeHoist : Runs ctx visited takeHoist := fun t => .hoist t

theorem withChain {walk : Walk α} (inChain : Bool) (h : Runs ctx visited walk) :
    Runs ctx visited (withChain inChain walk) :=
  fun _ => .chain (h _)

theorem behind {walk : Walk Node} (c : Counter) (h : Runs ctx visited walk) :
    Runs ctx visited (behind ctx c walk) :=
  passing (Or.inl rfl) (h.bind fun _ => .pure _)

theorem behind? {walk : Walk Node} (c : Option Counter) (h : Runs ctx visited walk) :
    Runs ctx visited (behind? ctx c walk) := by
  cases c with
  | none => exact h
  | some c => exact h.behind c

theorem operand {n : Node} {counters : List (Option Counter)}
    {walk : List (Option Counter) → Walk Node} (h : ∀ c, Runs ctx visited (walk c)) :
    Runs ctx visited (operand ctx n counters walk) := by
  unfold Walk.operand
  split
  · exact h counters
  · exact withChain false ((h []).behind? _)

/-- A counter that is put into a list is visited as well. -/
theorem counterItem (c : Option Counter) : Runs ctx visited (counterItem ctx c) := by
  cases c with
  | none => exact .pure []
  | some c =>
    exact (asItem false (visiting (Or.inl rfl) (.coverStatement _ _) fun _ => .pure _)).bind
      fun _ => .pure _

theorem inBlock {c : Option Counter} {body : Node} {walk : List (Option Counter) → Walk Node}
    (hk : ∀ k ∈ body.blockKeys, visited k) (h : ∀ given, Runs ctx visited (walk given)) :
    Runs ctx visited (inBlock ctx c body walk) := by
  unfold Walk.inBlock
  split
  · exact h [c]
  · rename_i hb
    refine passing (Or.inr (hk _ ?_))
      ((counterItem c).bind fun _ => (asItem _ (h [])).bind fun _ => .pure _)
    rw [Node.blockKeys,if_neg hb]
    exact List.mem_singleton_self _

theorem asBody {counted : Bool} {body : Node} {walk : List (Option Counter) → Walk Node}
    (hk : ∀ k ∈ body.blockKeys, visited k) (h : ∀ given, Runs ctx visited (walk given)) :
    Runs ctx visited (asBody ctx counted body walk) := by
  unfold Walk.asBody
  split
  · exact inBlock hk h
  · exact h []

theorem asReturn {c : Counter} {s : Span} {walk : Walk Node} (hb : visited ⟨.block,s⟩)
    (hr : visited ⟨.return,s⟩) (h : Runs ctx visited walk) :
    Runs ctx visited (asReturn ctx c s walk) :=
  passing (Or.inr hb) ((counterItem _).bind fun _ =>
    (asItem _ (visiting (Or.inr hr) (.coverStatement _ _) fun _ =>
      h.bind fun _ => .pure _)).bind fun _ => .pure _)

theorem inParens {wanted : Bool} {heritage : Node} {walk : Walk Node} (h : Runs ctx visited walk) :
    Runs ctx visited (inParens ctx wanted heritage walk) := by
  unfold Walk.inParens
  split
  · exact passing (Or.inl rfl) (h.bind fun _ => .pure _)
  · exact h

end Runs
end Walk

open Walk Traversal

section Lists

variable {ctx : Context} {visited : Key → Prop}

theorem walkNodes_runs {nodes : List Node}
    (h : ∀ n ∈ nodes, ∀ given, Runs ctx visited (n.walk ctx given)) :
    Runs ctx visited (walkNodes ctx nodes) := by
  induction nodes with
  | nil => exact .pure []
  | cons n rest ih =>
    rw [walkNodes]
    exact (h n List.mem_cons_self []).bind fun _ =>
      (ih fun m hm => h m (List.mem_cons_of_mem _ hm)).bind fun _ => .pure _

theorem walkParts_runs {parts : List Part}
    (h : ∀ n ∈ parts.flatMap Part.nodes, ∀ given, Runs ctx visited (n.walk ctx given)) :
    Runs ctx visited (walkParts ctx parts) := by
  induction parts with
  | nil => exact .pure []
  | cons p rest ih =>
    rw [List.flatMap_cons] at h
    rw [walkParts]
    have hp : Runs ctx visited (walkPart ctx p) := by
      cases p with
      | child field n =>
        exact (h n (List.mem_append_left _ (List.mem_singleton_self n)) []).bind fun _ => .pure _
      | children field nodes =>
        exact (walkNodes_runs fun n hn => h n (List.mem_append_left _ hn)).bind fun _ => .pure _
    exact hp.bind fun _ => (ih fun m hm => h m (List.mem_append_right _ hm)).bind fun _ => .pure _

theorem walkOption_runs (counter : Option Counter) {o : Option Node}
    (h : ∀ n ∈ o.toList, ∀ given, Runs ctx visited (n.walk ctx given)) :
    Runs ctx visited (walkOption ctx counter o) := by
  cases o with
  | none => exact .pure none
  | some n => exact ((h n (List.mem_singleton_self n) []).behind? counter).bind fun _ => .pure _

theorem walkElse_runs (counter : Option Counter) {o : Option Node}
    (hk : ∀ k ∈ o.toList.flatMap Node.blockKeys, visited k)
    (h : ∀ n ∈ o.toList, ∀ given, Runs ctx visited (n.walk ctx given)) :
    Runs ctx visited (walkElse ctx counter o) := by
  cases o with
  | none =>
    rw [walkElse]
    exact .passing (Or.inl rfl) ((Runs.counterItem counter).bind fun _ => .pure _)
  | some n =>
    rw [walkElse]
    exact .inBlock (fun k hn => hk k (List.mem_flatMap.mpr ⟨n,List.mem_singleton_self n,hn⟩))
      (h n (List.mem_singleton_self n))

theorem walkHeritage_runs (counted : Bool) {o : Option Node}
    (h : ∀ n ∈ o.toList, ∀ given, Runs ctx visited (n.walk ctx given)) :
    Runs ctx visited (walkHeritage ctx counted o) := by
  cases o with
  | none => exact .pure none
  | some n => exact (Runs.inParens (h n (List.mem_singleton_self n) [])).bind fun _ => .pure _

theorem walkItems_runs {items : List Node}
    (h : ∀ n ∈ items, ∀ given, Runs ctx visited (n.walk ctx given)) :
    Runs ctx visited (walkItems ctx items) := by
  induction items with
  | nil => exact .pure []
  | cons n rest ih =>
    rw [walkItems]
    exact (Runs.asItem _ (h n List.mem_cons_self [])).bind fun _ =>
      (ih fun m hm => h m (List.mem_cons_of_mem _ hm)).bind fun _ => .pure _

/-- The counter of a function is walked between the directives at the head and what follows them. -/
theorem walkStatements_eq (ctx : Context) (counter : Option Counter) (statements : List Node) :
    walkStatements ctx counter statements = do
      let front ← walkItems ctx (statements.takeWhile Node.isDirective)
      let first ← counterItem ctx counter
      let back ← walkItems ctx (statements.dropWhile Node.isDirective)
      return front ++ first ++ back := by
  induction statements with
  | nil => simp [walkStatements,walkItems]
  | cons n rest ih =>
    cases hn : n.isDirective with
    | true => simp [walkStatements,walkItems,hn,ih]
    | false => simp [walkStatements,walkItems,hn]

theorem walkStatements_runs (counter : Option Counter) {statements : List Node}
    (h : ∀ n ∈ statements, ∀ given, Runs ctx visited (n.walk ctx given)) :
    Runs ctx visited (walkStatements ctx counter statements) := by
  rw [walkStatements_eq]
  exact (walkItems_runs fun n hn => h n ((List.takeWhile_sublist _).mem hn)).bind fun _ =>
    (Runs.counterItem counter).bind fun _ =>
      (walkItems_runs fun n hn => h n ((List.dropWhile_sublist _).mem hn)).bind fun _ => .pure _

theorem walkBody_runs (counter : Option Counter) {body : Body} (hk : ∀ k ∈ body.keys, visited k)
    (h : ∀ n ∈ body.nodes, ∀ given, Runs ctx visited (n.walk ctx given)) :
    Runs ctx visited (walkBody ctx counter body) := by
  cases body with
  | absent => exact .pure _
  | block s statements =>
    exact .passing (Or.inr (hk _ (List.mem_singleton_self _)))
      ((walkStatements_runs counter h).bind fun _ => .pure _)
  | value e =>
    have he := h e (List.mem_singleton_self e) []
    cases counter with
    | none => exact he.bind fun _ => .pure _
    | some c => exact .asReturn (hk _ (by simp [Body.keys])) (hk _ (by simp [Body.keys])) he

theorem walkCase_runs (switch : Key) {c : Case} (hk : visited ⟨.switchCase,c.span⟩)
    (h : ∀ n ∈ c.nodes, ∀ given, Runs ctx visited (n.walk ctx given)) :
    Runs ctx visited (walkCase ctx switch c) := by
  obtain ⟨s,test,consequent⟩ := c
  simp only [Case.nodes,List.mem_append] at h
  refine .visiting (Or.inr hk) (.coverCase s switch) fun counter => ?_
  exact (walkOption_runs none fun n hn => h n (.inl hn)).bind fun _ =>
    (Runs.counterItem counter).bind fun _ =>
      (walkItems_runs fun n hn => h n (.inr hn)).bind fun _ => .pure _

theorem walkCases_runs (switch : Key) {cases : List Case}
    (hk : ∀ c ∈ cases, visited ⟨.switchCase,c.span⟩)
    (h : ∀ n ∈ cases.flatMap Case.nodes, ∀ given, Runs ctx visited (n.walk ctx given)) :
    Runs ctx visited (walkCases ctx switch cases) := by
  induction cases with
  | nil => exact .pure []
  | cons c rest ih =>
    simp only [List.flatMap_cons,List.mem_append] at h
    rw [walkCases]
    exact (walkCase_runs switch (hk c List.mem_cons_self) fun n hn => h n (.inl hn)).bind fun _ =>
      (ih (fun x hx => hk x (List.mem_cons_of_mem _ hx)) fun n hn => h n (.inr hn)).bind
        fun _ => .pure _

theorem walkDeclarator_runs (hoistable : Bool) {d : Declarator}
    (hk : visited ⟨.variableDeclarator,d.span⟩)
    (h : ∀ n ∈ d.nodes, ∀ given, Runs ctx visited (n.walk ctx given)) :
    Runs ctx visited (walkDeclarator ctx hoistable d) := by
  obtain ⟨s,data,target,init⟩ := d
  refine .visiting (Or.inr hk) (.coverInitializer hoistable init) fun counter => ?_
  exact (h target List.mem_cons_self []).bind fun _ =>
    (walkOption_runs counter fun n hn => h n (List.mem_cons_of_mem _ hn)).bind fun _ => .pure _

theorem walkDeclarators_runs (hoistable : Bool) {declarators : List Declarator}
    (hk : ∀ d ∈ declarators, visited ⟨.variableDeclarator,d.span⟩)
    (h : ∀ n ∈ declarators.flatMap Declarator.nodes, ∀ given,
      Runs ctx visited (n.walk ctx given)) :
    Runs ctx visited (walkDeclarators ctx hoistable declarators) := by
  induction declarators with
  | nil => exact .pure []
  | cons d rest ih =>
    simp only [List.flatMap_cons,List.mem_append] at h
    rw [walkDeclarators]
    exact (walkDeclarator_runs hoistable (hk d List.mem_cons_self) fun n hn => h n (.inl hn)).bind
      fun _ => (ih (fun x hx => hk x (List.mem_cons_of_mem _ hx)) fun n hn => h n (.inr hn)).bind
        fun _ => .pure _

end Lists

namespace Node

variable {ctx : Context} {visited : Key → Prop}

theorem mem_ownKeys_of_isDirective {n : Node} (h : n.isDirective = true) :
    ⟨.expressionStatement,n.span⟩ ∈ n.ownKeys := by
  cases n with
  | expression s inner => exact List.mem_singleton_self _
  | _ => cases h

theorem mem_ownKeys_of_isBlock {n : Node} (h : n.isBlock = true) : ⟨.block,n.span⟩ ∈ n.ownKeys := by
  cases n with
  | block s statements => exact List.mem_singleton_self _
  | _ => cases h

theorem mem_ownKeys_of_initKey? {n : Node} {k : Key} (h : Action.initKey? n = some k) :
    k ∈ n.ownKeys := by
  unfold Action.initKey? at h
  split at h
  · cases h
    exact List.mem_cons_self
  · unfold expressionKey? at h
    split at h
    · split at h
      · cases h
        exact List.mem_cons_self
      · cases h
    all_goals
      cases h
      try exact List.mem_cons_self

/-- The key of the block that a body is walked as, its own or one put around it. -/
theorem mem_keys_block (n : Node) : ⟨.block,n.span⟩ ∈ n.blockKeys ++ n.ownKeys := by
  by_cases h : n.isBlock = true
  · exact List.mem_append_right _ (mem_ownKeys_of_isBlock h)
  · rw [blockKeys,if_neg h]
    exact List.mem_append_left _ (List.mem_singleton_self _)

/-- The walk over the operands of a chain that have the given counters. -/
def walkChain (ctx : Context) (s : Span) (operator : LogicalOperator) (left right : Node)
    (counters : List (Option Counter)) : Walk Node :=
  withChain true do
    let n := (ctx.directives.operands left).length
    let left ← operand ctx left (counters.take n) fun c => left.walk ctx c
    let right ← operand ctx right (counters.drop n) fun c => right.walk ctx c
    return .logical s operator left right

section Chain

variable {given : List (Option Counter)} {s : Span} {operator : LogicalOperator} {left right : Node}
  {t : Traversal}

/-- The outermost operator of a chain counts the whole chain. -/
theorem run_walk_outermost (h : t.inChain = false) :
    ((logical s operator left right).walk ctx given).run t =
      (visiting ctx ⟨.logical,s⟩ none (Action.coverChain ctx s left right) []
        (walkChain ctx s operator left right)).run t := by
  change (visiting ctx ⟨.logical,s⟩ none
    (if !t.inChain then Action.coverChain ctx s left right else pure []) [] fun own =>
      walkChain ctx s operator left right (if !t.inChain then own else given)).run t = _
  rw [h]
  rfl

/-- Any other operator of a chain hands on what it is given. -/
theorem run_walk_inChain (h : t.inChain = true) :
    ((logical s operator left right).walk ctx given).run t =
      (visiting ctx ⟨.logical,s⟩ none (pure []) [] fun _ : List (Option Counter) =>
        walkChain ctx s operator left right given).run t := by
  change (visiting ctx ⟨.logical,s⟩ none
    (if !t.inChain then Action.coverChain ctx s left right else pure []) [] fun own =>
      walkChain ctx s operator left right (if !t.inChain then own else given)).run t = _
  rw [h]
  rfl

end Chain

section Constructs

variable {s : Span}

theorem walkChain_runs {operator : LogicalOperator} {left right : Node}
    (hl : ∀ given, Runs ctx visited (left.walk ctx given))
    (hr : ∀ given, Runs ctx visited (right.walk ctx given)) (counters : List (Option Counter)) :
    Runs ctx visited (walkChain ctx s operator left right counters) :=
  .withChain true ((Runs.operand hl).bind fun _ => (Runs.operand hr).bind fun _ => .pure _)

theorem walk_logical_runs {operator : LogicalOperator} {left right : Node}
    (ho : ∀ k ∈ (logical s operator left right).ownKeys, visited k)
    (hc : ∀ m ∈ (logical s operator left right).children, ∀ given, Runs ctx visited (m.walk ctx given))
    (given : List (Option Counter)) :
    Runs ctx visited ((logical s operator left right).walk ctx given) := by
  have hv : Within visited ⟨.logical,s⟩ := Or.inr (ho _ List.mem_cons_self)
  have hw : ∀ counters, Runs ctx visited (walkChain ctx s operator left right counters) :=
    walkChain_runs (hc left (by simp [children])) (hc right (by simp [children]))
  intro t
  cases h : t.inChain with
  | false =>
    rw [run_walk_outermost h]
    exact Runs.visiting hv (.coverChain s left right) hw t
  | true =>
    rw [run_walk_inChain h]
    exact Runs.visiting hv (.pure []) (fun _ => hw given) t

/-- Besides its own keys, a function marks those of the directives at the head of its body. -/
theorem walk_function_runs {head : FunctionHead} {key : Option Node} {before : List Part}
    {body : Body} {after : List Part}
    (ho : ∀ k ∈ (function head key before body after).ownKeys, visited k)
    (hm : ∀ m ∈ (function head key before body after).children, ∀ k ∈ m.ownKeys, visited k)
    (hc : ∀ m ∈ (function head key before body after).children, ∀ given,
      Runs ctx visited (m.walk ctx given)) (given : List (Option Counter)) :
    Runs ctx visited ((function head key before body after).walk ctx given) := by
  simp only [children,List.mem_append] at hc hm
  have hd : ∀ c ∈ Action.bodyContent? body, ∀ n ∈ c.2.takeWhile isDirective,
      Within visited ⟨.expressionStatement,n.span⟩ := by
    intro c hb n hn
    have hs : n ∈ body.nodes := by
      cases body with
      | absent => cases hb
      | block s statements =>
        cases hb
        exact (List.takeWhile_sublist _).mem hn
      | value e =>
        cases hb
        cases hn
    exact Or.inr (hm n (.inl (.inr hs)) _
      (mem_ownKeys_of_isDirective (List.all_eq_true.mp List.all_takeWhile n hn)))
  have hkey := walkOption_runs none fun n hn => hc n (.inl (.inl (.inl hn)))
  have hbefore := walkParts_runs fun n hn => hc n (.inl (.inl (.inr hn)))
  have hbody := fun counter => walkBody_runs counter
    (fun k hk => ho k (List.mem_cons_of_mem _ hk)) fun n hn => hc n (.inl (.inr hn))
  have hafter := walkParts_runs fun n hn => hc n (.inr hn)
  refine .visiting (Or.inr (ho _ List.mem_cons_self)) (.coverFunction head key body hd)
    fun counter => ?_
  exact hkey.bind fun _ => hbefore.bind fun _ => (hbody counter).bind fun _ =>
    hafter.bind fun _ => .pure _

/-- Besides its own keys, a loop marks that of its init clause. -/
theorem walk_compound_runs {form : CompoundForm} {data : Attributes} {init : Option Node}
    {head : List Part} {body : Node}
    (ho : ∀ k ∈ (compound form s data init head body).ownKeys, visited k)
    (hm : ∀ m ∈ (compound form s data init head body).children, ∀ k ∈ m.ownKeys, visited k)
    (hc : ∀ m ∈ (compound form s data init head body).children, ∀ given,
      Runs ctx visited (m.walk ctx given)) (given : List (Option Counter)) :
    Runs ctx visited ((compound form s data init head body).walk ctx given) := by
  simp only [children,List.mem_append,List.mem_singleton] at hc hm
  have hi : ∀ k ∈ init.bind Action.initKey?, Within visited k := by
    intro k hk
    obtain ⟨n,hn,hk⟩ := Option.bind_eq_some_iff.mp hk
    exact Or.inr (hm n (.inl (.inl (Option.mem_toList.mpr hn))) k (mem_ownKeys_of_initKey? hk))
  have hinit := walkOption_runs none fun n hn => hc n (.inl (.inl hn))
  have hhead := walkParts_runs fun n hn => hc n (.inl (.inr hn))
  have hblock : ∀ k ∈ body.blockKeys, visited k := fun k hk => ho k (List.mem_cons_of_mem _ hk)
  have hbody := hc body (.inr rfl)
  refine .visiting (Or.inr (ho _ List.mem_cons_self)) (.coverCompound form s hi) fun counted => ?_
  exact hinit.bind fun _ => hhead.bind fun _ => (Runs.asBody hblock hbody).bind fun _ => .pure _

/-- The sides of an `if` are visited as blocks, their own or ones put around them. -/
theorem walk_ifElse_runs {test consequent : Node} {alternate : Option Node}
    (ho : ∀ k ∈ (ifElse s test consequent alternate).ownKeys, visited k)
    (hm : ∀ m ∈ (ifElse s test consequent alternate).children, ∀ k ∈ m.ownKeys, visited k)
    (hc : ∀ m ∈ (ifElse s test consequent alternate).children, ∀ given,
      Runs ctx visited (m.walk ctx given)) (given : List (Option Counter)) :
    Runs ctx visited ((ifElse s test consequent alternate).walk ctx given) := by
  simp only [children,List.mem_cons] at hc hm
  simp only [ownKeys,List.mem_append,List.mem_cons] at ho
  have hb : ∀ n, n = consequent ∨ n ∈ alternate.toList →
      (∀ k ∈ n.blockKeys, visited k) → visited ⟨.block,n.span⟩ := by
    intro n hn hk
    rcases List.mem_append.mp n.mem_keys_block with h | h
    · exact hk _ h
    · exact hm n (.inr hn) _ h
  have ha : Within visited ⟨.block,(alternate.map span).getD .dummy⟩ := by
    cases alternate with
    | none => exact Or.inl rfl
    | some a =>
      exact Or.inr (hb a (.inr (List.mem_singleton_self a)) fun k hk => ho k (.inr (by simpa using hk)))
  refine .visiting (Or.inr (ho _ (.inl (.inl rfl)))) (.coverIf s
    (Or.inr (hb consequent (.inl rfl) fun k hk => ho k (.inl (.inr hk)))) ha) fun counters => ?_
  refine (hc test (.inl rfl) []).bind fun _ => ?_
  cases counters with
  | none =>
    exact (hc consequent (.inr (.inl rfl)) []).bind fun _ =>
      (walkOption_runs none fun n hn => hc n (.inr (.inr hn))).bind fun _ => .pure _
  | some cs =>
    exact (Runs.inBlock (fun k hk => ho k (.inl (.inr hk)))
      (hc consequent (.inr (.inl rfl)))).bind fun _ =>
      (walkElse_runs cs.2 (fun k hk => ho k (.inr hk))
        fun n hn => hc n (.inr (.inr hn))).bind fun _ => .pure _

end Constructs

/-- The walk of a node visits only keys of the node. -/
theorem walk_runs (n : Node) (hk : ∀ k ∈ n.keys, visited k) (given : List (Option Counter)) :
    Runs ctx visited (n.walk ctx given) := by
  induction n using induction_children generalizing given with
  | step n ih =>
    rw [keys_eq] at hk
    have ho : ∀ k ∈ n.ownKeys, visited k := fun k h => hk k (List.mem_append_left _ h)
    have hc : ∀ m ∈ n.children, ∀ given, Runs ctx visited (m.walk ctx given) :=
      fun m hm => ih m hm fun k h => hk k (List.mem_append_right _ (List.mem_flatMap.mpr ⟨m,hm,h⟩))
    have hm : ∀ m ∈ n.children, ∀ k ∈ m.ownKeys, visited k := fun m hm k h => by
      refine hk k (List.mem_append_right _ (List.mem_flatMap.mpr ⟨m,hm,?_⟩))
      rw [keys_eq]
      exact List.mem_append_left _ h
    clear ih hk
    cases n with
    | plain head parts => exact (walkParts_runs hc).bind fun _ => .pure _
    | paren s inner =>
      exact .passing (Or.inr (ho _ List.mem_cons_self))
        ((hc inner List.mem_cons_self given).bind fun _ => .pure _)
    | logical => exact walk_logical_runs ho hc given
    | conditional s test consequent alternate =>
      have htest := hc test (by simp [children]) []
      have hconsequent := hc consequent (by simp [children]) []
      have halternate := hc alternate (by simp [children]) []
      refine .visiting (Or.inr (ho _ List.mem_cons_self)) (.coverConditional s _ _) fun counters => ?_
      exact htest.bind fun _ => (hconsequent.behind? _).bind fun _ =>
        (halternate.behind? _).bind fun _ => .pure _
    | function => exact walk_function_runs ho hm hc given
    | defaulted form s target value =>
      refine .visiting (Or.inr (ho _ List.mem_cons_self)) (.coverDefault s value) fun counter => ?_
      exact (hc target List.mem_cons_self []).bind fun _ =>
        (walkOption_runs counter fun n hn => hc n (List.mem_cons_of_mem _ hn)).bind fun _ => .pure _
    | classDeclaration s data name before heritage after =>
      simp only [children,List.mem_append,List.mem_cons] at hc
      have hname := hc name (.inl (.inl (.inl rfl))) []
      have hbefore := walkParts_runs fun n hn => hc n (.inl (.inl (.inr hn)))
      have hheritage := fun counted => walkHeritage_runs counted fun n hn => hc n (.inl (.inr hn))
      have hafter := walkParts_runs fun n hn => hc n (.inr hn)
      refine .visiting (Or.inr (ho _ List.mem_cons_self)) (.pure true) fun counted => ?_
      exact hname.bind fun _ => hbefore.bind fun _ => (hheritage counted).bind fun _ =>
        hafter.bind fun _ => .pure _
    | expression s inner =>
      exact .visiting (Or.inr (ho _ List.mem_cons_self)) (.coverStatement _ s) fun _ =>
        (hc inner List.mem_cons_self []).bind fun _ => .pure _
    | simple form s parts =>
      exact .visiting (Or.inr (ho _ List.mem_cons_self)) (.coverStatement _ s) fun _ =>
        (walkParts_runs hc).bind fun _ => .pure _
    | compound => exact walk_compound_runs ho hm hc given
    | ifElse => exact walk_ifElse_runs ho hm hc given
    | switch s discriminant cases =>
      refine .visiting (Or.inr (ho _ List.mem_cons_self)) (.coverSwitch s) fun _ => ?_
      exact (hc discriminant List.mem_cons_self []).bind fun _ =>
        (walkCases_runs _ (fun c h => ho _ (List.mem_cons_of_mem _ (List.mem_map.mpr ⟨c,h,rfl⟩)))
          fun n hn => hc n (List.mem_cons_of_mem _ hn)).bind fun _ => .pure _
    | bindings s data declarators =>
      refine Runs.takeHoist.bind fun hoistable => .passing (Or.inr (ho _ List.mem_cons_self)) ?_
      exact (walkDeclarators_runs hoistable
        (fun d h => ho _ (List.mem_cons_of_mem _ (List.mem_map.mpr ⟨d,h,rfl⟩))) hc).bind
          fun _ => .pure _
    | block s statements =>
      exact .passing (Or.inr (ho _ List.mem_cons_self)) ((Runs.counterItem _).bind fun _ =>
        (walkItems_runs hc).bind fun _ => .pure _)
    | exported s declaration =>
      exact (hc declaration List.mem_cons_self []).bind fun _ => .pure _
    | namespaceBlock s items => exact (walkItems_runs hc).bind fun _ => .pure _

end Node
end CoverageCounters
