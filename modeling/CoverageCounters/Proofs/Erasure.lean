import CoverageCounters.Proofs.Instrumented
import CoverageCounters.Proofs.Rebuild
import CoverageCounters.Proofs.WalkRun

/-!
Erasing the counters of an instrumented program gives the program back, up to the shapes that make
room for counters. The walk only ever queues counters of the file, so what a list gains in front of
its items is erased again; what stands behind a counter or inside a new block is the walked node.
-/

namespace CoverageCounters

namespace Node

variable {name : String}

/-- What is left of a node without its counters, in the shape that has room for them. -/
def restore (name : String) (n : Node) : Node := (n.erase name).normalize

def restoreItems (name : String) (items : List Node) : List Node :=
  ((items.map (erase name)).filter fun n => !n.isCounter name).map normalize

@[simp] theorem erase_node (c : Counter) : (c.node name).erase name = c.node name := by
  cases c <;> rfl

@[simp] theorem erase_statementNode (c : Counter) :
    (c.statementNode name).erase name = c.statementNode name := by
  cases c <;> rfl

theorem erase_after (c : Counter) (n : Node) :
    (Build.after (c.node name) n).erase name = n.erase name := by
  change withoutCounter name (.paren .dummy (.plain ⟨.sequenceExpression,.dummy,[]⟩
    [.children "expressions" [(c.node name).erase name,n.erase name]])) = n.erase name
  rw [erase_node]
  simp [withoutCounter,afterCounter?]

theorem root?_ne_of_mentions {n : Node} (h : n.mentions name = false) : n.root? ≠ some name := by
  intro hr
  rw [mentions_of_root? hr] at h
  cases h

/-- What a statement without the name becomes is no counter. -/
theorem isCounter_of_normalize {m n : Node} (h : m.normalize = n.normalize)
    (hn : n.mentions name = false) : m.isCounter name = false := by
  rw [Bool.eq_false_iff]
  intro hm
  obtain ⟨c,rfl⟩ := isCounter_iff.mp hm
  cases n with
  | expression s e =>
    have he : (c.node name).normalize = e.normalize := (expression.inj h).2
    have hr : e.root? = some name := by
      rw [← root?_normalize,← he,root?_normalize,root?_node]
    exact root?_ne_of_mentions (mentions_of_mem_children hn List.mem_cons_self) hr
  | _ => cases h

/-- Parentheses that stand around a node without the name hold no counter. -/
theorem afterCounter?_of_normalize {s : Span} {m n : Node} (h : m.normalize = n.normalize)
    (hn : n.mentions name = false) : (paren s m).afterCounter? name = none := by
  unfold afterCounter?
  split
  · rename_i s' form place field c e hp
    cases hp
    split
    · rename_i hc
      obtain ⟨-,-,-,-,hc⟩ := hc
      obtain ⟨c',hc⟩ := Option.isSome_iff_exists.mp hc
      rw [Counter.ofNode?_eq_some_iff] at hc
      cases n with
      | plain head parts =>
        obtain ⟨-,hp⟩ := plain.inj h
        cases parts with
        | nil => cases hp
        | cons p rest =>
          cases p with
          | child => cases hp
          | children field' nodes =>
            cases nodes with
            | nil => cases hp
            | cons x more =>
              have hx : c.normalize = x.normalize :=
                (List.cons.inj (Part.children.inj (List.cons.inj hp).1).2).1
              have hr : x.root? = some name := by
                rw [← root?_normalize,← hx,root?_normalize,hc,root?_node]
              have hm : x ∈ (plain head (.children field' (x :: more) :: rest)).children := by
                simp [children,Part.nodes]
              exact absurd hr (root?_ne_of_mentions (mentions_of_mem_children hn hm))
      | _ => cases h
    · rfl
  · rfl

theorem restoreItems_append (items rest : List Node) :
    restoreItems name (items ++ rest) = restoreItems name items ++ restoreItems name rest := by
  simp [restoreItems]

theorem restoreItems_counters {items : List Node} (h : ∀ n ∈ items, n.isCounter name = true) :
    restoreItems name items = [] := by
  have hf : (items.map (erase name)).filter (fun n => !n.isCounter name) = [] := by
    rw [List.filter_eq_nil_iff]
    intro m hm
    obtain ⟨n,hn,rfl⟩ := List.mem_map.mp hm
    obtain ⟨c,rfl⟩ := isCounter_iff.mp (h n hn)
    simp
  rw [restoreItems,hf]
  rfl

theorem restoreItems_cons {m n : Node} (rest : List Node) (h : m.restore name = n.normalize)
    (hn : n.mentions name = false) :
    restoreItems name (m :: rest) = n.normalize :: restoreItems name rest := by
  have hc : (m.erase name).isCounter name = false := isCounter_of_normalize h hn
  rw [restoreItems,List.map_cons,List.filter_cons,hc]
  exact congrArg (· :: restoreItems name rest) h

theorem restoreItems_counterItems (ctx : Context) (c : Option Counter) :
    restoreItems ctx.identifier (Walk.placed (Walk.counterItems ctx c)) = [] := by
  apply restoreItems_counters
  intro n hn
  cases c with
  | none => cases hn
  | some c =>
    rw [List.mem_singleton.mp hn]
    exact isCounter_statementNode _ c

theorem restore_block (s : Span) (statements : List Node) :
    (block s statements).restore name = .block s (restoreItems name statements) := by
  change block s (rebuildNodes .normal
    (List.filter _ (rebuildNodes (.erasing name) statements))) = _
  rw [rebuildNodes_eq_map,rebuildNodes_eq_map]
  rfl

end Node

namespace Traversal

variable {ctx : Context} {key : Key} {t u : Traversal}

/-- Only counters of the file are queued. -/
def QueuesCounters (ctx : Context) (t : Traversal) : Prop :=
  ∀ frame ∈ t.frames, ∀ n ∈ frame, n.isCounter ctx.identifier = true

theorem Acts.queuesCounters {marked : Key → Prop} (h : Acts ctx key marked t u)
    (ht : t.QueuesCounters ctx) : u.QueuesCounters ctx := by
  induction h with
  | refl => exact ht
  | register _ _ ih => exact ih
  | skip _ _ ih => exact ih
  | branch _ _ ih => exact ih
  | queue _ hf ih =>
    intro frame hframe n hn
    rw [QueuesCounters,hf] at ih
    rcases List.mem_cons.mp hframe with rfl | hframe
    · rcases List.mem_append.mp hn with hn | hn
      · exact ih _ List.mem_cons_self n hn
      · rw [List.mem_singleton.mp hn]
        exact Node.isCounter_statementNode _ _
    · exact ih frame (List.mem_cons_of_mem _ hframe) n hn

theorem Attempts.queuesCounters {visited : Key → Prop} (h : Attempts ctx visited key t u)
    (ht : t.QueuesCounters ctx) : u.QueuesCounters ctx := by
  cases h with
  | idle => exact ht
  | done _ h => exact h.queuesCounters ht
  | failed _ h e => exact h.queuesCounters ht

end Traversal

namespace Walk

variable {α β : Type} {ctx : Context} {Q : β → Prop}

/-- A walk that starts with only counters queued ends so, with an answer in `Q`. -/
def Gives (ctx : Context) (w : Walk α) (Q : α → Prop) : Prop :=
  ∀ t, t.QueuesCounters ctx → (w.run t).2.QueuesCounters ctx ∧ Q (w.run t).1

namespace Gives

theorem pure {b : β} (h : Q b) : Gives ctx (Pure.pure b) Q := fun _ ht => ⟨ht,h⟩

theorem mono {w : Walk β} {P : β → Prop} (hw : Gives ctx w P) (h : ∀ b, P b → Q b) :
    Gives ctx w Q :=
  fun t ht => ⟨(hw t ht).1,h _ (hw t ht).2⟩

theorem bind {w : Walk α} {f : α → Walk β} {P : α → Prop} (hw : Gives ctx w P)
    (hf : ∀ a, P a → Gives ctx (f a) Q) : Gives ctx (w >>= f) Q := by
  intro t ht
  obtain ⟨hu,ha⟩ := hw t ht
  exact hf _ ha _ hu

theorem visiting {key : Key} {label : Option String} {action : Action α} {idle : α}
    {inside : α → Walk β} (ha : Action.Acting ctx key (Traversal.Within fun _ => True) action)
    (hi : ∀ a, Gives ctx (inside a) Q) :
    Gives ctx (visiting ctx key label action idle inside) Q := by
  intro t ht
  have he : (t.enter ctx key label).QueuesCounters ctx := ht
  have hu := (Runs.attempts ha idle (t.enter ctx key label)).queuesCounters he
  exact hi _ _ hu

theorem passing {key : Key} {inside : Walk β} (h : Gives ctx inside Q) :
    Gives ctx (passing ctx key inside) Q :=
  visiting (.pure ()) fun _ => h

theorem withChain {walk : Walk β} (inChain : Bool) (h : Gives ctx walk Q) :
    Gives ctx (withChain inChain walk) Q :=
  fun t ht => h { t with inChain } ht

theorem takeHoist : Gives ctx takeHoist fun _ => True := fun _ ht => ⟨ht,trivial⟩

theorem asItem {walk : Walk Node} {declares : Bool} {P : Node → Prop} (h : Gives ctx walk P) :
    Gives ctx (asItem declares walk) fun item =>
      (∀ n ∈ item.1, n.isCounter ctx.identifier = true) ∧ P item.2 := by
  intro t ht
  have hp : Traversal.QueuesCounters ctx { t with frames := [] :: t.frames, hoist := declares } := by
    intro frame hf n hn
    rcases List.mem_cons.mp hf with rfl | hf
    · cases hn
    · exact ht frame hf n hn
  obtain ⟨hu,hn⟩ := h _ hp
  refine ⟨fun frame hf => hu frame (List.mem_of_mem_tail hf),fun n hm => ?_,hn⟩
  cases hfr : (walk.run { t with frames := [] :: t.frames, hoist := declares }).2.frames with
  | nil =>
    change n ∈ (walk.run _).2.frames.headD [] at hm
    rw [hfr] at hm
    cases hm
  | cons frame rest =>
    change n ∈ (walk.run _).2.frames.headD [] at hm
    rw [hfr] at hm
    exact hu frame (by rw [hfr]; exact List.mem_cons_self) n hm

/-- A counter that is walked as an item is erased again. -/
theorem counterItem (c : Option Counter) : Gives ctx (counterItem ctx c) fun first =>
    Node.restoreItems ctx.identifier (placed first) = [] := by
  intro t ht
  rw [fst_run_counterItem]
  refine ⟨?_,Node.restoreItems_counterItems ctx c⟩
  cases c with
  | none => exact ht
  | some c =>
    rw [run_counterItem]
    exact ht

section Restoring

variable {n : Node} {walk : Walk Node}

abbrev Restores (ctx : Context) (walk : Walk Node) (n : Node) : Prop :=
  Gives ctx walk fun m => m.restore ctx.identifier = n.normalize

theorem behind (c : Counter) (h : Restores ctx walk n) : Restores ctx (behind ctx c walk) n :=
  passing (h.bind fun m hm => .pure (by rw [Node.restore,Node.erase_after]; exact hm))

theorem behind? (c : Option Counter) (h : Restores ctx walk n) :
    Restores ctx (behind? ctx c walk) n := by
  cases c with
  | none => exact h
  | some c => exact behind c h

theorem operand {counters : List (Option Counter)} {walk : List (Option Counter) → Walk Node}
    (h : ∀ c, Restores ctx (walk c) n) : Restores ctx (operand ctx n counters walk) n := by
  unfold Walk.operand
  split
  · exact h counters
  · exact withChain false (behind? _ (h []))

/-- A body that is walked as a block restores to the block it becomes. -/
theorem inBlock (c : Option Counter) (hn : n.mentions ctx.identifier = false)
    {walk : List (Option Counter) → Walk Node} (h : ∀ given, Restores ctx (walk given) n) :
    Gives ctx (inBlock ctx c n walk) fun m =>
      m.restore ctx.identifier = n.normalize.asBlock := by
  unfold Walk.inBlock
  by_cases hb : n.isBlock = true
  · rw [if_pos hb]
    refine (h [c]).mono fun m hm => ?_
    rw [hm,Node.asBlock_of_isBlock (n.isBlock_normalize.trans hb)]
  · rw [if_neg hb]
    refine passing ((counterItem c).bind fun first hf => (asItem (h [])).bind fun item hi => .pure ?_)
    have hb' : ¬n.normalize.isBlock = true := by rwa [Node.isBlock_normalize]
    rw [Node.restore_block,placed_append,Node.restoreItems_append,hf,placed_cons,
      Node.restoreItems_append,Node.restoreItems_counters hi.1,Node.restoreItems_cons _ hi.2 hn,
      Node.asBlock_of_not_isBlock hb',Node.span_normalize]
    rfl

theorem asBody (counted : Bool) (hn : n.mentions ctx.identifier = false)
    {walk : List (Option Counter) → Walk Node} (h : ∀ given, Restores ctx (walk given) n) :
    Gives ctx (asBody ctx counted n walk) fun m =>
      (m.restore ctx.identifier).asBlock = n.normalize.asBlock := by
  unfold Walk.asBody
  split
  · exact (inBlock none hn h).mono fun m hm => by rw [hm,Node.asBlock_asBlock]
  · exact (h []).mono fun m hm => congrArg Node.asBlock hm

theorem inParens (wanted : Bool) (hn : n.mentions ctx.identifier = false)
    (h : Restores ctx walk n) :
    Gives ctx (inParens ctx wanted n walk) fun m =>
      (m.restore ctx.identifier).asParen = n.normalize.asParen := by
  unfold Walk.inParens
  split
  · rename_i hw
    refine passing (h.bind fun m hm => .pure ?_)
    have he : (Build.paren m).erase ctx.identifier = .paren .dummy (m.erase ctx.identifier) := by
      change Node.withoutCounter _ (.paren .dummy (m.erase ctx.identifier)) = _
      rw [Node.withoutCounter,Node.afterCounter?_of_normalize hm hn]
      rfl
    have hp : n.normalize.isParen = false := by simp_all
    rw [Node.restore,he]
    change (Build.paren (m.restore ctx.identifier)).asParen = _
    rw [hm,Node.asParen,Node.asParen,hp]
    rfl
  · exact h.mono fun m hm => congrArg Node.asParen hm

/-- The value of an arrow restores to the block that returns it. -/
theorem asReturn (c : Counter) (hn : n.mentions ctx.identifier = false) (h : Restores ctx walk n) :
    Gives ctx (asReturn ctx c n.span walk) fun b =>
      rebuildBody .normal (rebuildBody (.erasing ctx.identifier) b) =
        rebuildBody .normal (.value n) := by
  let back : Node := .simple .return n.span [.child "argument" n]
  have hb : back.mentions ctx.identifier = false := by
    rw [Node.mentions_eq]
    simp [back,Node.identifierName?,Node.children,Part.nodes,hn]
  have hr : Restores ctx (Walk.visiting ctx ⟨.return,n.span⟩ none
      (Action.coverStatement ctx .return n.span) () fun _ => do
        return .simple .return n.span [.child "argument" (← walk)]) back := by
    refine visiting (.coverStatement _ _) fun _ => h.bind fun m hm => .pure ?_
    change Node.simple .return n.span [.child "argument" (m.restore ctx.identifier)] =
      Node.simple .return n.span [.child "argument" n.normalize]
    rw [hm]
  refine passing ((counterItem (some c)).bind fun first hf =>
    (asItem hr).bind fun item hi => .pure ?_)
  have hs : Node.restoreItems ctx.identifier (placed (first ++ [item])) = [back.normalize] := by
    rw [placed_append,Node.restoreItems_append,hf,placed_cons,Node.restoreItems_append,
      Node.restoreItems_counters hi.1,Node.restoreItems_cons _ hi.2 hb]
    rfl
  change Body.block n.span (rebuildNodes .normal (List.filter _ (rebuildNodes _ _))) =
    Body.block n.normalize.span [.simple .return n.normalize.span [.child "argument" n.normalize]]
  rw [rebuildNodes_eq_map,rebuildNodes_eq_map,Node.span_normalize]
  exact congrArg (Body.block n.span) hs

end Restoring
end Gives
end Walk

section Lists

open Walk

variable {ctx : Context}

theorem walkNodes_restores {nodes : List Node}
    (h : ∀ n ∈ nodes, ∀ given, Gives.Restores ctx (n.walk ctx given) n) :
    Gives ctx (walkNodes ctx nodes) fun ms =>
      ms.map (Node.restore ctx.identifier) = nodes.map Node.normalize := by
  induction nodes with
  | nil => exact .pure rfl
  | cons n rest ih =>
    rw [walkNodes]
    refine (h n List.mem_cons_self []).bind fun m hm => ?_
    refine (ih fun x hx => h x (List.mem_cons_of_mem _ hx)).bind fun ms hms => .pure ?_
    rw [List.map_cons,List.map_cons,hm,hms]

theorem walkPart_restores {p : Part}
    (h : ∀ n ∈ p.nodes, ∀ given, Gives.Restores ctx (n.walk ctx given) n) :
    Gives ctx (walkPart ctx p) fun q =>
      rebuildPart .normal (rebuildPart (.erasing ctx.identifier) q) = rebuildPart .normal p := by
  cases p with
  | child field n =>
    exact (h n (List.mem_singleton_self n) []).bind fun m hm =>
      .pure (congrArg (Part.child field) hm)
  | children field nodes =>
    refine (walkNodes_restores h).bind fun ms hms => .pure ?_
    change Part.children field (rebuildNodes .normal (rebuildNodes _ ms)) =
      Part.children field (rebuildNodes .normal nodes)
    rw [rebuildNodes_eq_map,rebuildNodes_eq_map,rebuildNodes_eq_map,List.map_map]
    exact congrArg (Part.children field) hms

theorem walkParts_restores {parts : List Part}
    (h : ∀ n ∈ parts.flatMap Part.nodes, ∀ given, Gives.Restores ctx (n.walk ctx given) n) :
    Gives ctx (walkParts ctx parts) fun qs =>
      rebuildParts .normal (rebuildParts (.erasing ctx.identifier) qs) =
        rebuildParts .normal parts := by
  induction parts with
  | nil => exact .pure rfl
  | cons p rest ih =>
    rw [List.flatMap_cons] at h
    rw [walkParts]
    refine (walkPart_restores fun n hn => h n (List.mem_append_left _ hn)).bind fun q hq => ?_
    refine (ih fun n hn => h n (List.mem_append_right _ hn)).bind fun qs hqs => .pure ?_
    rw [rebuildParts,rebuildParts,rebuildParts,hq,hqs]

theorem walkOption_restores (counter : Option Counter) {o : Option Node}
    (h : ∀ n ∈ o.toList, ∀ given, Gives.Restores ctx (n.walk ctx given) n) :
    Gives ctx (walkOption ctx counter o) fun m =>
      rebuildOption .normal (rebuildOption (.erasing ctx.identifier) m) =
        rebuildOption .normal o := by
  cases o with
  | none => exact .pure rfl
  | some n =>
    exact (Gives.behind? counter (h n (List.mem_singleton_self n) [])).bind fun m hm =>
      .pure (congrArg some hm)

/-- The `else` of a counted `if` restores to the block it becomes; a missing one is empty. -/
theorem walkElse_restores (counter : Option Counter) {o : Option Node}
    (hm : ∀ n ∈ o.toList, n.mentions ctx.identifier = false)
    (h : ∀ n ∈ o.toList, ∀ given, Gives.Restores ctx (n.walk ctx given) n) :
    Gives ctx (walkElse ctx counter o) fun m =>
      m.restore ctx.identifier =
        (((rebuildOption .normal o).map Node.asBlock).getD (.block .dummy [])) := by
  cases o with
  | none =>
    rw [walkElse]
    refine .passing ((Gives.counterItem counter).bind fun first hf => .pure ?_)
    rw [Node.restore_block,hf]
    rfl
  | some n =>
    have hn := List.mem_singleton_self n
    rw [walkElse]
    exact Gives.inBlock counter (hm n hn) (h n hn)

theorem walkHeritage_restores (counted : Bool) {o : Option Node}
    (hm : ∀ n ∈ o.toList, n.mentions ctx.identifier = false)
    (h : ∀ n ∈ o.toList, ∀ given, Gives.Restores ctx (n.walk ctx given) n) :
    Gives ctx (walkHeritage ctx counted o) fun m =>
      (rebuildOption .normal (rebuildOption (.erasing ctx.identifier) m)).map Node.asParen =
        (rebuildOption .normal o).map Node.asParen := by
  cases o with
  | none => exact .pure rfl
  | some n =>
    have hn := List.mem_singleton_self n
    exact (Gives.inParens counted (hm n hn) (h n hn [])).bind fun m hm =>
      .pure (congrArg some hm)

theorem walkItems_restores {items : List Node}
    (hm : ∀ n ∈ items, n.mentions ctx.identifier = false)
    (h : ∀ n ∈ items, ∀ given, Gives.Restores ctx (n.walk ctx given) n) :
    Gives ctx (walkItems ctx items) fun ms =>
      Node.restoreItems ctx.identifier (placed ms) = items.map Node.normalize := by
  induction items with
  | nil => exact .pure rfl
  | cons n rest ih =>
    rw [walkItems]
    refine (Gives.asItem (h n List.mem_cons_self [])).bind fun item hi => ?_
    refine (ih (fun x hx => hm x (List.mem_cons_of_mem _ hx))
      fun x hx => h x (List.mem_cons_of_mem _ hx)).bind fun ms hms => .pure ?_
    rw [placed_cons,Node.restoreItems_append,Node.restoreItems_counters hi.1,
      Node.restoreItems_cons _ hi.2 (hm n List.mem_cons_self),hms]
    rfl

theorem walkStatements_restores (counter : Option Counter) {statements : List Node}
    (hm : ∀ n ∈ statements, n.mentions ctx.identifier = false)
    (h : ∀ n ∈ statements, ∀ given, Gives.Restores ctx (n.walk ctx given) n) :
    Gives ctx (walkStatements ctx counter statements) fun ms =>
      Node.restoreItems ctx.identifier (placed ms) = statements.map Node.normalize := by
  have hfront := walkItems_restores (fun n hn => hm n ((List.takeWhile_sublist Node.isDirective).mem hn))
    fun n hn => h n ((List.takeWhile_sublist Node.isDirective).mem hn)
  have hback := walkItems_restores (fun n hn => hm n ((List.dropWhile_sublist Node.isDirective).mem hn))
    fun n hn => h n ((List.dropWhile_sublist Node.isDirective).mem hn)
  rw [walkStatements_eq]
  refine hfront.bind fun front hf => (Gives.counterItem counter).bind fun first hc =>
    hback.bind fun back hb => .pure ?_
  rw [placed_append,placed_append,Node.restoreItems_append,Node.restoreItems_append,hf,hc,hb,
    List.append_nil,← List.map_append,List.takeWhile_append_dropWhile]

theorem walkBody_restores (counter : Option Counter) {body : Body}
    (hm : ∀ n ∈ body.nodes, n.mentions ctx.identifier = false)
    (h : ∀ n ∈ body.nodes, ∀ given, Gives.Restores ctx (n.walk ctx given) n) :
    Gives ctx (walkBody ctx counter body) fun b =>
      rebuildBody .normal (rebuildBody (.erasing ctx.identifier) b) = rebuildBody .normal body := by
  cases body with
  | absent => exact .pure rfl
  | block s statements =>
    refine .passing ((walkStatements_restores counter hm h).bind fun ms hms => .pure ?_)
    change Body.block s (rebuildNodes .normal (List.filter _ (rebuildNodes _ _))) =
      Body.block s (rebuildNodes .normal statements)
    rw [rebuildNodes_eq_map,rebuildNodes_eq_map,rebuildNodes_eq_map]
    exact congrArg (Body.block s) hms
  | value e =>
    have he := h e (List.mem_singleton_self e) []
    cases counter with
    | none =>
      refine he.bind fun m hm => .pure ?_
      change Body.roomy (.value (m.restore ctx.identifier)) = Body.roomy (.value e.normalize)
      rw [hm]
    | some c => exact .asReturn c (hm e (List.mem_singleton_self e)) he

theorem walkCase_restores (switch : Key) {c : Case}
    (hm : ∀ n ∈ c.nodes, n.mentions ctx.identifier = false)
    (h : ∀ n ∈ c.nodes, ∀ given, Gives.Restores ctx (n.walk ctx given) n) :
    Gives ctx (walkCase ctx switch c) fun c' =>
      rebuildCase .normal (rebuildCase (.erasing ctx.identifier) c') = rebuildCase .normal c := by
  obtain ⟨s,test,consequent⟩ := c
  simp only [Case.nodes,List.mem_append] at h hm
  refine .visiting (.coverCase s switch) fun counter => ?_
  refine (walkOption_restores none fun n hn => h n (.inl hn)).bind fun test' ht => ?_
  refine (Gives.counterItem counter).bind fun first hf =>
    (walkItems_restores (fun n hn => hm n (.inr hn)) fun n hn => h n (.inr hn)).bind
      fun ms hms => .pure ?_
  have hi : Node.restoreItems ctx.identifier (placed (first ++ ms)) =
      consequent.map Node.normalize := by
    rw [placed_append,Node.restoreItems_append,hf,hms,List.nil_append]
  change Case.mk s (rebuildOption _ (rebuildOption _ test'))
    (rebuildNodes .normal (List.filter _ (rebuildNodes _ _))) =
    Case.mk s (rebuildOption _ test) (rebuildNodes .normal consequent)
  rw [ht,rebuildNodes_eq_map,rebuildNodes_eq_map,rebuildNodes_eq_map]
  exact congrArg (Case.mk s _) hi

theorem walkCases_restores (switch : Key) {cases : List Case}
    (hm : ∀ n ∈ cases.flatMap Case.nodes, n.mentions ctx.identifier = false)
    (h : ∀ n ∈ cases.flatMap Case.nodes, ∀ given, Gives.Restores ctx (n.walk ctx given) n) :
    Gives ctx (walkCases ctx switch cases) fun cs =>
      rebuildCases .normal (rebuildCases (.erasing ctx.identifier) cs) =
        rebuildCases .normal cases := by
  induction cases with
  | nil => exact .pure rfl
  | cons c rest ih =>
    simp only [List.flatMap_cons,List.mem_append] at h hm
    rw [walkCases]
    refine (walkCase_restores switch (fun n hn => hm n (.inl hn)) fun n hn => h n (.inl hn)).bind
      fun c' hc => ?_
    refine (ih (fun n hn => hm n (.inr hn)) fun n hn => h n (.inr hn)).bind fun cs hcs => .pure ?_
    rw [rebuildCases,rebuildCases,rebuildCases,hc,hcs]

theorem walkDeclarator_restores (hoistable : Bool) {d : Declarator}
    (h : ∀ n ∈ d.nodes, ∀ given, Gives.Restores ctx (n.walk ctx given) n) :
    Gives ctx (walkDeclarator ctx hoistable d) fun d' =>
      rebuildDeclarator .normal (rebuildDeclarator (.erasing ctx.identifier) d') =
        rebuildDeclarator .normal d := by
  obtain ⟨s,data,target,init⟩ := d
  refine .visiting (.coverInitializer hoistable init) fun counter => ?_
  refine (h target List.mem_cons_self []).bind fun target' ht => ?_
  refine (walkOption_restores counter fun n hn => h n (List.mem_cons_of_mem _ hn)).bind
    fun init' hi => .pure ?_
  change Declarator.mk s data (target'.restore ctx.identifier)
    (rebuildOption _ (rebuildOption _ init')) = Declarator.mk s data target.normalize _
  rw [ht,hi]

theorem walkDeclarators_restores (hoistable : Bool) {declarators : List Declarator}
    (h : ∀ n ∈ declarators.flatMap Declarator.nodes, ∀ given,
      Gives.Restores ctx (n.walk ctx given) n) :
    Gives ctx (walkDeclarators ctx hoistable declarators) fun ds =>
      rebuildDeclarators .normal (rebuildDeclarators (.erasing ctx.identifier) ds) =
        rebuildDeclarators .normal declarators := by
  induction declarators with
  | nil => exact .pure rfl
  | cons d rest ih =>
    simp only [List.flatMap_cons,List.mem_append] at h
    rw [walkDeclarators]
    refine (walkDeclarator_restores hoistable fun n hn => h n (.inl hn)).bind fun d' hd => ?_
    refine (ih fun n hn => h n (.inr hn)).bind fun ds hds => .pure ?_
    rw [rebuildDeclarators,rebuildDeclarators,rebuildDeclarators,hd,hds]

end Lists

namespace Node

open Walk

variable {ctx : Context}

section Constructs

variable {s : Span}

theorem walkChain_restores {operator : LogicalOperator} {left right : Node}
    (hc : ∀ m ∈ (logical s operator left right).children, ∀ given,
      Gives.Restores ctx (m.walk ctx given) m) (counters : List (Option Counter)) :
    Gives.Restores ctx (walkChain ctx s operator left right counters) (logical s operator left right) := by
  refine .withChain true ((Gives.operand (hc left (by simp [children]))).bind fun l hl => ?_)
  refine (Gives.operand (hc right (by simp [children]))).bind fun r hr => .pure ?_
  change logical s operator (l.restore _) (r.restore _) =
    logical s operator left.normalize right.normalize
  rw [hl,hr]

theorem walk_logical_restores {operator : LogicalOperator} {left right : Node}
    (hc : ∀ m ∈ (logical s operator left right).children, ∀ given,
      Gives.Restores ctx (m.walk ctx given) m) (given : List (Option Counter)) :
    Gives.Restores ctx ((logical s operator left right).walk ctx given) (logical s operator left right) := by
  intro t ht
  cases h : t.inChain with
  | false =>
    rw [run_walk_outermost h]
    exact Gives.visiting (.coverChain s left right) (walkChain_restores hc) t ht
  | true =>
    rw [run_walk_inChain h]
    exact Gives.visiting (.pure []) (fun _ => walkChain_restores hc given) t ht

theorem walk_function_restores {head : FunctionHead} {key : Option Node} {before : List Part}
    {body : Body} {after : List Part}
    (hm : ∀ m ∈ (function head key before body after).children, m.mentions ctx.identifier = false)
    (hc : ∀ m ∈ (function head key before body after).children, ∀ given,
      Gives.Restores ctx (m.walk ctx given) m) (given : List (Option Counter)) :
    Gives.Restores ctx ((function head key before body after).walk ctx given)
      (function head key before body after) := by
  simp only [children,List.mem_append] at hc hm
  refine .visiting (.coverFunction head key body fun _ _ _ _ => Or.inr trivial) fun counter => ?_
  refine (walkOption_restores none fun n hn => hc n (.inl (.inl (.inl hn)))).bind fun k hk => ?_
  refine (walkParts_restores fun n hn => hc n (.inl (.inl (.inr hn)))).bind fun x hx => ?_
  refine (walkBody_restores counter (fun n hn => hm n (.inl (.inr hn)))
    fun n hn => hc n (.inl (.inr hn))).bind fun b hb => ?_
  refine (walkParts_restores fun n hn => hc n (.inr hn)).bind fun y hy => .pure ?_
  change function head (rebuildOption _ (rebuildOption _ k)) (rebuildParts _ (rebuildParts _ x))
    (rebuildBody _ (rebuildBody _ b)) (rebuildParts _ (rebuildParts _ y)) = _
  rw [hk,hx,hb,hy]
  rfl

theorem walk_classDeclaration_restores {data : Attributes} {name : Node} {before : List Part}
    {heritage : Option Node} {after : List Part}
    (hm : ∀ m ∈ (classDeclaration s data name before heritage after).children,
      m.mentions ctx.identifier = false)
    (hc : ∀ m ∈ (classDeclaration s data name before heritage after).children, ∀ given,
      Gives.Restores ctx (m.walk ctx given) m) (given : List (Option Counter)) :
    Gives.Restores ctx ((classDeclaration s data name before heritage after).walk ctx given)
      (classDeclaration s data name before heritage after) := by
  simp only [children,List.mem_append,List.mem_cons] at hc hm
  refine .visiting (.pure true) fun counted => ?_
  refine (hc name (.inl (.inl (.inl rfl))) []).bind fun x hx => ?_
  refine (walkParts_restores fun n hn => hc n (.inl (.inl (.inr hn)))).bind fun y hy => ?_
  refine (walkHeritage_restores counted (fun n hn => hm n (.inl (.inr hn)))
    fun n hn => hc n (.inl (.inr hn))).bind fun z hz => ?_
  refine (walkParts_restores fun n hn => hc n (.inr hn)).bind fun w hw => .pure ?_
  change classDeclaration s data (x.restore _) (rebuildParts _ (rebuildParts _ y))
    ((rebuildOption _ (rebuildOption _ z)).map asParen) (rebuildParts _ (rebuildParts _ w)) = _
  rw [hx,hy,hz,hw]
  rfl

/-- The sides of an `if` that is counted are blocks then, and so they are in the shape with room. -/
theorem walk_ifElse_restores {test consequent : Node} {alternate : Option Node}
    (hm : ∀ m ∈ (ifElse s test consequent alternate).children, m.mentions ctx.identifier = false)
    (hc : ∀ m ∈ (ifElse s test consequent alternate).children, ∀ given,
      Gives.Restores ctx (m.walk ctx given) m) (given : List (Option Counter)) :
    Gives.Restores ctx ((ifElse s test consequent alternate).walk ctx given)
      (ifElse s test consequent alternate) := by
  simp only [children,List.mem_cons] at hc hm
  refine .visiting (.coverIf s (Or.inr trivial) (Or.inr trivial)) fun counters => ?_
  refine (hc test (.inl rfl) []).bind fun x hx => ?_
  cases counters with
  | none =>
    refine (hc consequent (.inr (.inl rfl)) []).bind fun y hy => ?_
    refine (walkOption_restores none fun n hn => hc n (.inr (.inr hn))).bind fun z hz => .pure ?_
    change ifElse s (x.restore _) (y.restore _).asBlock
      (some (((rebuildOption _ (rebuildOption _ z)).map asBlock).getD _)) = _
    rw [hx,hy,hz]
    rfl
  | some cs =>
    refine (Gives.inBlock cs.1 (hm consequent (.inr (.inl rfl)))
      (hc consequent (.inr (.inl rfl)))).bind fun y hy => ?_
    refine (walkElse_restores cs.2 (fun n hn => hm n (.inr (.inr hn)))
      fun n hn => hc n (.inr (.inr hn))).bind fun z hz => .pure ?_
    change ifElse s (x.restore _) (y.restore _).asBlock (some (z.restore _).asBlock) = _
    rw [hx,hy,hz,asBlock_asBlock]
    cases alternate with
    | none => rfl
    | some a => exact congrArg (fun b => ifElse s _ _ (some b)) (asBlock_asBlock _)

end Constructs

/-- The walk of a node that does not hold the file's name restores to the node. -/
theorem walk_restores (n : Node) (hn : n.mentions ctx.identifier = false)
    (given : List (Option Counter)) : Gives.Restores ctx (n.walk ctx given) n := by
  induction n using induction_children generalizing given with
  | step n ih =>
    have hm : ∀ m ∈ n.children, m.mentions ctx.identifier = false :=
      fun m h => mentions_of_mem_children hn h
    have hc : ∀ m ∈ n.children, ∀ given, Gives.Restores ctx (m.walk ctx given) m :=
      fun m h => ih m h (hm m h)
    clear ih
    cases n with
    | plain head parts =>
      exact (walkParts_restores hc).bind fun ps hps => .pure (congrArg (plain head) hps)
    | paren s inner =>
      refine .passing ((hc inner List.mem_cons_self given).bind fun m h => .pure ?_)
      have he : (paren s m).erase ctx.identifier = .paren s (m.erase ctx.identifier) := by
        change withoutCounter _ (.paren s (m.erase ctx.identifier)) = _
        rw [withoutCounter,afterCounter?_of_normalize h (hm inner List.mem_cons_self)]
        rfl
      rw [restore,he]
      exact congrArg (paren s) h
    | logical => exact walk_logical_restores hc given
    | conditional s test consequent alternate =>
      refine .visiting (.coverConditional s _ _) fun counters => ?_
      refine (hc test (by simp [children]) []).bind fun x hx => ?_
      refine (Gives.behind? _ (hc consequent (by simp [children]) [])).bind fun y hy => ?_
      refine (Gives.behind? _ (hc alternate (by simp [children]) [])).bind fun z hz => .pure ?_
      change conditional s (x.restore _) (y.restore _) (z.restore _) =
        conditional s test.normalize consequent.normalize alternate.normalize
      rw [hx,hy,hz]
    | function => exact walk_function_restores hm hc given
    | defaulted form s target value =>
      refine .visiting (.coverDefault s value) fun counter => ?_
      refine (hc target List.mem_cons_self []).bind fun x hx => ?_
      refine (walkOption_restores counter fun n hn => hc n (List.mem_cons_of_mem _ hn)).bind
        fun y hy => .pure ?_
      change defaulted form s (x.restore _) (rebuildOption _ (rebuildOption _ y)) = _
      rw [hx,hy]
      rfl
    | classDeclaration => exact walk_classDeclaration_restores hm hc given
    | expression s inner =>
      refine .visiting (.coverStatement _ s) fun _ => ?_
      exact (hc inner List.mem_cons_self []).bind fun m h => .pure (congrArg (expression s) h)
    | simple form s parts =>
      refine .visiting (.coverStatement _ s) fun _ => ?_
      exact (walkParts_restores hc).bind fun ps hps => .pure (congrArg (simple form s) hps)
    | compound form s data init head body =>
      simp only [children,List.mem_append,List.mem_singleton] at hc hm
      refine .visiting (.coverCompound form s fun _ _ => Or.inr trivial) fun counted => ?_
      refine (walkOption_restores none fun n hn => hc n (.inl (.inl hn))).bind fun x hx => ?_
      refine (walkParts_restores fun n hn => hc n (.inl (.inr hn))).bind fun y hy => ?_
      refine (Gives.asBody counted (hm body (.inr rfl)) (hc body (.inr rfl))).bind
        fun b hb => .pure ?_
      change compound form s data (rebuildOption _ (rebuildOption _ x))
        (rebuildParts _ (rebuildParts _ y)) (b.restore _).asBlock = _
      rw [hx,hy,hb]
      rfl
    | ifElse => exact walk_ifElse_restores hm hc given
    | switch s discriminant cases =>
      refine .visiting (.coverSwitch s) fun _ => ?_
      refine (hc discriminant List.mem_cons_self []).bind fun x hx => ?_
      refine (walkCases_restores _ (fun n hn => hm n (List.mem_cons_of_mem _ hn))
        fun n hn => hc n (List.mem_cons_of_mem _ hn)).bind fun cs hcs => .pure ?_
      change switch s (x.restore _) (rebuildCases _ (rebuildCases _ cs)) = _
      rw [hx,hcs]
      rfl
    | bindings s data declarators =>
      refine Gives.takeHoist.bind fun hoistable _ => .passing ?_
      exact (walkDeclarators_restores hoistable hc).bind fun ds hds =>
        .pure (congrArg (bindings s data) hds)
    | block s statements =>
      refine .passing ((Gives.counterItem _).bind fun first hf =>
        (walkItems_restores hm hc).bind fun ms hms => .pure ?_)
      rw [restore_block,placed_append,restoreItems_append,hf,hms,normalize,rebuild,
        rebuildNodes_eq_map]
      rfl
    | exported s declaration =>
      exact (hc declaration List.mem_cons_self []).bind fun m h => .pure (congrArg (exported s) h)
    | namespaceBlock s items =>
      refine (walkItems_restores hm hc).bind fun ms hms => .pure ?_
      change namespaceBlock s (rebuildNodes .normal (List.filter _ (rebuildNodes _ _))) =
        namespaceBlock s (rebuildNodes .normal items)
      rw [rebuildNodes_eq_map,rebuildNodes_eq_map,rebuildNodes_eq_map]
      exact congrArg (namespaceBlock s) hms

end Node

namespace Program

def erase (name : String) (p : Program) : Program :=
  { p with body := (p.body.map (Node.erase name)).filter fun n => !n.isCounter name }

/-- A program in which every construct has the shape with room for counters. -/
def normalize (p : Program) : Program := { p with body := p.body.map Node.normalize }

theorem normalize_erase_walk {ctx : Context} (coverage : CoverageMap) (p : Program)
    (h : p.mentions ctx.identifier = false) :
    ((p.walk ctx coverage).1.erase ctx.identifier).normalize = p.normalize := by
  have hm : ∀ n ∈ p.body, n.mentions ctx.identifier = false := mentions_eq_false_iff.mp h
  have hw := walkItems_restores hm fun n hn => n.walk_restores (hm n hn)
  have hq : Traversal.QueuesCounters ctx
      { Traversal.start coverage with marks := p.prologueMarks } := by
    intro frame hf
    cases hf
  have hb := (hw _ hq).2
  exact congrArg (fun body => { p with body }) hb

end Program

/-- Without its prelude and its counters an instrumented program is the program it was made from, up
to the shapes that make room for counters. -/
theorem normalize_erase_instrument {program : Program} {file : SourceFile} {options : Options}
    {batch : Batch} {o : Outcome} (h : (instrument program file options batch).outcome = .ok o)
    (hs : o.status = .instrumented)
    (hm : program.mentions (identifierOf file.path) = false) :
    ((((instrument program file options batch).program.withoutPrelude (identifierOf file.path)
      batch.claim.1.toList.length).erase (identifierOf file.path)).normalize) =
      program.normalize := by
  obtain ⟨-,-,hp⟩ := instrument_of_instrumented h hs
  rw [hp,withoutPrelude_prepend_prelude]
  exact program.normalize_erase_walk _ hm

theorem normalize_erase_instrument_sample :
    sampleProgram.mentions (identifierOf sampleFile.path) = false ∧
    ∃ o, (instrument sampleProgram sampleFile {} (.new none)).outcome = .ok o ∧
      o.status = .instrumented ∧
      ((((instrument sampleProgram sampleFile {} (.new none)).program.withoutPrelude
        (identifierOf sampleFile.path) 0).erase (identifierOf sampleFile.path)).normalize) =
        sampleProgram.normalize := by
  obtain ⟨o,h,hs⟩ := exists_instrumented_sample
  exact ⟨sampleProgram_mentions,o,h,hs,normalize_erase_instrument h hs sampleProgram_mentions⟩

end CoverageCounters
