import Mathlib.Data.List.TakeWhile
import CoverageCounters.Proofs.Located
import CoverageCounters.Proofs.Placed

/-!
Where the constructs of a program stand once it is walked. For each construct at which counting is on
there is a state from which it is walked, and the answer stands in the walked program: behind its queue in
a list if it is an item of one, anywhere if it is not. The tables that its walk leaves are kept to the
end, so what is looked up in the end is what that walk recorded.
-/

namespace CoverageCounters

open Walk Traversal

/-- The constructs located in a node stand in what the walk makes of it. -/
def Node.Standing (ctx : Context) (m : CoverageMap) (n : Node) : Prop :=
  ∀ (listed chain : Bool) (given : List (Option Counter)), (chain = true → n.isChain = true) →
    Shows ctx m (listed && n.declaresVariables) chain [] n.keys (n.walk ctx given) fun out =>
      n.leftOut ctx = false → ∀ site ∈ n.inside ctx, Stands ctx m site [out]

namespace Node

variable {ctx : Context} {m : CoverageMap} {n : Node}

theorem mem_located {listed : Bool} {site : Bool × Node} (h : site ∈ n.located ctx listed) :
    n.leftOut ctx = false ∧ (n.isBlock = false ∧ site = (listed,n) ∨ site ∈ n.inside ctx) := by
  rw [located_eq] at h
  split at h
  · cases h
  · rename_i hl
    refine ⟨Bool.eq_false_iff.mpr hl,(List.mem_append.mp h).imp (fun h => ?_) id⟩
    split at h
    · cases h
    · rename_i hb
      exact ⟨Bool.eq_false_iff.mpr hb,List.mem_singleton.mp h⟩

theorem mem_located_self {listed : Bool} (hl : n.leftOut ctx = false) (hb : n.isBlock = false) :
    (listed,n) ∈ n.located ctx listed := by
  simp [located_eq,hl,hb]

theorem mem_located_of_mem_roles {listed : Bool} {r site : Bool × Node} (hl : n.leftOut ctx = false)
    (hr : r ∈ n.roles ctx) (h : site ∈ r.2.located ctx r.1) : site ∈ n.located ctx listed := by
  rw [located_eq,if_neg (by simp [hl])]
  exact List.mem_append_right _ (List.mem_flatMap.mpr ⟨r,hr,h⟩)

/-- A construct that is no item stands where it is walked, before what is inside. -/
theorem Standing.part (h : n.Standing ctx m) {chain : Bool} (hc : chain = true → n.isChain = true)
    (given : List (Option Counter)) :
    Shows ctx m false chain [] n.keys (n.walk ctx given) fun out =>
      ∀ site ∈ n.located ctx false, Stands ctx m site [out] := by
  have hn := h false chain given hc
  refine ⟨hn.runs,hn.asked_subset,fun t ht hh hf hk site hs => ?_⟩
  obtain ⟨hl,⟨hb,rfl⟩ | hs⟩ := mem_located hs
  · exact .alone ⟨ht,hh,hl,hb,hf,hk⟩ (by simp [subnodes])
  · exact hn.shows t ht hh hf hk hl site hs

theorem Standing.alone (h : n.Standing ctx m) :
    Shows ctx m false false [] n.keys (n.walk ctx []) fun out =>
      ∀ site ∈ n.located ctx false, Stands ctx m site [out] :=
  h.part (fun hc => by cases hc) []

/-- An item of a list stands behind its queue. -/
theorem Standing.item (h : n.Standing ctx m) :
    Shows ctx m false false [] n.keys (asItem n.declaresVariables (n.walk ctx [])) fun item =>
      ∀ site ∈ n.located ctx true, StandsAt ctx m site item := by
  have hn := h true false [] nofun
  rw [Bool.true_and] at hn
  refine ⟨fun visited hk => .asItem _ (hn.runs visited hk),hn.asked_subset,
    fun t ht _ hf hk site hs => ?_⟩
  have hready := ht.asItem n.declaresVariables
  obtain ⟨hl,⟨hb,rfl⟩ | hs⟩ := mem_located hs
  · exact .inr ⟨rfl,_,t.frames,⟨hready,rfl,hl,hb,hf,hk⟩,rfl,List.infix_refl _⟩
  · exact .inl (hn.shows _ hready rfl hf hk hl site hs)

end Node

/-- The constructs located in some nodes that are no items stand in others. -/
def StandIn (ctx : Context) (m : CoverageMap) (nodes out : List Node) : Prop :=
  ∀ n ∈ nodes, ∀ site ∈ n.located ctx false, Stands ctx m site out

/-- The constructs located in the items of a list stand at items that were walked. -/
def StandAt (ctx : Context) (m : CoverageMap) (nodes : List Node) (items : List (List Node × Node)) :
    Prop :=
  ∀ n ∈ nodes, ∀ site ∈ n.located ctx true, ∃ item ∈ items, StandsAt ctx m site item

section Lists

variable {ctx : Context} {m : CoverageMap}

theorem StandIn.mono {nodes out out' : List Node} (h : StandIn ctx m nodes out) (hs : out ⊆ out') :
    StandIn ctx m nodes out' :=
  fun n hn site hsite => (h n hn site hsite).mono hs

theorem StandIn.append {nodes nodes' out : List Node} (h : StandIn ctx m nodes out)
    (h' : StandIn ctx m nodes' out) : StandIn ctx m (nodes ++ nodes') out :=
  fun n hn => (List.mem_append.mp hn).elim (h n) (h' n)

theorem walkNodes_shows {nodes : List Node} (h : ∀ n ∈ nodes, n.Standing ctx m) :
    Shows ctx m false false [] (nodes.flatMap Node.keys) (walkNodes ctx nodes) (StandIn ctx m nodes) := by
  induction nodes with
  | nil => exact .pure (List.forall_mem_nil _)
  | cons n rest ih =>
    rw [walkNodes,List.flatMap_cons]
    refine (h n List.mem_cons_self).alone.bind fun x =>
      (ih fun c hc => h c (List.mem_cons_of_mem _ hc)).map _ fun xs hxs hx => ?_
    refine List.forall_mem_cons.mpr ⟨fun site hs => ?_,?_⟩
    · exact (hx site hs).mono (by simp)
    · exact hxs.mono (List.subset_cons_self _ _)

theorem walkPart_shows {p : Part} (h : ∀ n ∈ p.nodes, n.Standing ctx m) :
    Shows ctx m false false [] (p.nodes.flatMap Node.keys) (walkPart ctx p)
      fun out => StandIn ctx m p.nodes out.nodes := by
  cases p with
  | child field n =>
    simp only [Part.nodes,List.flatMap_cons,List.flatMap_nil,List.append_nil]
    exact (h n (List.mem_singleton_self n)).alone.map _ fun x hx =>
      List.forall_mem_singleton.mpr hx
  | children field nodes => exact (walkNodes_shows h).map _ fun _ hxs => hxs

theorem walkParts_shows {parts : List Part} (h : ∀ n ∈ parts.flatMap Part.nodes, n.Standing ctx m) :
    Shows ctx m false false [] ((parts.flatMap Part.nodes).flatMap Node.keys) (walkParts ctx parts)
      fun out => StandIn ctx m (parts.flatMap Part.nodes) (out.flatMap Part.nodes) := by
  induction parts with
  | nil => exact .pure (List.forall_mem_nil _)
  | cons p rest ih =>
    rw [List.flatMap_cons] at h
    rw [walkParts,List.flatMap_cons,List.flatMap_append]
    refine (walkPart_shows fun n hn => h n (List.mem_append_left _ hn)).bind fun x =>
      (ih fun n hn => h n (List.mem_append_right _ hn)).map _ fun xs hxs hx => ?_
    exact (hx.mono (List.subset_append_left _ _)).append (hxs.mono (List.subset_append_right _ _))

theorem walkOption_shows (counter : Option Counter) {o : Option Node}
    (h : ∀ n ∈ o.toList, n.Standing ctx m) :
    Shows ctx m false false [] (o.toList.flatMap Node.keys) (walkOption ctx counter o)
      fun out => StandIn ctx m o.toList out.toList := by
  cases o with
  | none => exact .pure (List.forall_mem_nil _)
  | some n =>
    simp only [Option.toList,List.flatMap_cons,List.flatMap_nil,List.append_nil]
    exact ((h n (List.mem_singleton_self n)).alone.behind? counter).map _ fun x hx =>
      List.forall_mem_singleton.mpr hx

theorem walkHeritage_shows (counted : Bool) {o : Option Node} (h : ∀ n ∈ o.toList, n.Standing ctx m) :
    Shows ctx m false false [] (o.toList.flatMap Node.keys) (walkHeritage ctx counted o)
      fun out => StandIn ctx m o.toList out.toList := by
  cases o with
  | none => exact .pure (List.forall_mem_nil _)
  | some n =>
    simp only [Option.toList,List.flatMap_cons,List.flatMap_nil,List.append_nil]
    exact ((h n (List.mem_singleton_self n)).alone.inParens counted n).map _ fun x hx =>
      List.forall_mem_singleton.mpr hx

/-- The init clause of a loop is asked to be left out, if it can be. -/
theorem walkInit_shows {init : Option Node} (h : ∀ n ∈ init.toList, n.Standing ctx m) :
    Shows ctx m false false (init.bind Action.initKey?).toList (init.toList.flatMap Node.keys)
      (walkOption ctx none init) fun out =>
        StandIn ctx m (init.toList.filter fun n => (Action.initKey? n).isNone) out.toList := by
  have ho := walkOption_shows none h
  cases init with
  | none => exact ho
  | some n =>
    cases hk : Action.initKey? n with
    | none => simpa [hk] using ho
    | some key =>
      have hm : key ∈ (some n).toList.flatMap Node.keys :=
        List.mem_flatMap.mpr ⟨n,List.mem_singleton_self n,
          Node.mem_keys_of_mem_ownKeys (Node.mem_ownKeys_of_initKey? hk)⟩
      simpa [hk,StandIn] using ho.asking true hm

theorem walkItems_shows (prologue : Bool) {items : List Node} (h : ∀ n ∈ items, n.Standing ctx m) :
    Shows ctx m false false (if prologue then Action.directiveKeys items else [])
      (items.flatMap Node.keys) (walkItems ctx items)
      (StandAt ctx m (if prologue then items.dropWhile Node.isDirective else items)) := by
  induction items generalizing prologue with
  | nil => cases prologue <;> exact .pure (List.forall_mem_nil _)
  | cons n rest ih =>
    have hnodes : (if prologue then (n :: rest).dropWhile Node.isDirective else n :: rest) =
        (if prologue && n.isDirective then [] else [n]) ++
          if prologue && n.isDirective then rest.dropWhile Node.isDirective else rest := by
      cases prologue <;> cases hd : n.isDirective <;> simp [hd]
    have hitem : Shows ctx m false false
        (if prologue && n.isDirective then [⟨.expressionStatement,n.span⟩] else []) n.keys
        (asItem n.declaresVariables (n.walk ctx [])) fun item => (prologue && n.isDirective) = false →
          ∀ site ∈ n.located ctx true, StandsAt ctx m site item := by
      cases hd : prologue && n.isDirective with
      | false => exact (h n List.mem_cons_self).item.mono fun _ hx _ => hx
      | true =>
        exact (h n List.mem_cons_self).item.asking true (Node.mem_keys_of_mem_ownKeys
          (Node.mem_ownKeys_of_isDirective (Bool.and_eq_true_iff.mp hd).2))
    rw [walkItems,List.flatMap_cons,asked_cons,hnodes]
    refine hitem.bind fun x => (ih _ fun c hc => h c (List.mem_cons_of_mem _ hc)).map _ fun xs hxs hx => ?_
    intro c hc site hs
    rcases List.mem_append.mp hc with hc | hc
    · split at hc
      · cases hc
      · rename_i hd
        rw [List.mem_singleton.mp hc] at hs
        exact ⟨x,List.mem_cons_self,hx (Bool.eq_false_iff.mpr hd) site hs⟩
    · obtain ⟨item,hi,hat⟩ := hxs c hc site hs
      exact ⟨item,List.mem_cons_of_mem _ hi,hat⟩

theorem walkStatements_shows (counter : Option Counter) {statements : List Node}
    (h : ∀ n ∈ statements, n.Standing ctx m) :
    Shows ctx m false false (Action.directiveKeys statements) (statements.flatMap Node.keys)
      (walkStatements ctx counter statements)
      (StandAt ctx m (statements.dropWhile Node.isDirective)) := by
  have hfront := walkItems_shows true fun n hn => h n ((List.takeWhile_sublist Node.isDirective).mem hn)
  have hback := walkItems_shows false fun n hn => h n ((List.dropWhile_sublist Node.isDirective).mem hn)
  rw [if_neg Bool.false_ne_true,if_neg Bool.false_ne_true] at hback
  have hasked : Action.directiveKeys (statements.takeWhile Node.isDirective) ++ [] =
      Action.directiveKeys statements := by
    rw [List.append_nil,Action.directiveKeys,Action.directiveKeys,List.takeWhile_idem]
  have hkeys : (statements.takeWhile Node.isDirective).flatMap Node.keys ++
      (statements.dropWhile Node.isDirective).flatMap Node.keys = statements.flatMap Node.keys := by
    rw [← List.flatMap_append,List.takeWhile_append_dropWhile]
  rw [walkStatements_eq,← hasked,← hkeys]
  refine hfront.bind fun front => .afterCounter counter fun first => hback.map _ fun back hback _ => ?_
  exact fun n hn site hsite =>
    (hback n hn site hsite).imp fun _ hi => ⟨List.mem_append_right _ hi.1,hi.2⟩

theorem inBlock_shows (c : Option Counter) {n : Node} (h : n.Standing ctx m) :
    Shows ctx m false false [] (n.blockKeys ++ n.keys) (inBlock ctx c n fun given => n.walk ctx given)
      fun out => ∀ r ∈ ctx.bodyRoles n, ∀ site ∈ r.2.located ctx r.1, Stands ctx m site [out] := by
  unfold Walk.inBlock
  rw [Node.blockKeys,Context.bodyRoles,Context.keptBody]
  cases hb : n.isBlock with
  | true =>
    rw [if_pos rfl,if_pos rfl]
    have hc : false = true → n.isChain = true := fun hf => absurd hf Bool.false_ne_true
    refine (h.part hc [c]).mono fun out (hout : ∀ site ∈ n.located ctx false, _) r hr site hs => ?_
    have hr : r = (false,n) := by simpa [hb] using hr
    subst hr
    exact hout site hs
  | false =>
    have hitem : Shows ctx m false false [] n.keys (Walk.counterItem ctx c >>= fun first =>
        asItem n.declaresVariables (n.walk ctx []) >>= fun item =>
          pure (.block n.span (placed (first ++ [item]))))
        fun out => ∀ site ∈ n.located ctx true, Stands ctx m site [out] := by
      refine .afterCounter c fun first => h.item.map _ fun item hi site hs => ?_
      exact ((hi site hs).among (List.mem_append_right first (List.mem_singleton_self item))).stands
        (List.mem_singleton_self _) (List.Subset.refl _)
    refine (hitem.passing List.not_mem_nil).mono fun out hout r hr => ?_
    obtain ⟨x,hx,rfl⟩ := List.mem_map.mp hr
    split at hx
    · cases hx
    · rename_i hl
      obtain rfl := List.mem_singleton.mp hx
      rw [hb]
      exact hout (by simpa using hl)

/-- A side of an `if`; a hint asks to leave it out. -/
theorem side_shows (asked : Bool) (counter : Option Counter) {n : Node} (h : n.Standing ctx m) :
    Shows ctx m false false (if asked then [⟨.block,n.span⟩] else []) (n.blockKeys ++ n.keys)
      (inBlock ctx counter n fun given => n.walk ctx given) fun out => ∀ r ∈ (if asked then [] else ctx.bodyRoles n),
        ∀ site ∈ r.2.located ctx r.1, Stands ctx m site [out] := by
  refine ((inBlock_shows counter h).asking asked n.mem_keys_body).mono fun out hout => ?_
  cases asked with
  | true => exact List.forall_mem_nil _
  | false => exact hout rfl

theorem walkElse_shows (asked : Bool) (counter : Option Counter) {o : Option Node}
    (h : ∀ n ∈ o.toList, n.Standing ctx m) :
    Shows ctx m false false (if asked then o.toList.map fun n => ⟨.block,n.span⟩ else [])
      (o.toList.flatMap fun n => n.blockKeys ++ n.keys) (walkElse ctx counter o) fun out =>
        ∀ r ∈ (if asked then [] else o.toList.flatMap ctx.bodyRoles), ∀ site ∈ r.2.located ctx r.1,
          Stands ctx m site [out] := by
  cases o with
  | none =>
    simp only [Option.toList,List.map_nil,List.flatMap_nil,ite_self]
    exact .passing_dummy (.afterCounter counter fun _ => .pure (List.forall_mem_nil _))
  | some n =>
    have hside := side_shows asked counter (h n (List.mem_singleton_self n))
    rw [walkElse]
    simpa using hside

/-- The value of an arrow is walked in a block that returns it. -/
theorem asReturn_shows (c : Counter) {e : Node} (hs : e.span.isDummy = false) (h : e.Standing ctx m) :
    Shows ctx m false false [] (⟨.block,e.span⟩ :: ⟨.return,e.span⟩ :: e.keys)
      (asReturn ctx c e.span (e.walk ctx [])) fun body =>
        ctx.leavesOut e.span none = false → ∀ site ∈ e.located ctx false, Stands ctx m site body.nodes := by
  have hi : Shows ctx m false false [] e.keys
      (e.walk ctx [] >>= fun x => pure (Node.simple .return e.span [.child "argument" x]))
      fun out => ∀ site ∈ e.located ctx false, Stands ctx m site [out] :=
    h.alone.map _ fun x hx site hs => (hx site hs).within (List.Subset.refl _)
  have hreturn : Shows ctx m false false [] (⟨.return,e.span⟩ :: e.keys)
      (visiting ctx ⟨.return,e.span⟩ none (Action.coverStatement ctx .return e.span) () fun _ => do
        return .simple .return e.span [.child "argument" (← e.walk ctx [])])
      fun out => ctx.leavesOut e.span none = false → ∀ site ∈ e.located ctx false, Stands ctx m site [out] :=
    .visiting (fun _ => .coverStatement _ _) hs (fun t x u hr => (Action.coverStatement_notes hr).asked)
      fun _ => hi
  have hblock : Shows ctx m false false [] (⟨.return,e.span⟩ :: e.keys)
      (Walk.counterItem ctx (some c) >>= fun first => asItem false _ >>= fun item =>
        pure (Body.block e.span (placed (first ++ [item])))) fun body =>
        ctx.leavesOut e.span none = false → ∀ site ∈ e.located ctx false, Stands ctx m site body.nodes :=
    .afterCounter (some c) fun first => hreturn.asItem.map _ fun item hitem hl site hs =>
      (hitem hl site hs).mono (by simp [Body.nodes])
  exact (hblock.passing List.not_mem_nil).mono fun body hb hl => hb hl hl

theorem walkBody_shows {counter : Option Counter} {body : Body}
    (hcounter : counter.isSome = (Action.bodyContent? body).isSome)
    (hs : ∀ p ∈ Action.bodyContent? body, p.1.isDummy = false)
    (h : ∀ n ∈ body.nodes, n.Standing ctx m) :
    Shows ctx m false false ((Action.bodyContent? body).toList.flatMap fun c => Action.directiveKeys c.2)
      (body.keys ++ body.nodes.flatMap Node.keys) (walkBody ctx counter body) fun out =>
        ∀ r ∈ body.roles ctx, ∀ site ∈ r.2.located ctx r.1, ∀ head key before after,
          Stands ctx m site [.function head key before out after] := by
  cases body with
  | absent => exact .pure (List.forall_mem_nil _)
  | block s statements =>
    have hk : ⟨.block,s⟩ ∉ Action.directiveKeys statements := by simp [Action.directiveKeys]
    have hi : Shows ctx m false false (Action.directiveKeys statements) (statements.flatMap Node.keys)
        (walkStatements ctx counter statements >>= fun items =>
          pure (Body.block s (placed items))) fun out =>
        ∀ n ∈ statements.dropWhile Node.isDirective, ∀ site ∈ n.located ctx true,
          ∀ head key before after, Stands ctx m site [.function head key before out after] := by
      refine (walkStatements_shows counter h).map _
        fun items hitems n hn site hsite head key before after => ?_
      obtain ⟨item,hm,hat⟩ := hitems n hn site hsite
      exact (hat.among hm).stands (List.mem_singleton_self _)
        fun x hx => List.mem_append_left _ (List.mem_append_right _ hx)
    have hasked : ((Action.bodyContent? (.block s statements)).toList.flatMap fun c =>
        Action.directiveKeys c.2) = Action.directiveKeys statements := List.append_nil _
    rw [hasked,walkBody]
    refine (hi.passing hk).mono fun out hout r hr => ?_
    obtain ⟨n,hn,rfl⟩ := List.mem_map.mp hr
    unfold Context.keptNodes at hn
    split at hn
    · cases hn
    · rename_i hl
      exact hout (Bool.eq_false_iff.mpr hl) n hn
  | value e =>
    obtain ⟨c,rfl⟩ := Option.isSome_iff_exists.mp hcounter
    have he := asReturn_shows c (hs (e.span,[]) rfl) (h e (List.mem_singleton_self e))
    have hkeys : (Body.value e).keys ++ (Body.value e).nodes.flatMap Node.keys =
        ⟨.block,e.span⟩ :: ⟨.return,e.span⟩ :: e.keys := by
      simp [Body.keys,Body.nodes]
    rw [hkeys,walkBody]
    refine he.mono fun out hout r hr site hsite head key before after => ?_
    obtain ⟨n,hn,rfl⟩ := List.mem_map.mp hr
    unfold Context.keptNodes at hn
    split at hn
    · cases hn
    · rename_i hl
      obtain rfl := List.mem_singleton.mp hn
      exact (hout (Bool.eq_false_iff.mpr hl) site hsite).within
        fun x hx => List.mem_append_left _ (List.mem_append_right _ hx)

theorem walkDeclarator_shows (hoistable : Bool) {d : Declarator} (hs : d.span.isDummy = false)
    (h : ∀ n ∈ d.nodes, n.Standing ctx m) :
    Shows ctx m false false [] (⟨.variableDeclarator,d.span⟩ :: d.nodes.flatMap Node.keys)
      (walkDeclarator ctx hoistable d) fun out => StandIn ctx m (ctx.keptNodes d.span d.nodes) out.nodes := by
  obtain ⟨s,data,target,init⟩ := d
  have hi (counter : Option Counter) : Shows ctx m false false [] ((target :: init.toList).flatMap Node.keys)
      (do
        let target ← target.walk ctx []
        let init ← walkOption ctx counter init
        return Declarator.mk s data target init)
      fun out => StandIn ctx m (target :: init.toList) out.nodes := by
    rw [List.flatMap_cons]
    refine (h target List.mem_cons_self).alone.bind fun x =>
      (walkOption_shows counter fun n hn => h n (List.mem_cons_of_mem _ hn)).map _ fun y hy hx => ?_
    refine List.forall_mem_cons.mpr ⟨fun site hs => ?_,hy.mono (List.subset_cons_self _ _)⟩
    exact (hx site hs).mono (by simp [Declarator.nodes])
  refine Shows.mono (.visiting (fun _ => .coverInitializer hoistable init) hs
    (fun t x u hr => (Action.coverInitializer_notes hr).asked) hi) fun out hout => ?_
  change StandIn ctx m (ctx.keptNodes s (target :: init.toList)) out.nodes
  unfold Context.keptNodes
  split
  · exact List.forall_mem_nil _
  · rename_i hl
    exact hout (Bool.eq_false_iff.mpr hl)

theorem walkDeclarators_shows (hoistable : Bool) {declarators : List Declarator}
    (hs : ∀ d ∈ declarators, d.span.isDummy = false)
    (h : ∀ n ∈ declarators.flatMap Declarator.nodes, n.Standing ctx m) :
    Shows ctx m false false []
      (declarators.flatMap fun d => ⟨.variableDeclarator,d.span⟩ :: d.nodes.flatMap Node.keys)
      (walkDeclarators ctx hoistable declarators) fun out =>
        StandIn ctx m (declarators.flatMap fun d => ctx.keptNodes d.span d.nodes)
          (out.flatMap Declarator.nodes) := by
  induction declarators with
  | nil => exact .pure (List.forall_mem_nil _)
  | cons d rest ih =>
    simp only [List.flatMap_cons,List.mem_append] at h
    rw [walkDeclarators,List.flatMap_cons,List.flatMap_cons]
    refine (walkDeclarator_shows hoistable (hs d List.mem_cons_self) fun n hn => h n (.inl hn)).bind fun x =>
      (ih (fun e he => hs e (List.mem_cons_of_mem _ he)) fun n hn => h n (.inr hn)).map _ fun xs hxs hx => ?_
    exact (hx.mono (List.subset_append_left _ _)).append (hxs.mono (List.subset_append_right _ _))

/-- The constructs located in a case stand in every switch that has the walked case. -/
theorem walkCase_shows (switch : Key) {c : Case} (hs : c.span.isDummy = false)
    (h : ∀ n ∈ c.nodes, n.Standing ctx m) :
    Shows ctx m false false [] (⟨.switchCase,c.span⟩ :: c.nodes.flatMap Node.keys)
      (walkCase ctx switch c) fun out => ∀ r ∈ c.roles ctx, ∀ site ∈ r.2.located ctx r.1,
        ∀ s discriminant cases, out ∈ cases → Stands ctx m site [.switch s discriminant cases] := by
  obtain ⟨s,test,consequent⟩ := c
  have hi (counter : Option Counter) : Shows ctx m false false []
      ((test.toList ++ consequent).flatMap Node.keys) (do
        let test ← walkOption ctx none test
        let first ← counterItem ctx counter
        let items ← walkItems ctx consequent
        return Case.mk s test (placed (first ++ items)))
      fun out => (∀ n ∈ test.toList, ∀ site ∈ n.located ctx false, ∀ s discriminant cases, out ∈ cases →
          Stands ctx m site [.switch s discriminant cases]) ∧
        ∀ n ∈ consequent, ∀ site ∈ n.located ctx true, ∀ s discriminant cases, out ∈ cases →
          Stands ctx m site [.switch s discriminant cases] := by
    rw [List.flatMap_append]
    refine (walkOption_shows none fun n hn => h n (List.mem_append_left _ hn)).bind fun x =>
      .afterCounter counter fun first =>
        (walkItems_shows false fun n hn => h n (List.mem_append_right _ hn)).map _
          fun items hitems hx => ?_
    refine ⟨fun n hn site hsite r discriminant cases hm => ?_,
      fun n hn site hsite r discriminant cases hm => ?_⟩
    · refine (hx n hn site hsite).within fun y hy => ?_
      exact List.mem_cons_of_mem _ (List.mem_flatMap.mpr ⟨_,hm,List.mem_append_left _ hy⟩)
    · obtain ⟨item,hi,hat⟩ := hitems n hn site hsite
      refine (hat.among (List.mem_append_right first hi)).stands
        (List.mem_map.mpr ⟨_,hm,rfl⟩) fun y hy => ?_
      exact List.mem_cons_of_mem _ (List.mem_flatMap.mpr ⟨_,hm,List.mem_append_right _ hy⟩)
  refine Shows.mono (.visiting (fun _ => .coverCase s switch) hs
    (fun t x u hr => .of_eq (Action.coverCase_notes hr).1) hi) fun out hout r hr => ?_
  simp only [Case.roles,Context.keptNodes,List.mem_append,List.mem_map] at hr
  cases hl : ctx.leavesOut s none with
  | true => simp [hl] at hr
  | false =>
    simp only [hl,Bool.false_eq_true,if_false] at hr
    rcases hr with ⟨n,hn,rfl⟩ | ⟨n,hn,rfl⟩
    · exact (hout hl).1 n hn
    · exact (hout hl).2 n hn

theorem walkCases_shows (switch : Key) {cases : List Case} (hs : ∀ c ∈ cases, c.span.isDummy = false)
    (h : ∀ n ∈ cases.flatMap Case.nodes, n.Standing ctx m) :
    Shows ctx m false false [] (cases.flatMap fun c => ⟨.switchCase,c.span⟩ :: c.nodes.flatMap Node.keys)
      (walkCases ctx switch cases) fun out => ∀ r ∈ cases.flatMap (Case.roles ctx),
        ∀ site ∈ r.2.located ctx r.1, ∀ s discriminant all, out ⊆ all →
          Stands ctx m site [.switch s discriminant all] := by
  induction cases with
  | nil => exact .pure (List.forall_mem_nil _)
  | cons c rest ih =>
    simp only [List.flatMap_cons,List.mem_append] at h
    rw [walkCases,List.flatMap_cons,List.flatMap_cons]
    refine (walkCase_shows switch (hs c List.mem_cons_self) fun n hn => h n (.inl hn)).bind fun x =>
      (ih (fun e he => hs e (List.mem_cons_of_mem _ he)) fun n hn => h n (.inr hn)).map _ fun xs hxs hx => ?_
    intro r hr site hsite s discriminant all hall
    rcases List.mem_append.mp hr with hr | hr
    · exact hx r hr site hsite s discriminant all (hall List.mem_cons_self)
    · exact hxs r hr site hsite s discriminant all fun y hy => hall (List.mem_cons_of_mem _ hy)

end Lists

namespace Node

variable {ctx : Context} {m : CoverageMap} {n : Node}

/-- A construct that is no part of a chain and declares no variables. -/
theorem standing_alone (hn : n.isChain = false) (hd : n.declaresVariables = false)
    (h : ∀ given, Shows ctx m false false [] n.keys (n.walk ctx given) fun out =>
      n.leftOut ctx = false → ∀ site ∈ n.inside ctx, Stands ctx m site [out]) : n.Standing ctx m := by
  intro listed chain given hc
  cases chain with
  | false =>
    rw [hd,Bool.and_false]
    exact h given
  | true =>
    rw [hn] at hc
    cases hc rfl

/-- A construct that is visited, with what is inside, for each outcome that its action can have. -/
theorem standing_visiting {α γ : Type} {key : Key} {name : Option String} {action : Action α} {idle : α}
    {inside : α → Walk Node} {keys asked : List Key} (outcome : γ → α)
    (hw : ∀ given, n.walk ctx given = visiting ctx key name action idle inside)
    (hi : ∀ y, Shows ctx m false false asked keys (inside (outcome y)) fun out =>
      ∀ site ∈ n.inside ctx, Stands ctx m site [out])
    (hn : n.isChain = false) (hd : n.declaresVariables = false)
    (hleft : n.leftOut ctx = ctx.leavesOut key.span name)
    (hkeys : ∀ k, (key :: keys).count k ≤ n.keys.count k) (hk : key.span.isDummy = false)
    (hm : Action.Acting ctx key (Within fun _ => True) action)
    (hr : ∀ x, Runs ctx (fun _ => True) (inside x))
    (hdone : ∀ t x u, action.run.run t = (.ok x,u) → Asked asked t u ∧ ∃ y, outcome y = x) :
    n.Standing ctx m := by
  refine standing_alone hn hd fun given => ⟨fun visited hv => n.walk_runs hv given,nofun,
    fun t ht hh hf hkeep hl => ?_⟩
  rw [hw] at hf hkeep ⊢
  have hinside : ∀ x, (∃ y, outcome y = x) → Shows ctx m false false asked keys (inside x) fun out =>
      ∀ site ∈ n.inside ctx, Stands ctx m site [out] := by
    rintro _ ⟨y,rfl⟩
    exact hi y
  exact Shows.shown_visiting _ hm hr hk hdone hinside (ht.of_count_le hkeys) hh hf hkeep
    (hleft.symm.trans hl)

/-- A construct that is visited and whose action asks for nothing. -/
theorem standing_visiting_plain {α : Type} {key : Key} {name : Option String} {action : Action α} {idle : α}
    {inside : α → Walk Node} {keys : List Key}
    (hw : ∀ given, n.walk ctx given = visiting ctx key name action idle inside)
    (hi : ∀ x, Shows ctx m false false [] keys (inside x) fun out =>
      ∀ site ∈ n.inside ctx, Stands ctx m site [out])
    (hn : n.isChain = false) (hd : n.declaresVariables = false)
    (hleft : n.leftOut ctx = ctx.leavesOut key.span name)
    (hkeys : ∀ k, (key :: keys).count k ≤ n.keys.count k) (hk : key.span.isDummy = false)
    (hm : ∀ visited, Action.Acting ctx key (Within visited) action)
    (hdone : ∀ t x u, action.run.run t = (.ok x,u) → Asked [] t u) : n.Standing ctx m :=
  standing_visiting id hw hi hn hd hleft hkeys hk (hm _) (fun x => (hi x).runs _ fun _ _ => trivial)
    fun t x u h => ⟨hdone t x u h,x,rfl⟩

/-- A construct that is passed through, with what is inside. -/
theorem standing_passing {key : Key} {inside : List (Option Counter) → Walk Node} {keys : List Key}
    (hw : ∀ given, n.walk ctx given = passing ctx key (inside given))
    (hi : ∀ given, Shows ctx m false false [] keys (inside given) fun out =>
      ∀ site ∈ n.inside ctx, Stands ctx m site [out])
    (hn : n.isChain = false) (hd : n.declaresVariables = false)
    (hleft : n.leftOut ctx = ctx.leavesOut key.span none)
    (hkeys : ∀ k, (key :: keys).count k ≤ n.keys.count k) : n.Standing ctx m := by
  refine standing_alone hn hd fun given => ?_
  rw [hw,hleft]
  exact ((hi given).passing List.not_mem_nil).of_count_le hkeys

/-- The children of a construct that has no items stand where the answer has them. -/
theorem StandIn.inside {out : Node} {nodes : List Node} (h : StandIn ctx m (n.kept ctx) nodes)
    (hr : n.roles ctx = (n.kept ctx).map (false,·)) (hn : nodes ⊆ out.children) :
    ∀ site ∈ n.inside ctx, Stands ctx m site [out] := by
  intro site hs
  rw [Node.inside,hr,List.flatMap_map] at hs
  obtain ⟨c,hc,hs⟩ := List.mem_flatMap.mp hs
  exact (h c hc site hs).within hn

theorem paren_standing {s : Span} {inner : Node} (h : inner.Standing ctx m) :
    (paren s inner).Standing ctx m := by
  have hk : (paren s inner).keys = ⟨.parenthesized,s⟩ :: inner.keys := by
    simp [keys_eq (paren s inner),ownKeys,children]
  intro listed chain given hc
  rw [hk,show (listed && (paren s inner).declaresVariables) = false from Bool.and_false _]
  refine ((h.part hc given).map (paren s) fun x hx => ?_).passing List.not_mem_nil
  exact StandIn.inside (List.forall_mem_singleton.mpr hx) rfl (List.Subset.refl _)

theorem plain_standing {head : Head} {parts : List Part}
    (hc : ∀ c ∈ (plain head parts).children, c.Standing ctx m) : (plain head parts).Standing ctx m := by
  refine standing_alone rfl rfl fun given => ?_
  rw [keys_eq (plain head parts)]
  exact (walkParts_shows hc).map (plain head) fun xs hxs _ => StandIn.inside hxs rfl (List.Subset.refl _)

theorem logical_standing {s : Span} {operator : LogicalOperator} {left right : Node}
    (hs : s.isDummy = false) (hc : ∀ c ∈ [left,right], c.Standing ctx m) :
    (logical s operator left right).Standing ctx m := by
  have hk : (logical s operator left right).keys = ⟨.logical,s⟩ :: (left.keys ++ right.keys) := by
    simp [keys_eq (logical s operator left right),ownKeys,children]
  have hoperand {n : Node} (hn : n ∈ [left,right]) (counters : List (Option Counter)) :
      Shows ctx m false true [] n.keys (operand ctx n counters fun c => n.walk ctx c) fun out =>
        ∀ site ∈ n.located ctx false, Stands ctx m site [out] :=
    .operand fun c => (hc n hn).part id c
  have hi (chain : Bool) (counters : List (Option Counter)) :
      Shows ctx m false chain [] (left.keys ++ right.keys) (walkChain ctx s operator left right counters)
        fun out => ∀ site ∈ (logical s operator left right).inside ctx, Stands ctx m site [out] := by
    refine .withChain true ((hoperand List.mem_cons_self _).bind fun x =>
      (hoperand (List.mem_cons_of_mem _ List.mem_cons_self) _).map (logical s operator x) fun y hy hx => ?_)
    have hin : StandIn ctx m [left,right] [x,y] := by
      refine List.forall_mem_cons.mpr ⟨fun site hs => ?_,List.forall_mem_singleton.mpr fun site hs => ?_⟩
      · exact (hx site hs).mono (by simp)
      · exact (hy site hs).mono (by simp)
    exact StandIn.inside hin rfl (List.Subset.refl _)
  intro listed chain given _
  have hr (visited : Key → Prop) (hv : ∀ k ∈ (logical s operator left right).keys, visited k) :
      Runs ctx visited ((logical s operator left right).walk ctx given) := walk_runs _ hv given
  rw [show (listed && (logical s operator left right).declaresVariables) = false from Bool.and_false _]
  rw [hk] at hr ⊢
  -- an outermost expression counts the chain, and a part of it is given the counters
  cases chain with
  | false =>
    refine Shows.of_run_eq ?_ hr fun t ht => run_walk_outermost ht
    exact .visiting (fun _ => .coverChain s left right) hs
      (fun t x u h => (Action.coverChain_notes h).asked) (hi false)
  | true =>
    refine Shows.of_run_eq ?_ hr fun t ht => run_walk_inChain ht
    refine .visiting (fun _ => .pure []) hs (fun t x u h => ?_) fun _ => hi true given
    cases h
    exact .of_eq rfl

theorem conditional_standing {s : Span} {test consequent alternate : Node} (hs : s.isDummy = false)
    (hc : ∀ c ∈ [test,consequent,alternate], c.Standing ctx m) :
    (conditional s test consequent alternate).Standing ctx m := by
  have htest := (hc test (by simp)).alone
  have hconsequent := (hc consequent (by simp)).alone
  have halternate := (hc alternate (by simp)).alone
  refine standing_visiting_plain (fun _ => rfl) (fun counters => htest.bind fun x =>
    (hconsequent.behind? counters.1).bind fun y =>
      (halternate.behind? counters.2).map (conditional s x y) fun z hz hy hx => ?_) rfl rfl rfl
    (fun k => ?_) hs (fun _ => .coverConditional s _ _)
    fun t x u h => (Action.coverConditional_notes h).asked
  · have hin : StandIn ctx m [test,consequent,alternate] [x,y,z] := by
      refine List.forall_mem_cons.mpr ⟨fun site hs => (hx site hs).mono (by simp),?_⟩
      refine List.forall_mem_cons.mpr ⟨fun site hs => (hy site hs).mono (by simp),?_⟩
      exact List.forall_mem_singleton.mpr fun site hs => (hz site hs).mono (by simp)
    exact StandIn.inside hin rfl (List.Subset.refl _)
  · simp [keys_eq (conditional s test consequent alternate),ownKeys,children]

theorem function_standing {head : FunctionHead} {key : Option Node} {before : List Part} {body : Body}
    {after : List Part} (hs : (head.recordedSpan key).isDummy = false)
    (hbody : ∀ p ∈ Action.bodyContent? body, p.1.isDummy = false)
    (hc : ∀ c ∈ (function head key before body after).children, c.Standing ctx m) :
    (function head key before body after).Standing ctx m := by
  simp only [children,List.mem_append] at hc
  have hkey := walkOption_shows none fun n hn => hc n (.inl (.inl (.inl hn)))
  have hbefore := walkParts_shows fun n hn => hc n (.inl (.inl (.inr hn)))
  have hbodies {counter : Option Counter} (hx : counter.isSome = (Action.bodyContent? body).isSome) :=
    walkBody_shows hx hbody fun n hn => hc n (.inl (.inr hn))
  have hafter := walkParts_shows fun n hn => hc n (.inr hn)
  refine standing_visiting
    (Subtype.val (p := fun x : Option Counter => x.isSome = (Action.bodyContent? body).isSome))
    (fun _ => rfl) (fun x => hkey.bind fun k => hbefore.bind fun b => (hbodies x.property).bind fun y =>
      hafter.map (function head k b y) fun z hz hy hb hk => ?_) rfl rfl rfl
    (count_keys_function head key before body after) hs
    (.coverFunction head key body fun _ _ _ _ => Or.inr trivial) (function_runs head key before body after)
    fun t x u h => ?_
  · intro site hsite
    obtain ⟨r,hr,hsite⟩ := List.mem_flatMap.mp hsite
    simp only [roles,List.map_append,List.mem_append,List.mem_map] at hr
    rcases hr with ((⟨c,hc,rfl⟩ | ⟨c,hc,rfl⟩) | hr) | ⟨c,hc,rfl⟩
    · exact (hk c hc site hsite).within fun w hw => by simp [children,hw]
    · exact (hb c hc site hsite).within fun w hw => by
        simp only [children,List.mem_append]
        exact .inl (.inl (.inr hw))
    · exact hy r hr site hsite head k b z
    · exact (hz c hc site hsite).within fun w hw => List.mem_append_right _ hw
  · obtain ⟨hn,hx⟩ := Action.coverFunction_notes hs h
    refine ⟨?_,⟨x,hx⟩,rfl⟩
    simpa using hn.asked

theorem defaulted_standing {form : DefaultForm} {s : Span} {target : Node} {value : Option Node}
    (hs : s.isDummy = false) (hc : ∀ c ∈ target :: value.toList, c.Standing ctx m) :
    (defaulted form s target value).Standing ctx m := by
  have htarget := (hc target List.mem_cons_self).alone
  have hvalue (counter : Option Counter) :=
    walkOption_shows counter fun n hn => hc n (List.mem_cons_of_mem _ hn)
  refine standing_visiting_plain (fun _ => rfl) (fun counter => htarget.bind fun x =>
    (hvalue counter).map (defaulted form s x) fun y hy hx => ?_) rfl rfl rfl (fun k => ?_) hs
    (fun _ => .coverDefault s value) fun t x u h => (Action.coverDefault_notes h).asked
  · have hin : StandIn ctx m (target :: value.toList) (x :: y.toList) := by
      refine List.forall_mem_cons.mpr ⟨fun site hs => (hx site hs).mono (by simp),?_⟩
      exact StandIn.mono hy (List.subset_cons_self _ _)
    exact StandIn.inside hin rfl (List.Subset.refl _)
  · rw [keys_eq (defaulted form s target value)]
    exact Nat.le_refl _

theorem classDeclaration_standing {s : Span} {data : List (String × Json)} {name : Node}
    {before : List Part} {heritage : Option Node} {after : List Part} (hs : s.isDummy = false)
    (hc : ∀ c ∈ (classDeclaration s data name before heritage after).children, c.Standing ctx m) :
    (classDeclaration s data name before heritage after).Standing ctx m := by
  simp only [children,List.mem_append,List.mem_cons] at hc
  have hname := (hc name (.inl (.inl (.inl rfl)))).alone
  have hbefore := walkParts_shows fun n hn => hc n (.inl (.inl (.inr hn)))
  have hheritage (counted : Bool) := walkHeritage_shows counted fun n hn => hc n (.inl (.inr hn))
  have hafter := walkParts_shows fun n hn => hc n (.inr hn)
  refine standing_visiting_plain (fun _ => rfl) (fun counted => hname.bind fun x => hbefore.bind fun y =>
    (hheritage counted).bind fun z => hafter.map (classDeclaration s data x y z) fun w hw hz hy hx => ?_)
    rfl rfl rfl (fun k => ?_) hs (fun _ => .pure true) fun t x u h => ?_
  · have hin : StandIn ctx m (name :: before.flatMap Part.nodes ++ heritage.toList ++ after.flatMap Part.nodes)
        (x :: y.flatMap Part.nodes ++ z.toList ++ w.flatMap Part.nodes) := by
      refine StandIn.append (StandIn.append (List.forall_mem_cons.mpr ⟨fun site hs => ?_,?_⟩) ?_) ?_
      · exact (hx site hs).mono (by simp)
      · exact StandIn.mono hy fun v hv => by simp [hv]
      · exact StandIn.mono hz fun v hv => by simp [hv]
      · exact StandIn.mono hw (List.subset_append_right _ _)
    exact StandIn.inside hin rfl (List.Subset.refl _)
  · simp [keys_eq (classDeclaration s data name before heritage after),ownKeys,children]
  · cases h
    exact .of_eq rfl

theorem expression_standing {s : Span} {inner : Node} (hs : s.isDummy = false)
    (hc : inner.Standing ctx m) : (expression s inner).Standing ctx m := by
  refine standing_visiting_plain (fun _ => rfl) (fun _ => hc.alone.map (expression s) fun x hx => ?_)
    rfl rfl rfl (fun k => ?_) hs (fun _ => .coverStatement _ s)
    fun t x u h => (Action.coverStatement_notes h).asked
  · exact StandIn.inside (List.forall_mem_singleton.mpr hx) rfl (List.Subset.refl _)
  · simp [keys_eq (expression s inner),ownKeys,children]

theorem simple_standing {form : SimpleForm} {s : Span} {parts : List Part} (hs : s.isDummy = false)
    (hc : ∀ c ∈ (simple form s parts).children, c.Standing ctx m) : (simple form s parts).Standing ctx m := by
  refine standing_visiting_plain (fun _ => rfl) (fun _ => (walkParts_shows hc).map (simple form s)
    fun xs hxs => ?_) rfl rfl rfl (fun k => ?_) hs (fun _ => .coverStatement _ s)
    fun t x u h => (Action.coverStatement_notes h).asked
  · exact StandIn.inside hxs rfl (List.Subset.refl _)
  · rw [keys_eq (simple form s parts)]
    exact Nat.le_refl _

theorem compound_standing {form : CompoundForm} {s : Span} {data : List (String × Json)}
    {init : Option Node} {head : List Part} {body : Node} (hs : s.isDummy = false)
    (hc : ∀ c ∈ (compound form s data init head body).children, c.Standing ctx m) :
    (compound form s data init head body).Standing ctx m := by
  simp only [children,List.mem_append,List.mem_singleton] at hc
  have hinit := walkInit_shows fun n hn => hc n (.inl (.inl hn))
  have hhead := walkParts_shows fun n hn => hc n (.inl (.inr hn))
  have hbody := inBlock_shows none (hc body (.inr rfl))
  refine standing_visiting (fun _ : Unit => true) (fun _ => rfl) (fun _ => hinit.bind fun i =>
    hhead.bind fun h => hbody.map (compound form s data i h) fun b hb hh hi => ?_) rfl rfl rfl
    (fun k => ?_) hs (.coverCompound form s fun _ _ => Or.inr trivial) (fun counted => ?_) fun t x u h => ?_
  · intro site hsite
    obtain ⟨r,hr,hsite⟩ := List.mem_flatMap.mp hsite
    simp only [roles,List.map_append,List.mem_append,List.mem_map] at hr
    rcases hr with (⟨c,hc,rfl⟩ | ⟨c,hc,rfl⟩) | hr
    · exact (hi c hc site hsite).within fun w hw => by simp [children,hw]
    · exact (hh c hc site hsite).within fun w hw =>
        List.mem_append_left _ (List.mem_append_right _ hw)
    · exact (hb r hr site hsite).within (List.subset_append_right _ _)
  · exact count_keys_compound form s data init head body k
  · exact (walkOption_runs none fun m _ => m.walk_runs_true).bind fun _ =>
      (walkParts_runs fun m _ => m.walk_runs_true).bind fun _ =>
        (Runs.asBody (fun _ _ => trivial) body.walk_runs_true).bind fun _ => .pure _
  · obtain ⟨hn,rfl⟩ := Action.coverCompound_notes h
    refine ⟨?_,(),rfl⟩
    simpa using hn.asked

theorem ifElse_standing {s : Span} {test consequent : Node} {alternate : Option Node}
    (hs : s.isDummy = false) (hc : ∀ c ∈ test :: consequent :: alternate.toList, c.Standing ctx m) :
    (ifElse s test consequent alternate).Standing ctx m := by
  simp only [List.mem_cons] at hc
  have htest := (hc test (.inl rfl)).alone
  have hside (counter : Option Counter) := side_shows (ctx.directives.hintFor? s = some .consequent) counter
    (hc consequent (.inr (.inl rfl)))
  have helse (counter : Option Counter) := walkElse_shows (ctx.directives.hintFor? s = some .alternate)
    counter fun n hn => hc n (.inr (.inr hn))
  refine standing_visiting some (fun _ => rfl) (fun cs => htest.bind fun x => (hside cs.1).bind fun c =>
    (helse cs.2).map (fun a => ifElse s x c (some a)) fun a ha hc hx => ?_) rfl rfl rfl
    (fun k => ?_) hs (.coverIf s (Or.inr trivial) (Or.inr trivial)) (fun counters => ?_) fun t x u h => ?_
  · intro site hsite
    obtain ⟨r,hr,hsite⟩ := List.mem_flatMap.mp hsite
    simp only [roles,List.mem_cons,List.mem_append] at hr
    simp only [decide_eq_true_eq] at ha hc
    rcases hr with rfl | hr | hr
    · exact (hx site hsite).within (by simp [children])
    · exact (hc r hr site hsite).within (by simp [children])
    · exact (ha r hr site hsite).within (by simp [children])
  · exact count_keys_ifElse s test consequent alternate k
  · refine (test.walk_runs_true []).bind fun _ => ?_
    cases counters with
    | none => exact (consequent.walk_runs_true []).bind fun _ =>
        (walkOption_runs none fun m _ => m.walk_runs_true).bind fun _ => .pure _
    | some cs => exact ((hside cs.1).runs _ fun _ _ => trivial).bind fun _ =>
        ((helse cs.2).runs _ fun _ _ => trivial).bind fun _ => .pure _
  · obtain ⟨hn,hx⟩ := Action.coverIf_notes h
    obtain ⟨cs,rfl⟩ := Option.isSome_iff_exists.mp hx
    refine ⟨?_,cs,rfl⟩
    simpa [Context.sideKeys] using hn.asked

theorem switch_standing {s : Span} {discriminant : Node} {cases : List Case} (hs : s.isDummy = false)
    (hcases : ∀ c ∈ cases, c.span.isDummy = false)
    (hc : ∀ c ∈ discriminant :: cases.flatMap Case.nodes, c.Standing ctx m) :
    (switch s discriminant cases).Standing ctx m := by
  have hd := (hc discriminant List.mem_cons_self).alone
  have hw := walkCases_shows ⟨.switch,s⟩ hcases fun n hn => hc n (List.mem_cons_of_mem _ hn)
  refine standing_visiting_plain (fun _ => rfl) (fun _ => hd.bind fun x =>
    hw.map (switch s x) fun y hy hx => ?_) rfl rfl rfl (fun k => ?_) hs (fun _ => .coverSwitch s)
    fun t x u h => (Action.coverSwitch_notes h).1.asked
  · intro site hsite
    obtain ⟨r,hr,hsite⟩ := List.mem_flatMap.mp hsite
    rcases List.mem_cons.mp hr with rfl | hr
    · exact (hx site hsite).within (by simp [children])
    · exact hy r hr site hsite s x y (List.Subset.refl _)
  · exact count_keys_switch s discriminant cases k

theorem block_standing {s : Span} {statements : List Node}
    (hc : ∀ c ∈ statements, c.Standing ctx m) : (block s statements).Standing ctx m := by
  refine standing_passing (fun _ => rfl) (fun given => .afterCounter given.head?.join fun first =>
    (walkItems_shows false hc).map (fun items => block s (placed (first ++ items)))
      fun items hitems => ?_) rfl rfl rfl fun k => ?_
  · intro site hsite
    obtain ⟨r,hr,hsite⟩ := List.mem_flatMap.mp hsite
    obtain ⟨c,hc,rfl⟩ := List.mem_map.mp hr
    obtain ⟨item,hi,hat⟩ := hitems c hc site hsite
    exact (hat.among (List.mem_append_right first hi)).stands (List.mem_singleton_self _)
      (List.Subset.refl _)
  · rw [keys_eq (block s statements)]
    exact Nat.le_refl _

theorem namespaceBlock_standing {s : Span} {items : List Node}
    (hc : ∀ c ∈ items, c.Standing ctx m) : (namespaceBlock s items).Standing ctx m := by
  refine standing_alone rfl rfl fun given => ?_
  rw [keys_eq (namespaceBlock s items)]
  refine (walkItems_shows false hc).map (fun items => namespaceBlock s (placed items))
    fun xs hxs _ site hsite => ?_
  obtain ⟨r,hr,hsite⟩ := List.mem_flatMap.mp hsite
  obtain ⟨c,hc,rfl⟩ := List.mem_map.mp hr
  obtain ⟨item,hi,hat⟩ := hxs c hc site hsite
  exact (hat.among hi).stands (List.mem_singleton_self _) (List.Subset.refl _)

/-- A declaration of variables takes the note of the list that it is an item of. -/
theorem bindings_standing {s : Span} {data : List (String × Json)} {declarators : List Declarator}
    (hs : ∀ d ∈ declarators, d.span.isDummy = false)
    (hc : ∀ c ∈ (bindings s data declarators).children, c.Standing ctx m) :
    (bindings s data declarators).Standing ctx m := by
  intro listed chain given hchain
  have hf : chain = false := Bool.eq_false_iff.mpr fun h => Bool.false_ne_true (hchain h)
  subst hf
  have hi (hoistable : Bool) : Shows ctx m false false [] (⟨.variableDeclaration,s⟩ :: declarators.flatMap
      fun d => ⟨.variableDeclarator,d.span⟩ :: d.nodes.flatMap Node.keys)
      (passing ctx ⟨.variableDeclaration,s⟩ do
        return .bindings s data (← walkDeclarators ctx hoistable declarators))
      fun out => ctx.leavesOut s none = false →
        ∀ site ∈ (bindings s data declarators).inside ctx, Stands ctx m site [out] :=
    ((walkDeclarators_shows hoistable hs hc).map (bindings s data) fun ds hds =>
      StandIn.inside hds rfl (List.Subset.refl _)).passing List.not_mem_nil
  exact Shows.of_count_le (.takeHoist (fun b visited hv => (hi b).runs visited hv) (hi _))
    (count_keys_bindings s data declarators)

/-- An export hands the note on to its declaration, which it is taken together with. -/
theorem exported_standing {s : Span} {declaration : Node} (hc : declaration.Standing ctx m) :
    (exported s declaration).Standing ctx m := by
  have hk : (exported s declaration).keys = declaration.keys := by
    simp [keys_eq (exported s declaration),ownKeys,children]
  cases declaration with
  | bindings r data declarators =>
    intro listed chain given hchain
    have hf : chain = false := Bool.eq_false_iff.mpr fun h => Bool.false_ne_true (hchain h)
    subst hf
    rw [hk]
    have hw := hc listed false [] fun h => absurd h Bool.false_ne_true
    refine hw.map (exported s) fun x hx _ site hsite => ?_
    obtain ⟨role,hr,hsite⟩ := List.mem_flatMap.mp hsite
    obtain ⟨c,hkept,rfl⟩ := List.mem_map.mp hr
    unfold Context.keptNodes at hkept
    split at hkept
    · cases hkept
    · rename_i hl
      have hin : site ∈ (bindings r data declarators).inside ctx :=
        List.mem_flatMap.mpr ⟨_,List.mem_map_of_mem hkept,hsite⟩
      exact (hx (Bool.eq_false_iff.mpr hl) site hin).within (List.Subset.refl _)
  | _ =>
    refine standing_alone rfl rfl fun given => ?_
    rw [hk]
    exact hc.alone.map (exported s) fun x hx _ =>
      StandIn.inside (List.forall_mem_singleton.mpr hx) rfl (List.Subset.refl _)

/-- What is located in a node at which counting is on stands in what the walk makes of the node. -/
theorem walk_standing (n : Node) (hp : n.hasPlaces = true) : n.Standing ctx m := by
  induction n using induction_children with
  | step n ih =>
    have hc : ∀ c ∈ n.children, c.Standing ctx m := fun c hc => ih c hc (hasPlaces_of_mem_children hp hc)
    have hreal : ∀ s ∈ n.spans, s.isDummy = false := fun s hs => isDummy_eq_false hp hs
    clear ih
    cases n with
    | plain head parts => exact plain_standing hc
    | paren s inner => exact paren_standing (hc inner List.mem_cons_self)
    | logical s operator left right => exact logical_standing (hreal s List.mem_cons_self) hc
    | conditional s test consequent alternate => exact conditional_standing (hreal s List.mem_cons_self) hc
    | function head key before body after =>
      refine function_standing (hreal _ List.mem_cons_self) (fun p hb => ?_) hc
      exact hreal _ (List.mem_cons_of_mem _ (List.mem_map_of_mem (Option.mem_toList.mpr hb)))
    | defaulted form s target value => exact defaulted_standing (hreal s List.mem_cons_self) hc
    | classDeclaration s data name before heritage after =>
      exact classDeclaration_standing (hreal s List.mem_cons_self) hc
    | expression s inner =>
      exact expression_standing (hreal s List.mem_cons_self) (hc inner List.mem_cons_self)
    | simple form s parts => exact simple_standing (hreal s List.mem_cons_self) hc
    | compound form s data init head body => exact compound_standing (hreal s List.mem_cons_self) hc
    | ifElse s test consequent alternate => exact ifElse_standing (hreal s List.mem_cons_self) hc
    | switch s discriminant cases =>
      refine switch_standing (hreal s List.mem_cons_self) (fun c hm => ?_) hc
      exact hreal _ (List.mem_cons_of_mem _ (List.mem_map_of_mem hm))
    | bindings s data declarators =>
      refine bindings_standing (fun d hd => ?_) hc
      refine hreal _ (List.mem_cons_of_mem _ (List.mem_flatMap.mpr ⟨d,hd,?_⟩))
      obtain ⟨s,data,target,init⟩ := d
      exact List.mem_cons_self
    | block s statements => exact block_standing hc
    | exported s declaration => exact exported_standing (hc declaration List.mem_cons_self)
    | namespaceBlock s items => exact namespaceBlock_standing hc

end Node

namespace Traversal

variable {ctx : Context} {visited marked : Key → Prop} {key : Key} {t u v : Traversal}

/-- Between two states only counters are queued, in the innermost frame. -/
def Queues (ctx : Context) (t u : Traversal) : Prop :=
  ∃ new, u.frames = queuedTop new t.frames ∧ ∀ n ∈ new, n.isCounter ctx.identifier = true

theorem Queues.of_eq (h : u.frames = t.frames) : Queues ctx t u :=
  ⟨[],by rw [queuedTop_nil,h],List.forall_mem_nil _⟩

theorem Queues.trans (h₁ : Queues ctx t u) (h₂ : Queues ctx u v) : Queues ctx t v := by
  obtain ⟨new,hu,hn⟩ := h₁
  obtain ⟨more,hv,hm⟩ := h₂
  refine ⟨new ++ more,by rw [hv,hu,queuedTop_queuedTop],fun n h => ?_⟩
  exact (List.mem_append.mp h).elim (hn n) (hm n)

theorem Acts.queues (h : Acts ctx key marked t u) : Queues ctx t u := by
  induction h with
  | refl => exact .of_eq rfl
  | register _ _ ih => exact ih
  | skip _ _ ih => exact ih
  | branch _ _ ih => exact ih
  | @queue u frame rest c _ hf ih =>
    refine ih.trans ⟨[c.statementNode ctx.identifier],by rw [hf]; rfl,fun n hn => ?_⟩
    rw [List.mem_singleton.mp hn]
    exact Node.isCounter_statementNode _ c

theorem Attempts.queues (h : Attempts ctx visited key t u) : Queues ctx t u := by
  cases h with
  | idle => exact .of_eq rfl
  | done _ h => exact h.queues
  | failed _ h e => exact h.queues

/-- What an item queues goes in front of the item. -/
theorem Run.queues (h : Run ctx visited t u) : Queues ctx t u := by
  induction h with
  | refl t => exact .of_eq rfl
  | trans _ _ ih₁ ih₂ => exact ih₁.trans ih₂
  | visit _ hu _ ih => exact hu.queues.trans ih
  | item _ ih =>
    obtain ⟨new,hu,-⟩ := ih
    exact .of_eq (congrArg List.tail hu)
  | hoist t => exact .of_eq rfl
  | chain _ ih => exact ih

end Traversal

namespace Node

variable {ctx : Context} {n : Node}

theorem mem_subnodes_of_mem_children {c x : Node} (hx : x ∈ n.subnodes) (hc : c ∈ x.children) :
    c ∈ n.subnodes := by
  induction n using induction_children with
  | step n ih =>
    rcases List.mem_cons.mp hx with rfl | hx
    · exact List.mem_cons_of_mem _ (subnodes_subset_of_mem_children hc (self_mem_subnodes c))
    · rw [inner_eq] at hx
      obtain ⟨k,hk,hx⟩ := List.mem_flatMap.mp hx
      exact List.mem_cons_of_mem _ (subnodes_subset_of_mem_children hk (ih k hk hx))

theorem mem_children_of_mem_lists {items : List Node} {x : Node} (hi : items ∈ n.lists) (hx : x ∈ items) :
    x ∈ n.children := by
  cases n with
  | block s statements =>
    rw [List.mem_singleton.mp hi] at hx
    exact hx
  | namespaceBlock s all =>
    rw [List.mem_singleton.mp hi] at hx
    exact hx
  | function head key before body after =>
    cases body with
    | block s statements =>
      rw [List.mem_singleton.mp hi] at hx
      exact List.mem_append_left _ (List.mem_append_right _ hx)
    | _ => cases hi
  | switch s discriminant cases =>
    obtain ⟨c,hc,rfl⟩ := List.mem_map.mp hi
    obtain ⟨place,test,consequent⟩ := c
    exact List.mem_cons_of_mem _ (List.mem_flatMap.mpr ⟨_,hc,List.mem_append_right _ hx⟩)
  | _ => cases hi

/-- What is located in a node that was read from a text was read from it too. -/
theorem hasPlaces_of_mem_located {n : Node} {listed : Bool} {site : Bool × Node} (hp : n.hasPlaces = true)
    (h : site ∈ n.located ctx listed) : site.2.hasPlaces = true := by
  obtain ⟨-,⟨-,rfl⟩ | h⟩ := mem_located h
  · exact hp
  · obtain ⟨r,hr,h⟩ := List.mem_flatMap.mp h
    exact hasPlaces_of_mem_located (hasPlaces_of_mem_roles hp hr) h
termination_by sizeOf n
decreasing_by exact sizeOf_of_mem_roles hr

end Node

section Instrumented

variable {ctx : Context} {m : CoverageMap} {n : Node}

theorem Node.isDirective_of_isCounter {name : String} (h : n.isCounter name = true) :
    n.isDirective = false := by
  obtain ⟨c,rfl⟩ := isCounter_iff.mp h
  cases c <;> rfl

/-- What is queued in front of an item are counters. -/
theorem Node.Walks.queued {listed chain : Bool} {given : List (Option Counter)} {t : Traversal} {x : Node}
    (h : n.Walks ctx m listed chain given t)
    (hx : x ∈ ((n.walk ctx given).run t).2.frames.headD []) : x.isCounter ctx.identifier = true := by
  have hr : Run ctx (fun _ => True) t ((n.walk ctx given).run t).2 := n.walk_runs_true given t
  have hq := hr.queuesCounters h.ready.queues
  unfold QueuesCounters at hq
  cases hf : ((n.walk ctx given).run t).2.frames with
  | nil =>
    rw [hf] at hx
    cases hx
  | cons queue rest =>
    rw [hf] at hx hq
    exact hq queue List.mem_cons_self x hx

namespace Program

variable {p : Program} {coverage : CoverageMap} {site : Bool × Node}

theorem hasPlaces_of_mem_located (hp : p.hasPlaces = true)
    (h : site ∈ p.located ctx) : site.2.hasPlaces = true := by
  obtain ⟨n,hn,h⟩ := List.mem_flatMap.mp h
  exact Node.hasPlaces_of_mem_located
    (List.all_eq_true.mp hp n ((List.dropWhile_sublist _).subset hn)) h

/-- The constructs of a program at which counting is on stand in the walked program. -/
theorem standing_walk (hp : p.hasPlaces = true) (hd : p.hasDistinctPlaces = true)
    (hc : coverage.Parallel) (hf : (p.walk ctx coverage).2.failure = none)
    (hk : (p.walk ctx coverage).2.coverage.Keeps m) (hs : site ∈ p.located ctx) :
    StandsAmong ctx m site (p.walk ctx coverage).1.body := by
  have hplaces : ∀ n ∈ p.body, n.hasPlaces = true := List.all_eq_true.mp hp
  have hstanding : ∀ n ∈ p.body, n.Standing ctx m := fun n hn => n.walk_standing (hplaces n hn)
  have hw := walkItems_shows true hstanding
  obtain ⟨c,hm,hs⟩ := List.mem_flatMap.mp hs
  obtain ⟨item,hi,hat⟩ := hw.shows _ (ready_start hd hc) rfl hf hk c hm site hs
  exact hat.among hi

theorem body_subset_prepend (p : Program) (nodes : List Node) : p.body ⊆ (p.prepend nodes).body := by
  intro x hx
  rw [← List.take_append_drop (prologueLength p.body) p.body,List.mem_append] at hx
  rw [prepend,List.mem_append,List.mem_append]
  exact hx.imp .inl id

/-- Statements in a row of which only the last may be a directive are not parted by what is put behind the
directives at the head. -/
theorem infix_prepend {row : List Node} (nodes : List Node) (h : row <:+: p.body)
    (hr : ∀ x ∈ row.dropLast, x.isDirective = false) : row <:+: (p.prepend nodes).body := by
  cases row with
  | nil => exact List.nil_infix
  | cons x row =>
    cases hd : x.isDirective with
    | true =>
      cases row with
      | nil =>
        obtain ⟨before,after,he⟩ :=
          List.append_of_mem (body_subset_prepend p nodes (h.subset List.mem_cons_self))
        exact ⟨before,after,by rw [he,List.append_assoc,List.singleton_append]⟩
      | cons y row =>
        rw [hr x List.mem_cons_self] at hd
        cases hd
    | false =>
      obtain ⟨before,after,he⟩ := h
      have hle : prologueLength p.body ≤ before.length := by
        rw [← he,List.append_assoc,List.cons_append]
        exact prologueLength_append_cons_le before _ hd
      have hdrop : p.body.drop (prologueLength p.body) =
          before.drop (prologueLength p.body) ++ (x :: row ++ after) := by
        generalize prologueLength p.body = k at hle
        rw [← he,List.append_assoc,List.drop_append_of_le_length hle]
      refine ⟨p.body.take (prologueLength p.body) ++ nodes ++ before.drop (prologueLength p.body),after,?_⟩
      rw [prepend,hdrop]
      simp only [List.append_assoc]

theorem standsAmong_prepend (nodes : List Node) (h : StandsAmong ctx m site p.body) :
    StandsAmong ctx m site (p.prepend nodes).body := by
  rcases h with h | ⟨hl,t,rest,hw,ht,hitem⟩
  · exact .inl (h.mono (body_subset_prepend p nodes))
  · refine .inr ⟨hl,t,rest,hw,ht,infix_prepend nodes hitem fun x hx => ?_⟩
    rw [List.dropLast_concat] at hx
    exact Node.isDirective_of_isCounter (hw.queued hx)

end Program

/-- The constructs of a program at which counting is on stand in the instrumented program. -/
theorem standing_instrument {program : Program} {file : SourceFile} {options : Options} {batch : Batch}
    {o : Outcome} (hp : program.hasPlaces = true) (hd : program.hasDistinctPlaces = true)
    (h : (instrument program file options batch).outcome = .ok o) (hs : o.status = .instrumented) :
    ∃ m : CoverageMap, m.data = o.coverage ∧ ∀ site ∈ program.located (file.context options),
      StandsAmong (file.context options) m site (instrument program file options batch).program.body := by
  obtain ⟨hf,ho,hprogram⟩ := instrument_of_instrumented h hs
  have hk := CoverageMap.keeps_after
    (program.walk (file.context options) (startMap file.path options)).2.coverage [.freeze]
  refine ⟨_,ho.symm,fun site hsite => ?_⟩
  rw [hprogram]
  exact Program.standsAmong_prepend _
    (Program.standing_walk hp hd (startMap_parallel file.path options) hf hk hsite)

/-- An item of a list stands in a list of the program, behind its queue. -/
theorem StandsAmong.exists_follows {p : Program} (h : StandsAmong ctx m (true,n) p.body) :
    ∃ items ∈ p.lists, n.Follows ctx m items := by
  rcases h with h | ⟨-,h⟩
  · cases h with
    | item hx hi h => exact ⟨_,List.mem_cons_of_mem _ (List.mem_flatMap.mpr ⟨_,hx,hi⟩),h⟩
  · exact ⟨p.body,List.mem_cons_self,h⟩

/-- A construct stands somewhere in the program, whether it is an item or not. -/
theorem StandsAmong.exists_walks {p : Program} {listed : Bool} (h : StandsAmong ctx m (listed,n) p.body) :
    ∃ chain given t, n.Walks ctx m listed chain given t ∧ ((n.walk ctx given).run t).1 ∈ p.nodes := by
  rcases h with h | ⟨hl,t,rest,hw,-,hitem⟩
  · cases h with
    | item hx hi h =>
      obtain ⟨t,rest,hw,-,hitem⟩ := h
      have hout := Node.mem_children_of_mem_lists hi
        (hitem.subset (List.mem_append_right _ List.mem_cons_self))
      obtain ⟨c,hc,hx⟩ := List.mem_flatMap.mp hx
      exact ⟨false,[],t,hw,List.mem_flatMap.mpr ⟨c,hc,Node.mem_subnodes_of_mem_children hx hout⟩⟩
    | alone hw hx => exact ⟨_,_,_,hw,hx⟩
  · obtain rfl : listed = true := hl
    have hout := hitem.subset (List.mem_append_right _ List.mem_cons_self)
    exact ⟨false,[],t,hw,List.mem_flatMap.mpr ⟨_,hout,Node.self_mem_subnodes _⟩⟩

end Instrumented

end CoverageCounters
