import CoverageCounters.Proofs.Laying

/-!
The constructs of a program at which counting is on, each with whether it is an item of a list of
statements. An item is walked with a queue of its own, and what is queued goes right in front of it in
that list. What the walk makes of a construct stands in a tree behind its queue if the construct is an
item, and alone if it is not.

To show this of a walk, what is shown of its answer is derived from what is shown of the answers of its
parts, under the conditions in which each part is walked: counting is on, the keys to be visited are
fresh, and the tables are kept to the end.
-/

namespace CoverageCounters

open Walk Traversal

/-- What is counted in the body of a function; the statements of a block are items of a list. -/
def Body.roles (ctx : Context) : Body → List (Bool × Node)
  | .absent => []
  | .block s statements =>
    (ctx.keptNodes s (statements.dropWhile Node.isDirective)).map (true,·)
  | .value e => (ctx.keptNodes e.span [e]).map (false,·)

/-- What is counted in a case, with whether it is an item of the list of statements. -/
def Case.roles (ctx : Context) : Case → List (Bool × Node)
  | .mk s test consequent =>
    (ctx.keptNodes s test.toList).map (false,·) ++ (ctx.keptNodes s consequent).map (true,·)

/-- The body of a statement. One that is no block becomes the only item of a block. -/
def Context.bodyRoles (ctx : Context) (body : Node) : List (Bool × Node) :=
  (ctx.keptBody body).map fun n => (!n.isBlock,n)

namespace Node

/-- The constructs directly in a node that the node does not leave out, each with whether it is an item
of a list. The declaration of an export is taken together with the export. -/
def roles (ctx : Context) : Node → List (Bool × Node)
  | function _ key before body after =>
    (key.toList ++ before.flatMap Part.nodes).map (false,·) ++ body.roles ctx ++
      (after.flatMap Part.nodes).map (false,·)
  | compound _ _ _ init head body =>
    (init.toList.filter (fun n => (Action.initKey? n).isNone) ++ head.flatMap Part.nodes).map (false,·) ++
      ctx.bodyRoles body
  | ifElse s test consequent alternate =>
    (false,test) ::
      ((if ctx.directives.hintFor? s = some .consequent then [] else ctx.bodyRoles consequent) ++
        if ctx.directives.hintFor? s = some .alternate then []
        else alternate.toList.flatMap ctx.bodyRoles)
  | switch _ discriminant cases => (false,discriminant) :: cases.flatMap (Case.roles ctx)
  | block _ statements => statements.map (true,·)
  | namespaceBlock _ items => items.map (true,·)
  | exported _ (bindings s data declarators) =>
    (ctx.keptNodes s ((bindings s data declarators).kept ctx)).map (false,·)
  | n => (n.kept ctx).map (false,·)

end Node

section Roles

variable {ctx : Context}

theorem map_snd_pair (b : Bool) (nodes : List Node) : (nodes.map (b,·)).map Prod.snd = nodes := by
  rw [List.map_map]
  exact List.map_id nodes

theorem Body.map_roles (body : Body) : (body.roles ctx).map Prod.snd = body.kept ctx := by
  cases body with
  | absent => rfl
  | block s statements => exact map_snd_pair _ _
  | value e => exact map_snd_pair _ _

theorem Case.map_roles (c : Case) : (c.roles ctx).map Prod.snd = ctx.keptNodes c.span c.nodes := by
  obtain ⟨s,test,consequent⟩ := c
  rw [roles,List.map_append,map_snd_pair,map_snd_pair]
  change _ = ctx.keptNodes s (test.toList ++ consequent)
  unfold Context.keptNodes
  split <;> rfl

theorem Context.map_bodyRoles (body : Node) : (ctx.bodyRoles body).map Prod.snd = ctx.keptBody body := by
  rw [bodyRoles,List.map_map]
  exact List.map_id _

namespace Node

/-- The constructs with a role in a node are those that the node does not leave out. An export has those
of its declaration. -/
theorem map_roles (ctx : Context) (n : Node) :
    (n.roles ctx).map Prod.snd = n.kept ctx ∨ ∃ s r data declarators,
      n = exported s (bindings r data declarators) ∧
      (n.roles ctx).map Prod.snd = ctx.keptNodes r ((bindings r data declarators).kept ctx) := by
  cases n with
  | function head key before body after =>
    exact .inl (by simp only [roles,kept,List.map_append,map_snd_pair,Body.map_roles])
  | compound form s data init head body =>
    exact .inl (by simp only [roles,kept,List.map_append,map_snd_pair,Context.map_bodyRoles])
  | ifElse s test consequent alternate =>
    refine .inl (congrArg (test :: ·) ?_)
    rw [List.map_append]
    congr 1
    · split
      · rfl
      · exact Context.map_bodyRoles consequent
    · split
      · rfl
      · rw [List.map_flatMap]
        exact congrArg (alternate.toList.flatMap ·) (funext Context.map_bodyRoles)
  | switch s discriminant cases =>
    refine .inl (congrArg (discriminant :: ·) ?_)
    rw [List.map_flatMap]
    exact congrArg (cases.flatMap ·) (funext Case.map_roles)
  | exported s declaration =>
    cases declaration with
    | bindings r data declarators => exact .inr ⟨s,r,data,declarators,rfl,map_snd_pair _ _⟩
    | _ => exact .inl (map_snd_pair _ _)
  | _ => exact .inl (map_snd_pair _ _)

theorem hasPlaces_of_mem_roles {n : Node} {r : Bool × Node} (hp : n.hasPlaces = true)
    (h : r ∈ n.roles ctx) : r.2.hasPlaces = true := by
  have hm : r.2 ∈ (n.roles ctx).map Prod.snd := List.mem_map_of_mem h
  rcases n.map_roles ctx with he | ⟨s,place,data,declarators,rfl,he⟩
  · rw [he] at hm
    exact hasPlaces_of_mem_children hp (mem_children_of_mem_kept hm)
  · rw [he] at hm
    exact hasPlaces_of_mem_children (hasPlaces_of_mem_children hp List.mem_cons_self)
      (mem_children_of_mem_kept (mem_of_mem_keptNodes hm))

theorem sizeOf_of_mem_roles {n : Node} {r : Bool × Node} (h : r ∈ n.roles ctx) :
    sizeOf r.2 < sizeOf n := by
  have hm : r.2 ∈ (n.roles ctx).map Prod.snd := List.mem_map_of_mem h
  rcases n.map_roles ctx with he | ⟨s,place,data,declarators,rfl,he⟩
  · rw [he] at hm
    exact sizeOf_of_mem_children (mem_children_of_mem_kept hm)
  · rw [he] at hm
    have h₁ := sizeOf_of_mem_children (mem_children_of_mem_kept (mem_of_mem_keptNodes hm))
    have h₂ : sizeOf (bindings place data declarators) <
        sizeOf (exported s (bindings place data declarators)) :=
      sizeOf_of_mem_children List.mem_cons_self
    omega

/-- The constructs of a node at which counting is on, in the order of the walk, each with whether it is
an item of a list. A block is no construct of its own here, only the list that it holds. -/
def located (ctx : Context) (listed : Bool) (n : Node) : List (Bool × Node) :=
  if n.leftOut ctx then []
  else (if n.isBlock then [] else [(listed,n)]) ++
    (n.roles ctx).attach.flatMap fun ⟨r,_⟩ => r.2.located ctx r.1
termination_by sizeOf n
decreasing_by exact sizeOf_of_mem_roles ‹_›

def inside (ctx : Context) (n : Node) : List (Bool × Node) :=
  (n.roles ctx).flatMap fun r => r.2.located ctx r.1

theorem located_eq (ctx : Context) (listed : Bool) (n : Node) :
    n.located ctx listed =
      if n.leftOut ctx then []
      else (if n.isBlock then [] else [(listed,n)]) ++ n.inside ctx := by
  rw [located]
  split
  · rfl
  · congr 1
    calc (n.roles ctx).attach.flatMap (fun r => r.val.2.located ctx r.val.1)
        = ((n.roles ctx).attach.map Subtype.val).flatMap (fun r => r.2.located ctx r.1) :=
          (List.flatMap_map Subtype.val (fun r : Bool × Node => r.2.located ctx r.1) _).symm
      _ = n.inside ctx := by rw [List.attach_map_subtype_val,inside]

end Node
end Roles

/-- The constructs of a program at which counting is on; the directives at its head are left out. -/
def Program.located (ctx : Context) (p : Program) : List (Bool × Node) :=
  (p.body.dropWhile Node.isDirective).flatMap (Node.located ctx true)

def Program.lists (p : Program) : List (List Node) := p.body :: p.nodes.flatMap Node.lists

/-- A state from which a construct is walked with counting on and without an error, and after which the
tables are kept to the end. The note that variables are declared is there only for an item of a list. -/
structure Node.Walks (ctx : Context) (m : CoverageMap) (listed chain : Bool)
    (given : List (Option Counter)) (n : Node) (t : Traversal) : Prop where
  ready : t.Ready ctx chain [] n.keys
  hoist : t.hoist = (listed && n.declaresVariables)
  counted : n.leftOut ctx = false
  block : n.isBlock = false
  failure : ((n.walk ctx given).run t).2.failure = none
  keeps : ((n.walk ctx given).run t).2.coverage.Keeps m

/-- A list has what the walk makes of an item, right behind what was queued in front of the item. -/
def Node.Follows (ctx : Context) (m : CoverageMap) (n : Node) (items : List Node) : Prop :=
  ∃ t rest, n.Walks ctx m true false [] t ∧ t.frames = [] :: rest ∧
    ((n.walk ctx []).run t).2.frames.headD [] ++ [((n.walk ctx []).run t).1] <:+: items

/-- What the walk makes of a construct stands in some nodes or inside them, in a list if the construct is
an item of one. -/
inductive Stands (ctx : Context) (m : CoverageMap) : Bool × Node → List Node → Prop where
  | item {n x : Node} {items nodes : List Node} (hx : x ∈ nodes.flatMap Node.subnodes)
      (hi : items ∈ x.lists) (h : n.Follows ctx m items) : Stands ctx m (true,n) nodes
  | alone {n : Node} {nodes : List Node} {chain : Bool} {given : List (Option Counter)} {t : Traversal}
      (hw : n.Walks ctx m false chain given t)
      (hx : ((n.walk ctx given).run t).1 ∈ nodes.flatMap Node.subnodes) : Stands ctx m (false,n) nodes

/-- What the walk makes of a construct stands at an item that was walked: inside it, or as the item
itself behind its queue. -/
def StandsAt (ctx : Context) (m : CoverageMap) (site : Bool × Node) (item : List Node × Node) : Prop :=
  Stands ctx m site [item.2] ∨ site.1 = true ∧ site.2.Follows ctx m (item.1 ++ [item.2])

/-- What the walk makes of a construct stands in a list of statements: inside an item, or as one. -/
def StandsAmong (ctx : Context) (m : CoverageMap) (site : Bool × Node) (items : List Node) : Prop :=
  Stands ctx m site items ∨ site.1 = true ∧ site.2.Follows ctx m items

section Stands

variable {ctx : Context} {m : CoverageMap} {site : Bool × Node} {n : Node} {nodes rest items : List Node}

theorem Stands.of_subset (h : Stands ctx m site nodes)
    (hs : ∀ x ∈ nodes, x.subnodes ⊆ rest.flatMap Node.subnodes) : Stands ctx m site rest := by
  have hsub : nodes.flatMap Node.subnodes ⊆ rest.flatMap Node.subnodes := by
    intro y hy
    obtain ⟨x,hx,hy⟩ := List.mem_flatMap.mp hy
    exact hs x hx hy
  cases h with
  | item hx hi h => exact .item (hsub hx) hi h
  | alone hw hx => exact .alone hw (hsub hx)

theorem Stands.mono (h : Stands ctx m site nodes) (hn : nodes ⊆ rest) : Stands ctx m site rest :=
  h.of_subset fun _ hx => subnodes_of_mem (hn hx)

/-- What stands in children of a node stands in the node. -/
theorem Stands.within (h : Stands ctx m site nodes) (hn : nodes ⊆ n.children) : Stands ctx m site [n] :=
  h.of_subset fun _ hx => subnodes_of_mem_children (hn hx)

theorem Stands.after (first : Node) (h : Stands ctx m site [n]) :
    Stands ctx m site [Build.after first n] := by
  refine h.of_subset fun y hy => ?_
  rw [List.mem_singleton.mp hy]
  exact subnodes_after first n

theorem Node.Follows.widen (h : n.Follows ctx m items) (hi : items <:+: rest) : n.Follows ctx m rest := by
  obtain ⟨t,frames,hw,hf,hitem⟩ := h
  exact ⟨t,frames,hw,hf,hitem.trans hi⟩

theorem StandsAmong.widen (h : StandsAmong ctx m site items) (hi : items <:+: rest) :
    StandsAmong ctx m site rest :=
  h.imp (fun h => h.mono hi.subset) fun h => ⟨h.1,h.2.widen hi⟩

theorem StandsAt.among {walked : List (List Node × Node)} {item : List Node × Node}
    (h : StandsAt ctx m site item) (hi : item ∈ walked) : StandsAmong ctx m site (placed walked) := by
  have hs : item.1 ++ [item.2] <:+: placed walked := by
    obtain ⟨before,after,rfl⟩ := List.append_of_mem hi
    refine ⟨placed before,placed after,?_⟩
    simp [placed]
  rcases h with h | ⟨hl,h⟩
  · exact .inl (h.mono (List.cons_subset.mpr ⟨hs.subset (by simp),List.nil_subset _⟩))
  · exact .inr ⟨hl,h.widen hs⟩

/-- What stands in a list of statements of a node stands in the node. -/
theorem StandsAmong.stands (h : StandsAmong ctx m site items) (hn : items ∈ n.lists)
    (hs : items ⊆ n.children) : Stands ctx m site [n] := by
  obtain ⟨listed,c⟩ := site
  rcases h with h | ⟨rfl,h⟩
  · exact h.within hs
  · exact .item (by simp [Node.subnodes]) hn h

end Stands

/-- The state in which an item of a list is walked. -/
theorem Traversal.Ready.asItem {ctx : Context} {chain : Bool} {asked keys : List Key} {t : Traversal}
    (ht : t.Ready ctx chain asked keys) (declares : Bool) :
    Ready ctx chain asked keys { t with frames := [] :: t.frames, hoist := declares } := by
  refine ⟨ht.fresh,⟨ht.counting.anchor,ht.counting.inChain,ht.counting.synthetic⟩,ht.asks,
    fun frame hf => ?_,ht.parallel⟩
  rcases List.mem_cons.mp hf with rfl | hf
  · exact fun n hn => absurd hn List.not_mem_nil
  · exact ht.queues frame hf

/-- The note that variables are declared does not matter for what is counted. -/
theorem Traversal.Ready.withHoist {ctx : Context} {chain : Bool} {asked keys : List Key} {t : Traversal}
    (ht : t.Ready ctx chain asked keys) (hoist : Bool) : Ready ctx chain asked keys { t with hoist } :=
  ⟨ht.fresh,⟨ht.counting.anchor,ht.counting.inChain,ht.counting.synthetic⟩,ht.asks,ht.queues,ht.parallel⟩

namespace Walk

variable {α β : Type} {ctx : Context} {m : CoverageMap} {hoist chain : Bool}
  {asked asked' keys keys' : List Key}

/-- A walk whose answer has a property, wherever counting is on, the keys to be visited are fresh and the
tables are kept to the end. -/
structure Shows (ctx : Context) (m : CoverageMap) (hoist chain : Bool) (asked keys : List Key)
    (w : Walk α) (shown : α → Prop) : Prop where
  runs : ∀ visited : Key → Prop, (∀ k ∈ keys, visited k) → Runs ctx visited w
  asked_subset : ∀ k ∈ asked, k ∈ keys
  shows : ∀ t, t.Ready ctx chain asked keys → t.hoist = hoist → (w.run t).2.failure = none →
    (w.run t).2.coverage.Keeps m → shown (w.run t).1

namespace Shows

variable {shown : α → Prop} {shown' : β → Prop}

theorem pure {a : α} (h : shown a) : Shows ctx m hoist chain [] [] (Pure.pure a) shown :=
  ⟨fun _ _ => .pure a,nofun,fun _ _ _ _ _ => h⟩

theorem map {w : Walk α} (h : Shows ctx m hoist chain asked keys w shown) (f : α → β)
    (hf : ∀ a, shown a → shown' (f a)) :
    Shows ctx m hoist chain asked keys (w >>= fun a => Pure.pure (f a)) shown' :=
  ⟨fun visited hk => (h.runs visited hk).bind fun _ => .pure _,h.asked_subset,
    fun t ht hh hn hk => hf _ (h.shows t ht hh hn hk)⟩

theorem mono {w : Walk α} {shown' : α → Prop} (h : Shows ctx m hoist chain asked keys w shown)
    (hs : ∀ a, shown a → shown' a) : Shows ctx m hoist chain asked keys w shown' :=
  ⟨h.runs,h.asked_subset,fun t ht hh hn hk => hs _ (h.shows t ht hh hn hk)⟩

/-- A walk that goes like another one where it is used. -/
theorem of_run_eq {w w' : Walk α} (h : Shows ctx m hoist chain asked keys w' shown)
    (hr : ∀ visited : Key → Prop, (∀ k ∈ keys, visited k) → Runs ctx visited w)
    (he : ∀ t, t.inChain = chain → w.run t = w'.run t) : Shows ctx m hoist chain asked keys w shown := by
  refine ⟨hr,h.asked_subset,fun t ht hh hn hk => ?_⟩
  rw [he t ht.counting.inChain] at hn hk ⊢
  exact h.shows t ht hh hn hk

theorem of_count_le {w : Walk α} (h : Shows ctx m hoist chain asked keys w shown)
    (hk : ∀ k, keys.count k ≤ keys'.count k) : Shows ctx m hoist chain asked keys' w shown := by
  have hm : ∀ k ∈ keys, k ∈ keys' := fun k h =>
    List.count_pos_iff.mp (Nat.lt_of_lt_of_le (List.count_pos_iff.mpr h) (hk k))
  exact ⟨fun visited hv => h.runs visited fun k h => hv k (hm k h),
    fun k ha => hm k (h.asked_subset k ha),fun t ht => h.shows t (ht.of_count_le hk)⟩

/-- One walk after the other. What is shown of the first answer may be used for the second. -/
theorem bind {w : Walk α} {f : α → Walk β} (h : Shows ctx m false chain asked keys w shown)
    (hf : ∀ a, Shows ctx m false chain asked' keys' (f a) fun b => shown a → shown' b) :
    Shows ctx m false chain (asked ++ asked') (keys ++ keys') (w >>= f) shown' := by
  have hs := (hf (w.run (.start (.new ""))).1).asked_subset
  refine ⟨fun visited hk => ?_,fun k hk => ?_,fun t ht hh hn hk => ?_⟩
  · exact (h.runs visited fun k hm => hk k (List.mem_append_left _ hm)).bind fun a =>
      (hf a).runs visited fun k hm => hk k (List.mem_append_right _ hm)
  · exact (List.mem_append.mp hk).elim (fun hk => List.mem_append_left _ (h.asked_subset k hk))
      fun hk => List.mem_append_right _ (hs k hk)
  · have hrun := h.runs (· ∈ keys) (fun _ => id) t
    have hrun' := (hf (w.run t).1).runs (· ∈ keys') (fun _ => id) (w.run t).2
    obtain ⟨h₁,h₂⟩ := ht.split hrun h.asked_subset hs
    have hshown := h.shows t h₁ hh (hrun'.failure_eq_none h₂.counting.anchorBelow hn)
      (hrun'.grows.keeps.trans hk)
    exact (hf _).shows _ h₂ (hrun.hoist_eq_false hh) hn hk hshown

section Visits

variable {key : Key} {name : Option String} {action : Action α} {idle : α} {inside : α → Walk β}

/-- A visit to a construct with a place: its action is run, and what it asks for is left out inside. -/
theorem exists_acted {t : Traversal} (hm : Action.Acting ctx key (Within fun _ => True) action)
    (hr : ∀ x, Runs ctx (fun _ => True) (inside x)) (hk : key.isSynthetic = false)
    (hdone : ∀ t x u, action.run.run t = (.ok x,u) → Asked asked t u)
    (ht : t.Ready ctx chain [] (key :: keys))
    (hf : ((Walk.visiting ctx key name action idle inside).run t).2.failure = none)
    (hl : ctx.leavesOut key.span name = false) :
    ∃ x u, action.run.run (t.enter ctx key name) = (.ok x,u) ∧ u.Ready ctx chain asked keys ∧
      u.hoist = t.hoist ∧ (Walk.visiting ctx key name action idle inside).run t =
        (((inside x).run u).1,((inside x).run u).2.leave key (t.depth + 1)) := by
  have hs := ht.counting.skips_eq_false ht.asks (Or.inr List.mem_cons_self) List.not_mem_nil
  obtain ⟨x,u,he,hu,hhoist,-,heq⟩ := exists_entered hm hr ht.counting hs hl hf
  cases he with
  | idle hsyn =>
    rw [hk] at hsyn
    cases hsyn
  | done _ hrun =>
    have hasked := hdone _ _ _ hrun
    have hacts := hm (t.enter ctx key name)
    rw [hrun] at hacts
    exact ⟨x,u,hrun,⟨ht.fresh.tail,hu,ht.tail.asks.of_asked rfl hasked,
      hacts.queuesCounters ht.queues,hacts.parallel ht.parallel⟩,hhoist,heq⟩

theorem shown_visiting {t : Traversal} (possible : α → Prop)
    (hm : Action.Acting ctx key (Within fun _ => True) action)
    (hr : ∀ x, Runs ctx (fun _ => True) (inside x)) (hk : key.isSynthetic = false)
    (hdone : ∀ t x u, action.run.run t = (.ok x,u) → Asked asked t u ∧ possible x)
    (hi : ∀ x, possible x → Shows ctx m hoist chain asked keys (inside x) shown')
    (ht : t.Ready ctx chain [] (key :: keys)) (hh : t.hoist = hoist)
    (hf : ((Walk.visiting ctx key name action idle inside).run t).2.failure = none)
    (hkeep : ((Walk.visiting ctx key name action idle inside).run t).2.coverage.Keeps m)
    (hl : ctx.leavesOut key.span name = false) :
    shown' ((Walk.visiting ctx key name action idle inside).run t).1 := by
  obtain ⟨x,u,hrun,hu,hhoist,heq⟩ :=
    exists_acted hm hr hk (fun t x u h => (hdone t x u h).1) ht hf hl
  rw [heq] at hf hkeep ⊢
  exact (hi x (hdone _ _ _ hrun).2).shows u hu (hhoist.trans hh) hf hkeep

theorem visiting (hm : ∀ visited, Action.Acting ctx key (Within visited) action)
    (hk : key.isSynthetic = false)
    (hdone : ∀ t x u, action.run.run t = (.ok x,u) → Asked [] t u)
    (hi : ∀ x, Shows ctx m hoist chain [] keys (inside x) shown') :
    Shows ctx m hoist chain [] (key :: keys) (Walk.visiting ctx key name action idle inside)
      fun b => ctx.leavesOut key.span name = false → shown' b :=
  ⟨fun visited hv => .visiting (Or.inr (hv key List.mem_cons_self)) (hm visited) fun x =>
      (hi x).runs visited fun k h => hv k (List.mem_cons_of_mem _ h),
    nofun,fun _ ht hh hn hkeep => shown_visiting (fun _ => True) (hm _)
      (fun x => (hi x).runs _ fun _ _ => trivial) hk (fun t x u h => ⟨hdone t x u h,trivial⟩)
      (fun x _ => hi x) ht hh hn hkeep⟩

/-- A construct that is only passed is entered with counting on, if it is neither asked for nor left out. -/
theorem ready_enter {t : Traversal} (hk : Within (· ∈ keys) key) (ha : key ∉ asked)
    (ht : t.Ready ctx chain asked keys) (hl : ctx.leavesOut key.span none = false) :
    (t.enter ctx key none).Ready ctx chain asked keys := by
  have hs := ht.counting.skips_eq_false ht.asks hk ha
  exact ⟨ht.fresh,ht.counting.enter ((ht.counting.startsSuppression_eq hs).trans hl),ht.asks,ht.queues,
    ht.parallel⟩

theorem passing_within {w : Walk β} (h : Shows ctx m hoist chain asked keys w shown')
    (hk : Within (· ∈ keys) key) (ha : key ∉ asked) :
    Shows ctx m hoist chain asked keys (Walk.passing ctx key w)
      fun b => ctx.leavesOut key.span none = false → shown' b := by
  refine ⟨fun visited hv => .passing (hk.imp id (hv key)) (h.runs visited hv),h.asked_subset,
    fun t ht hh hn hkeep hl => ?_⟩
  rw [Walk.passing,run_visiting_pure] at hn hkeep ⊢
  exact h.shows _ (ready_enter hk ha ht hl) hh hn hkeep

theorem passing {w : Walk β} (h : Shows ctx m hoist chain asked keys w shown') (ha : key ∉ asked) :
    Shows ctx m hoist chain asked (key :: keys) (Walk.passing ctx key w)
      fun b => ctx.leavesOut key.span none = false → shown' b :=
  passing_within (h.of_count_le fun _ => List.count_le_count_cons) (Or.inr List.mem_cons_self) ha

theorem passing_dummy {w : Walk β} {kind : Kind} (h : Shows ctx m hoist chain [] keys w shown') :
    Shows ctx m hoist chain [] keys (Walk.passing ctx ⟨kind,.dummy⟩ w) shown' := by
  have hl : ctx.leavesOut .dummy none = false := rfl
  exact (passing_within h (Or.inl rfl) List.not_mem_nil).mono fun _ hs => hs hl

end Visits

theorem withChain {w : Walk α} (inside : Bool) (h : Shows ctx m hoist inside asked keys w shown) :
    Shows ctx m hoist chain asked keys (Walk.withChain inside w) shown :=
  ⟨fun visited hk => .withChain inside (h.runs visited hk),h.asked_subset,fun t ht hh hn hk =>
    h.shows { t with inChain := inside } ⟨ht.fresh,⟨ht.counting.anchor,rfl,ht.counting.synthetic⟩,ht.asks,
      ht.queues,ht.parallel⟩ hh hn hk⟩

/-- Once the note that variables are declared is taken, it is gone. -/
theorem takeHoist {f : Bool → Walk β}
    (hr : ∀ b visited, (∀ k ∈ keys, visited k) → Runs ctx visited (f b))
    (h : Shows ctx m false chain asked keys (f hoist) shown') :
    Shows ctx m hoist chain asked keys (Walk.takeHoist >>= f) shown' := by
  refine ⟨fun visited hk => Runs.takeHoist.bind fun b => hr b visited hk,h.asked_subset,
    fun t ht hh hn hk => ?_⟩
  have hrun : (Walk.takeHoist >>= f).run t = (f hoist).run { t with hoist := false } := by
    rw [← hh]
    rfl
  rw [hrun] at hn hk ⊢
  exact h.shows _ (ht.withHoist false) rfl hn hk

/-- A walk whose construct may be asked to be left out, under its key. -/
theorem asking {w : Walk α} (ask : Bool) {key : Key} (h : Shows ctx m hoist chain [] keys w shown)
    (hk : key ∈ keys) :
    Shows ctx m hoist chain (if ask then [key] else []) keys w fun a => ask = false → shown a := by
  cases ask with
  | false => exact h.mono fun a ha _ => ha
  | true => exact ⟨h.runs,fun k hm => by rw [List.mem_singleton.mp hm]; exact hk,fun _ _ _ _ _ => nofun⟩

section Nodes

variable {walk : Walk Node} {sites : List (Bool × Node)}

theorem asItem {declares : Bool} {shown : Node → Prop}
    (h : Shows ctx m declares chain asked keys walk shown) :
    Shows ctx m false chain asked keys (Walk.asItem declares walk) fun item => shown item.2 :=
  ⟨fun visited hk => .asItem declares (h.runs visited hk),h.asked_subset,
    fun _ ht _ hn hk => h.shows _ (ht.asItem declares) rfl hn hk⟩

theorem behind? (c : Option Counter)
    (h : Shows ctx m hoist chain [] keys walk fun out => ∀ site ∈ sites, Stands ctx m site [out]) :
    Shows ctx m hoist chain [] keys (Walk.behind? ctx c walk)
      fun out => ∀ site ∈ sites, Stands ctx m site [out] := by
  cases c with
  | none => exact h
  | some c => exact passing_dummy (h.map _ fun n hn site hs => (hn site hs).after _)

theorem inParens (wanted : Bool) (heritage : Node)
    (h : Shows ctx m hoist chain [] keys walk fun out => ∀ site ∈ sites, Stands ctx m site [out]) :
    Shows ctx m hoist chain [] keys (Walk.inParens ctx wanted heritage walk)
      fun out => ∀ site ∈ sites, Stands ctx m site [out] := by
  unfold Walk.inParens
  split
  · exact passing_dummy (h.map _ fun n hn site hs => (hn site hs).within (List.Subset.refl _))
  · exact h

/-- An operand that is part of the chain is walked as such; any other starts anew. -/
theorem operand {n : Node} {counters : List (Option Counter)} {walk : List (Option Counter) → Walk Node}
    (h : ∀ c, Shows ctx m hoist n.isChain [] keys (walk c) fun out =>
      ∀ site ∈ sites, Stands ctx m site [out]) :
    Shows ctx m hoist true [] keys (Walk.operand ctx n counters walk)
      fun out => ∀ site ∈ sites, Stands ctx m site [out] := by
  unfold Walk.operand
  cases hn : n.isChain with
  | true =>
    rw [hn] at h
    exact h counters
  | false =>
    rw [hn] at h
    exact withChain false ((h []).behind? _)

/-- A counter in a list is walked, and stays as it is. -/
theorem counterItem (c : Option Counter) :
    Shows ctx m hoist chain [] [] (Walk.counterItem ctx c) fun items => items = counterItems ctx c :=
  ⟨fun _ _ => .counterItem c,nofun,fun t _ _ _ _ => fst_run_counterItem ctx c t⟩

theorem afterCounter {f : List (List Node × Node) → Walk β} (c : Option Counter)
    (h : ∀ first, Shows ctx m false chain asked keys (f first) shown') :
    Shows ctx m false chain asked keys (Walk.counterItem ctx c >>= f) shown' :=
  (counterItem c).bind fun first => (h first).mono fun _ hs _ => hs

end Nodes
end Shows
end Walk

end CoverageCounters
