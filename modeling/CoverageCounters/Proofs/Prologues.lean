import Mathlib.Data.List.Flatten
import CoverageCounters.Proofs.HintedExpressions
import CoverageCounters.Proofs.Standing
import CoverageCounters.Proofs.StatementRecords

/-!
Directives at the head of a program or of a function. They are marked before the list is walked, so the
walk gives them back as they are and queues nothing in front of them; the counter of a function goes in
behind them, and so does the prelude of a program. What comes after them is counted as anywhere else, a
string that stands as a statement too.
-/

namespace CoverageCounters

open Walk Traversal

/-- A walked item of a list: the statement with its counters, behind counters. It stands as a directive
only if it was one. -/
structure Node.Rewritten (ctx : Context) (n : Node) (item : List Node × Node) : Prop where
  queued : ∀ k ∈ item.1, k.isCounter ctx.identifier = true
  instruments : n.Instruments ctx item.2
  isDirective : item.2.isDirective = n.isDirective

/-- The place and the statements of a body that is counted; a value stands in a block that returns it. -/
def Body.content? : Body → Option (Span × List Node)
  | .absent => none
  | .block s statements => some (s,statements)
  | .value e => some (e.span,[e.returned])

/-- A body with the counter of its function behind the directives at the head. -/
def Body.Opens (ctx : Context) (i : Nat) (body out : Body) : Prop :=
  ∃ s statements rest, body.content? = some (s,statements) ∧
    out = .block s (statements.takeWhile Node.isDirective ++
      (Counter.function i).statementNode ctx.identifier :: placed rest) ∧
    List.Forall₂ (Node.Rewritten ctx) (statements.dropWhile Node.isDirective) rest

namespace Node

variable {ctx : Context} {n : Node} {t : Traversal}

theorem isString_walk (n : Node) (given : List (Option Counter)) (t : Traversal) :
    ((n.walk ctx given).run t).1.isString = n.isString := by
  cases n with
  | ifElse s test consequent alternate =>
    rw [walk,run_visiting]
    dsimp only
    split <;> rfl
  | _ => rfl

theorem isDirective_walk (n : Node) (given : List (Option Counter)) (t : Traversal) :
    ((n.walk ctx given).run t).1.isDirective = n.isDirective := by
  cases n with
  | expression s inner => exact inner.isString_walk [] _
  | ifElse s test consequent alternate =>
    rw [walk,run_visiting]
    dsimp only
    split <;> rfl
  | _ => rfl

theorem walk_rewrites (ctx : Context) (n : Node) (declares : Bool) :
    Gives ctx (asItem declares (n.walk ctx [])) (n.Rewritten ctx) := by
  have hw : Gives ctx (n.walk ctx []) fun x => n.Instruments ctx x ∧ x.isDirective = n.isDirective :=
    fun t ht => ⟨(n.walk_instruments [] t ht).1,(n.walk_instruments [] t ht).2,n.isDirective_walk [] t⟩
  exact hw.asItem.mono fun item h => ⟨h.1,h.2.1,h.2.2⟩

/-- Where nothing is recorded an item is given back as it is, with nothing in front. -/
theorem asItem_of_quiet (ctx : Context) (n : Node) (ht : t.AnchorBelow) (hq : t.Quiet) (declares : Bool) :
    ((asItem declares (n.walk ctx [])).run t).1 = ([],n) := by
  have hr : Run ctx (fun _ => True) { t with frames := [] :: t.frames, hoist := declares } _ :=
    n.walk_runs_true [] _
  exact Prod.ext (congrArg (List.headD · []) (hr.eq_of_quiet ht hq).2.2) (walk_of_quiet ctx n ht hq)

/-- A directive that is marked is given back as it is, too. -/
theorem asItem_of_skips (ctx : Context) (hn : n.isDirective = true) (ht : t.AnchorBelow)
    (hs : t.marks.skips ⟨.expressionStatement,n.span⟩ = true) (declares : Bool) :
    ((asItem declares (n.walk ctx [])).run t).1 = ([],n) := by
  cases n with
  | expression s inner =>
    let e := Traversal.enter ctx ⟨.expressionStatement,s⟩ none
      { t with frames := [] :: t.frames, hoist := declares }
    have he : e.Quiet := quiet_enter (by rw [Bool.or_eq_true]; exact .inr hs)
    have ha : e.AnchorBelow := AnchorBelow.enter ht _ _
    have hr : Run ctx (fun _ => True) e _ := inner.walk_runs_true [] e
    have hw : ((expression s inner).walk ctx []).run { t with frames := [] :: t.frames, hoist := declares } =
        (expression s ((inner.walk ctx []).run e).1,
          ((inner.walk ctx []).run e).2.leave ⟨.expressionStatement,s⟩ (t.depth + 1)) := by
      rw [walk,run_visiting,run_attempt_of_quiet he]
      rfl
    change ((((expression s inner).walk ctx []).run _).2.frames.headD [],
      (((expression s inner).walk ctx []).run _).1) = _
    rw [hw,walk_of_quiet ctx inner ha he]
    exact congrArg (·,_) (congrArg (List.headD · []) (hr.eq_of_quiet ha he).2.2)
  | _ => cases hn

end Node

section Lists

variable {ctx : Context} {chain : Bool} {t : Traversal} {items : List Node}

theorem walkItems_rewrites (ctx : Context) (items : List Node) :
    Gives ctx (walkItems ctx items) (List.Forall₂ (Node.Rewritten ctx) items) := by
  induction items with
  | nil => exact .pure .nil
  | cons n rest ih => exact (n.walk_rewrites ctx _).bind fun _ hn => ih.bind fun _ hr => .pure (.cons hn hr)

theorem walkItems_of_quiet (ctx : Context) (items : List Node) (ht : t.AnchorBelow) (hq : t.Quiet) :
    ((walkItems ctx items).run t).1 = items.map ([],·) := by
  induction items generalizing t with
  | nil => rfl
  | cons n rest ih =>
    have hr : Run ctx (fun _ => True) t ((asItem n.declaresVariables (n.walk ctx [])).run t).2 :=
      Runs.asItem _ (n.walk_runs_true []) t
    rw [run_walkItems_cons,List.map_cons]
    exact congrArg₂ List.cons (n.asItem_of_quiet ctx ht hq _)
      (ih ((hr.samePlace ht).anchorBelow ht) (hr.quiet ht hq))

/-- Directives that are marked are given back as they are. -/
theorem walkItems_of_ready (hp : ∀ n ∈ items, n.hasPlaces = true) (hd : ∀ n ∈ items, n.isDirective = true)
    (ht : t.Ready ctx chain (items.map fun n => ⟨.expressionStatement,n.span⟩) (items.flatMap Node.keys)) :
    ((walkItems ctx items).run t).1 = items.map ([],·) := by
  induction items generalizing t with
  | nil => rfl
  | cons n rest ih =>
    have hn := hd n List.mem_cons_self
    have hkey : ⟨.expressionStatement,n.span⟩ ∈ n.keys :=
      Node.mem_keys_of_mem_ownKeys (Node.mem_ownKeys_of_isDirective hn)
    have hr : Run ctx (· ∈ n.keys) t ((asItem n.declaresVariables (n.walk ctx [])).run t).2 :=
      Runs.asItem _ (n.walk_runs (fun _ hk => hk) []) t
    rw [List.flatMap_cons] at ht
    have hs : t.marks.skips ⟨.expressionStatement,n.span⟩ = true := by
      rw [ht.asks _ (List.mem_append_left _ hkey) (Node.isDummy_of_isDirective (hp n List.mem_cons_self) hn)]
      exact decide_eq_true List.mem_cons_self
    have hfirst : ∀ k ∈ [(⟨.expressionStatement,n.span⟩ : Key)], k ∈ n.keys :=
      List.forall_mem_singleton.mpr hkey
    have hrest : ∀ k ∈ rest.map (fun n => (⟨.expressionStatement,n.span⟩ : Key)),
        k ∈ rest.flatMap Node.keys := by
      intro k hk
      obtain ⟨m,hm,rfl⟩ := List.mem_map.mp hk
      exact List.mem_flatMap.mpr ⟨m,hm,Node.mem_keys_of_mem_ownKeys
        (Node.mem_ownKeys_of_isDirective (hd m (List.mem_cons_of_mem _ hm)))⟩
    rw [run_walkItems_cons,List.map_cons]
    exact congrArg₂ List.cons (Node.asItem_of_skips ctx hn ht.counting.anchorBelow hs _)
      (ih (fun m hm => hp m (List.mem_cons_of_mem _ hm)) (fun m hm => hd m (List.mem_cons_of_mem _ hm))
        (ht.split hr hfirst hrest).2)

/-- A list whose directives at the head are given back as they are; the rest is rewritten. -/
theorem exists_rewritten (hq : t.QueuesCounters ctx)
    (h : ((walkItems ctx (items.takeWhile Node.isDirective)).run t).1 =
      (items.takeWhile Node.isDirective).map ([],·)) :
    ∃ rest, ((walkItems ctx items).run t).1 = (items.takeWhile Node.isDirective).map ([],·) ++ rest ∧
      List.Forall₂ (Node.Rewritten ctx) (items.dropWhile Node.isDirective) rest := by
  have hw := walkItems_rewrites ctx (items.dropWhile Node.isDirective)
  have hd := walkItems_rewrites ctx (items.takeWhile Node.isDirective) t hq
  refine ⟨_,?_,(hw _ hd.1).2⟩
  conv_lhs => rw [← List.takeWhile_append_dropWhile (p := Node.isDirective) (l := items)]
  rw [run_walkItems_append]
  exact congrArg (· ++ _) h

/-- The directives at the head of a list are given back as they are, if they are marked. -/
theorem walkItems_directives (hp : ∀ n ∈ items, n.hasPlaces = true)
    (ht : t.Ready ctx chain (Action.directiveKeys items) (items.flatMap Node.keys)) :
    ((walkItems ctx (items.takeWhile Node.isDirective)).run t).1 =
      (items.takeWhile Node.isDirective).map ([],·) := by
  have hready : t.Ready ctx chain (Action.directiveKeys items)
      ((items.takeWhile Node.isDirective).flatMap Node.keys) := by
    refine ht.of_count_le fun k => ?_
    conv_rhs => rw [← List.takeWhile_append_dropWhile (p := Node.isDirective) (l := items)]
    rw [List.flatMap_append,List.count_append]
    exact Nat.le_add_right _ _
  refine walkItems_of_ready (fun n hn => ?_) (fun n hn => ?_) hready
  · exact hp n ((List.takeWhile_sublist _).subset hn)
  · exact List.all_eq_true.mp List.all_takeWhile n hn

theorem placed_bare (items : List Node) : placed (items.map ([],·)) = items := by
  induction items with
  | nil => rfl
  | cons n rest ih => rw [List.map_cons,placed_cons,ih,List.nil_append]

/-- The counter of a function goes in behind the directives that are given back. -/
theorem exists_rewritten_statements (counter : Option Counter) (hq : t.QueuesCounters ctx)
    (h : ((walkItems ctx (items.takeWhile Node.isDirective)).run t).1 =
      (items.takeWhile Node.isDirective).map ([],·)) :
    ∃ rest, placed ((walkStatements ctx counter items).run t).1 =
        items.takeWhile Node.isDirective ++ counterStatements ctx counter ++ placed rest ∧
      List.Forall₂ (Node.Rewritten ctx) (items.dropWhile Node.isDirective) rest := by
  have hd := (walkItems_rewrites ctx (items.takeWhile Node.isDirective) t hq).1
  have hc : Run ctx (fun _ => True) _ _ := Runs.counterItem counter
    ((walkItems ctx (items.takeWhile Node.isDirective)).run t).2
  refine ⟨_,?_,(walkItems_rewrites ctx (items.dropWhile Node.isDirective) _ (hc.queuesCounters hd)).2⟩
  rw [walkStatements_eq]
  simp only [run_bind,run_pure,placed_append,fst_run_counterItem,placed_counterItems,h,placed_bare]

/-- The directives at the head of a walked list are those that were there before. -/
theorem prologueLength_placed {nodes statements : List Node} {rest : List (List Node × Node)}
    (hd : ∀ n ∈ nodes, n.isDirective = true) (hs : ∀ n ∈ statements.head?, n.isDirective = false)
    (hr : List.Forall₂ (Node.Rewritten ctx) statements rest) :
    prologueLength (nodes ++ placed rest) = nodes.length := by
  have hp : (placed rest).takeWhile Node.isDirective = [] := by
    cases hr with
    | nil => rfl
    | @cons n item statements rest hn hr =>
      rw [placed_cons]
      cases hq : item.1 with
      | nil => simp [hn.isDirective,hs n rfl]
      | cons k queue =>
        have hk := Node.isDirective_of_isCounter (hn.queued k (hq ▸ List.mem_cons_self))
        simp [hk]
  rw [prologueLength,List.takeWhile_append_of_pos hd,hp,List.append_nil]

end Lists

section Functions

variable {ctx : Context} {m : CoverageMap} {chain : Bool} {t u : Traversal} {i : Nat}

theorem CoverageMap.getElem?_newFunction {c c' : CoverageMap} {name : Option String} {decl loc : Location}
    (h : c.newFunction name decl loc = (.ok i,c')) :
    c'.data.fnMap[i]? = some (FunctionEntry.record ⟨name,decl,loc⟩ i) := by
  unfold newFunction ifOpen at h
  split at h
  · cases h
  · cases h
    simp [functionCount,FunctionEntry.record]

/-- A function that has a body is registered as what the collector reads off it. -/
theorem Action.coverFunction_registers {head : FunctionHead} {key : Option Node} {body : Body}
    {x : Option Counter} (hs : (head.recordedSpan key).isDummy = false)
    (hb : (bodyContent? body).isSome = true)
    (h : (coverFunction ctx head key body).run.run t = (.ok x,u)) :
    ∃ i e, x = some (.function i) ∧ (ctx.functionRecords head key body).functions = [e] ∧
      u.coverage.data.fnMap[i]? = some (e.record i) := by
  obtain ⟨loc,hloc⟩ := ctx.exists_location hs
  obtain ⟨⟨bodySpan,statements⟩,hbody⟩ := Option.isSome_iff_exists.mp hb
  rw [coverFunction,hloc,hbody] at h
  rw [Context.functionRecords,hloc,hbody]
  obtain ⟨i,v,hi,hv⟩ := exists_of_run_bind h
  obtain ⟨y,w,hy,hw⟩ := exists_of_run_bind hv
  cases hw
  refine ⟨i,_,rfl,rfl,?_⟩
  rw [(forM_markSkip_notes hy).tables.functions]
  exact (congrArg (·[i]?) (List.append_nil _)).trans
    (CoverageMap.getElem?_newFunction (run_register_eq_ok hi).1)

/-- The value of an arrow is walked as the return that it becomes. -/
theorem asReturn_eq (ctx : Context) (c : Counter) (e : Node) :
    asReturn ctx c e.span (e.walk ctx []) = passing ctx ⟨.block,e.span⟩ (do
      let first ← counterItem ctx (some c)
      let item ← asItem false (e.returned.walk ctx [])
      return .block e.span (placed (first ++ [item]))) := rfl

theorem Body.directiveKeys_subset (body : Body) :
    ∀ k ∈ ((Action.bodyContent? body).toList.flatMap fun c => Action.directiveKeys c.2),
      k ∈ body.keys ++ body.nodes.flatMap Node.keys := by
  intro k hk
  cases body with
  | absent => cases hk
  | block s statements =>
    have hk : k ∈ Action.directiveKeys statements ++ [] := hk
    rw [List.append_nil] at hk
    obtain ⟨n,hn,rfl⟩ := List.mem_map.mp hk
    refine List.mem_append_right _ (List.mem_flatMap.mpr ⟨n,(List.takeWhile_sublist _).subset hn,?_⟩)
    exact Node.mem_keys_of_mem_ownKeys
      (Node.mem_ownKeys_of_isDirective (List.all_eq_true.mp List.all_takeWhile n hn))
  | value e => cases hk

/-- The body of a function that is counted opens with the directives at its head and the counter. -/
theorem walkBody_opens {body : Body} (hp : ∀ n ∈ body.nodes, n.hasPlaces = true)
    (hb : (Action.bodyContent? body).isSome = true)
    (ht : t.Ready ctx chain ((Action.bodyContent? body).toList.flatMap fun c => Action.directiveKeys c.2)
      (body.keys ++ body.nodes.flatMap Node.keys)) :
    body.Opens ctx i ((walkBody ctx (some (.function i)) body).run t).1 := by
  cases body with
  | absent => cases hb
  | block s statements =>
    have hasked : ((Action.bodyContent? (.block s statements)).toList.flatMap fun c =>
        Action.directiveKeys c.2) = Action.directiveKeys statements := List.append_nil _
    rw [hasked] at ht
    let e := t.enter ctx ⟨.block,s⟩ none
    have he : ((walkItems ctx (statements.takeWhile Node.isDirective)).run e).1 =
        (statements.takeWhile Node.isDirective).map ([],·) := by
      cases ha : e.anchor with
      | none =>
        have hcounting : e.Counting chain := ⟨ha,ht.counting.inChain,ht.counting.synthetic⟩
        exact walkItems_directives hp ⟨ht.fresh.tail,hcounting,ht.tail.asks,ht.queues,ht.parallel⟩
      | some a =>
        -- a hint in front of the body leaves all of it as it is
        have hq : e.Quiet := Or.inr (by rw [isSuppressed,ha]; rfl)
        exact walkItems_of_quiet ctx _ (AnchorBelow.enter ht.counting.anchorBelow _ _) hq
    have hqueues : e.QueuesCounters ctx := ht.queues
    obtain ⟨rest,hrest,hr⟩ := exists_rewritten_statements (some (.function i)) hqueues he
    refine ⟨s,statements,rest,rfl,?_,hr⟩
    rw [walkBody,passing,run_visiting_pure]
    refine (congrArg (Body.block s) hrest).trans ?_
    rw [List.append_assoc]
    rfl
  | value e =>
    have hw := e.returned.walk_rewrites ctx false (t.enter ctx ⟨.block,e.span⟩ none).pastCounter ht.queues
    refine ⟨e.span,[e.returned],[_],rfl,?_,.cons hw.2 .nil⟩
    rw [walkBody,asReturn_eq,passing,run_visiting_pure,run_counterItem_bind]
    rfl

/-- A function at which counting is on is registered, and its body opens with its counter behind the
directives. -/
theorem Node.Walks.function_opens {head : FunctionHead} {key : Option Node} {before after : List Part}
    {body : Body} {listed : Bool} {given : List (Option Counter)}
    (h : (function head key before body after).Walks ctx m listed chain given t)
    (hp : (function head key before body after).hasPlaces = true)
    (hb : (Action.bodyContent? body).isSome = true) :
    ∃ i e key' before' body' after',
      (((function head key before body after).walk ctx given).run t).1 =
        function head key' before' body' after' ∧ body.Opens ctx i body' ∧
      (ctx.functionRecords head key body).functions = [e] ∧ m.data.fnMap[i]? = some (e.record i) := by
  have hreal : ∀ s ∈ (function head key before body after).spans, s.isDummy = false :=
    fun s hs => isDummy_eq_false hp hs
  have hpc : ∀ c ∈ (function head key before body after).children, c.hasPlaces = true :=
    fun c hc => hasPlaces_of_mem_children hp hc
  simp only [children,List.mem_append] at hpc
  have hs : (head.recordedSpan key).isDummy = false := hreal _ List.mem_cons_self
  have hm : Action.Acting ctx (head.key key) (Within fun _ => True)
      (Action.coverFunction ctx head key body) :=
    .coverFunction head key body fun _ _ _ _ => Or.inr trivial
  have hr : ∀ counter, Runs ctx (fun _ => True) _ := function_runs head key before body after
  have hready := h.ready.of_count_le (count_keys_function head key before body after)
  obtain ⟨x,u,hrun,hu,-,heq⟩ := Shows.exists_acted hm hr hs
    (fun t x u h => (Action.coverFunction_notes hs h).1.asked) hready h.failure h.counted
  obtain ⟨i,e,rfl,he,hi⟩ := Action.coverFunction_registers hs hb hrun
  have hwalk : ((function head key before body after).walk ctx given).run t = _ := heq
  have hkeeps : u.coverage.Keeps m := by
    have hrun := hr (some (.function i)) u
    have hfinal := h.keeps
    rw [hwalk] at hfinal
    exact hrun.grows.keeps.trans hfinal
  -- what the function asks for is still asked when its body is reached
  have hasked : ∀ k ∈ ((Action.bodyContent? body).toList.flatMap fun c => Action.directiveKeys c.2),
      k ∈ body.keys ++ body.nodes.flatMap Node.keys := body.directiveKeys_subset
  have hkey : Run ctx (· ∈ key.toList.flatMap Node.keys) u ((walkOption ctx none key).run u).2 :=
    walkOption_runs none (fun n hn => n.walk_runs fun k hk => List.mem_flatMap.mpr ⟨n,hn,hk⟩) u
  have hnone (keys : List Key) : ∀ k ∈ ([] : List Key), k ∈ keys := List.forall_mem_nil _
  obtain ⟨-,hu⟩ := hu.split hkey (hnone _) fun k hk =>
    List.mem_append_right _ (List.mem_append_left _ (hasked k hk))
  have hbefore : Run ctx (· ∈ (before.flatMap Part.nodes).flatMap Node.keys) _
      ((walkParts ctx before).run ((walkOption ctx none key).run u).2).2 :=
    walkParts_runs (fun n hn => n.walk_runs fun k hk => List.mem_flatMap.mpr ⟨n,hn,hk⟩) _
  obtain ⟨-,hu⟩ := hu.split hbefore (hnone _) fun k hk => List.mem_append_left _ (hasked k hk)
  have hopens := walkBody_opens (i := i) (fun n hn => hpc n (.inl (.inr hn))) hb
    (hu.of_count_le fun k => (List.sublist_append_left _ _).count_le k)
  exact ⟨i,e,_,_,_,_,congrArg Prod.fst hwalk,hopens,he,CoverageMap.getElem?_mono hkeeps.functions hi⟩

end Functions

section Spared

variable {ctx : Context}

theorem Context.keptNodes_sublist (ctx : Context) (s : Span) (nodes : List Node) :
    (ctx.keptNodes s nodes).Sublist nodes := by
  unfold keptNodes
  split
  · exact List.nil_sublist _
  · exact .refl _

theorem Context.keptBody_sublist (ctx : Context) (body : Node) : (ctx.keptBody body).Sublist [body] := by
  unfold keptBody
  split
  · exact List.nil_sublist _
  · exact .refl _

namespace Node

def spared : Node → List Node
  | function _ _ _ (.block _ statements) _ => statements.takeWhile isDirective
  | _ => []

theorem kept_sublist (ctx : Context) (n : Node) : (n.kept ctx).Sublist n.children := by
  cases n with
  | function head key before body after =>
    refine .append (.append (.refl _) ?_) (.refl _)
    cases body with
    | absent => exact .refl _
    | block s statements => exact (ctx.keptNodes_sublist s _).trans (List.dropWhile_sublist _)
    | value e => exact ctx.keptNodes_sublist e.span [e]
  | compound form s data init head body =>
    exact .append (.append List.filter_sublist (.refl _)) (ctx.keptBody_sublist body)
  | ifElse s test consequent alternate =>
    refine .cons_cons _ ?_
    change List.Sublist _ ([consequent] ++ alternate.toList)
    refine .append ?_ ?_
    · split
      · exact List.nil_sublist _
      · exact ctx.keptBody_sublist consequent
    · split
      · exact List.nil_sublist _
      · cases alternate with
        | none => exact .refl _
        | some n =>
          rw [Option.toList,List.flatMap_cons,List.flatMap_nil,List.append_nil]
          exact ctx.keptBody_sublist n
  | switch s discriminant cases =>
    exact .cons_cons _ (.flatMap_right _ fun c _ => ctx.keptNodes_sublist c.span c.nodes)
  | bindings s data declarators => exact .flatMap_right _ fun d _ => ctx.keptNodes_sublist d.span d.nodes
  | _ => exact .refl _

/-- No node is counted twice, nor both counted and spared. -/
theorem count_spared_kept (ctx : Context) (n : Node) (k : Key) :
    (n.spared.flatMap keys).count k + ((n.kept ctx).flatMap keys).count k ≤
      (n.children.flatMap keys).count k := by
  have hle := ((n.kept_sublist ctx).flatMap keys).count_le k
  cases n with
  | function head key before body after =>
    cases body with
    | block s statements =>
      have h := ((ctx.keptNodes_sublist s (statements.dropWhile isDirective)).flatMap keys).count_le k
      have he : (statements.flatMap keys).count k =
          ((statements.takeWhile isDirective).flatMap keys).count k +
            ((statements.dropWhile isDirective).flatMap keys).count k := by
        rw [← List.count_append,← List.flatMap_append,List.takeWhile_append_dropWhile]
      simp only [spared,kept,Body.kept,children,Body.nodes,List.flatMap_append,List.count_append]
      omega
    | _ => exact Nat.le_trans (Nat.le_of_eq (Nat.zero_add _)) hle
  | _ => exact Nat.le_trans (Nat.le_of_eq (Nat.zero_add _)) hle

theorem count_flatMap_le {α : Type} {f g : α → List Key} {xs : List α} {k : Key}
    (h : ∀ x ∈ xs, (f x).count k ≤ (g x).count k) : (xs.flatMap f).count k ≤ (xs.flatMap g).count k := by
  induction xs with
  | nil => exact Nat.le_refl _
  | cons x xs ih =>
    rw [List.flatMap_cons,List.flatMap_cons,List.count_append,List.count_append]
    exact Nat.add_le_add (h x List.mem_cons_self) (ih fun y hy => h y (List.mem_cons_of_mem _ hy))

/-- The keys of what is located in a node, with those of the directives that are spared, are keys of the
node, none of them more often. -/
theorem count_located (n : Node) (listed : Bool) (k : Key) :
    ((n.located ctx listed).flatMap fun site => site.2.ownKeys ++ site.2.spared.flatMap keys).count k ≤
      n.keys.count k := by
  have hin : ((n.inside ctx).flatMap fun site => site.2.ownKeys ++ site.2.spared.flatMap keys).count k ≤
      (((n.roles ctx).map Prod.snd).flatMap keys).count k := by
    rw [inside,List.flatMap_assoc,List.flatMap_map]
    exact count_flatMap_le fun r hr => count_located r.2 r.1 k
  have hroles : (n.spared.flatMap keys).count k + (((n.roles ctx).map Prod.snd).flatMap keys).count k ≤
      (n.children.flatMap keys).count k := by
    rcases n.map_roles ctx with he | ⟨s,r,data,declarators,rfl,he⟩
    · rw [he]
      exact n.count_spared_kept ctx k
    · rw [he]
      have hb := ((ctx.keptNodes_sublist r ((bindings r data declarators).kept ctx)).flatMap keys).count_le k
      have hk := (((bindings r data declarators).kept_sublist ctx).flatMap keys).count_le k
      have hkeys : (((exported s (bindings r data declarators)).children).flatMap keys).count k =
          (bindings r data declarators).ownKeys.count k +
            ((bindings r data declarators).children.flatMap keys).count k := by
        rw [← List.count_append,← keys_eq]
        exact congrArg (List.count k) (List.append_nil _)
      rw [hkeys]
      have h0 : ((exported s (bindings r data declarators)).spared.flatMap keys).count k = 0 := rfl
      omega
  rw [located_eq,keys_eq,List.count_append]
  split
  · exact Nat.zero_le _
  · rw [List.flatMap_append,List.count_append]
    split
    · have h0 : (([] : List (Bool × Node)).flatMap fun site =>
          site.2.ownKeys ++ site.2.spared.flatMap keys).count k = 0 := rfl
      omega
    · simp only [List.flatMap_cons,List.flatMap_nil,List.append_nil,List.count_append]
      omega
termination_by sizeOf n
decreasing_by exact sizeOf_of_mem_roles hr

theorem count_flatMap_append {α : Type} (f g : α → List Key) (xs : List α) (k : Key) :
    (xs.flatMap fun x => f x ++ g x).count k = (xs.flatMap f).count k + (xs.flatMap g).count k := by
  induction xs with
  | nil => rfl
  | cons x xs ih =>
    simp only [List.flatMap_cons,List.count_append] at ih ⊢
    omega

end Node

namespace Program

variable {p : Program}

/-- The directives of a program: those at its head, and those at the head of a function at which counting
is on. -/
def directives (ctx : Context) (p : Program) : List Node :=
  p.body.takeWhile Node.isDirective ++ (p.located ctx).flatMap fun site => site.2.spared

theorem isDirective_of_mem_directives {d : Node} (h : d ∈ p.directives ctx) : d.isDirective = true := by
  rcases List.mem_append.mp h with h | h
  · exact List.all_eq_true.mp List.all_takeWhile d h
  · obtain ⟨site,-,h⟩ := List.mem_flatMap.mp h
    unfold Node.spared at h
    split at h
    · exact List.all_eq_true.mp List.all_takeWhile d h
    · cases h

theorem hasPlaces_of_mem_directives (hp : p.hasPlaces = true) {d : Node} (h : d ∈ p.directives ctx) :
    d.hasPlaces = true := by
  rcases List.mem_append.mp h with h | h
  · exact List.all_eq_true.mp hp d ((List.takeWhile_sublist _).subset h)
  · obtain ⟨site,hsite,h⟩ := List.mem_flatMap.mp h
    have hplaces := hasPlaces_of_mem_located hp hsite
    unfold Node.spared at h
    split at h
    · rename_i he
      rw [he] at hplaces
      refine Node.hasPlaces_of_mem_children hplaces (List.mem_append_left _ (List.mem_append_right _ ?_))
      exact (List.takeWhile_sublist _).subset h
    · cases h

/-- Directives are not among the constructs at which counting is on. -/
theorem notMem_located_of_mem_directives (hp : p.hasPlaces = true) (hd : p.hasDistinctPlaces = true)
    {d : Node} (h : d ∈ p.directives ctx) (listed : Bool) : (listed,d) ∉ p.located ctx := by
  intro hm
  have hs := Node.isDummy_of_isDirective (hasPlaces_of_mem_directives hp h) (isDirective_of_mem_directives h)
  let k : Key := ⟨.expressionStatement,d.span⟩
  have hown : k ∈ d.ownKeys := Node.mem_ownKeys_of_isDirective (isDirective_of_mem_directives h)
  have hlocated : (((p.located ctx).flatMap fun site =>
      site.2.ownKeys ++ site.2.spared.flatMap Node.keys).count k) ≤
        ((p.body.dropWhile Node.isDirective).flatMap Node.keys).count k := by
    rw [located,List.flatMap_assoc]
    exact Node.count_flatMap_le fun n _ => n.count_located true k
  have hkeys : p.keys.count k = ((p.body.takeWhile Node.isDirective).flatMap Node.keys).count k +
      ((p.body.dropWhile Node.isDirective).flatMap Node.keys).count k := by
    rw [← List.count_append,← List.flatMap_append,List.takeWhile_append_dropWhile,keys]
  have hone := fresh_keys hd k hs
  rw [Node.count_flatMap_append] at hlocated
  have hcounted : 0 < ((p.located ctx).flatMap fun site => site.2.ownKeys).count k :=
    List.count_pos_iff.mpr (List.mem_flatMap.mpr ⟨_,hm,hown⟩)
  have hdkeys : k ∈ d.keys := Node.mem_keys_of_mem_ownKeys hown
  -- its key would be there twice: as that of a directive, and as that of a construct that is counted
  rcases List.mem_append.mp h with h | h
  · have : 0 < ((p.body.takeWhile Node.isDirective).flatMap Node.keys).count k :=
      List.count_pos_iff.mpr (List.mem_flatMap.mpr ⟨d,h,hdkeys⟩)
    omega
  · obtain ⟨site,hsite,h⟩ := List.mem_flatMap.mp h
    have : 0 < ((p.located ctx).flatMap fun site => site.2.spared.flatMap Node.keys).count k :=
      List.count_pos_iff.mpr (List.mem_flatMap.mpr ⟨site,hsite,List.mem_flatMap.mpr ⟨d,h,hdkeys⟩⟩)
    omega

end Program
end Spared

section Expressions

variable {ctx : Context} {m : CoverageMap} {t u : Traversal} {s : Span}

theorem Action.coverStatement_queues {kind : Kind} {x : Unit} {frame : List Node} {rest : List (List Node)}
    (hs : s.isDummy = false) (hf : t.frames = frame :: rest)
    (h : (coverStatement ctx kind s).run.run t = (.ok x,u)) :
    ∃ i, u.frames = (frame ++ [(Counter.statement i).statementNode ctx.identifier]) :: rest ∧
      u.coverage.data.CountsAt ctx s (.statement i) := by
  obtain ⟨loc,hloc⟩ := ctx.exists_location hs
  rw [coverStatement,hloc] at h
  obtain ⟨i,v,hi,hq⟩ := exists_of_run_bind h
  have hat := CoverageMap.newStatement_countsAt hloc (run_register_eq_ok hi).1
  rw [run_register] at hi
  obtain ⟨-,rfl⟩ := Prod.mk.inj hi
  rw [run_queue,hf] at hq
  cases hq
  exact ⟨i,rfl,hat⟩

/-- An expression that stands as a statement in a list has its counter in front of it. -/
theorem Node.Follows.exists_counter {inner : Node} {items : List Node}
    (h : (expression s inner).Follows ctx m items) (hs : s.isDummy = false) :
    ∃ i before between x after, items = before ++ (Counter.statement i).statementNode ctx.identifier ::
        (between ++ expression s x :: after) ∧
      (∀ k ∈ between, k.isCounter ctx.identifier = true) ∧ inner.Instruments ctx x ∧
      m.data.CountsAt ctx s (.statement i) := by
  obtain ⟨t,rest,hw,hf,hitem⟩ := h
  have hready : t.Ready ctx false [] (⟨.expressionStatement,s⟩ :: inner.keys) := by
    refine hw.ready.of_count_le fun k => ?_
    simp [keys_eq (expression s inner),ownKeys,children]
  have hr (x : Unit) : Runs ctx (fun _ => True) (do return Node.expression s (← inner.walk ctx [])) :=
    (inner.walk_runs_true []).bind fun _ => .pure _
  have hk : (⟨.expressionStatement,s⟩ : Key).isSynthetic = false := hs
  obtain ⟨x,u,hrun,hu,-,heq⟩ := Shows.exists_acted (.coverStatement _ s) hr hk
    (fun t x u h => (Action.coverStatement_notes h).asked) hready hw.failure hw.counted
  have hwalk : ((expression s inner).walk ctx []).run t = _ := heq
  have hf : (t.enter ctx ⟨.expressionStatement,s⟩ none).frames = [] :: rest := hf
  obtain ⟨i,hframes,hcounts⟩ := Action.coverStatement_queues hs hf hrun
  obtain ⟨new,hnew,hcounters⟩ := (hr x u).queues
  have hkeeps := hw.keeps
  rw [hwalk] at hitem hkeeps
  obtain ⟨before,after,hitems⟩ := hitem
  refine ⟨i,before,new,((inner.walk ctx []).run u).1,after,?_,hcounters,
    (inner.walk_instruments [] u hu.queues).2,((hr x u).grows.keeps.trans hkeeps).countsAt hcounts⟩
  have hnew : ((inner.walk ctx []).run u).2.frames = queuedTop new u.frames := hnew
  rw [← hitems]
  change before ++ (((inner.walk ctx []).run u).2.frames.headD [] ++
    [expression s ((inner.walk ctx []).run u).1]) ++ after = _
  rw [hnew,hframes]
  simp [queuedTop]

end Expressions

/-- The directives of a walked program are those that were at its head, and the rest is rewritten. -/
theorem Program.exists_rewritten_prepend {ctx : Context} {p : Program} {coverage : CoverageMap}
    (hp : p.hasPlaces = true) (hd : p.hasDistinctPlaces = true) (hc : coverage.Parallel) (nodes : List Node) :
    ∃ rest, List.Forall₂ (Node.Rewritten ctx) (p.body.dropWhile Node.isDirective) rest ∧
      ((p.walk ctx coverage).1.prepend nodes).body =
        p.body.takeWhile Node.isDirective ++ nodes ++ placed rest := by
  have hready : Traversal.Ready ctx false _ _ _ := ready_start hd hc
  obtain ⟨rest,hrest,hr⟩ := exists_rewritten hready.queues
    (walkItems_directives (List.all_eq_true.mp hp) hready)
  refine ⟨rest,hr,?_⟩
  have hbody : (p.walk ctx coverage).1.body = p.body.takeWhile Node.isDirective ++ placed rest := by
    change placed ((walkItems ctx p.body).run _).1 = _
    rw [hrest,placed,List.flatMap_append]
    exact congrArg (· ++ _) (placed_bare _)
  have hlength : prologueLength (p.walk ctx coverage).1.body =
      (p.body.takeWhile Node.isDirective).length := by
    rw [hbody]
    refine prologueLength_placed (fun n hn => ?_) (fun n hn => ?_) hr
    · exact List.all_eq_true.mp List.all_takeWhile n hn
    · have h := List.head?_dropWhile_not Node.isDirective p.body
      rw [Option.mem_def.mp hn] at h
      exact h
  rw [prepend,hlength,hbody,List.take_left,List.drop_left]

/-- Directives stay at the head, and they are not counted. In the program the prelude comes right behind
them and the rest is rewritten; in a function that is counted its counter does. They are none of the
constructs whose statements are recorded, while an expression that stands as a statement anywhere else has
its counter in front of it, a string too. -/
theorem prologues_instrument {program : Program} {file : SourceFile} {options : Options} {batch : Batch}
    {o : Outcome} (hp : program.hasPlaces = true) (hd : program.hasDistinctPlaces = true)
    (h : (instrument program file options batch).outcome = .ok o) (hs : o.status = .instrumented) :
    (∃ rest, List.Forall₂ (Node.Rewritten (file.context options)) (program.body.dropWhile Node.isDirective)
        rest ∧
      (instrument program file options batch).program.body = program.body.takeWhile Node.isDirective ++
        prelude file.path options o.coverage batch.claim.1 ++ placed rest) ∧
    (∀ listed head key before body after,
      (listed,.function head key before body after) ∈ program.located (file.context options) →
      (Action.bodyContent? body).isSome = true → ∃ i e key' before' body' after',
        .function head key' before' body' after' ∈ (instrument program file options batch).program.nodes ∧
        body.Opens (file.context options) i body' ∧
        ((file.context options).functionRecords head key body).functions = [e] ∧
        o.coverage.fnMap[i]? = some (e.record i)) ∧
    ((∀ d ∈ program.directives (file.context options), ∀ listed,
        (listed,d) ∉ program.located (file.context options)) ∧
      o.coverage.statementMap.Perm
        (statementsOf (file.context options) (program.located (file.context options)))) ∧
    ∀ s inner, (true,.expression s inner) ∈ program.located (file.context options) →
      ∃ items ∈ (instrument program file options batch).program.lists, ∃ i before between x after,
        items = before ++ (Counter.statement i).statementNode (file.context options).identifier ::
          (between ++ .expression s x :: after) ∧
        (∀ k ∈ between, k.isCounter (file.context options).identifier = true) ∧
        inner.Instruments (file.context options) x ∧
        o.coverage.CountsAt (file.context options) s (.statement i) := by
  obtain ⟨hf,ho,hprogram⟩ := instrument_of_instrumented h hs
  obtain ⟨m,hm,hstands⟩ := standing_instrument hp hd h hs
  refine ⟨?_,?_,⟨?_,?_⟩,?_⟩
  · rw [hprogram]
    exact program.exists_rewritten_prepend hp hd (startMap_parallel file.path options) _
  · intro listed head key before body after hsite hb
    obtain ⟨chain,given,t,hw,hout⟩ := (hstands _ hsite).exists_walks
    obtain ⟨i,e,key',before',body',after',hx,hopens,he,hi⟩ :=
      hw.function_opens (Program.hasPlaces_of_mem_located hp hsite) hb
    rw [hx] at hout
    rw [hm] at hi
    exact ⟨i,e,key',before',body',after',hout,hopens,he,hi⟩
  · exact fun d hmem listed => Program.notMem_located_of_mem_directives hp hd hmem listed
  · rw [ho]
    exact Program.statementMap_walk hp hd hf
  · intro s inner hsite
    obtain ⟨items,hitems,hfollows⟩ := (hstands _ hsite).exists_follows
    have hplaces := Program.hasPlaces_of_mem_located hp hsite
    have hspan : s.isDummy = false := Node.isDummy_eq_false hplaces List.mem_cons_self
    obtain ⟨i,before,between,x,after,he,hk,hx,hc⟩ := hfollows.exists_counter hspan
    rw [hm] at hc
    exact ⟨items,hitems,i,before,between,x,after,he,hk,hx,hc⟩

section Sample

def sampleString (text : String) (lo : Nat) : Node :=
  .expression (.ofBounds lo (lo + 4)) <|
    .leaf .stringLiteral (.ofBounds lo (lo + 3)) [("value",.string text)]

/-- The function of `prologueFile`: a directive, a number and a string that is no directive. -/
def prologueFunction : Node :=
  .function ⟨.declaration,.ofBounds 6 35,[],none⟩ (some (sampleName "f" 15)) []
    (.block (.ofBounds 19 35)
      [sampleString "b" 21,.expression (.ofBounds 26 28) (sampleLiteral 0 26),sampleString "c" 29]) []

def prologueProgram : Program :=
  ⟨.script,.ofBounds 1 35,[],[sampleString "a" 1,prologueFunction]⟩

def prologueFile : SourceFile :=
  ⟨"a.js",.ofString "'a'; function f() \x7b 'b'; 0; 'c'; \x7d",.empty⟩

theorem prologueFunction_located :
    (true,prologueFunction) ∈ prologueProgram.located (prologueFile.context {}) :=
  List.mem_flatMap.mpr ⟨prologueFunction,List.mem_singleton_self _,
    Node.mem_located_self (by decide +kernel) rfl⟩

theorem sampleString_located :
    (true,sampleString "c" 29) ∈ prologueProgram.located (prologueFile.context {}) := by
  refine List.mem_flatMap.mpr ⟨prologueFunction,List.mem_singleton_self _,?_⟩
  refine Node.mem_located_of_mem_roles (r := (true,sampleString "c" 29)) (by decide +kernel) ?_
    (Node.mem_located_self (by decide +kernel) rfl)
  have hl : (prologueFile.context {}).leavesOut (.ofBounds 19 35) none = false := by decide +kernel
  simp [Node.roles,prologueFunction,Body.roles,Context.keptNodes,hl,sampleString,Node.isDirective,
    Node.isString,Node.leaf,sampleLiteral]

end Sample

theorem prologues_instrument_sample :
    prologueProgram.hasPlaces = true ∧ prologueProgram.hasDistinctPlaces = true ∧
    ∃ o, (instrument prologueProgram prologueFile {} (.new none)).outcome = .ok o ∧
      o.status = .instrumented ∧
      (∃ rest, (instrument prologueProgram prologueFile {} (.new none)).program.body =
        [sampleString "a" 1] ++ prelude "a.js" {} o.coverage none ++ placed rest) ∧
      (true,sampleString "a" 1) ∉ prologueProgram.located (prologueFile.context {}) ∧
      (∃ i head key before out after,
        Node.function head key before (.block (.ofBounds 19 35) (sampleString "b" 21 ::
            (Counter.function i).statementNode (identifierOf "a.js") :: out)) after ∈
          (instrument prologueProgram prologueFile {} (.new none)).program.nodes) ∧
      ∃ i, o.coverage.CountsAt (prologueFile.context {}) (.ofBounds 29 33) (.statement i) := by
  have hp : prologueProgram.hasPlaces = true := by decide +kernel
  have hd : prologueProgram.hasDistinctPlaces = true := by decide +kernel
  have ho : ∃ o, (instrument prologueProgram prologueFile {} (.new none)).outcome = .ok o ∧
      o.status = .instrumented :=
    exists_instrumented (by decide +kernel) (by decide +kernel) (by decide +kernel)
  obtain ⟨o,h,hs⟩ := ho
  obtain ⟨⟨rest,-,hbody⟩,hfunctions,⟨hspared,-⟩,hstrings⟩ := prologues_instrument hp hd h hs
  obtain ⟨i,e,key,before,body,after,hmem,⟨s,statements,out,hcontent,rfl,-⟩,-,-⟩ :=
    hfunctions _ _ _ _ _ _ prologueFunction_located rfl
  cases hcontent
  obtain ⟨-,-,j,-,-,-,-,-,-,-,hcounts⟩ := hstrings _ _ sampleString_located
  exact ⟨hp,hd,o,h,hs,⟨rest,hbody⟩,hspared _ List.mem_cons_self true,⟨i,_,key,before,_,after,hmem⟩,
    ⟨j,hcounts⟩⟩

end CoverageCounters
