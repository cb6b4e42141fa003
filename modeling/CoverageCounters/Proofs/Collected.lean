import CoverageCounters.Proofs.Collecting
import CoverageCounters.Proofs.Instrumented

/-!
The tables of a pass are what the collector reads off the program. The walk changes the tree as it goes,
but what it puts in has no place in the text and is not counted, and a mark left for a node inside is
met by that node alone.
-/

namespace CoverageCounters

open Walk Traversal

namespace Node

variable {ctx : Context} {n : Node}

/-- The walk of a node adds the records that the collector reads off it. -/
def Collected (ctx : Context) (n : Node) : Prop :=
  ∀ (chain : Bool) (given : List (Option Counter)), (chain = true → n.isChain = true) →
    Collects ctx chain [] n.keys (n.walk ctx given) (n.collect ctx chain)

theorem Collected.alone (h : n.Collected ctx) :
    Collects ctx false [] n.keys (n.walk ctx []) (n.collect ctx false) :=
  h false [] nofun

theorem walk_runs_true (n : Node) (given : List (Option Counter)) :
    Runs ctx (fun _ => True) (n.walk ctx given) :=
  n.walk_runs (fun _ _ => trivial) given

theorem mem_keys_of_mem_ownKeys {k : Key} (h : k ∈ n.ownKeys) : k ∈ n.keys := by
  rw [keys_eq]
  exact List.mem_append_left _ h

/-- The key of the block that a body is walked as, with all keys of the body. -/
theorem mem_keys_body (n : Node) : ⟨.block,n.span⟩ ∈ n.blockKeys ++ n.keys := by
  rcases List.mem_append.mp n.mem_keys_block with hk | hk
  · exact List.mem_append_left _ hk
  · exact List.mem_append_right _ (mem_keys_of_mem_ownKeys hk)

theorem skips_of_isDirective (h : n.isDirective = true) (given : List (Option Counter)) :
    Skips ⟨.expressionStatement,n.span⟩ (n.walk ctx given) := by
  cases n with
  | expression s inner =>
    exact .visiting (.coverStatement _ s) fun _ => (inner.walk_runs_true []).bind fun _ => .pure _
  | _ => cases h

theorem skips_of_isBlock (h : n.isBlock = true) (given : List (Option Counter)) :
    Skips ⟨.block,n.span⟩ (n.walk ctx given) := by
  cases n with
  | block s statements =>
    exact .passing ((Runs.counterItem _).bind fun _ =>
      (walkItems_runs fun m _ => m.walk_runs_true).bind fun _ => .pure _)
  | _ => cases h

theorem skips_of_initKey? {key : Key} (h : Action.initKey? n = some key)
    (given : List (Option Counter)) : Skips key (n.walk ctx given) := by
  cases n with
  | bindings s data declarators =>
    cases h
    intro t ha hs
    have hw : Runs ctx (fun _ => True)
        (walkDeclarators ctx t.hoist declarators >>= fun d => pure (bindings s data d)) :=
      (walkDeclarators_runs _ (fun _ _ => trivial) fun m _ => m.walk_runs_true).bind fun _ => .pure _
    exact Skips.passing hw { t with hoist := false } ha hs
  | function head name before body after =>
    simp only [Action.initKey?,expressionKey?] at h
    split at h
    · cases h
      refine .visiting (.coverFunction head name body fun _ _ _ _ => Or.inr trivial) fun counter => ?_
      exact (walkOption_runs none fun m _ => m.walk_runs_true).bind fun _ =>
        (walkParts_runs fun m _ => m.walk_runs_true).bind fun _ =>
          (walkBody_runs counter (fun _ _ => trivial) fun m _ => m.walk_runs_true).bind fun _ =>
            (walkParts_runs fun m _ => m.walk_runs_true).bind fun _ => .pure _
    · cases h
  | conditional s test consequent alternate =>
    cases h
    refine .visiting (.coverConditional s _ _) fun counters => ?_
    exact (test.walk_runs_true []).bind fun _ =>
      ((consequent.walk_runs_true []).behind? _).bind fun _ =>
        ((alternate.walk_runs_true []).behind? _).bind fun _ => .pure _
  | logical s operator left right =>
    cases h
    have hw : ∀ counters, Runs ctx (fun _ => True) (walkChain ctx s operator left right counters) :=
      walkChain_runs left.walk_runs_true right.walk_runs_true
    intro t ha hs
    cases hc : t.inChain with
    | false =>
      rw [run_walk_outermost hc]
      exact Skips.visiting (.coverChain s left right) hw t ha hs
    | true =>
      rw [run_walk_inChain hc]
      exact Skips.visiting (.pure []) (fun _ => hw given) t ha hs
  | paren s inner =>
    cases h
    exact .passing ((inner.walk_runs_true given).bind fun _ => .pure _)
  | _ => cases h

end Node

section Lists

variable {ctx : Context}

theorem walkNodes_collects {nodes : List Node} (h : ∀ n ∈ nodes, n.Collected ctx) :
    Collects ctx false [] (nodes.flatMap Node.keys) (walkNodes ctx nodes)
      (collectNodes ctx nodes) := by
  induction nodes with
  | nil => exact .pure []
  | cons n rest ih =>
    rw [walkNodes,collectNodes,List.flatMap_cons]
    exact (h n List.mem_cons_self).alone.bind fun _ =>
      (ih fun m hm => h m (List.mem_cons_of_mem _ hm)).map _

theorem walkPart_collects {p : Part} (h : ∀ n ∈ p.nodes, n.Collected ctx) :
    Collects ctx false [] (p.nodes.flatMap Node.keys) (walkPart ctx p) (collectPart ctx p) := by
  cases p with
  | child field n =>
    simp only [Part.nodes,List.flatMap_cons,List.flatMap_nil,List.append_nil]
    exact (h n (List.mem_singleton_self n)).alone.map _
  | children field nodes => exact (walkNodes_collects h).map _

theorem walkParts_collects {parts : List Part}
    (h : ∀ n ∈ parts.flatMap Part.nodes, n.Collected ctx) :
    Collects ctx false [] ((parts.flatMap Part.nodes).flatMap Node.keys) (walkParts ctx parts)
      (collectParts ctx parts) := by
  induction parts with
  | nil => exact .pure []
  | cons p rest ih =>
    rw [List.flatMap_cons] at h
    rw [walkParts,collectParts,List.flatMap_cons,List.flatMap_append]
    exact (walkPart_collects fun n hn => h n (List.mem_append_left _ hn)).bind fun _ =>
      (ih fun n hn => h n (List.mem_append_right _ hn)).map _

theorem walkOption_collects (counter : Option Counter) {o : Option Node}
    (h : ∀ n ∈ o.toList, n.Collected ctx) :
    Collects ctx false [] (o.toList.flatMap Node.keys) (walkOption ctx counter o)
      (collectOption ctx o) := by
  cases o with
  | none => exact .pure none
  | some n =>
    simp only [Option.toList,List.flatMap_cons,List.flatMap_nil,List.append_nil]
    exact ((h n (List.mem_singleton_self n)).alone.behind? counter).map _

theorem walkHeritage_collects (counted : Bool) {o : Option Node}
    (h : ∀ n ∈ o.toList, n.Collected ctx) :
    Collects ctx false [] (o.toList.flatMap Node.keys) (walkHeritage ctx counted o)
      (collectOption ctx o) := by
  cases o with
  | none => exact .pure none
  | some n =>
    simp only [Option.toList,List.flatMap_cons,List.flatMap_nil,List.append_nil]
    exact ((h n (List.mem_singleton_self n)).alone.inParens counted n).map _

/-- The init clause of a loop that is counted is asked to be left out. -/
theorem walkInit_collects (counted : Bool) {init : Option Node}
    (h : ∀ n ∈ init.toList, n.Collected ctx) :
    Collects ctx false (if counted then (init.bind Action.initKey?).toList else [])
      (init.toList.flatMap Node.keys) (walkOption ctx none init) (collectInit ctx counted init) := by
  have ho := walkOption_collects none h
  cases init with
  | none => cases counted <;> exact ho
  | some n =>
    rw [collectInit]
    rw [collectOption] at ho
    cases hk : Action.initKey? n with
    | none => simpa [hk] using ho
    | some key =>
      have hs : Skips key (walkOption ctx none (some n)) := Node.skips_of_initKey? hk []
      have hm : key ∈ (some n).toList.flatMap Node.keys :=
        List.mem_flatMap.mpr ⟨n,List.mem_singleton_self n,
          Node.mem_keys_of_mem_ownKeys (Node.mem_ownKeys_of_initKey? hk)⟩
      simpa [hk] using ho.asking counted hs hm

/-- A side of an `if` that is counted; a hint asks to leave it out. -/
theorem side_collects (asked : Bool) (counter : Option Counter) {n : Node} (h : n.Collected ctx) :
    Collects ctx false (if asked then [⟨.block,n.span⟩] else []) (n.blockKeys ++ n.keys)
      (inBlock ctx counter n fun given => n.walk ctx given)
      (.unlessAsked asked n.span (ctx.bodyRecords true n (n.collect ctx false))) :=
  (Collects.inBlock counter n fun given => h false given nofun).asking asked
    (.inBlock (fun hb => n.skips_of_isBlock hb) n.walk_runs_true) n.mem_keys_body

theorem walkElse_collects (asked : Bool) (counter : Option Counter) {o : Option Node}
    (h : ∀ n ∈ o.toList, n.Collected ctx) :
    Collects ctx false (if asked then o.toList.map fun n => ⟨.block,n.span⟩ else [])
      (o.toList.flatMap fun n => n.blockKeys ++ n.keys) (walkElse ctx counter o)
      (collectElse ctx asked true o) := by
  cases o with
  | none =>
    simp only [Option.toList,List.map_nil,List.flatMap_nil,ite_self,walkElse]
    exact .passing_dummy ((Collects.counterItem counter).map _)
  | some n =>
    rw [collectElse,walkElse]
    simpa using side_collects asked counter (h n (List.mem_singleton_self n))

/-- An item of a list; a directive at the head may be asked to be left out. -/
theorem item_collects {asked : Bool} {n : Node} (ha : asked = true → n.isDirective = true)
    (h : n.Collected ctx) :
    Collects ctx false (if asked then [⟨.expressionStatement,n.span⟩] else []) n.keys
      (n.walk ctx []) (.unlessAsked asked n.span (n.collect ctx false)) := by
  cases asked with
  | false => exact h.alone
  | true =>
    exact h.alone.asking true (n.skips_of_isDirective (ha rfl) [])
      (Node.mem_keys_of_mem_ownKeys (Node.mem_ownKeys_of_isDirective (ha rfl)))

/-- What is asked for in a list: a directive at its head, and those behind it. -/
theorem asked_cons (prologue : Bool) (n : Node) (rest : List Node) :
    (if prologue then Action.directiveKeys (n :: rest) else []) =
      (if prologue && n.isDirective then [⟨.expressionStatement,n.span⟩] else []) ++
        if prologue && n.isDirective then Action.directiveKeys rest else [] := by
  cases prologue <;> cases hd : n.isDirective <;> simp [Action.directiveKeys,hd]

theorem walkItems_collects (prologue : Bool) {items : List Node} (h : ∀ n ∈ items, n.Collected ctx) :
    Collects ctx false (if prologue then Action.directiveKeys items else [])
      (items.flatMap Node.keys) (walkItems ctx items) (collectItems ctx prologue items) := by
  induction items generalizing prologue with
  | nil => cases prologue <;> exact .pure []
  | cons n rest ih =>
    rw [walkItems,collectItems,List.flatMap_cons,asked_cons]
    exact ((item_collects (fun hp => (Bool.and_eq_true_iff.mp hp).2) (h n List.mem_cons_self)).asItem
      n.declaresVariables).bind fun _ =>
        (ih _ fun m hm => h m (List.mem_cons_of_mem _ hm)).map _

/-- The counter of a function comes with marks on the directives before it. -/
theorem walkStatements_collects (counter : Option Counter) {statements : List Node}
    (h : ∀ n ∈ statements, n.Collected ctx) :
    Collects ctx false (if counter.isSome then Action.directiveKeys statements else [])
      (statements.flatMap Node.keys) (walkStatements ctx counter statements)
      (collectItems ctx counter.isSome statements) := by
  induction statements with
  | nil =>
    have hc : (if counter.isSome then Action.directiveKeys [] else []) = [] := ite_self _
    rw [hc]
    exact .counterItem counter
  | cons n rest ih =>
    have hasked : (counter.isSome && n.isDirective) = true → n.isDirective = true :=
      fun hp => (Bool.and_eq_true_iff.mp hp).2
    have hitem := (item_collects hasked (h n List.mem_cons_self)).asItem n.declaresVariables
    have hr : ∀ m ∈ rest, m.Collected ctx := fun m hm => h m (List.mem_cons_of_mem _ hm)
    rw [walkStatements,collectItems,List.flatMap_cons,asked_cons]
    cases hd : n.isDirective with
    | true =>
      rw [hd,Bool.and_true] at hitem
      rw [if_pos rfl,Bool.and_true]
      exact hitem.bind fun _ => (ih hr).map _
    | false =>
      rw [hd,Bool.and_false] at hitem
      rw [if_neg Bool.false_ne_true,Bool.and_false]
      exact .afterCounter counter fun _ => hitem.bind fun _ => (walkItems_collects false hr).map _

/-- The body of a function; its counter comes with marks on the directives. -/
theorem walkBody_collects (counter : Option Counter) {body : Body}
    (h : ∀ n ∈ body.nodes, n.Collected ctx) :
    Collects ctx false
      (if counter.isSome then
        (Action.bodyContent? body).toList.flatMap fun c => Action.directiveKeys c.2 else [])
      (body.keys ++ body.nodes.flatMap Node.keys) (walkBody ctx counter body)
      (collectBody ctx counter.isSome body) := by
  cases body with
  | absent => cases counter <;> exact .pure _
  | block s statements =>
    have hk : ⟨.block,s⟩ ∉ if counter.isSome then Action.directiveKeys statements else [] := by
      cases counter <;> simp [Action.directiveKeys]
    simpa [Action.bodyContent?,Body.keys,Body.nodes,collectBody,walkBody] using
      (((walkStatements_collects counter h).map _).passing hk)
  | value e =>
    have he := (h e (List.mem_singleton_self e)).alone
    cases counter with
    | none =>
      refine (he.map Body.value).of_count_le fun k => ?_
      simp [Body.keys,Body.nodes,List.count_cons]
      omega
    | some c =>
      simpa [Body.keys,Body.nodes,Action.bodyContent?,Action.directiveKeys,walkBody,collectBody] using
        he.asReturn c e.span

theorem walkDeclarator_collects (hoistable : Bool) {d : Declarator}
    (h : ∀ n ∈ d.nodes, n.Collected ctx) :
    Collects ctx false [] (⟨.variableDeclarator,d.span⟩ :: d.nodes.flatMap Node.keys)
      (walkDeclarator ctx hoistable d) (collectDeclarator ctx d) := by
  obtain ⟨s,data,target,init⟩ := d
  refine Collects.visiting_plain (fun _ => .coverInitializer hoistable init) (fun counter => ?_)
    (fun hk => if_pos hk) fun hk t x u hr => ?_
  · exact (h target List.mem_cons_self).alone.bind fun _ =>
      (walkOption_collects counter fun n hn => h n (List.mem_cons_of_mem _ hn)).map _
  · have hs : s.isDummy = false := hk
    rw [hs]
    exact Action.coverInitializer_notes hr

/-- A key before those of each element, or all of them first: each key stands as often. -/
theorem count_flatMap_cons {α : Type} (f : α → Key) (g : α → List Key) (xs : List α) (k : Key) :
    (xs.flatMap fun x => f x :: g x).count k = (xs.map f).count k + (xs.flatMap g).count k := by
  induction xs with
  | nil => rfl
  | cons x xs ih =>
    simp only [List.flatMap_cons,List.map_cons,List.count_append,List.count_cons,ih]
    omega

theorem walkDeclarators_collects (hoistable : Bool) {declarators : List Declarator}
    (h : ∀ n ∈ declarators.flatMap Declarator.nodes, n.Collected ctx) :
    Collects ctx false []
      (declarators.flatMap fun d => ⟨.variableDeclarator,d.span⟩ :: d.nodes.flatMap Node.keys)
      (walkDeclarators ctx hoistable declarators) (collectDeclarators ctx declarators) := by
  induction declarators with
  | nil => exact .pure []
  | cons d rest ih =>
    simp only [List.flatMap_cons,List.mem_append] at h
    rw [walkDeclarators,collectDeclarators,List.flatMap_cons]
    exact (walkDeclarator_collects hoistable fun n hn => h n (.inl hn)).bind fun _ =>
      (ih fun n hn => h n (.inr hn)).map _

end Lists

section Switch

variable {ctx : Context} {switch : Key} {t u : Traversal}

theorem Traversal.Counting.branch?_of_run {chain : Bool} {keys : List Key} (h : t.Counting chain)
    (hr : Run ctx (· ∈ keys) t u) (hs : switch.isSynthetic = false → switch ∉ keys) :
    u.marks.branch? switch = t.marks.branch? switch := by
  cases hsyn : switch.isSynthetic with
  | true => rw [Marks.branch?,Marks.branch?,(h.of_run hr).synthetic _ hsyn,h.synthetic _ hsyn]
  | false => rw [Marks.branch?,hr.get?_marks (notWithin hsyn (hs hsyn)),Marks.branch?]

/-- The walk of cases adds paths to the branch of their switch, if one is noted, and the records of what
is inside. -/
structure CollectsCases {α : Type} (ctx : Context) (switch : Key) (keys : List Key) (w : Walk α)
    (paths : List Location) (r : Records) : Prop where
  runs : ∀ visited : Key → Prop, (∀ k ∈ keys, visited k) → Runs ctx visited w
  tables : Fresh keys → (switch.isSynthetic = false → switch ∉ keys) → ∀ t : Traversal,
    t.Counting false → t.Asks [] keys → (∀ b ∈ t.marks.branch? switch, b < t.coverage.branchCount) →
    (w.run t).2.failure = none →
    (t.coverage.withPaths (t.marks.branch? switch) paths).Extends r (w.run t).2.coverage

theorem casePaths_singleton (c : Case) :
    ctx.casePaths [c] = if ctx.leavesOut c.span none then [] else (ctx.location? c.span).toList := by
  cases hl : ctx.leavesOut c.span none <;> cases hloc : ctx.location? c.span <;>
    simp [Context.casePaths,hl,hloc]

theorem walkCase_collects {c : Case} (h : ∀ n ∈ c.nodes, n.Collected ctx) :
    CollectsCases ctx switch (⟨.switchCase,c.span⟩ :: c.nodes.flatMap Node.keys)
      (walkCase ctx switch c) (ctx.casePaths [c]) (collectCase ctx c) := by
  obtain ⟨s,test,consequent⟩ := c
  simp only [Case.nodes,List.mem_append] at h
  have hi : ∀ counter : Option Counter, Collects ctx false []
      ((test.toList ++ consequent).flatMap Node.keys) (do
        let test ← walkOption ctx none test
        let first ← counterItem ctx counter
        let items ← walkItems ctx consequent
        return Case.mk s test (placed (first ++ items)))
      (collectOption ctx test ++ collectItems ctx false consequent) := by
    intro counter
    rw [List.flatMap_append]
    exact (walkOption_collects none fun n hn => h n (.inl hn)).bind fun _ =>
      .afterCounter counter fun _ => (walkItems_collects false fun n hn => h n (.inr hn)).map _
  have hr : ∀ visited : Key → Prop,
      (∀ k ∈ (test.toList ++ consequent).flatMap Node.keys, visited k) → ∀ x, Runs ctx visited _ :=
    fun visited hv x => (hi x).runs visited hv
  refine ⟨fun visited hv => ?_,fun hf _ t hc ha hb hn => ?_⟩
  · exact .visiting (Or.inr (hv _ List.mem_cons_self)) (.coverCase s switch)
      (hr visited fun k hk => hv k (List.mem_cons_of_mem _ hk))
  · have hs : t.marks.skips ⟨.switchCase,s⟩ = false :=
      hc.skips_eq_false ha (Or.inr List.mem_cons_self) List.not_mem_nil
    have hasks : t.Asks [] ((test.toList ++ consequent).flatMap Node.keys) :=
      fun k hk => ha k (List.mem_cons_of_mem _ hk)
    rw [walkCase] at hn ⊢
    rw [collectCase,casePaths_singleton,Case.span]
    rcases visiting_cases (.coverCase s switch) (hr _ fun _ => id) hc hs hn with
      ⟨hl,heq⟩ | ⟨hl,x,u,he,hu,hnu,heq⟩
    · rw [heq,Context.unlessLeftOut,if_pos hl,if_pos hl,CoverageMap.withPaths_nil]
      exact .refl _
    · have hl' : ctx.leavesOut s none = false := hl
      rw [heq,Context.unlessLeftOut,hl']
      cases he with
      | idle hsyn =>
        have hloc : ctx.location? s = none := ctx.location?_eq_none_iff.mpr hsyn
        rw [hloc]
        simp only [Option.toList,Bool.false_eq_true,if_false,CoverageMap.withPaths_nil]
        exact (hi none).tables hf.tail _ hu hasks hnu
      | done hsyn hrun =>
        obtain ⟨hmarks,hext⟩ := Action.coverCase_notes hrun
        exact hext.trans ((hi x).tables hf.tail u hu (hasks.of_asked rfl (.of_eq hmarks)) hnu)

theorem walkCases_collects {cases : List Case}
    (h : ∀ n ∈ cases.flatMap Case.nodes, n.Collected ctx) :
    CollectsCases ctx switch
      (cases.flatMap fun c => ⟨.switchCase,c.span⟩ :: c.nodes.flatMap Node.keys)
      (walkCases ctx switch cases) (ctx.casePaths cases) (collectCases ctx cases) := by
  induction cases with
  | nil =>
    refine ⟨fun _ _ => .pure [],fun _ _ t _ _ _ _ => ?_⟩
    change (t.coverage.withPaths _ []).Extends ∅ t.coverage
    rw [CoverageMap.withPaths_nil]
    exact .refl _
  | cons c rest ih =>
    simp only [List.flatMap_cons,List.mem_append] at h
    have h₁ : CollectsCases ctx switch _ (walkCase ctx switch c) _ _ :=
      walkCase_collects fun n hn => h n (.inl hn)
    have h₂ := ih fun n hn => h n (.inr hn)
    rw [List.flatMap_cons]
    refine ⟨fun visited hv => ?_,fun hf hs t hc ha hb hn => ?_⟩
    · exact (h₁.runs visited fun k hk => hv k (List.mem_append_left _ hk)).bind fun _ =>
        (h₂.runs visited fun k hk => hv k (List.mem_append_right _ hk)).bind fun _ => .pure _
    · have hrun := h₁.runs _ (fun _ => id) t
      have hs₁ := fun hr hk => hs hr (List.mem_append_left _ hk)
      have hu := hc.of_run hrun
      have hnu := (h₂.runs _ (fun _ => id) _).failure_eq_none hu.anchorBelow hn
      have hau : Asks [] _ _ := Asks.of_run (fun k hk => ha k (List.mem_append_right _ hk)) hrun
        fun _ => hf.notMem_left
      have hbu := hc.branch?_of_run hrun hs₁
      have ht₁ := h₁.tables hf.left hs₁ t hc (fun k hk => ha k (List.mem_append_left _ hk)) hb hnu
      have hle := ht₁.branchCount_le
      rw [CoverageMap.branchCount_withPaths] at hle
      have ht₂ := h₂.tables hf.right (fun hr hk => hs hr (List.mem_append_right _ hk)) _ hu hau
        (fun b hbb => Nat.lt_of_lt_of_le (hb b (hbu ▸ hbb)) hle) hn
      rw [hbu] at ht₂
      have hp : ctx.casePaths (c :: rest) = ctx.casePaths [c] ++ ctx.casePaths rest :=
        List.filterMap_append (l := [c])
      rw [hp,← CoverageMap.withPaths_withPaths,collectCases]
      refine (ht₁.withPaths fun b hbb => ?_).trans ht₂
      rw [CoverageMap.branchCount_withPaths]
      exact hb b hbb

section Branch

variable {s : Span} {cases : List Case} {r : Records} {m m' : CoverageMap}

theorem switchRecords_of_some {loc : Location} (h : ctx.location? s = some loc) :
    ctx.switchRecords s cases =
      { branches := [⟨loc,.switch,ctx.casePaths cases,loc.start.line⟩] } ++
        ctx.statementRecords s := by
  rw [Context.switchRecords,Context.branchRecords,h]
  rfl

theorem switchRecords_of_isDummy (h : s.isDummy = true) : ctx.switchRecords s cases = ∅ := by
  rw [Context.switchRecords,ctx.branchRecords_of_isDummy h,ctx.statementRecords_of_isDummy h]
  rfl

def switchBranch? (s : Span) (m : CoverageMap) : Option Nat :=
  if s.isDummy then none else some m.branchCount

theorem lt_of_mem_switchBranch? (h : m.Extends (ctx.switchRecords s [] ++ r) m') {b : Nat}
    (hb : b ∈ switchBranch? s m) : b < m'.branchCount := by
  rw [switchBranch?] at hb
  cases hs : s.isDummy with
  | true =>
    rw [hs] at hb
    cases hb
  | false =>
    rw [hs] at hb
    cases hb
    obtain ⟨loc,hl⟩ := ctx.exists_location hs
    rw [switchRecords_of_some hl] at h
    rw [CoverageMap.branchCount,CoverageMap.branchCount,h.branches,List.length_append]
    exact Nat.lt_add_of_pos_right (Nat.succ_pos _)

theorem extends_switch (cases : List Case) (h : m.Extends (ctx.switchRecords s [] ++ r) m') :
    m.Extends (ctx.switchRecords s cases ++ r)
      (m'.withPaths (switchBranch? s m) (ctx.casePaths cases)) := by
  rw [switchBranch?]
  cases hs : s.isDummy with
  | true =>
    rw [switchRecords_of_isDummy hs] at h ⊢
    exact h
  | false =>
    obtain ⟨loc,hl⟩ := ctx.exists_location hs
    rw [switchRecords_of_some hl,Records.append_assoc] at h ⊢
    exact h.withPaths_first

/-- A switch that is entered has its branch noted, unless it has no place. -/
theorem entered_switch {keys : List Key}
    (he : Enters ctx ⟨.switch,s⟩ none (Action.coverSwitch ctx s) () t () u) (hu : u.Counting false)
    (ha : t.Asks [] keys) :
    t.coverage.Extends (ctx.switchRecords s []) u.coverage ∧
      u.marks.branch? ⟨.switch,s⟩ = switchBranch? s t.coverage ∧ u.Asks [] keys := by
  cases he with
  | idle hk =>
    have hs : s.isDummy = true := hk
    rw [switchRecords_of_isDummy hs,switchBranch?,hs,Marks.branch?,hu.synthetic _ hk]
    exact ⟨.refl _,rfl,ha⟩
  | done hk h =>
    have hs : s.isDummy = false := hk
    obtain ⟨hn,hb⟩ := Action.coverSwitch_notes h
    refine ⟨hn.tables,?_,ha.of_asked rfl hn.asked⟩
    rw [hb hs,switchBranch?,hs]
    rfl

end Branch

/-- A switch is entered with its branch noted, and nothing inside is visited under its key. -/
theorem Node.walk_switch_collects {s : Span} {discriminant : Node} {cases : List Case}
    (hd : discriminant.Collected ctx) (hcs : ∀ n ∈ cases.flatMap Case.nodes, n.Collected ctx)
    (given : List (Option Counter)) :
    Collects ctx false []
      (⟨.switch,s⟩ :: (discriminant.keys ++
        cases.flatMap fun c => ⟨.switchCase,c.span⟩ :: c.nodes.flatMap Node.keys))
      ((Node.switch s discriminant cases).walk ctx given)
      ((Node.switch s discriminant cases).collect ctx false) := by
  have h₁ := hd.alone
  have h₂ : CollectsCases ctx ⟨.switch,s⟩ _ (walkCases ctx ⟨.switch,s⟩ cases) _ _ :=
    walkCases_collects hcs
  rw [Node.walk,Node.collect]
  have hr : ∀ visited : Key → Prop, (∀ k ∈ discriminant.keys ++
      cases.flatMap (fun c => ⟨.switchCase,c.span⟩ :: c.nodes.flatMap Node.keys), visited k) →
      ∀ _ : Unit, Runs ctx visited (do
        let discriminant ← discriminant.walk ctx []
        let cases ← walkCases ctx ⟨.switch,s⟩ cases
        return Node.switch s discriminant cases) := fun visited hv _ =>
    (h₁.runs visited fun k hk => hv k (List.mem_append_left _ hk)).bind fun _ =>
      (h₂.runs visited fun k hk => hv k (List.mem_append_right _ hk)).bind fun _ => .pure _
  refine ⟨fun visited hv => ?_,nofun,fun hf t hc ha hn => ?_⟩
  · exact .visiting (Or.inr (hv _ List.mem_cons_self)) (.coverSwitch s)
      (hr visited fun k hk => hv k (List.mem_cons_of_mem _ hk))
  · have hs : t.marks.skips ⟨.switch,s⟩ = false :=
      hc.skips_eq_false ha (Or.inr List.mem_cons_self) List.not_mem_nil
    rcases visiting_cases (.coverSwitch s) (hr _ fun _ => id) hc hs hn with
      ⟨hl,heq⟩ | ⟨hl,x,u,he,hu,hnu,heq⟩
    · rw [heq,Context.unlessLeftOut,if_pos hl]
      exact .refl _
    · have hl' : ctx.leavesOut s none = false := hl
      rw [heq,Context.unlessLeftOut,hl']
      obtain ⟨hown,hbranch,hasks⟩ : t.coverage.Extends (ctx.switchRecords s []) u.coverage ∧
          u.marks.branch? ⟨.switch,s⟩ = switchBranch? s t.coverage ∧ u.Asks [] (_ ++ _) :=
        entered_switch he hu fun k hk => ha k (List.mem_cons_of_mem _ hk)
      -- what is inside has other keys, so the branch is still noted when the cases are walked
      have hnot := fun hreal hk => hf.notMem_tail hreal (List.mem_append_left _ hk)
      have hrun := h₁.runs _ (fun _ => id) u
      have hv := hu.of_run hrun
      have hnv := (h₂.runs _ (fun _ => id) _).failure_eq_none hv.anchorBelow hnu
      have hbv := (hu.branch?_of_run hrun hnot).trans hbranch
      have ht₁ := hown.trans (h₁.tables hf.tail.left u hu
        (fun k hk => hasks k (List.mem_append_left _ hk)) hnv)
      have hav := Asks.of_run (fun k hk => hasks k (List.mem_append_right _ hk)) hrun
        fun _ => hf.tail.notMem_left
      have ht₂ := h₂.tables hf.tail.right
        (fun hreal hk => hf.notMem_tail hreal (List.mem_append_right _ hk)) _ hv hav
        (fun b hb => lt_of_mem_switchBranch? ht₁ (hbv ▸ hb)) hnu
      rw [hbv] at ht₂
      have ht := (extends_switch cases ht₁).trans ht₂
      rw [Records.append_assoc] at ht
      exact ht

end Switch

namespace Node

variable {ctx : Context}

section Keys

-- The keys of a construct as its walk meets them; no key stands more often there than in the construct.

theorem count_keys_function (head : FunctionHead) (key : Option Node) (before : List Part) (body : Body)
    (after : List Part) (k : Key) :
    (head.key key :: (key.toList.flatMap keys ++ ((before.flatMap Part.nodes).flatMap keys ++
      ((body.keys ++ body.nodes.flatMap keys) ++ (after.flatMap Part.nodes).flatMap keys)))).count k ≤
      (function head key before body after).keys.count k := by
  rw [keys_eq (function head key before body after)]
  simp only [ownKeys,children,List.count_cons,List.count_append,List.cons_append,List.flatMap_append]
  omega

theorem count_keys_compound (form : CompoundForm) (s : Span) (data : Attributes) (init : Option Node)
    (head : List Part) (body : Node) (k : Key) :
    (⟨form.kind,s⟩ :: (init.toList.flatMap keys ++ ((head.flatMap Part.nodes).flatMap keys ++
      (body.blockKeys ++ body.keys)))).count k ≤ (compound form s data init head body).keys.count k := by
  rw [keys_eq (compound form s data init head body)]
  simp only [ownKeys,children,List.count_cons,List.count_append,List.cons_append,
    List.flatMap_append,List.flatMap_cons,List.flatMap_nil,List.append_nil]
  omega

theorem count_keys_ifElse (s : Span) (test consequent : Node) (alternate : Option Node) (k : Key) :
    (⟨.if,s⟩ :: (test.keys ++ ((consequent.blockKeys ++ consequent.keys) ++
      alternate.toList.flatMap fun n => n.blockKeys ++ n.keys))).count k ≤
      (ifElse s test consequent alternate).keys.count k := by
  rw [keys_eq (ifElse s test consequent alternate)]
  cases alternate <;> simp only [ownKeys,children,Option.toList,List.flatMap_cons,List.flatMap_nil,
    List.cons_append,List.count_cons,List.count_append,List.count_nil] <;> omega

theorem count_keys_switch (s : Span) (discriminant : Node) (cases : List Case) (k : Key) :
    (⟨.switch,s⟩ :: (discriminant.keys ++
      cases.flatMap fun c => ⟨.switchCase,c.span⟩ :: c.nodes.flatMap keys)).count k ≤
      (switch s discriminant cases).keys.count k := by
  rw [keys_eq (switch s discriminant cases)]
  simp only [ownKeys,children,List.count_cons,List.count_append,count_flatMap_cons,
    List.cons_append,List.flatMap_cons,List.flatMap_assoc]
  omega

theorem count_keys_bindings (s : Span) (data : Attributes) (declarators : List Declarator) (k : Key) :
    (⟨.variableDeclaration,s⟩ ::
      declarators.flatMap fun d => ⟨.variableDeclarator,d.span⟩ :: d.nodes.flatMap keys).count k ≤
      (bindings s data declarators).keys.count k := by
  rw [keys_eq (bindings s data declarators)]
  simp only [ownKeys,children,List.count_cons,List.count_append,count_flatMap_cons,
    List.cons_append,List.flatMap_assoc]
  omega

end Keys

theorem walk_function_collects {head : FunctionHead} {key : Option Node} {before : List Part}
    {body : Body} {after : List Part}
    (h : ∀ m ∈ (function head key before body after).children, m.Collected ctx)
    (given : List (Option Counter)) :
    Collects ctx false [] (function head key before body after).keys
      ((function head key before body after).walk ctx given)
      ((function head key before body after).collect ctx false) := by
  simp only [children,List.mem_append] at h
  have hkey := walkOption_collects none fun n hn => h n (.inl (.inl (.inl hn)))
  have hbefore := walkParts_collects fun n hn => h n (.inl (.inl (.inr hn)))
  have hbody := fun counter => walkBody_collects counter fun n hn => h n (.inl (.inr hn))
  have hafter := walkParts_collects fun n hn => h n (.inr hn)
  have hi : ∀ counter : Option Counter, Collects ctx false _ _ _ _ := fun counter =>
    hkey.bind fun k => hbefore.bind fun b => (hbody counter).bind fun x =>
      hafter.map fun a => function head k b x a
  refine Collects.of_count_le (Collects.visiting _ _ (fun visited hv => ?_) hi (fun hk => ?_)
    fun hk t x u hr => ?_) fun k => ?_
  · refine .coverFunction head key body fun c hb n hn => Or.inr (hv _ (List.mem_cons_of_mem _ ?_))
    refine (hi (some (.function 0))).asked_subset _ ?_
    have hb : Action.bodyContent? body = some c := hb
    simp only [List.nil_append,List.append_nil,Option.isSome_some,if_true,hb,Option.toList,
      List.flatMap_cons,List.flatMap_nil]
    exact List.mem_map.mpr ⟨n,hn,rfl⟩
  · have hs : (head.recordedSpan key).isDummy = true := hk
    have hl : ctx.location? (head.recordedSpan key) = none :=
      ctx.location?_eq_none_iff.mpr hs
    rw [Context.functionRecords,hl,hs]
    exact ⟨rfl,rfl,rfl⟩
  · have hs : (head.recordedSpan key).isDummy = false := hk
    obtain ⟨hn,hx⟩ := Action.coverFunction_notes hs hr
    rw [hs]
    cases hb : Action.bodyContent? body with
    | none =>
      have habs : body = .absent := by cases body <;> first | rfl | cases hb
      subst habs
      rw [hb] at hn
      refine ⟨?_,rfl⟩
      simpa using hn
    | some c =>
      rw [hb] at hx hn
      have hx : x.isSome = true := hx
      rw [hx]
      refine ⟨?_,rfl⟩
      simpa using hn
  · exact count_keys_function head key before body after k

theorem walk_compound_collects {form : CompoundForm} {s : Span} {data : List (String × Json)}
    {init : Option Node} {head : List Part} {body : Node}
    (h : ∀ m ∈ (compound form s data init head body).children, m.Collected ctx)
    (given : List (Option Counter)) :
    Collects ctx false [] (compound form s data init head body).keys
      ((compound form s data init head body).walk ctx given)
      ((compound form s data init head body).collect ctx false) := by
  simp only [children,List.mem_append,List.mem_singleton] at h
  have hinit := fun counted => walkInit_collects counted fun n hn => h n (.inl (.inl hn))
  have hhead := walkParts_collects fun n hn => h n (.inl (.inr hn))
  have hbody := fun given => h body (.inr rfl) false given (by simp)
  have hi : ∀ counted : Bool, Collects ctx false _ _ _ _ := fun counted =>
    (hinit counted).bind fun i => hhead.bind fun p =>
      (Collects.asBody counted body hbody).map fun b => compound form s data i p b
  refine Collects.of_count_le (Collects.visiting _ _ (fun visited hv => ?_) hi (fun hk => ?_)
    fun hk t x u hr => ?_) fun k => ?_
  · refine .coverCompound form s fun k hk => Or.inr (hv _ (List.mem_cons_of_mem _ ?_))
    refine (hi true).asked_subset _ ?_
    simpa using hk
  · have hs : s.isDummy = true := hk
    rw [ctx.statementRecords_of_isDummy hs,hs]
    exact ⟨rfl,rfl,rfl⟩
  · have hs : s.isDummy = false := hk
    obtain ⟨hn,rfl⟩ := Action.coverCompound_notes hr
    rw [hs]
    refine ⟨?_,rfl⟩
    simpa using hn
  · exact count_keys_compound form s data init head body k

theorem walk_ifElse_collects {s : Span} {test consequent : Node} {alternate : Option Node}
    (h : ∀ m ∈ (ifElse s test consequent alternate).children, m.Collected ctx)
    (given : List (Option Counter)) :
    Collects ctx false [] (ifElse s test consequent alternate).keys
      ((ifElse s test consequent alternate).walk ctx given)
      ((ifElse s test consequent alternate).collect ctx false) := by
  simp only [children,List.mem_cons] at h
  have htest := (h test (.inl rfl)).alone
  have hcons := h consequent (.inr (.inl rfl))
  have hv : Collects ctx false []
      (⟨.if,s⟩ :: (test.keys ++ ((consequent.blockKeys ++ consequent.keys) ++
        alternate.toList.flatMap fun n => n.blockKeys ++ n.keys)))
      ((ifElse s test consequent alternate).walk ctx given)
      ((ifElse s test consequent alternate).collect ctx false) := by
    refine Collects.visiting
      (fun counters => if counters.isSome then ctx.sideKeys s consequent alternate else [])
      (fun counters => test.collect ctx false ++
        if counters.isSome then
          .unlessAsked (ctx.directives.hintFor? s = some .consequent) consequent.span
            (ctx.bodyRecords true consequent (consequent.collect ctx false)) ++
          collectElse ctx (ctx.directives.hintFor? s = some .alternate) true alternate
        else consequent.collect ctx false ++ collectOption ctx alternate)
      (fun visited hv => ?_) (fun counters => ?_) (fun hk => ?_) fun hk t x u hr => ?_
    · simp only [List.mem_cons,List.mem_append] at hv
      refine .coverIf s (Or.inr (hv _ (.inr (.inr (.inl ?_))))) ?_
      · exact List.mem_append.mp consequent.mem_keys_body
      · cases alternate with
        | none => exact Or.inl rfl
        | some a => exact Or.inr (hv _ (.inr (.inr (.inr (by simpa using a.mem_keys_body)))))
    · cases counters with
      | none =>
        have halternate := walkOption_collects none fun n hn => h n (.inr (.inr hn))
        refine (htest.bind fun _ => hcons.alone.bind fun _ => halternate.map _).of_count_le
          fun k => ?_
        cases alternate <;> simp only [Option.toList,List.flatMap_cons,List.flatMap_nil,
          List.count_append,List.count_nil] <;> omega
      | some cs =>
        have hside := side_collects (ctx.directives.hintFor? s = some .consequent) cs.1 hcons
        have helse := walkElse_collects (ctx.directives.hintFor? s = some .alternate) cs.2
          fun n hn => h n (.inr (.inr hn))
        simp only [decide_eq_true_eq] at hside helse
        exact htest.bind fun x => hside.bind fun c => helse.map fun a => ifElse s x c (some a)
    · have hs : s.isDummy = true := hk
      have hh : ctx.directives.hintFor? s = none := if_pos hs
      refine ⟨ctx.branchRecords_of_isDummy hs,rfl,?_⟩
      rw [hs,hh]
      cases alternate <;> rfl
    · have hs : s.isDummy = false := hk
      obtain ⟨hn,hx⟩ := Action.coverIf_notes hr
      rw [hx,hs]
      exact ⟨hn,rfl⟩
  exact hv.of_count_le (count_keys_ifElse s test consequent alternate)

theorem walk_logical_collects {s : Span} {operator : LogicalOperator} {left right : Node} {chain : Bool}
    (h : ∀ m ∈ (logical s operator left right).children, m.Collected ctx)
    (given : List (Option Counter)) :
    Collects ctx chain [] (logical s operator left right).keys
      ((logical s operator left right).walk ctx given)
      ((logical s operator left right).collect ctx chain) := by
  have hk : (logical s operator left right).keys = ⟨.logical,s⟩ :: (left.keys ++ right.keys) := by
    simp [keys_eq (logical s operator left right),ownKeys,children]
  have hleft := fun given => h left (by simp [children]) left.isChain given id
  have hright := fun given => h right (by simp [children]) right.isChain given id
  have hw : ∀ counters, Collects ctx chain [] (left.keys ++ right.keys)
      (walkChain ctx s operator left right counters)
      (left.collect ctx left.isChain ++ right.collect ctx right.isChain) := fun _ =>
    .withChain true ((Collects.operand hleft).bind fun _ => (Collects.operand hright).map _)
  refine ⟨fun visited hv => walk_runs _ hv given,by rintro _ ⟨⟩,fun hf t hcount ha hn => ?_⟩
  rw [hk] at hf ha
  cases chain with
  | false =>
    rw [run_walk_outermost hcount.inChain] at hn ⊢
    refine (Collects.visiting_plain (fun _ => .coverChain s left right) hw (fun hs => ?_)
      fun _ _ _ _ => Action.coverChain_notes).tables hf t hcount ha hn
    exact ctx.branchRecords_of_isDummy hs
  | true =>
    rw [run_walk_inChain hcount.inChain] at hn ⊢
    exact (Collects.visiting_pure fun _ => hw given).tables hf t hcount ha hn

theorem walk_conditional_collects {s : Span} {test consequent alternate : Node}
    (h : ∀ m ∈ (conditional s test consequent alternate).children, m.Collected ctx)
    (given : List (Option Counter)) :
    Collects ctx false [] (conditional s test consequent alternate).keys
      ((conditional s test consequent alternate).walk ctx given)
      ((conditional s test consequent alternate).collect ctx false) := by
  have hk : (conditional s test consequent alternate).keys =
      ⟨.conditional,s⟩ :: (test.keys ++ (consequent.keys ++ alternate.keys)) := by
    simp [keys_eq (conditional s test consequent alternate),ownKeys,children]
  rw [hk]
  have htest := (h test (by simp [children])).alone
  have hconsequent := (h consequent (by simp [children])).alone
  have halternate := (h alternate (by simp [children])).alone
  refine .visiting_plain (fun _ => .coverConditional s _ _) (fun counters => ?_) (fun hs => ?_)
    fun _ _ _ _ => Action.coverConditional_notes
  · exact htest.bind fun _ => (hconsequent.behind? _).bind fun _ => (halternate.behind? _).map _
  · exact ctx.branchRecords_of_isDummy hs

theorem walk_classDeclaration_collects {s : Span} {data : List (String × Json)} {name : Node}
    {before : List Part} {heritage : Option Node} {after : List Part}
    (h : ∀ m ∈ (classDeclaration s data name before heritage after).children, m.Collected ctx)
    (given : List (Option Counter)) :
    Collects ctx false [] (classDeclaration s data name before heritage after).keys
      ((classDeclaration s data name before heritage after).walk ctx given)
      ((classDeclaration s data name before heritage after).collect ctx false) := by
  simp only [children,List.mem_append,List.mem_cons] at h
  have hk : (classDeclaration s data name before heritage after).keys =
      ⟨.classDeclaration,s⟩ :: (name.keys ++ ((before.flatMap Part.nodes).flatMap keys ++
        (heritage.toList.flatMap keys ++ (after.flatMap Part.nodes).flatMap keys))) := by
    simp [keys_eq (classDeclaration s data name before heritage after),ownKeys,children]
  rw [hk]
  have hname := (h name (.inl (.inl (.inl rfl)))).alone
  have hbefore := walkParts_collects fun n hn => h n (.inl (.inl (.inr hn)))
  have hheritage := fun counted => walkHeritage_collects counted fun n hn => h n (.inl (.inr hn))
  have hafter := walkParts_collects fun n hn => h n (.inr hn)
  exact .visiting_pure fun counted => hname.bind fun _ => hbefore.bind fun _ =>
    (hheritage counted).bind fun _ => hafter.map _

theorem walk_collected (n : Node) : n.Collected ctx := by
  induction n using induction_children with
  | step n hc =>
    intro chain given hchain
    have hone : ∀ m ∈ n.children, Collects ctx false [] m.keys (m.walk ctx []) (m.collect ctx false) :=
      fun m hm => (hc m hm).alone
    have halone : n.isChain = false → chain = false := by
      intro hn
      cases chain with
      | false => rfl
      | true => exact (hchain rfl).symm.trans hn
    cases n with
    | plain head parts =>
      obtain rfl := halone rfl
      rw [keys_eq]
      exact (walkParts_collects hc).map _
    | paren s inner =>
      have hk : (paren s inner).keys = ⟨.parenthesized,s⟩ :: inner.keys := by
        simp [keys_eq (paren s inner),ownKeys,children]
      rw [hk]
      exact ((hc inner List.mem_cons_self chain given hchain).map _).passing List.not_mem_nil
    | logical s operator left right => exact walk_logical_collects hc given
    | conditional s test consequent alternate =>
      obtain rfl := halone rfl
      exact walk_conditional_collects hc given
    | function head key before body after =>
      obtain rfl := halone rfl
      exact walk_function_collects hc given
    | defaulted form s target value =>
      obtain rfl := halone rfl
      rw [keys_eq]
      refine .visiting_plain (fun _ => .coverDefault s value) (fun counter => ?_) (fun hs => ?_)
        fun _ _ _ _ => Action.coverDefault_notes
      · exact (hone target List.mem_cons_self).bind fun _ =>
          (walkOption_collects counter fun n hn => hc n (List.mem_cons_of_mem _ hn)).map _
      · cases value with
        | none => rfl
        | some value => exact ctx.branchRecords_of_isDummy hs
    | classDeclaration s data name before heritage after =>
      obtain rfl := halone rfl
      exact walk_classDeclaration_collects hc given
    | expression s inner =>
      obtain rfl := halone rfl
      have hk : (expression s inner).keys = ⟨.expressionStatement,s⟩ :: inner.keys := by
        simp [keys_eq (expression s inner),ownKeys,children]
      rw [hk]
      exact .visiting_plain (fun _ => .coverStatement _ s)
        (fun _ => (hone inner List.mem_cons_self).map _)
        (fun hs => ctx.statementRecords_of_isDummy hs)
        fun _ _ _ _ => Action.coverStatement_notes
    | simple form s parts =>
      obtain rfl := halone rfl
      rw [keys_eq]
      exact .visiting_plain (fun _ => .coverStatement _ s) (fun _ => (walkParts_collects hc).map _)
        (fun hs => ctx.statementRecords_of_isDummy hs)
        fun _ _ _ _ => Action.coverStatement_notes
    | compound form s data init head body =>
      obtain rfl := halone rfl
      exact walk_compound_collects hc given
    | ifElse s test consequent alternate =>
      obtain rfl := halone rfl
      exact walk_ifElse_collects hc given
    | switch s discriminant cases =>
      obtain rfl := halone rfl
      refine (walk_switch_collects (hc discriminant List.mem_cons_self)
        (fun n hn => hc n (List.mem_cons_of_mem _ hn)) given).of_count_le fun k => ?_
      exact count_keys_switch s discriminant cases k
    | bindings s data declarators =>
      obtain rfl := halone rfl
      refine Collects.of_count_le (Collects.takeHoist.bind fun hoistable =>
        ((walkDeclarators_collects hoistable hc).map _).passing List.not_mem_nil) fun k => ?_
      exact count_keys_bindings s data declarators k
    | block s statements =>
      obtain rfl := halone rfl
      rw [keys_eq]
      exact .passing (.afterCounter _ fun _ => (walkItems_collects false hc).map _) List.not_mem_nil
    | exported s declaration =>
      obtain rfl := halone rfl
      have hk : (exported s declaration).keys = declaration.keys := by
        simp [keys_eq (exported s declaration),ownKeys,children]
      rw [hk]
      exact (hone declaration List.mem_cons_self).map _
    | namespaceBlock s items =>
      obtain rfl := halone rfl
      rw [keys_eq]
      exact (walkItems_collects false hc).map _

end Node

theorem Marks.skips_foldl_markSkip {k : Key} (hk : k.isSynthetic = false) (f : Node → Key)
    (nodes : List Node) (marks : Marks) :
    (nodes.foldl (fun m n => m.markSkip (f n)) marks).skips k =
      (marks.skips k || decide (k ∈ nodes.map f)) := by
  induction nodes generalizing marks with
  | nil => simp
  | cons n rest ih =>
    rw [List.foldl_cons,ih,skips_markSkip _ _ hk,Bool.or_assoc]
    simp

theorem Marks.get?_foldl_markSkip {k : Key} (hk : k.isSynthetic = true) (f : Node → Key)
    (nodes : List Node) (marks : Marks) (hm : marks.get? k = none) :
    (nodes.foldl (fun m n => m.markSkip (f n)) marks).get? k = none := by
  induction nodes generalizing marks with
  | nil => exact hm
  | cons n rest ih => exact ih _ (get?_update_of_isSynthetic hk hm)

namespace Program

variable {ctx : Context} {p : Program}

/-- All keys under which a program is visited. -/
def keys (p : Program) : List Key := p.body.flatMap Node.keys

/-- Whether no two constructs of one kind stand at one place, as in every program that was read. The
block that a body stands for and the return that a value stands for are constructs as well. -/
def hasDistinctPlaces (p : Program) : Bool := (p.keys.filter fun k => !k.isSynthetic).Nodup

theorem fresh_keys (h : p.hasDistinctPlaces = true) : Fresh p.keys := by
  intro k hk
  have hc := List.nodup_iff_count.mp (of_decide_eq_true h) k
  rwa [List.count_filter (by rw [hk]; rfl)] at hc

theorem extends_walk {coverage : CoverageMap} (h : p.hasDistinctPlaces = true)
    (hf : (p.walk ctx coverage).2.failure = none) :
    coverage.Extends (p.collect ctx) (p.walk ctx coverage).2.coverage := by
  have hc : ∀ n ∈ p.body, n.Collected ctx := fun n _ => n.walk_collected
  refine (walkItems_collects true hc).tables (fresh_keys h)
    { Traversal.start coverage with marks := p.prologueMarks } ⟨rfl,rfl,fun k hk => ?_⟩
    (fun k _ hk => ?_) hf
  · exact Marks.get?_foldl_markSkip hk _ _ _ rfl
  · exact Marks.skips_foldl_markSkip hk _ _ _

end Program

theorem CoverageMap.Extends.freeze {m m' : CoverageMap} {r : Records} (h : m.Extends r m') :
    m.Extends r m'.freeze.2 := by
  rw [CoverageMap.freeze_eq]
  dsimp only
  split
  · exact h
  · exact ⟨h.statements,h.functions,h.branches⟩

/-- What is added to an empty map is all there is. -/
theorem CoverageMap.Extends.of_startMap {path : String} {options : Options} {m : CoverageMap}
    {r : Records} (h : (startMap path options).Extends r m) :
    m.data.statementMap = r.statements ∧ m.data.fnMap = r.functions.mapIdx (fun i e => e.record i) ∧
      m.data.branchMap = r.branches := by
  obtain ⟨hs,hf,hb⟩ : (startMap path options).data.statementMap = [] ∧
      (startMap path options).data.fnMap = [] ∧ (startMap path options).data.branchMap = [] := by
    unfold startMap
    split <;> exact ⟨rfl,rfl,rfl⟩
  refine ⟨?_,?_,?_⟩
  · rw [h.statements,hs,List.nil_append]
  · rw [h.functions,functionCount,hf,List.nil_append]
    simp only [List.length_nil,Nat.zero_add]
  · rw [h.branches,hb,List.nil_append]

/-- The tables of a pass that instruments a program are what the collector reads off it: what the walk
puts into the tree is not counted, and no construct is counted twice or left out. -/
theorem tables_instrument {program : Program} {file : SourceFile} {options : Options} {batch : Batch}
    {o : Outcome} (hd : program.hasDistinctPlaces = true)
    (h : (instrument program file options batch).outcome = .ok o) (hs : o.status = .instrumented) :
    o.coverage.statementMap = (program.collect (file.context options)).statements ∧
    o.coverage.fnMap =
      (program.collect (file.context options)).functions.mapIdx (fun i e => e.record i) ∧
    o.coverage.branchMap = (program.collect (file.context options)).branches := by
  obtain ⟨hf,ho,-⟩ := instrument_of_instrumented h hs
  rw [ho]
  exact (Program.extends_walk hd hf).freeze.of_startMap

theorem tables_instrument_sample :
    sampleProgram.hasDistinctPlaces = true ∧
    ∃ o, (instrument sampleProgram sampleFile {} (.new none)).outcome = .ok o ∧
      o.status = .instrumented ∧
      o.coverage.branchMap = (sampleProgram.collect (sampleFile.context {})).branches ∧
      o.coverage.branchMap.map (fun b => (b.kind,b.locations.length)) =
        [(.switch,1),(.binary,2),(.ifElse,2)] := by
  have hd : sampleProgram.hasDistinctPlaces = true := by decide +kernel
  have hb : (sampleProgram.collect (sampleFile.context {})).branches.map
      (fun b => (b.kind,b.locations.length)) = [(.switch,1),(.binary,2),(.ifElse,2)] := by
    decide +kernel
  obtain ⟨o,h,hs⟩ := exists_instrumented_sample
  have ht := (tables_instrument hd h hs).2.2
  exact ⟨hd,o,h,hs,ht,by rw [ht,hb]⟩

end CoverageCounters
