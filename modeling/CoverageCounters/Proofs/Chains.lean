import CoverageCounters.Proofs.BranchRecords
import CoverageCounters.Proofs.Sites

/-!
Short-circuit chains. A logical expression that is no operand of another one is counted as a whole, with
one path for each operand that no hint leaves out, and the operands get the counters of their paths from
left to right. What is counted is decided once, where the chain starts; the walk of the parts of the
chain only hands the counters on.
-/

namespace CoverageCounters

open Walk Traversal

/-- A node with its counters: it stands where the node stood, and without them it is the node, in the
shape that has room for them. -/
structure Node.Instruments (ctx : Context) (n m : Node) : Prop where
  span : m.span = n.span
  restores : n.mentions ctx.identifier = false → m.restore ctx.identifier = n.normalize

/-- A chain whose operands stand behind the counters of the paths of a branch, from the given path on.
The last argument has the operands that are counted. -/
inductive Wraps (ctx : Context) (b : Nat) : Nat → Node → Node → List Node → Prop where
  /-- An operand behind its counter. -/
  | operand {j : Nat} {n m : Node} (hn : n.isChain = false)
      (hs : ctx.directives.hintForExpression? n ≠ some .next) (hm : n.Instruments ctx m) :
      Wraps ctx b j n (Build.after ((Counter.branch b j).node ctx.identifier) m) [n]
  /-- An operand that a hint leaves out. -/
  | bare {j : Nat} {n m : Node} (hn : n.isChain = false)
      (hs : ctx.directives.hintForExpression? n = some .next) (hm : n.Instruments ctx m) :
      Wraps ctx b j n m []
  /-- A part of the chain that a hint leaves out. -/
  | hinted {j : Nat} {n m : Node} (hn : n.isChain = true)
      (hs : ctx.directives.hintFor? n.span = some .next) (hm : n.Instruments ctx m) :
      Wraps ctx b j n m []
  | logical {j : Nat} {s : Span} {left right l r : Node} {xs ys : List Node}
      (operator : LogicalOperator) (hs : ctx.directives.hintFor? s ≠ some .next)
      (hl : Wraps ctx b j left l xs) (hr : Wraps ctx b (j + xs.length) right r ys) :
      Wraps ctx b j (.logical s operator left right) (.logical s operator l r) (xs ++ ys)
  | paren {j : Nat} {s : Span} {inner m : Node} {xs : List Node} (hn : inner.isChain = true)
      (hs : ctx.directives.hintFor? s ≠ some .next) (hm : Wraps ctx b j inner m xs) :
      Wraps ctx b j (.paren s inner) (.paren s m) xs

namespace CoverageMap

variable {m m' : CoverageMap} {b i : Nat} {loc : Location}

def pathCount (m : CoverageMap) (b : Nat) : Nat := (m.data.b.getD b []).length

theorem Parallel.length_b (h : m.Parallel) : m.data.b.length = m.branchCount := by
  have hl := congrArg List.length h
  rwa [List.length_map,List.length_map] at hl

theorem pathCount_newBranch {kind : BranchKind} (hp : m.Parallel)
    (h : m.newBranch kind loc = (.ok b,m')) : m'.pathCount b = 0 := by
  unfold newBranch ifOpen at h
  split at h
  · cases h
  · cases h
    simp [pathCount,← hp.length_b]

theorem pathCount_addBranchPath (hp : m.Parallel) (h : m.addBranchPath b loc = (.ok i,m')) :
    i = m.pathCount b ∧ m'.pathCount b = i + 1 := by
  unfold addBranchPath ifOpen at h
  split at h
  · cases h
  · split at h
    · rename_i hb
      cases h
      rw [← hp.length_b] at hb
      simp [pathCount,hb]
    · cases h

end CoverageMap

namespace Context

variable {ctx : Context} {b j : Nat} {nodes rest : List Node}

/-- The counters of operands, where those that a hint leaves out have none. -/
def numbered (ctx : Context) (b : Nat) : Nat → List Node → List (Option Counter)
  | _, [] => []
  | j, n :: rest =>
    if ctx.directives.skipsOperand n then none :: ctx.numbered b j rest
    else some (.branch b j) :: ctx.numbered b (j + 1) rest

def countedOperands (ctx : Context) (nodes : List Node) : List Node :=
  nodes.filter fun n => !ctx.directives.skipsOperand n

@[simp] theorem length_numbered : (ctx.numbered b j nodes).length = nodes.length := by
  induction nodes generalizing j with
  | nil => rfl
  | cons n nodes ih =>
    rw [numbered]
    split <;> simp [ih]

theorem numbered_append : ctx.numbered b j (nodes ++ rest) =
    ctx.numbered b j nodes ++ ctx.numbered b (j + (ctx.countedOperands nodes).length) rest := by
  induction nodes generalizing j with
  | nil => rfl
  | cons n nodes ih =>
    cases hs : ctx.directives.skipsOperand n with
    | true => simp [numbered,countedOperands,hs,ih]
    | false =>
      have hj : j + 1 + (ctx.countedOperands nodes).length =
          j + (ctx.countedOperands (n :: nodes)).length := by
        simp [countedOperands,hs]
        omega
      simp [numbered,hs,ih,hj]

theorem countedOperands_append :
    ctx.countedOperands (nodes ++ rest) = ctx.countedOperands nodes ++ ctx.countedOperands rest :=
  List.filter_append ..

end Context

namespace Action

variable {ctx : Context} {t u : Traversal} {b : Nat}

theorem coverOperand_numbers {n : Node} {x : Option Counter} (hp : t.coverage.Parallel)
    (hs : n.span.isDummy = false) (h : (coverOperand ctx b n).run.run t = (.ok x,u)) :
    (u.coverage.Parallel ∧
      u.coverage.pathCount b = t.coverage.pathCount b + (ctx.countedOperands [n]).length) ∧
    x = if ctx.directives.skipsOperand n then none else some (.branch b (t.coverage.pathCount b)) := by
  unfold coverOperand at h
  split at h
  · rename_i hk
    cases h
    rw [if_pos hk]
    simp [Context.countedOperands,hk,hp]
  · rename_i hk
    obtain ⟨loc,hl⟩ := ctx.exists_location hs
    rw [hl] at h
    obtain ⟨c,v,hc,hv⟩ := exists_of_run_bind h
    cases hv
    obtain ⟨i,w,hi,hw⟩ := exists_of_run_bind hc
    cases hw
    have hadd := (run_register_eq_ok hi).1
    obtain ⟨rfl,hcount⟩ := CoverageMap.pathCount_addBranchPath hp hadd
    rw [if_neg hk]
    refine ⟨⟨(CoverageMap.addBranchPath_adds (.statement 0) hadd).parallel hp,?_⟩,rfl⟩
    simpa [Context.countedOperands,hk] using hcount

theorem mapM_coverOperand_numbers {nodes : List Node} {xs : List (Option Counter)}
    (hp : t.coverage.Parallel) (hs : ∀ n ∈ nodes, n.span.isDummy = false)
    (h : (nodes.mapM (coverOperand ctx b)).run.run t = (.ok xs,u)) :
    xs = ctx.numbered b (t.coverage.pathCount b) nodes := by
  induction nodes generalizing t xs with
  | nil =>
    cases h
    rfl
  | cons n rest ih =>
    rw [List.mapM_cons] at h
    obtain ⟨x,v,hx,hv⟩ := exists_of_run_bind h
    obtain ⟨ys,w,hy,hw⟩ := exists_of_run_bind hv
    cases hw
    obtain ⟨⟨hpv,hcount⟩,rfl⟩ := coverOperand_numbers hp (hs n List.mem_cons_self) hx
    rw [ih hpv (fun m hm => hs m (List.mem_cons_of_mem _ hm)) hy,hcount,Context.numbered]
    cases hk : ctx.directives.skipsOperand n <;> simp [Context.countedOperands,hk]

/-- The operands of a chain are numbered from left to right, as the paths of a new branch. -/
theorem coverChain_numbers {s : Span} {left right : Node} {xs : List (Option Counter)}
    (hp : t.coverage.Parallel) (hs : s.isDummy = false)
    (ho : ∀ n ∈ ctx.directives.operands left ++ ctx.directives.operands right, n.span.isDummy = false)
    (h : (coverChain ctx s left right).run.run t = (.ok xs,u)) :
    xs = ctx.numbered t.coverage.branchCount 0
      (ctx.directives.operands left ++ ctx.directives.operands right) := by
  obtain ⟨loc,hl⟩ := ctx.exists_location hs
  unfold coverChain at h
  rw [hl] at h
  obtain ⟨b,v,hb,hv⟩ := exists_of_run_bind h
  obtain ⟨rfl,-⟩ := newBranch_notes hb
  have hnew := (run_register_eq_ok hb).1
  have hpv := (CoverageMap.newBranch_adds (.statement 0) hnew).parallel hp
  rw [mapM_coverOperand_numbers hpv ho hv,CoverageMap.pathCount_newBranch hp hnew]

end Action

namespace Node

variable {ctx : Context} {b j : Nat} {t : Traversal}

theorem span_walk (n : Node) (given : List (Option Counter)) (t : Traversal) :
    ((n.walk ctx given).run t).1.span = n.span := by
  cases n with
  | ifElse s test consequent alternate =>
    rw [walk,run_visiting]
    dsimp only
    split <;> rfl
  | _ => rfl

theorem walk_instruments (n : Node) (given : List (Option Counter)) :
    Gives ctx (n.walk ctx given) (n.Instruments ctx) :=
  fun t ht => ⟨(n.walk_runs_true given t).queuesCounters ht,n.span_walk given t,
    fun hm => (n.walk_restores hm given t ht).2⟩

theorem operands_of_isChain {n : Node} (h : n.isChain = false) : ctx.directives.operands n = [n] := by
  cases n with
  | logical => cases h
  | paren s inner =>
    rw [Directives.operands,if_neg]
    exact Bool.eq_false_iff.mp h
  | _ => rfl

theorem isDummy_of_isChain {n : Node} (hp : n.hasPlaces = true) (h : n.isChain = true) :
    n.span.isDummy = false := by
  refine isDummy_eq_false hp ?_
  cases n with
  | logical | paren => exact List.mem_cons_self
  | _ => cases h

theorem isDummy_of_mem_operands {m n : Node} (hp : n.hasPlaces = true) (hs : n.span.isDummy = false)
    (hm : m ∈ ctx.directives.operands n) : m.span.isDummy = false := by
  induction n using induction_children with
  | step n ih =>
    cases n with
    | logical s operator left right =>
      have hreal : ∀ r ∈ [s,left.span,right.span], r.isDummy = false :=
        fun r hr => isDummy_eq_false hp hr
      rw [Directives.operands] at hm
      split at hm
      · cases hm
      · rcases List.mem_append.mp hm with hm | hm
        · exact ih left (by simp [children]) (hasPlaces_of_mem_children hp (by simp [children]))
            (hreal _ (by simp)) hm
        · exact ih right (by simp [children]) (hasPlaces_of_mem_children hp (by simp [children]))
            (hreal _ (by simp)) hm
    | paren s inner =>
      rw [Directives.operands] at hm
      split at hm
      · split at hm
        · cases hm
        · rename_i hc _
          have hpi := hasPlaces_of_mem_children hp (m := inner) List.mem_cons_self
          exact ih inner List.mem_cons_self hpi (isDummy_of_isChain hpi hc) hm
      · rw [List.mem_singleton.mp hm]
        exact hs
    | _ =>
      rw [List.mem_singleton.mp hm]
      exact hs

theorem isDummy_of_mem_chain {s : Span} {operator : LogicalOperator} {left right m : Node}
    (hp : (logical s operator left right).hasPlaces = true)
    (hm : m ∈ ctx.directives.operands left ++ ctx.directives.operands right) :
    m.span.isDummy = false := by
  have hreal : ∀ r ∈ [s,left.span,right.span], r.isDummy = false := fun r hr => isDummy_eq_false hp hr
  have hc : ∀ n ∈ [left,right], n.hasPlaces = true := fun n hn => hasPlaces_of_mem_children hp hn
  rcases List.mem_append.mp hm with hm | hm
  · exact isDummy_of_mem_operands (hc left (by simp)) (hreal _ (by simp)) hm
  · exact isDummy_of_mem_operands (hc right (by simp)) (hreal _ (by simp)) hm

/-- An operand that is no part of the chain stands behind its counter, if it has one. -/
theorem operand_wraps (n : Node) (hq : t.QueuesCounters ctx)
    (h : n.isChain = true → Wraps ctx b j n
      ((n.walk ctx (ctx.numbered b j (ctx.directives.operands n))).run t).1
      (ctx.countedOperands (ctx.directives.operands n))) :
    Wraps ctx b j n ((operand ctx n (ctx.numbered b j (ctx.directives.operands n))
      fun c => n.walk ctx c).run t).1 (ctx.countedOperands (ctx.directives.operands n)) := by
  unfold Walk.operand
  cases hn : n.isChain with
  | true => exact h hn
  | false =>
    rw [if_neg Bool.false_ne_true,operands_of_isChain hn]
    have hw : Gives ctx (n.walk ctx []) (n.Instruments ctx) := n.walk_instruments []
    cases hs : ctx.directives.skipsOperand n with
    | true =>
      have hg : Gives ctx (withChain false (behind? ctx none (n.walk ctx []))) fun m =>
          Wraps ctx b j n m [] :=
        .withChain false (hw.mono fun _ hm => .bare hn (of_decide_eq_true hs) hm)
      simpa [Context.numbered,Context.countedOperands,hs] using (hg t hq).2
    | false =>
      have hg : Gives ctx (withChain false (behind? ctx (some (.branch b j)) (n.walk ctx []))) fun m =>
          Wraps ctx b j n m [n] :=
        .withChain false (.passing (hw.bind fun _ hm => .pure (.operand hn (of_decide_eq_false hs) hm)))
      simpa [Context.numbered,Context.countedOperands,hs] using (hg t hq).2

/-- The operands of a chain stand behind the counters that the chain is given. -/
theorem walkChain_wraps {s : Span} {left right : Node} (operator : LogicalOperator)
    (hs : ctx.directives.hintFor? s ≠ some .next) (hq : t.QueuesCounters ctx)
    (h : ∀ n ∈ [left,right], n.isChain = true → ∀ (j : Nat) (t : Traversal), t.QueuesCounters ctx →
      t.inChain = true → Wraps ctx b j n
        ((n.walk ctx (ctx.numbered b j (ctx.directives.operands n))).run t).1
        (ctx.countedOperands (ctx.directives.operands n))) :
    Wraps ctx b j (.logical s operator left right)
      ((walkChain ctx s operator left right (ctx.numbered b j
        (ctx.directives.operands left ++ ctx.directives.operands right))).run t).1
      (ctx.countedOperands (ctx.directives.operands left ++ ctx.directives.operands right)) := by
  have hlen : (ctx.directives.operands left).length =
      (ctx.numbered b j (ctx.directives.operands left)).length := Context.length_numbered.symm
  rw [walkChain,Context.numbered_append,Context.countedOperands_append,hlen]
  dsimp only
  rw [List.take_left,List.drop_left]
  -- the left operand is walked first, and leaves the right one in the chain
  have hrun : Runs ctx (fun _ => True) (operand ctx left
      (ctx.numbered b j (ctx.directives.operands left)) fun c => left.walk ctx c) :=
    .operand left.walk_runs_true
  have hr := hrun { t with inChain := true }
  refine .logical operator hs (operand_wraps left hq fun hc => ?_)
    (operand_wraps right (hr.queuesCounters hq) fun hc => ?_)
  · exact h left (by simp) hc j _ hq rfl
  · exact h right (by simp) hc _ _ (hr.queuesCounters hq) hr.inChain_eq

theorem walk_wraps (n : Node) (hn : n.isChain = true) (j : Nat) (t : Traversal)
    (hq : t.QueuesCounters ctx) (hc : t.inChain = true) :
    Wraps ctx b j n ((n.walk ctx (ctx.numbered b j (ctx.directives.operands n))).run t).1
      (ctx.countedOperands (ctx.directives.operands n)) := by
  induction n using induction_children generalizing j t with
  | step n ih =>
    by_cases hs : ctx.directives.hintFor? n.span = some .next
    · have ho : ctx.directives.operands n = [] := by
        cases n with
        | logical s operator left right => exact if_pos (decide_eq_true hs)
        | paren s inner => exact (if_pos hn).trans (if_pos (decide_eq_true hs))
        | _ => cases hn
      rw [ho]
      exact .hinted hn hs (n.walk_instruments _ t hq).2
    cases n with
    | logical s operator left right =>
      have ho : ctx.directives.operands (logical s operator left right) =
          ctx.directives.operands left ++ ctx.directives.operands right :=
        if_neg (Bool.eq_false_iff.mp (decide_eq_false hs))
      rw [run_walk_inChain hc,run_visiting_pure,ho]
      exact walkChain_wraps operator hs hq ih
    | paren s inner =>
      have ho : ctx.directives.operands (paren s inner) = ctx.directives.operands inner :=
        (if_pos hn).trans (if_neg (Bool.eq_false_iff.mp (decide_eq_false hs)))
      rw [walk,passing,run_visiting_pure,ho]
      exact .paren hn hs (ih inner List.mem_cons_self hn j _ hq hc)
    | _ => cases hn

theorem wraps_of_walked {s : Span} {operator : LogicalOperator} {left right out : Node}
    (hp : (logical s operator left right).hasPlaces = true)
    (h : Walked ctx b (false,logical s operator left right) out) :
    Wraps ctx b 0 (logical s operator left right) out
      (ctx.countedOperands (ctx.directives.operands left ++ ctx.directives.operands right)) := by
  obtain ⟨given,t,ht,hl,rfl,hf,rfl⟩ := h
  have hs : s.isDummy = false := isDummy_eq_false hp List.mem_cons_self
  have hskip : t.marks.skips ⟨.logical,s⟩ = false := by
    refine ht.counting.skips_eq_false ht.asks (Or.inr (mem_keys_of_mem_ownKeys ?_)) List.not_mem_nil
    exact List.mem_cons_self
  have hr : ∀ counters, Runs ctx (fun _ => True) (walkChain ctx s operator left right counters) :=
    walkChain_runs left.walk_runs_true right.walk_runs_true
  rw [run_walk_outermost ht.counting.inChain] at hf ⊢
  obtain ⟨x,u,he,hu,-,hnu,heq⟩ := exists_entered (.coverChain s left right) hr ht.counting hskip hl hf
  rw [heq]
  cases he with
  | idle hsyn =>
    rw [show (⟨.logical,s⟩ : Key).isSynthetic = false from hs] at hsyn
    cases hsyn
  | done _ hrun =>
    have hacts : Acts ctx ⟨.logical,s⟩ (Within fun _ => True) _ _ :=
      Action.Acting.coverChain s left right (t.enter ctx ⟨.logical,s⟩ none)
    rw [hrun] at hacts
    have hx : x = ctx.numbered t.coverage.branchCount 0 _ :=
      Action.coverChain_numbers (t := t.enter ctx ⟨.logical,s⟩ none) ht.parallel hs
        (fun _ => isDummy_of_mem_chain hp) hrun
    rw [hx]
    refine walkChain_wraps operator (fun hn => ?_) (hacts.queuesCounters ht.queues) fun n _ => n.walk_wraps
    have hl : ctx.leavesOut s none = false := hl
    rw [Context.leavesOut,Directives.skips,decide_eq_true hn] at hl
    cases hl

end Node

/-- Where each chosen element yields one result that is looked for and no other element yields any, the
results stand beside the elements, each with its index. -/
theorem forall₂_zipIdx_flatMap {α β : Type} {R : α → β × Nat → Prop} {f : α → List β} {p : α → Bool}
    {q : β → Bool} (before xs : List α)
    (hp : ∀ first x rest, xs = first ++ x :: rest → p x = true →
      ∃ r, f x = [r] ∧ q r = true ∧ R x (r,((before ++ first).flatMap f).length))
    (hn : ∀ x ∈ xs, p x = false → ∀ r ∈ f x, q r = false) :
    List.Forall₂ R (xs.filter p)
      (((xs.flatMap f).zipIdx (before.flatMap f).length).filter fun r => q r.1) := by
  induction xs generalizing before with
  | nil => exact .nil
  | cons x rest ih =>
    have hr := ih (before ++ [x])
      (fun first y rest' he hy => by
        have h := hp (x :: first) y rest' (congrArg (x :: ·) he) hy
        rwa [List.append_cons] at h)
      fun y hy => hn y (List.mem_cons_of_mem _ hy)
    rw [List.flatMap_append,List.flatMap_singleton,List.length_append] at hr
    rw [List.flatMap_cons,List.zipIdx_append,List.filter_append]
    cases hx : p x with
    | true =>
      obtain ⟨r,hf,hq,h⟩ := hp [] x rest rfl hx
      rw [List.append_nil] at h
      rw [List.filter_cons_of_pos hx]
      rw [hf] at hr ⊢
      rw [List.zipIdx_singleton,List.filter_cons_of_pos (p := fun r : β × Nat => q r.1) hq]
      exact .cons h hr
    | false =>
      have hf : ((f x).zipIdx (before.flatMap f).length).filter (fun r => q r.1) = [] := by
        rw [List.filter_eq_nil_iff]
        rintro ⟨r,i⟩ hm
        exact Bool.eq_false_iff.mp (hn x List.mem_cons_self hx r (List.fst_mem_of_mem_zipIdx hm))
      rw [List.filter_cons_of_neg (by simp [hx]),hf]
      exact hr

theorem length_filter_zipIdx {α : Type} (xs : List α) (q : α → Bool) :
    (xs.zipIdx.filter fun x => q x.1).length = (xs.filter q).length := by
  conv_rhs => rw [← List.zipIdx_map_fst 0 xs,List.filter_map,List.length_map]
  rfl

namespace Context

/-- The branch of a chain, with its index: it is where the chain is, and has a path where each operand
is that is counted, and the chain stands in a program with its operands behind their counters. -/
def DescribesChain (ctx : Context) (output : Program) (chain : Node) (branch : BranchRecord × Nat) :
    Prop :=
  ctx.location? chain.span = some branch.1.loc ∧
  ∃ out ∈ output.nodes, ∃ operands, Wraps ctx branch.2 0 chain out operands ∧
    ctx.Locates (operands.map Node.span) branch.1.locations

end Context

namespace Node

/-- Whether a construct is a logical expression that is no operand of another one. -/
def startsChain (operand : Bool) : Node → Bool
  | logical _ _ _ _ => !operand
  | _ => false

end Node

namespace Program

/-- The logical expressions of a program at which counting is on and that are no operands of others,
directly or through parentheses. -/
def chains (ctx : Context) (p : Program) : List Node :=
  ((p.reached ctx).filter fun site => site.2.startsChain site.1).map Prod.snd

end Program

namespace Node

variable {ctx : Context} {n : Node} {operand : Bool}

/-- A chain that is walked has one branch, which describes it. -/
theorem ownBranches_of_startsChain {branches : Nat} {out : Node} {output : Program}
    (hp : n.hasPlaces = true) (h : n.startsChain operand = true)
    (hw : Walked ctx branches (operand,n) out) (ho : out ∈ output.nodes) :
    ∃ r, n.ownBranches ctx operand = [r] ∧ r.kind = .binary ∧
      ctx.DescribesChain output n (r,branches) := by
  cases n with
  | logical s operator left right =>
    have hop : operand = false := by simpa [startsChain] using h
    subst hop
    obtain ⟨loc,hl⟩ := ctx.exists_location (isDummy_eq_false hp List.mem_cons_self)
    refine ⟨_,branches_of_location? hl _ _,rfl,hl,out,ho,_,wraps_of_walked hp hw,?_⟩
    exact Context.locates_filterMap span ctx.directives.skipsOperand _ _ (fun _ => rfl)
      fun _ => isDummy_of_mem_chain hp
  | _ => cases h

/-- Any other construct has no branch, or one of another kind. -/
theorem kind_of_not_startsChain {r : BranchRecord} (hp : n.hasPlaces = true)
    (h : n.startsChain operand = false) (hr : r ∈ n.ownBranches ctx operand) : r.kind ≠ .binary := by
  cases hc : n.isChoice with
  | true =>
    obtain ⟨r',hb,hk,-⟩ : ∃ r', n.ownBranches ctx operand = [r'] ∧ _ :=
      ownBranches_of_isChoice hp hc operand
    rw [hb] at hr
    rw [List.mem_singleton.mp hr]
    exact hk
  | false =>
    cases n with
    | logical s operator left right =>
      have hop : operand = true := by simpa [startsChain] using h
      subst hop
      cases hr
    | defaulted form s target value =>
      cases value with
      | none => cases hr
      | some v => cases hc
    | ifElse | conditional | switch => cases hc
    | _ => cases hr

theorem isBlock_of_startsChain (h : n.startsChain operand = true) : n.isBlock = false := by
  cases n with
  | block => cases h
  | _ => rfl

end Node

/-- The branches of chains in an instrumented program stand beside the chains at which counting is on:
each chain is counted once, as a whole, and what is inside it adds no branch of a chain. -/
theorem chains_instrument {program : Program} {file : SourceFile} {options : Options} {batch : Batch}
    {o : Outcome} (hp : program.hasPlaces = true) (hd : program.hasDistinctPlaces = true)
    (h : (instrument program file options batch).outcome = .ok o) (hs : o.status = .instrumented) :
    List.Forall₂
      ((file.context options).DescribesChain (instrument program file options batch).program)
      (program.chains (file.context options))
      (o.coverage.branchMap.zipIdx.filter fun r => r.1.kind = .binary) ∧
    (o.coverage.branchMap.filter fun r => r.kind = .binary).length =
      (program.chains (file.context options)).length := by
  suffices hall : List.Forall₂
      ((file.context options).DescribesChain (instrument program file options batch).program)
      (program.chains (file.context options))
      (o.coverage.branchMap.zipIdx.filter fun r => r.1.kind = .binary) by
    exact ⟨hall,(length_filter_zipIdx _ _).symm.trans hall.length_eq.symm⟩
  obtain ⟨hf,ho,hprogram⟩ := instrument_of_instrumented h hs
  have hsited := Program.sited_walk hp hd (startMap_parallel file.path options) hf
  have hzero : (startMap file.path options).branchCount = 0 := by
    unfold startMap
    split <;> rfl
  have hplaces : ∀ site ∈ program.reached (file.context options), site.2.hasPlaces = true :=
    Program.hasPlaces_of_mem_reached hp
  rw [ho,Program.branchMap_walk hp hd hf,Program.chains,List.forall₂_map_left_iff]
  refine forall₂_zipIdx_flatMap
    (f := fun site : Bool × Node => site.2.ownBranches (file.context options) site.1)
    (q := fun r : BranchRecord => r.kind = .binary) [] _ (fun first site rest he hc => ?_) fun site hm hc r hr => ?_
  · obtain ⟨out,hout,hw⟩ := hsited.stands first site rest he (Node.isBlock_of_startsChain hc)
    rw [hzero,Nat.zero_add] at hw
    have hmem : out ∈ (instrument program file options batch).program.nodes := by
      rw [hprogram]
      exact Program.nodes_subset_prepend _ _ hout
    obtain ⟨r,hr,hk,hdesc⟩ := Node.ownBranches_of_startsChain (hplaces site (he ▸ by simp)) hc hw hmem
    exact ⟨r,hr,decide_eq_true hk,hdesc⟩
  · exact decide_eq_false (Node.kind_of_not_startsChain (hplaces site hm) hc hr)

theorem chains_instrument_sample :
    sampleProgram.hasPlaces = true ∧ sampleProgram.hasDistinctPlaces = true ∧
    ∃ o, (instrument sampleProgram sampleFile {} (.new none)).outcome = .ok o ∧
      o.status = .instrumented ∧
      List.Forall₂ ((sampleFile.context {}).DescribesChain
          (instrument sampleProgram sampleFile {} (.new none)).program)
        (sampleProgram.chains (sampleFile.context {}))
        (o.coverage.branchMap.zipIdx.filter fun r => r.1.kind = .binary) ∧
      (o.coverage.branchMap.filter fun r => r.kind = .binary).length = 1 := by
  have hp : sampleProgram.hasPlaces = true := by decide +kernel
  have hd : sampleProgram.hasDistinctPlaces = true := by decide +kernel
  obtain ⟨o,h,hs⟩ := exists_instrumented_sample
  have hc : (sampleProgram.chains (sampleFile.context {})).length = 1 := by decide +kernel
  obtain ⟨hall,hcount⟩ := chains_instrument hp hd h hs
  exact ⟨hp,hd,o,h,hs,hall,hcount.trans hc⟩

end CoverageCounters
