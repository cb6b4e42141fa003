import CoverageCounters.Proofs.Correspondence
import CoverageCounters.Proofs.Erasure
import CoverageCounters.Proofs.Reached

/-!
Where the constructs of a program end up. Each construct at which counting is on is walked once, with
counting on, when the branches of the constructs before it are recorded and no others, and what the walk
makes of it stands in the tree that the whole walk answers with. So what holds of the walk of one
construct holds of that construct wherever it stands in a program.
-/

namespace CoverageCounters

open Walk Traversal

theorem CoverageMap.Registers.parallel {m m' : CoverageMap} (h : m.Registers m') (hp : m.Parallel) :
    m'.Parallel := by
  cases h with
  | statement h => exact (newStatement_adds (.statement 0) h).parallel hp
  | function h => exact (newFunction_adds (.statement 0) h).parallel hp
  | branch h => exact (newBranch_adds (.statement 0) h).parallel hp
  | path h => exact (addBranchPath_adds (.statement 0) h).parallel hp

theorem CoverageMap.Extends.branchCount_eq {m m' : CoverageMap} {r : Records} (h : m.Extends r m') :
    m'.branchCount = m.branchCount + r.branches.length := by
  rw [branchCount,branchCount,h.branches,List.length_append]

namespace Traversal

variable {ctx : Context} {visited marked : Key → Prop} {key : Key} {t u : Traversal}

theorem Acts.parallel (h : Acts ctx key marked t u) (ht : t.coverage.Parallel) :
    u.coverage.Parallel := by
  induction h with
  | refl => exact ht
  | register _ hm ih => exact hm.parallel ih
  | skip _ _ ih => exact ih
  | branch _ _ ih => exact ih
  | queue _ _ ih => exact ih

theorem Attempts.parallel (h : Attempts ctx visited key t u) (ht : t.coverage.Parallel) :
    u.coverage.Parallel := by
  cases h with
  | idle => exact ht
  | done _ h => exact h.parallel ht
  | failed _ h e => exact h.parallel ht

theorem Run.parallel (h : Run ctx visited t u) (ht : t.coverage.Parallel) : u.coverage.Parallel := by
  induction h with
  | refl t => exact ht
  | trans _ _ ih₁ ih₂ => exact ih₂ (ih₁ ht)
  | visit _ hu _ ih => exact ih (hu.parallel ht)
  | item _ ih => exact ih ht
  | hoist t => exact ht
  | chain _ ih => exact ih ht

theorem Run.queuesCounters (h : Run ctx visited t u) (ht : t.QueuesCounters ctx) :
    u.QueuesCounters ctx := by
  induction h with
  | refl t => exact ht
  | trans _ _ ih₁ ih₂ => exact ih₂ (ih₁ ht)
  | visit _ hu _ ih => exact ih (hu.queuesCounters ht)
  | @item t u declares _ ih =>
    have hu : u.QueuesCounters ctx := by
      refine ih fun frame hf => ?_
      rcases List.mem_cons.mp hf with rfl | hf
      · exact fun n hn => absurd hn List.not_mem_nil
      · exact ht frame hf
    exact fun frame hf => hu frame (List.mem_of_mem_tail hf)
  | hoist t => exact ht
  | chain _ ih => exact ih ht

/-- A state in which a construct with the given keys is walked with counting on. -/
structure Ready (ctx : Context) (chain : Bool) (asked keys : List Key) (t : Traversal) : Prop where
  fresh : Fresh keys
  counting : t.Counting chain
  asks : t.Asks asked keys
  queues : t.QueuesCounters ctx
  parallel : t.coverage.Parallel

namespace Ready

variable {chain : Bool} {asked asked' keys keys' : List Key}

theorem of_count_le (h : t.Ready ctx chain asked keys') (hk : ∀ k, keys.count k ≤ keys'.count k) :
    t.Ready ctx chain asked keys := by
  refine ⟨h.fresh.of_count_le hk,h.counting,fun k hm => h.asks k ?_,h.queues,h.parallel⟩
  exact List.count_pos_iff.mp (Nat.lt_of_lt_of_le (List.count_pos_iff.mpr hm) (hk k))

theorem tail {k : Key} (h : t.Ready ctx chain asked (k :: keys)) : t.Ready ctx chain asked keys :=
  h.of_count_le fun _ => List.count_le_count_cons

/-- Of two walks in a row the first starts ready, and leaves the second ready. -/
theorem split {u : Traversal} (h : t.Ready ctx chain (asked ++ asked') (keys ++ keys'))
    (hrun : Run ctx (· ∈ keys) t u) (ha : ∀ k ∈ asked, k ∈ keys) (hs : ∀ k ∈ asked', k ∈ keys') :
    t.Ready ctx chain asked keys ∧ u.Ready ctx chain asked' keys' := by
  have ha₁ : t.Asks asked keys := by
    intro k hk hr
    rw [h.asks k (List.mem_append_left _ hk) hr]
    have hna : k ∉ asked' := fun hm => h.fresh.notMem_right hk hr (hs k hm)
    simp [hna]
  have ha₂ : t.Asks asked' keys' := by
    intro k hk hr
    rw [h.asks k (List.mem_append_right _ hk) hr]
    have hna : k ∉ asked := fun hm => h.fresh.notMem_left hk hr (ha k hm)
    simp [hna]
  exact ⟨⟨h.fresh.left,h.counting,ha₁,h.queues,h.parallel⟩,h.fresh.right,h.counting.of_run hrun,
    ha₂.of_run hrun fun _ => h.fresh.notMem_left,hrun.queuesCounters h.queues,
    hrun.parallel h.parallel⟩

theorem bind {α : Type} {w : Walk α} {r : Records} (h : t.Ready ctx chain (asked ++ asked') (keys ++ keys'))
    (hw : Collects ctx chain asked keys w r) (hs : ∀ k ∈ asked', k ∈ keys') :
    t.Ready ctx chain asked keys ∧ (w.run t).2.Ready ctx chain asked' keys' :=
  h.split (hw.runs _ (fun _ => id) t) hw.asked_subset hs

end Ready
end Traversal

/-- What the walk makes of a construct, from a state with counting on and the given number of branches
recorded. -/
def Walked (ctx : Context) (branches : Nat) (site : Bool × Node) (out : Node) : Prop :=
  ∃ given t, Ready ctx (site.1 && site.2.isChain) [] site.2.keys t ∧ site.2.leftOut ctx = false ∧
    t.coverage.branchCount = branches ∧ ((site.2.walk ctx given).run t).2.failure = none ∧
    ((site.2.walk ctx given).run t).1 = out

/-- The constructs in turn are walked and stand in some nodes of the answer, and so do nodes that are
finished already. A block may get a counter put in when it is walked, so blocks are not looked for. -/
structure Sited (ctx : Context) (branches : Nat) (sites : List (Bool × Node)) (finished out : List Node) :
    Prop where
  stands : ∀ before site after, sites = before ++ site :: after → site.2.isBlock = false →
    ∃ x ∈ out.flatMap Node.subnodes, Walked ctx (branches + (branchesOf ctx before).length) site x
  finished : ∀ m ∈ finished, m.subnodes ⊆ out.flatMap Node.subnodes

namespace Sited

variable {ctx : Context} {b : Nat} {sites sites' : List (Bool × Node)} {nodes nodes' out : List Node}

theorem nil (h : ∀ m ∈ nodes, m.subnodes ⊆ out.flatMap Node.subnodes) : Sited ctx b [] nodes out :=
  ⟨fun before site after he _ => absurd he.symm (by simp),h⟩

theorem weaken (h : Sited ctx b sites (nodes ++ nodes') out) : Sited ctx b sites nodes out :=
  ⟨h.stands,fun m hm => h.finished m (List.mem_append_left _ hm)⟩

/-- What is sited in some nodes is sited in an answer that has them inside. -/
theorem within (h : Sited ctx b sites [] nodes')
    (hs : ∀ m ∈ nodes ++ nodes', m.subnodes ⊆ out.flatMap Node.subnodes) :
    Sited ctx b sites nodes out := by
  refine ⟨fun before site after he hb => ?_,fun m hm => hs m (List.mem_append_left _ hm)⟩
  obtain ⟨x,hx,hw⟩ := h.stands before site after he hb
  obtain ⟨m,hm,hx⟩ := List.mem_flatMap.mp hx
  exact ⟨x,hs m (List.mem_append_right _ hm) hx,hw⟩

theorem append (h : Sited ctx b sites [] nodes')
    (h' : Sited ctx (b + (branchesOf ctx sites).length) sites' (nodes ++ nodes') out) :
    Sited ctx b (sites ++ sites') nodes out := by
  refine ⟨fun before site after he hb => ?_,h'.weaken.finished⟩
  rcases List.append_eq_append_iff.mp he with ⟨more,rfl,hm⟩ | ⟨more,hm,ha⟩
  · obtain ⟨x,hx,hw⟩ := h'.stands more site after hm hb
    rw [Nat.add_assoc,← List.length_append,← branchesOf_append] at hw
    exact ⟨x,hx,hw⟩
  · cases more with
    | nil =>
      rw [List.append_nil] at hm
      rw [List.nil_append] at ha
      obtain ⟨x,hx,hw⟩ := h'.stands [] site after ha.symm hb
      rw [hm,branchesOf_nil,List.length_nil,Nat.add_zero] at hw
      exact ⟨x,hx,hw⟩
    | cons y more =>
      obtain ⟨rfl,-⟩ := List.cons.inj ha
      obtain ⟨x,hx,hw⟩ := h.stands before site more hm hb
      obtain ⟨m,hmem,hx⟩ := List.mem_flatMap.mp hx
      exact ⟨x,h'.finished m (List.mem_append_right _ hmem) hx,hw⟩

end Sited

theorem subnodes_of_mem {m : Node} {out : List Node} (h : m ∈ out) :
    m.subnodes ⊆ out.flatMap Node.subnodes :=
  fun _ hx => List.mem_flatMap.mpr ⟨m,h,hx⟩

theorem subnodes_of_mem_children {m n : Node} (h : m ∈ n.children) :
    m.subnodes ⊆ [n].flatMap Node.subnodes := by
  intro x hx
  rw [List.flatMap_singleton]
  exact List.mem_cons_of_mem _ (Node.subnodes_subset_of_mem_children h hx)

theorem subnodes_after (first e : Node) : e.subnodes ⊆ [Build.after first e].flatMap Node.subnodes := by
  intro x hx
  have hs : e ∈ (Build.sequence [first,e]).children := List.mem_cons_of_mem _ List.mem_cons_self
  have hx := subnodes_of_mem_children hs hx
  rw [List.flatMap_singleton] at hx
  exact subnodes_of_mem_children (n := Build.after first e) List.mem_cons_self hx

namespace Walk

variable {α β : Type} {ctx : Context} {chain : Bool} {asked asked' keys keys' : List Key}
  {sites sites' : List (Bool × Node)} {finished : List Node}

/-- A walk that adds the records of some constructs, which its answer has. Those finished before it are
in its answer as well. -/
structure Lands (ctx : Context) (chain : Bool) (asked keys : List Key) (w : Walk α) (r : Records)
    (sites : List (Bool × Node)) (finished : List Node) (out : α → List Node) : Prop where
  collects : Collects ctx chain asked keys w r
  branches : r.branches = branchesOf ctx sites
  sited : ∀ t, t.Ready ctx chain asked keys → (w.run t).2.failure = none →
    Sited ctx t.coverage.branchCount sites finished (out (w.run t).1)

namespace Lands

variable {r r' : Records} {out : α → List Node} {out' : β → List Node}

theorem pure {a : α} (h : ∀ m ∈ finished, m.subnodes ⊆ (out a).flatMap Node.subnodes) :
    Lands ctx chain [] [] (Pure.pure a) ∅ [] finished out :=
  ⟨.pure a,rfl,fun _ _ _ => .nil h⟩

theorem map {w : Walk α} (h : Lands ctx chain asked keys w r sites [] out) (f : α → β)
    (hf : ∀ a, ∀ m ∈ finished ++ out a, m.subnodes ⊆ (out' (f a)).flatMap Node.subnodes) :
    Lands ctx chain asked keys (w >>= fun a => Pure.pure (f a)) r sites finished out' :=
  ⟨h.collects.map f,h.branches,fun t ht hn => (h.sited t ht hn).within (hf _)⟩

/-- A node that has all that is finished among its children. -/
theorem node {w : Walk α} (h : Lands ctx chain asked keys w r sites [] out) (f : α → Node)
    (hf : ∀ a, finished ++ out a ⊆ (f a).children) :
    Lands ctx chain asked keys (w >>= fun a => Pure.pure (f a)) r sites finished fun m => [m] :=
  h.map f fun a _ hm => subnodes_of_mem_children (hf a hm)

theorem of_count_le {w : Walk α} (h : Lands ctx chain asked keys w r sites finished out)
    (hk : ∀ k, keys.count k ≤ keys'.count k) : Lands ctx chain asked keys' w r sites finished out :=
  ⟨h.collects.of_count_le hk,h.branches,fun t ht => h.sited t (ht.of_count_le hk)⟩

/-- One walk after the other; the answer of the first is finished when the second starts. -/
theorem bind {w : Walk α} {f : α → Walk β} (h : Lands ctx chain asked keys w r sites [] out)
    (hf : ∀ a, Lands ctx chain asked' keys' (f a) r' sites' (finished ++ out a) out') :
    Lands ctx chain (asked ++ asked') (keys ++ keys') (w >>= f) (r ++ r') (sites ++ sites') finished
      out' := by
  have hs := hf (w.run (.start (.new ""))).1
  refine ⟨h.collects.bind fun a => (hf a).collects,?_,fun t ht hn => ?_⟩
  · rw [branches_append,h.branches,hs.branches,branchesOf_append]
  · obtain ⟨h₁,h₂⟩ := ht.bind h.collects hs.collects.asked_subset
    have hnu : (w.run t).2.failure = none :=
      ((hf _).collects.runs (· ∈ keys') (fun _ => id) _).failure_eq_none h₂.counting.anchorBelow hn
    have hb := (h.collects.tables h₁.fresh t h₁.counting h₁.asks hnu).branchCount_eq
    have h' := (hf _).sited _ h₂ hn
    rw [hb,h.branches] at h'
    exact (h.sited t h₁ hnu).append h'

section Visits

variable {key : Key} {name : Option String} {action : Action α} {idle : α} {inside : α → Walk β}
  {t : Traversal}

/-- What is inside a construct that is counted is sited when the records of the construct are made. -/
theorem sited_visiting (own : Records) (possible : α → Prop)
    (hm : Action.Acting ctx key (Within fun _ => True) action)
    (hr : ∀ a, Runs ctx (fun _ => True) (inside a)) (hk : key.isSynthetic = false)
    (hl : ctx.leavesOut key.span name = false)
    (hdone : ∀ t x u, action.run.run t = (.ok x,u) → Notes asked own t u ∧ possible x)
    (hi : ∀ x, possible x → Lands ctx chain asked keys (inside x) r sites [] out')
    (ht : t.Ready ctx chain [] (key :: keys))
    (hf : ((visiting ctx key name action idle inside).run t).2.failure = none) :
    Sited ctx (t.coverage.branchCount + own.branches.length) sites []
      (out' ((visiting ctx key name action idle inside).run t).1) := by
  have hs := ht.counting.skips_eq_false ht.asks (Or.inr List.mem_cons_self) List.not_mem_nil
  obtain ⟨x,u,he,hu,-,hnu,heq⟩ := exists_entered hm hr ht.counting hs hl hf
  cases he with
  | idle hsyn =>
    rw [hk] at hsyn
    cases hsyn
  | done _ hrun =>
    obtain ⟨hnotes,hx⟩ := hdone _ _ _ hrun
    have hacts := hm (t.enter ctx key name)
    rw [hrun] at hacts
    have hready : u.Ready ctx chain asked keys :=
      ⟨ht.fresh.tail,hu,(ht.tail.asks.of_asked rfl hnotes.asked),hacts.queuesCounters ht.queues,
        hacts.parallel ht.parallel⟩
    have h := (hi x hx).sited u hready hnu
    rw [hnotes.tables.branchCount_eq] at h
    rw [heq]
    exact h

/-- A visit that asks for nothing and records no branch. -/
theorem visiting_plain {own : Records} (hm : ∀ visited, Action.Acting ctx key (Within visited) action)
    (hk : key.isSynthetic = false) (ho : own.branches = [])
    (hdone : ∀ t x u, action.run.run t = (.ok x,u) → Notes [] own t u)
    (hi : ∀ x, Lands ctx chain [] keys (inside x) r sites [] out') :
    Lands ctx chain [] (key :: keys) (Walk.visiting ctx key name action idle inside)
      (ctx.unlessLeftOut key.span name (own ++ r))
      (if ctx.leavesOut key.span name then [] else sites) [] out' := by
  refine ⟨.visiting_plain hm (fun x => (hi x).collects) (fun hsyn => ?_) fun _ => hdone,?_,
    fun t ht hf => ?_⟩
  · rw [hk] at hsyn
    cases hsyn
  · unfold Context.unlessLeftOut
    split
    · rfl
    · rw [branches_append,ho,List.nil_append,(hi idle).branches]
  · split
    · exact .nil (List.forall_mem_nil _)
    · rename_i hl
      have hs := sited_visiting own (fun _ => True) (hm _)
        (fun x => (hi x).collects.runs _ fun _ _ => trivial) hk (Bool.eq_false_iff.mpr hl)
        (fun t x u hr => ⟨hdone t x u hr,trivial⟩) (fun x _ => hi x) ht hf
      rw [ho] at hs
      exact hs

theorem passing_within {w : Walk β} (h : Lands ctx chain asked keys w r sites [] out')
    (hk : Within (· ∈ keys) key) (ha : key ∉ asked) :
    Lands ctx chain asked keys (Walk.passing ctx key w) (ctx.unlessLeftOut key.span none r)
      (if ctx.leavesOut key.span none then [] else sites) [] out' := by
  refine ⟨h.collects.passing_within hk ha,?_,fun t ht hf => ?_⟩
  · unfold Context.unlessLeftOut
    split
    · rfl
    · exact h.branches
  · have hr : Runs ctx (fun _ => True) w := h.collects.runs _ fun _ _ => trivial
    have hs := ht.counting.skips_eq_false ht.asks hk ha
    split
    · exact .nil (List.forall_mem_nil _)
    · rename_i hl
      obtain ⟨x,u,he,hu,-,hnu,heq⟩ :=
        exists_entered (.pure ()) (fun _ => hr) ht.counting hs (Bool.eq_false_iff.mpr hl) hf
      have heu : u = t.enter ctx key none := by
        cases he with
        | idle _ => rfl
        | done _ hrun =>
          cases hrun
          rfl
      subst heu
      have hsite := h.sited _ ⟨ht.fresh,hu,ht.asks,ht.queues,ht.parallel⟩ hnu
      rw [Walk.passing,heq]
      exact hsite

theorem passing {w : Walk β} (h : Lands ctx chain asked keys w r sites [] out') (ha : key ∉ asked) :
    Lands ctx chain asked (key :: keys) (Walk.passing ctx key w) (ctx.unlessLeftOut key.span none r)
      (if ctx.leavesOut key.span none then [] else sites) [] out' :=
  passing_within (h.of_count_le fun _ => List.count_le_count_cons) (Or.inr List.mem_cons_self) ha

theorem passing_dummy {w : Walk β} {kind : Kind} (h : Lands ctx chain [] keys w r sites [] out') :
    Lands ctx chain [] keys (Walk.passing ctx ⟨kind,.dummy⟩ w) r sites [] out' :=
  passing_within h (Or.inl rfl) List.not_mem_nil

end Visits

theorem withChain {w : Walk α} (inside : Bool) (h : Lands ctx inside asked keys w r sites [] out) :
    Lands ctx chain asked keys (Walk.withChain inside w) r sites [] out :=
  ⟨h.collects.withChain inside,h.branches,fun t ht hn => h.sited { t with inChain := inside }
    ⟨ht.fresh,⟨ht.counting.anchor,rfl,ht.counting.synthetic⟩,ht.asks,ht.queues,ht.parallel⟩ hn⟩

theorem takeHoist : Lands ctx chain [] [] Walk.takeHoist ∅ [] [] fun _ => [] :=
  ⟨.takeHoist,rfl,fun _ _ _ => .nil (List.forall_mem_nil _)⟩

/-- A walk whose construct may be asked to be left out, under its key. -/
theorem asking (asked : Bool) {key : Key} {w : Walk α} (h : Lands ctx chain [] keys w r sites [] out)
    (hs : Skips key w) (hk : key ∈ keys) (hreal : key.span.isDummy = false) :
    Lands ctx chain (if asked then [key] else []) keys w (.unlessAsked asked key.span r)
      (if asked then [] else sites) [] out := by
  cases asked with
  | false => exact h
  | true =>
    refine ⟨h.collects.asking true hs hk,?_,fun _ _ _ => .nil (List.forall_mem_nil _)⟩
    rw [Records.unlessAsked,hreal]
    rfl

section Nodes

variable {walk : Walk Node}

theorem asItem (declares : Bool) (h : Lands ctx chain asked keys walk r sites [] fun m => [m]) :
    Lands ctx chain asked keys (Walk.asItem declares walk) r sites [] fun item => item.1 ++ [item.2] := by
  refine ⟨h.collects.asItem declares,h.branches,fun t ht hn => ?_⟩
  have hq : Traversal.QueuesCounters ctx { t with frames := [] :: t.frames, hoist := declares } := by
    intro frame hf
    rcases List.mem_cons.mp hf with rfl | hf
    · exact fun n hn => absurd hn List.not_mem_nil
    · exact ht.queues frame hf
  have hsite := h.sited { t with frames := [] :: t.frames, hoist := declares }
    ⟨ht.fresh,⟨ht.counting.anchor,ht.counting.inChain,ht.counting.synthetic⟩,ht.asks,hq,ht.parallel⟩ hn
  exact hsite.within fun m hm => subnodes_of_mem (List.mem_append_right _ hm)

theorem behind? (c : Option Counter) (h : Lands ctx chain [] keys walk r sites [] fun m => [m]) :
    Lands ctx chain [] keys (Walk.behind? ctx c walk) r sites [] fun m => [m] := by
  cases c with
  | none => exact h
  | some c =>
    refine passing_dummy (h.map _ fun n m hm => ?_)
    obtain rfl := List.mem_singleton.mp hm
    exact subnodes_after _ m

theorem inParens (wanted : Bool) (heritage : Node)
    (h : Lands ctx chain [] keys walk r sites [] fun m => [m]) :
    Lands ctx chain [] keys (Walk.inParens ctx wanted heritage walk) r sites [] fun m => [m] := by
  unfold Walk.inParens
  split
  · refine passing_dummy (h.map _ fun n m hm => ?_)
    obtain rfl := List.mem_singleton.mp hm
    exact subnodes_of_mem_children List.mem_cons_self
  · exact h

/-- An operand that is part of the chain is walked as such; any other starts anew. -/
theorem operand {n : Node} {counters : List (Option Counter)} {walk : List (Option Counter) → Walk Node}
    (h : ∀ c, Lands ctx n.isChain [] keys (walk c) r sites [] fun m => [m]) :
    Lands ctx true [] keys (Walk.operand ctx n counters walk) r sites [] fun m => [m] := by
  unfold Walk.operand
  cases hn : n.isChain with
  | true =>
    rw [hn] at h
    exact h counters
  | false =>
    rw [hn] at h
    exact withChain false ((h []).behind? _)

/-- A counter in a list is no construct. -/
theorem counterItem (c : Option Counter) :
    Lands ctx chain [] [] (Walk.counterItem ctx c) ∅ [] [] placed :=
  ⟨.counterItem c,rfl,fun _ _ _ => .nil (List.forall_mem_nil _)⟩

theorem afterCounter {f : List (List Node × Node) → Walk α} (c : Option Counter)
    (h : ∀ first, Lands ctx chain asked keys (f first) r sites (finished ++ placed first) out) :
    Lands ctx chain asked keys (Walk.counterItem ctx c >>= f) r sites finished out :=
  (counterItem c).bind h

/-- A body is walked as a block; a counter may be put first. -/
theorem inBlock {body : Node} (c : Option Counter)
    (h : ∀ given, Lands ctx chain [] keys (body.walk ctx given) r (body.reached ctx false) []
      fun m => [m]) :
    Lands ctx chain [] (body.blockKeys ++ keys)
      (Walk.inBlock ctx c body fun given => body.walk ctx given)
      (ctx.bodyRecords true body r) (reachedIn ctx (ctx.keptBody body)) [] fun m => [m] := by
  unfold Walk.inBlock
  rw [Node.blockKeys,Context.bodyRecords,Context.keptBody]
  cases hb : body.isBlock with
  | true =>
    have hk : reachedIn ctx [body] = body.reached ctx false := by simp
    exact ⟨(h [c]).collects,(h [c]).branches.trans (congrArg _ hk.symm),hk ▸ (h [c]).sited⟩
  | false =>
    have hi : Lands ctx chain [] keys _ r (body.reached ctx false) [] fun m => [m] :=
      afterCounter c fun first => ((h []).asItem body.declaresVariables).map
        (fun item => Node.block body.span (placed (first ++ [item])))
        fun item m hm => subnodes_of_mem_children (by simpa [Node.children] using hm)
    have hs : reachedIn ctx (if !false && ctx.leavesOut body.span none then [] else [body]) =
        if ctx.leavesOut body.span none then [] else body.reached ctx false := by
      cases ctx.leavesOut body.span none <;> simp
    rw [hs]
    exact hi.passing List.not_mem_nil

theorem asBody {body : Node}
    (h : ∀ given, Lands ctx chain [] keys (body.walk ctx given) r (body.reached ctx false) []
      fun m => [m]) :
    Lands ctx chain [] (body.blockKeys ++ keys)
      (Walk.asBody ctx true body fun given => body.walk ctx given)
      (ctx.bodyRecords true body r) (reachedIn ctx (ctx.keptBody body)) [] fun m => [m] :=
  inBlock none h

/-- The value of an arrow is walked in a block that returns it. -/
theorem asReturn {e : Node} (c : Counter) (hs : e.span.isDummy = false)
    (h : Lands ctx chain [] keys walk r (reachedIn ctx [e]) [] fun m => [m]) :
    Lands ctx chain [] (⟨.block,e.span⟩ :: ⟨.return,e.span⟩ :: keys)
      (Walk.asReturn ctx c e.span walk)
      (ctx.unlessLeftOut e.span none (ctx.unlessLeftOut e.span none
        (ctx.statementRecords e.span ++ r)))
      (reachedIn ctx (ctx.keptNodes e.span [e])) [] Body.nodes := by
  have hkept : reachedIn ctx (ctx.keptNodes e.span [e]) =
      if ctx.leavesOut e.span none then []
      else if ctx.leavesOut e.span none then [] else reachedIn ctx [e] := by
    rw [reachedIn_keptNodes]
    split <;> rfl
  have hk : (⟨.return,e.span⟩ : Key).isSynthetic = false := hs
  rw [hkept]
  refine passing (afterCounter (some c) fun first => Lands.map (asItem false
    (visiting_plain (fun _ => .coverStatement _ e.span) hk rfl
      (fun _ _ _ => Action.coverStatement_notes) fun _ => h.map _ fun n m hm => ?_)) _
        fun item m hm => ?_) List.not_mem_nil
  · exact subnodes_of_mem_children (by simpa [Node.children,Part.nodes] using hm)
  · exact subnodes_of_mem (by simpa [Body.nodes] using hm)

end Nodes
end Lands
end Walk

/-- The constructs that are reached in a node are walked and stand in what the walk makes of it. -/
def Node.Landed (ctx : Context) (n : Node) : Prop :=
  ∀ (operand : Bool) (given : List (Option Counter)),
    Lands ctx (operand && n.isChain) [] n.keys (n.walk ctx given)
      (n.collect ctx (operand && n.isChain)) (n.reached ctx operand) [] fun m => [m]

theorem Node.Landed.alone {ctx : Context} {n : Node} (h : n.Landed ctx) :
    Lands ctx false [] n.keys (n.walk ctx []) (n.collect ctx false) (n.reached ctx false) []
      fun m => [m] :=
  h false []

section Lists

variable {ctx : Context}

theorem walkNodes_lands {nodes : List Node} (h : ∀ n ∈ nodes, n.Landed ctx) :
    Lands ctx false [] (nodes.flatMap Node.keys) (walkNodes ctx nodes) (collectNodes ctx nodes)
      (reachedIn ctx nodes) [] id := by
  induction nodes with
  | nil => exact .pure (List.forall_mem_nil _)
  | cons n rest ih =>
    rw [walkNodes,collectNodes,List.flatMap_cons,reachedIn_cons]
    exact (h n List.mem_cons_self).alone.bind fun m =>
      (ih fun x hx => h x (List.mem_cons_of_mem _ hx)).map _ fun ms x hx => subnodes_of_mem hx

theorem walkPart_lands {p : Part} (h : ∀ n ∈ p.nodes, n.Landed ctx) :
    Lands ctx false [] (p.nodes.flatMap Node.keys) (walkPart ctx p) (collectPart ctx p)
      (reachedIn ctx p.nodes) [] Part.nodes := by
  cases p with
  | child field n =>
    simp only [Part.nodes,List.flatMap_cons,List.flatMap_nil,List.append_nil,reachedIn_cons,reachedIn_nil]
    exact (h n (List.mem_singleton_self n)).alone.map _ fun m x hx => subnodes_of_mem hx
  | children field nodes => exact (walkNodes_lands h).map _ fun ms x hx => subnodes_of_mem hx

theorem walkParts_lands {parts : List Part} (h : ∀ n ∈ parts.flatMap Part.nodes, n.Landed ctx) :
    Lands ctx false [] ((parts.flatMap Part.nodes).flatMap Node.keys) (walkParts ctx parts)
      (collectParts ctx parts) (reachedIn ctx (parts.flatMap Part.nodes)) []
      fun ps => ps.flatMap Part.nodes := by
  induction parts with
  | nil => exact .pure (List.forall_mem_nil _)
  | cons p rest ih =>
    rw [List.flatMap_cons] at h
    rw [walkParts,collectParts,List.flatMap_cons,List.flatMap_append,reachedIn_append]
    exact (walkPart_lands fun n hn => h n (List.mem_append_left _ hn)).bind fun q =>
      (ih fun n hn => h n (List.mem_append_right _ hn)).map _ fun qs x hx => subnodes_of_mem hx

theorem walkOption_lands (counter : Option Counter) {o : Option Node}
    (h : ∀ n ∈ o.toList, n.Landed ctx) :
    Lands ctx false [] (o.toList.flatMap Node.keys) (walkOption ctx counter o) (collectOption ctx o)
      (reachedIn ctx o.toList) [] Option.toList := by
  cases o with
  | none => exact .pure (List.forall_mem_nil _)
  | some n =>
    simp only [Option.toList,List.flatMap_cons,List.flatMap_nil,List.append_nil,reachedIn_cons,
      reachedIn_nil]
    exact ((h n (List.mem_singleton_self n)).alone.behind? counter).map _ fun m x hx =>
      subnodes_of_mem hx

theorem walkHeritage_lands (counted : Bool) {o : Option Node} (h : ∀ n ∈ o.toList, n.Landed ctx) :
    Lands ctx false [] (o.toList.flatMap Node.keys) (walkHeritage ctx counted o) (collectOption ctx o)
      (reachedIn ctx o.toList) [] Option.toList := by
  cases o with
  | none => exact .pure (List.forall_mem_nil _)
  | some n =>
    simp only [Option.toList,List.flatMap_cons,List.flatMap_nil,List.append_nil,reachedIn_cons,
      reachedIn_nil]
    exact ((h n (List.mem_singleton_self n)).alone.inParens counted n).map _ fun m x hx =>
      subnodes_of_mem hx

/-- The init clause of a loop is asked to be left out, if it can be. -/
theorem walkInit_lands {init : Option Node} (hp : ∀ n ∈ init.toList, n.hasPlaces = true)
    (h : ∀ n ∈ init.toList, n.Landed ctx) :
    Lands ctx false (init.bind Action.initKey?).toList (init.toList.flatMap Node.keys)
      (walkOption ctx none init) (collectInit ctx true init)
      (reachedIn ctx (init.toList.filter fun n => (Action.initKey? n).isNone)) [] Option.toList := by
  have ho := walkOption_lands none h
  cases init with
  | none => exact ho
  | some n =>
    rw [collectInit]
    rw [collectOption] at ho
    cases hk : Action.initKey? n with
    | none => simpa [hk] using ho
    | some key =>
      have hn := hp n (List.mem_singleton_self n)
      have hs : Skips key (walkOption ctx none (some n)) := Node.skips_of_initKey? hk []
      have hm : key ∈ (some n).toList.flatMap Node.keys :=
        List.mem_flatMap.mpr ⟨n,List.mem_singleton_self n,
          Node.mem_keys_of_mem_ownKeys (Node.mem_ownKeys_of_initKey? hk)⟩
      simpa [hk] using ho.asking true hs hm (Node.isDummy_initKey? hn hk)

/-- A side of an `if`; a hint asks to leave it out. -/
theorem side_lands (asked : Bool) (counter : Option Counter) {n : Node} (hs : n.span.isDummy = false)
    (h : n.Landed ctx) :
    Lands ctx false (if asked then [⟨.block,n.span⟩] else []) (n.blockKeys ++ n.keys)
      (inBlock ctx counter n fun given => n.walk ctx given)
      (.unlessAsked asked n.span (ctx.bodyRecords true n (n.collect ctx false)))
      (if asked then [] else reachedIn ctx (ctx.keptBody n)) [] fun m => [m] :=
  (Lands.inBlock counter (h false)).asking asked
    (.inBlock (fun hb => n.skips_of_isBlock hb) n.walk_runs_true) n.mem_keys_body hs

theorem walkElse_lands (asked : Bool) (counter : Option Counter) {o : Option Node}
    (hs : ∀ n ∈ o.toList, n.span.isDummy = false) (h : ∀ n ∈ o.toList, n.Landed ctx) :
    Lands ctx false (if asked then o.toList.map fun n => ⟨.block,n.span⟩ else [])
      (o.toList.flatMap fun n => n.blockKeys ++ n.keys) (walkElse ctx counter o)
      (collectElse ctx asked true o)
      (reachedIn ctx (if asked then [] else o.toList.flatMap ctx.keptBody)) [] fun m => [m] := by
  cases o with
  | none =>
    simp only [Option.toList,List.map_nil,List.flatMap_nil,ite_self]
    exact .passing_dummy (.afterCounter counter fun first =>
      .pure fun m hm => subnodes_of_mem_children hm)
  | some n =>
    have hn := List.mem_singleton_self n
    have hside := side_lands asked counter (hs n hn) (h n hn)
    rw [collectElse,walkElse]
    cases asked <;> simpa using hside

/-- What is reached in a list; the directives at its head may be asked to be left out. -/
theorem reachedIn_items (ctx : Context) (prologue : Bool) (n : Node) (rest : List Node) :
    reachedIn ctx (if prologue then (n :: rest).dropWhile Node.isDirective else n :: rest) =
      (if prologue && n.isDirective then [] else n.reached ctx false) ++
        reachedIn ctx (if prologue && n.isDirective then rest.dropWhile Node.isDirective else rest) := by
  cases prologue <;> cases hd : n.isDirective <;> simp [hd]

/-- An item of a list, which may be a directive that is asked to be left out. -/
theorem item_lands (asked : Bool) {n : Node} (hn : n.hasPlaces = true)
    (hd : asked = true → n.isDirective = true) (h : n.Landed ctx) :
    Lands ctx false (if asked then [⟨.expressionStatement,n.span⟩] else []) n.keys (n.walk ctx [])
      (.unlessAsked asked n.span (n.collect ctx false)) (if asked then [] else n.reached ctx false) []
      fun m => [m] := by
  cases asked with
  | false => exact h.alone
  | true =>
    exact h.alone.asking true (n.skips_of_isDirective (hd rfl) [])
      (Node.mem_keys_of_mem_ownKeys (Node.mem_ownKeys_of_isDirective (hd rfl)))
      (Node.isDummy_of_isDirective hn (hd rfl))

theorem walkItems_lands (prologue : Bool) {items : List Node} (hp : ∀ n ∈ items, n.hasPlaces = true)
    (h : ∀ n ∈ items, n.Landed ctx) :
    Lands ctx false (if prologue then Action.directiveKeys items else []) (items.flatMap Node.keys)
      (walkItems ctx items) (collectItems ctx prologue items)
      (reachedIn ctx (if prologue then items.dropWhile Node.isDirective else items)) [] placed := by
  induction items generalizing prologue with
  | nil => cases prologue <;> exact .pure (List.forall_mem_nil _)
  | cons n rest ih =>
    have hitem := item_lands (prologue && n.isDirective) (hp n List.mem_cons_self)
      (fun hd => (Bool.and_eq_true_iff.mp hd).2) (h n List.mem_cons_self)
    rw [walkItems,collectItems,List.flatMap_cons,asked_cons,reachedIn_items]
    refine (hitem.asItem n.declaresVariables).bind fun item => ?_
    refine (ih _ (fun m hm => hp m (List.mem_cons_of_mem _ hm))
      fun m hm => h m (List.mem_cons_of_mem _ hm)).map _ fun ms x hx => subnodes_of_mem ?_
    rw [placed_cons]
    simpa using hx

theorem walkStatements_lands (counter : Option Counter) {statements : List Node}
    (hp : ∀ n ∈ statements, n.hasPlaces = true) (h : ∀ n ∈ statements, n.Landed ctx) :
    Lands ctx false (Action.directiveKeys statements) (statements.flatMap Node.keys)
      (walkStatements ctx counter statements) (collectItems ctx true statements)
      (reachedIn ctx (statements.dropWhile Node.isDirective)) [] placed := by
  induction statements with
  | nil => exact .counterItem counter
  | cons n rest ih =>
    have hitem := item_lands n.isDirective (hp n List.mem_cons_self) id (h n List.mem_cons_self)
    have hrp : ∀ m ∈ rest, m.hasPlaces = true := fun m hm => hp m (List.mem_cons_of_mem _ hm)
    have hr : ∀ m ∈ rest, m.Landed ctx := fun m hm => h m (List.mem_cons_of_mem _ hm)
    have hasked := asked_cons true n rest
    have hsites := reachedIn_items ctx true n rest
    simp only [if_pos,Bool.true_and] at hasked hsites
    rw [walkStatements,collectItems,List.flatMap_cons,hasked,hsites]
    cases hd : n.isDirective with
    | true =>
      rw [hd] at hitem
      rw [if_pos rfl]
      refine (hitem.asItem n.declaresVariables).bind fun item => ?_
      refine (ih hrp hr).map _ fun ms x hx => subnodes_of_mem ?_
      rw [placed_cons]
      simpa using hx
    | false =>
      rw [hd] at hitem
      rw [if_neg Bool.false_ne_true]
      refine .afterCounter counter fun first => ?_
      refine (hitem.asItem n.declaresVariables).bind fun item => ?_
      refine (walkItems_lands false hrp hr).map _ fun ms x hx => subnodes_of_mem ?_
      rw [placed_append,placed_cons]
      simpa using hx

theorem walkBody_lands {counter : Option Counter} {body : Body}
    (hcounter : counter.isSome = (Action.bodyContent? body).isSome)
    (hs : ∀ s ∈ (Action.bodyContent? body).toList.map (·.1), s.isDummy = false)
    (hp : ∀ n ∈ body.nodes, n.hasPlaces = true) (h : ∀ n ∈ body.nodes, n.Landed ctx) :
    Lands ctx false ((Action.bodyContent? body).toList.flatMap fun c => Action.directiveKeys c.2)
      (body.keys ++ body.nodes.flatMap Node.keys) (walkBody ctx counter body) (collectBody ctx true body)
      (reachedIn ctx (body.kept ctx)) [] Body.nodes := by
  cases body with
  | absent => exact .pure (List.forall_mem_nil _)
  | block s statements =>
    have hk : ⟨.block,s⟩ ∉ Action.directiveKeys statements := by simp [Action.directiveKeys]
    have hi := walkStatements_lands counter hp h
    rw [Body.kept,reachedIn_keptNodes]
    simpa [Action.bodyContent?,Body.keys,Body.nodes,collectBody,walkBody] using
      ((hi.map (fun items => Body.block s (placed items)) fun items x hx =>
        subnodes_of_mem hx).passing hk)
  | value e =>
    obtain ⟨c,rfl⟩ := Option.isSome_iff_exists.mp hcounter
    have he := (h e (List.mem_singleton_self e)).alone
    have hsites : e.reached ctx false = reachedIn ctx [e] := by simp
    rw [hsites] at he
    simpa [Body.keys,Body.nodes,Action.bodyContent?,Action.directiveKeys,walkBody,collectBody,
      Body.kept] using he.asReturn c (hs e.span (List.mem_singleton_self _))

theorem walkDeclarator_lands (hoistable : Bool) {d : Declarator} (hs : d.span.isDummy = false)
    (h : ∀ n ∈ d.nodes, n.Landed ctx) :
    Lands ctx false [] (⟨.variableDeclarator,d.span⟩ :: d.nodes.flatMap Node.keys)
      (walkDeclarator ctx hoistable d) (collectDeclarator ctx d)
      (reachedIn ctx (ctx.keptNodes d.span d.nodes)) [] Declarator.nodes := by
  obtain ⟨s,data,target,init⟩ := d
  have hs : s.isDummy = false := hs
  have hk : (⟨.variableDeclarator,s⟩ : Key).isSynthetic = false := hs
  rw [collectDeclarator,hs,reachedIn_keptNodes,Declarator.nodes,reachedIn_cons]
  refine Lands.visiting_plain (fun _ => .coverInitializer hoistable init) hk
    (branches_initializerRecords init) (fun _ _ _ => Action.coverInitializer_notes) fun counter => ?_
  exact (h target List.mem_cons_self).alone.bind fun x =>
    (walkOption_lands counter fun n hn => h n (List.mem_cons_of_mem _ hn)).map _ fun y z hz =>
      subnodes_of_mem hz

theorem walkDeclarators_lands (hoistable : Bool) {declarators : List Declarator}
    (hs : ∀ d ∈ declarators, d.span.isDummy = false)
    (h : ∀ n ∈ declarators.flatMap Declarator.nodes, n.Landed ctx) :
    Lands ctx false []
      (declarators.flatMap fun d => ⟨.variableDeclarator,d.span⟩ :: d.nodes.flatMap Node.keys)
      (walkDeclarators ctx hoistable declarators) (collectDeclarators ctx declarators)
      (reachedIn ctx (declarators.flatMap fun d => ctx.keptNodes d.span d.nodes)) []
      fun ds => ds.flatMap Declarator.nodes := by
  induction declarators with
  | nil => exact .pure (List.forall_mem_nil _)
  | cons d rest ih =>
    simp only [List.flatMap_cons,List.mem_append] at h
    rw [walkDeclarators,collectDeclarators,List.flatMap_cons,List.flatMap_cons,reachedIn_append]
    exact (walkDeclarator_lands hoistable (hs d List.mem_cons_self) fun n hn => h n (.inl hn)).bind
      fun x => (ih (fun e he => hs e (List.mem_cons_of_mem _ he)) fun n hn => h n (.inr hn)).map _
        fun y z hz => subnodes_of_mem hz

end Lists

section Switch

variable {ctx : Context} {switch : Key} {t : Traversal}

/-- A state in which the cases of a switch are walked, with the branch of the switch noted. -/
structure Traversal.ReadyCases (ctx : Context) (switch : Key) (keys : List Key) (t : Traversal) :
    Prop extends t.Ready ctx false [] keys where
  apart : switch.isSynthetic = false → switch ∉ keys
  noted : ∀ b ∈ t.marks.branch? switch, b < t.coverage.branchCount

/-- What is inside a case, whatever its counter. -/
theorem inCase_lands {s : Span} {test : Option Node} {consequent : List Node} (counter : Option Counter)
    (hp : ∀ n ∈ test.toList ++ consequent, n.hasPlaces = true)
    (h : ∀ n ∈ test.toList ++ consequent, n.Landed ctx) :
    Lands ctx false [] ((test.toList ++ consequent).flatMap Node.keys) (do
        let test ← walkOption ctx none test
        let first ← counterItem ctx counter
        let items ← walkItems ctx consequent
        return Case.mk s test (placed (first ++ items)))
      (collectOption ctx test ++ collectItems ctx false consequent)
      (reachedIn ctx (test.toList ++ consequent)) [] Case.nodes := by
  simp only [List.mem_append] at h hp
  rw [List.flatMap_append,reachedIn_append]
  refine (walkOption_lands none fun n hn => h n (.inl hn)).bind fun x => ?_
  refine .afterCounter counter fun first => ?_
  refine (walkItems_lands false (fun n hn => hp n (.inr hn)) fun n hn => h n (.inr hn)).map _
    fun items z hz => subnodes_of_mem ?_
  simpa [Case.nodes] using hz

theorem walkCase_sited {c : Case} (hs : c.span.isDummy = false)
    (hp : ∀ n ∈ c.nodes, n.hasPlaces = true) (h : ∀ n ∈ c.nodes, n.Landed ctx)
    (ht : t.Ready ctx false [] (⟨.switchCase,c.span⟩ :: c.nodes.flatMap Node.keys))
    (hf : ((walkCase ctx switch c).run t).2.failure = none) :
    Sited ctx t.coverage.branchCount (reachedIn ctx (ctx.keptNodes c.span c.nodes)) []
      ((walkCase ctx switch c).run t).1.nodes := by
  obtain ⟨s,test,consequent⟩ := c
  have hi := fun counter => inCase_lands (s := s) counter hp h
  have hskip : t.marks.skips ⟨.switchCase,s⟩ = false :=
    ht.counting.skips_eq_false ht.asks (Or.inr List.mem_cons_self) List.not_mem_nil
  rw [reachedIn_keptNodes]
  split
  · exact .nil (List.forall_mem_nil _)
  · rename_i hl
    obtain ⟨x,u,he,hu,-,hnu,heq⟩ := exists_entered (.coverCase s switch)
      (fun counter => (hi counter).collects.runs _ fun _ _ => trivial) ht.counting hskip
      (Bool.eq_false_iff.mpr hl) hf
    cases he with
    | idle hsyn =>
      rw [show (⟨.switchCase,s⟩ : Key).isSynthetic = false from hs] at hsyn
      cases hsyn
    | done _ hrun =>
      obtain ⟨hmarks,hext⟩ := Action.coverCase_notes hrun
      have hacts : Acts ctx ⟨.switchCase,s⟩ (Within fun _ => True) _ _ :=
        Action.Acting.coverCase s switch (t.enter ctx ⟨.switchCase,s⟩ none)
      rw [hrun] at hacts
      have hb := hext.branchCount_eq
      rw [CoverageMap.branchCount_withPaths] at hb
      have hsited := (hi x).sited u ⟨ht.fresh.tail,hu,ht.tail.asks.of_asked rfl (.of_eq hmarks),
        hacts.queuesCounters ht.queues,hacts.parallel ht.parallel⟩ hnu
      rw [hb] at hsited
      rw [walkCase,heq]
      exact hsited

theorem walkCases_sited {cases : List Case} (hs : ∀ c ∈ cases, c.span.isDummy = false)
    (hp : ∀ n ∈ cases.flatMap Case.nodes, n.hasPlaces = true)
    (h : ∀ n ∈ cases.flatMap Case.nodes, n.Landed ctx)
    (ht : t.ReadyCases ctx switch
      (cases.flatMap fun c => ⟨.switchCase,c.span⟩ :: c.nodes.flatMap Node.keys))
    (hf : ((walkCases ctx switch cases).run t).2.failure = none) :
    Sited ctx t.coverage.branchCount
      (reachedIn ctx (cases.flatMap fun c => ctx.keptNodes c.span c.nodes)) []
      (((walkCases ctx switch cases).run t).1.flatMap Case.nodes) := by
  induction cases generalizing t with
  | nil => exact .nil (List.forall_mem_nil _)
  | cons c rest ih =>
    simp only [List.flatMap_cons,List.mem_append] at h hp ht
    have hc : CollectsCases ctx switch _ (walkCase ctx switch c) _ _ :=
      walkCase_collects fun n _ => n.walk_collected
    have hcs : CollectsCases ctx switch _ (walkCases ctx switch rest) _ _ :=
      walkCases_collects fun n _ => n.walk_collected
    have hrun := hc.runs _ (fun _ => id) t
    have hready : t.Ready ctx false [] _ := ht.toReady.of_count_le fun _ =>
      (List.sublist_append_left _ _).count_le _
    have hu := ht.counting.of_run hrun
    have hnu := (hcs.runs _ (fun _ => id) _).failure_eq_none hu.anchorBelow hf
    have hapart := fun hr hk => ht.apart hr (List.mem_append_left _ hk)
    have htables := hc.tables hready.fresh hapart t ht.counting hready.asks ht.noted hnu
    have hb := htables.branchCount_eq
    rw [CoverageMap.branchCount_withPaths] at hb
    have hbranches : (collectCase ctx c).branches =
        branchesOf ctx (reachedIn ctx (ctx.keptNodes c.span c.nodes)) :=
      branches_collectCase fun n hn => n.branches_collect (hp n (.inl hn))
    have hnoted := ht.counting.branch?_of_run hrun hapart
    have hrest : ReadyCases ctx switch _ ((walkCase ctx switch c).run t).2 :=
      { fresh := ht.fresh.right
        counting := hu
        asks := Asks.of_run (fun k hk => ht.asks k (List.mem_append_right _ hk)) hrun
          fun _ => ht.fresh.notMem_left
        queues := hrun.queuesCounters ht.queues
        parallel := hrun.parallel ht.parallel
        apart := fun hr hk => ht.apart hr (List.mem_append_right _ hk)
        noted := fun b hm => Nat.lt_of_lt_of_le (ht.noted b (hnoted ▸ hm))
          (Nat.le.intro hb.symm) }
    have h₁ := walkCase_sited (hs c List.mem_cons_self) (fun n hn => hp n (.inl hn))
      (fun n hn => h n (.inl hn)) hready hnu
    have h₂ := ih (fun d hd => hs d (List.mem_cons_of_mem _ hd)) (fun n hn => hp n (.inr hn))
      (fun n hn => h n (.inr hn)) hrest hf
    rw [hb,hbranches] at h₂
    rw [List.flatMap_cons,reachedIn_append]
    exact h₁.append (h₂.within fun m hm => subnodes_of_mem hm)

/-- A switch is entered with its branch noted, and what is inside is walked under other keys. -/
theorem Node.walk_switch_sited {s : Span} {discriminant : Node} {cases : List Case}
    (given : List (Option Counter)) (hplaces : (Node.switch s discriminant cases).hasPlaces = true)
    (h : ∀ n ∈ (Node.switch s discriminant cases).children, n.Landed ctx)
    (hl : ctx.leavesOut s none = false)
    (ht : t.Ready ctx false []
      (⟨.switch,s⟩ :: (discriminant.keys ++
        cases.flatMap fun c => ⟨.switchCase,c.span⟩ :: c.nodes.flatMap Node.keys)))
    (hf : (((Node.switch s discriminant cases).walk ctx given).run t).2.failure = none) :
    Sited ctx (t.coverage.branchCount + (ctx.switchRecords s cases).branches.length)
      (reachedIn ctx ((Node.switch s discriminant cases).kept ctx)) []
      [(((Node.switch s discriminant cases).walk ctx given).run t).1] := by
  have hs : s.isDummy = false := Node.isDummy_eq_false hplaces List.mem_cons_self
  have hcases : ∀ c ∈ cases, c.span.isDummy = false := fun c hc =>
    Node.isDummy_eq_false hplaces (List.mem_cons_of_mem _ (List.mem_map_of_mem hc))
  have h₁ := (h discriminant List.mem_cons_self).alone
  have h₂ : CollectsCases ctx ⟨.switch,s⟩ _ (walkCases ctx ⟨.switch,s⟩ cases) _ _ :=
    walkCases_collects fun n _ => n.walk_collected
  have hskip : t.marks.skips ⟨.switch,s⟩ = false :=
    ht.counting.skips_eq_false ht.asks (Or.inr List.mem_cons_self) List.not_mem_nil
  have hm : Action.Acting ctx ⟨.switch,s⟩ (Within fun _ => True) (Action.coverSwitch ctx s) :=
    .coverSwitch s
  rw [Node.walk] at hf ⊢
  obtain ⟨x,u,he,hu,-,hnu,heq⟩ := exists_entered hm (fun _ =>
    (h₁.collects.runs _ fun _ _ => trivial).bind fun _ =>
      (h₂.runs _ fun _ _ => trivial).bind fun _ => .pure _) ht.counting hskip hl hf
  obtain ⟨hown,hbranch,hasks⟩ := entered_switch he hu ht.tail.asks
  have hlength : (ctx.switchRecords s cases).branches.length =
      (ctx.switchRecords s []).branches.length := by
    simp [Context.switchRecords,Context.branchRecords]
  have hready : u.Ready ctx false ([] ++ []) (discriminant.keys ++
      cases.flatMap fun c => ⟨.switchCase,c.span⟩ :: c.nodes.flatMap Node.keys) := by
    cases he with
    | idle hsyn =>
      rw [show (⟨.switch,s⟩ : Key).isSynthetic = false from hs] at hsyn
      cases hsyn
    | done _ hrun =>
      have hacts := hm (t.enter ctx ⟨.switch,s⟩ none)
      rw [hrun] at hacts
      exact ⟨ht.fresh.tail,hu,hasks,hacts.queuesCounters ht.queues,hacts.parallel ht.parallel⟩
  obtain ⟨hu₁,hv⟩ := hready.bind h₁.collects (List.forall_mem_nil _)
  have hrun := h₁.collects.runs _ (fun _ => id) u
  have hnv := (h₂.runs _ (fun _ => id) _).failure_eq_none hv.counting.anchorBelow hnu
  have hnot := fun hreal hk => ht.fresh.notMem_tail hreal (List.mem_append_left _ hk)
  have hbv := (hu.branch?_of_run hrun hnot).trans hbranch
  have htables := h₁.collects.tables hu₁.fresh u hu₁.counting hu₁.asks hnv
  have hreadyCases : ReadyCases ctx ⟨.switch,s⟩ _ ((discriminant.walk ctx []).run u).2 :=
    { toReady := hv
      apart := fun hreal hk => ht.fresh.notMem_tail hreal (List.mem_append_right _ hk)
      noted := fun b hb => lt_of_mem_switchBranch? (hown.trans htables) (hbv ▸ hb) }
  have hd := h₁.sited u hu₁ hnv
  have hc := walkCases_sited hcases
    (fun n hn => Node.hasPlaces_of_mem_children hplaces (List.mem_cons_of_mem _ hn))
    (fun n hn => h n (List.mem_cons_of_mem _ hn)) hreadyCases hnu
  rw [htables.branchCount_eq,h₁.branches] at hc
  rw [heq,hlength,← hown.branchCount_eq,Node.kept,reachedIn_cons]
  exact hd.append (hc.within fun m hm => subnodes_of_mem_children hm)

end Switch

namespace Node

variable {ctx : Context} {n : Node}

/-- A construct stands where it is walked, before what is inside. -/
theorem landed_of_sited (hp : n.hasPlaces = true)
    (h : ∀ operand given t, t.Ready ctx (operand && n.isChain) [] n.keys → n.leftOut ctx = false →
      ((n.walk ctx given).run t).2.failure = none →
      Sited ctx (t.coverage.branchCount + (n.ownBranches ctx operand).length)
        ((n.kept ctx).flatMap (reached ctx (n.handsOn operand))) [] [((n.walk ctx given).run t).1]) :
    n.Landed ctx := by
  intro operand given
  refine ⟨n.walk_collected _ given fun hc => (Bool.and_eq_true_iff.mp hc).2,
    n.branches_collect hp operand,fun t ht hf => ⟨?_,List.forall_mem_nil _⟩⟩
  intro before site after he hb
  rw [reached_eq] at he
  split at he
  · exact absurd he.symm (by simp)
  · rename_i hl
    have hl := Bool.eq_false_iff.mpr hl
    cases before with
    | nil =>
      obtain ⟨rfl,-⟩ := List.cons.inj he
      exact ⟨_,subnodes_of_mem (List.mem_singleton_self _) (self_mem_subnodes _),
        given,t,ht,hl,rfl,hf,rfl⟩
    | cons first before =>
      obtain ⟨rfl,hrest⟩ := List.cons.inj he
      obtain ⟨x,hx,hw⟩ := (h operand given t ht hl hf).stands before site after hrest hb
      rw [Nat.add_assoc,← List.length_append] at hw
      exact ⟨x,hx,hw⟩

/-- A construct that is no part of a chain, of which nothing inside is an operand. -/
theorem landed_alone (own : Records) (hp : n.hasPlaces = true) (hn : n.isChain = false)
    (hh : ∀ operand, n.handsOn operand = false)
    (ho : ∀ operand, own.branches = n.ownBranches ctx operand)
    (h : ∀ given t, t.Ready ctx false [] n.keys → n.leftOut ctx = false →
      ((n.walk ctx given).run t).2.failure = none →
      Sited ctx (t.coverage.branchCount + own.branches.length) (reachedIn ctx (n.kept ctx)) []
        [((n.walk ctx given).run t).1]) : n.Landed ctx := by
  refine landed_of_sited hp fun operand given t ht hl hf => ?_
  rw [hn,Bool.and_false] at ht
  rw [hh,← ho]
  exact h given t ht hl hf

/-- A construct that is visited, with what is inside, for each outcome that its action can have. -/
theorem landed_visiting {α γ : Type} {key : Key} {name : Option String} {action : Action α} {idle : α}
    {inside : α → Walk Node} {keys asked : List Key} {r : Records} {sites : List (Bool × Node)}
    (own : Records) (outcome : γ → α)
    (hw : ∀ given, n.walk ctx given = visiting ctx key name action idle inside)
    (hi : ∀ y, Lands ctx false asked keys (inside (outcome y)) r sites [] fun m => [m])
    (hsites : reachedIn ctx (n.kept ctx) = sites) (hp : n.hasPlaces = true) (hn : n.isChain = false)
    (hh : ∀ operand, n.handsOn operand = false)
    (ho : ∀ operand, own.branches = n.ownBranches ctx operand)
    (hleft : n.leftOut ctx = ctx.leavesOut key.span name)
    (hkeys : ∀ k, (key :: keys).count k ≤ n.keys.count k) (hk : key.span.isDummy = false)
    (hm : Action.Acting ctx key (Within fun _ => True) action)
    (hr : ∀ a, Runs ctx (fun _ => True) (inside a))
    (hdone : ∀ t x u, action.run.run t = (.ok x,u) → Notes asked own t u ∧ ∃ y, outcome y = x) :
    n.Landed ctx := by
  refine landed_alone own hp hn hh ho fun given t ht hl hf => ?_
  rw [hw] at hf ⊢
  rw [hsites]
  have hinside : ∀ x, (∃ y, outcome y = x) →
      Lands ctx false asked keys (inside x) r sites [] fun m => [m] := by
    rintro _ ⟨y,rfl⟩
    exact hi y
  exact Lands.sited_visiting own _ hm hr hk (hleft.symm.trans hl) hdone hinside
    (ht.of_count_le hkeys) hf

/-- A construct that is passed through, with what is inside. -/
theorem landed_passing {key : Key} {inside : List (Option Counter) → Walk Node} {keys : List Key}
    {r : Records}
    (hi : ∀ given, Lands ctx false [] keys (inside given) r (reachedIn ctx (n.kept ctx)) []
      fun m => [m])
    (hp : n.hasPlaces = true) (hn : n.isChain = false) (hh : ∀ operand, n.handsOn operand = false)
    (ho : ∀ operand, n.ownBranches ctx operand = [])
    (hw : ∀ given, n.walk ctx given = passing ctx key (inside given))
    (hleft : n.leftOut ctx = ctx.leavesOut key.span none)
    (hkeys : ∀ k, (key :: keys).count k ≤ n.keys.count k) : n.Landed ctx := by
  refine landed_alone ∅ hp hn hh (fun operand => (ho operand).symm) fun given t ht hl hf => ?_
  rw [hw] at hf ⊢
  have hpass : Lands ctx false [] (key :: keys) (passing ctx key (inside given)) _ _ [] _ :=
    (hi given).passing List.not_mem_nil
  have h := hpass.sited t (ht.of_count_le hkeys) hf
  rw [← hleft,hl] at h
  exact h

theorem paren_landed {s : Span} {inner : Node} (hp : (paren s inner).hasPlaces = true)
    (hc : inner.Landed ctx) : (paren s inner).Landed ctx := by
  refine landed_of_sited hp fun operand given t ht hl hf => ?_
  have hl : ctx.leavesOut s none = false := hl
  have hk : (paren s inner).keys = ⟨.parenthesized,s⟩ :: inner.keys := by
    simp [keys_eq (paren s inner),ownKeys,children]
  have hi : Lands ctx (operand && (paren s inner).isChain) [] (⟨.parenthesized,s⟩ :: inner.keys)
      ((paren s inner).walk ctx given) _ _ [] fun m => [m] :=
    ((hc operand given).node (paren s) fun _ _ => id).passing List.not_mem_nil
  rw [hk] at ht
  have h := hi.sited t ht hf
  rw [if_neg (by rw [hl]; exact Bool.false_ne_true)] at h
  have hsites : ((paren s inner).kept ctx).flatMap (reached ctx ((paren s inner).handsOn operand)) =
      inner.reached ctx operand := List.append_nil _
  rw [hsites]
  exact h

theorem logical_landed {s : Span} {operator : LogicalOperator} {left right : Node}
    (hp : (logical s operator left right).hasPlaces = true) (hleft : left.Landed ctx)
    (hright : right.Landed ctx) : (logical s operator left right).Landed ctx := by
  have hk : (logical s operator left right).keys = ⟨.logical,s⟩ :: (left.keys ++ right.keys) := by
    simp [keys_eq (logical s operator left right),ownKeys,children]
  have hreal : (⟨.logical,s⟩ : Key).isSynthetic = false := isDummy_eq_false hp List.mem_cons_self
  have hi : ∀ chain counters, Lands ctx chain [] (left.keys ++ right.keys)
      (walkChain ctx s operator left right counters)
      (left.collect ctx left.isChain ++ right.collect ctx right.isChain)
      (left.reached ctx true ++ right.reached ctx true) [] fun m => [m] := fun chain counters =>
    .withChain true ((Lands.operand fun c => hleft true c).bind fun x =>
      (Lands.operand fun c => hright true c).node (logical s operator x) fun _ _ => id)
  refine landed_of_sited hp fun operand given t ht hl hf => ?_
  have hsites : ((logical s operator left right).kept ctx).flatMap
      (reached ctx ((logical s operator left right).handsOn operand)) =
        left.reached ctx true ++ right.reached ctx true := by
    simp [kept,children,handsOn]
  rw [hk] at ht
  rw [hsites]
  cases operand with
  | false =>
    rw [run_walk_outermost ht.counting.inChain] at hf ⊢
    exact Lands.sited_visiting (ctx.chainRecords s left right) (fun _ => True)
      (.coverChain s left right) (fun x => (hi false x).collects.runs _ fun _ _ => trivial)
      hreal hl (fun t x u h => ⟨Action.coverChain_notes h,trivial⟩) (fun x _ => hi false x) ht hf
  | true =>
    rw [run_walk_inChain ht.counting.inChain] at hf ⊢
    refine Lands.sited_visiting ∅ (fun _ => True) (.pure [])
      (fun _ => (hi true given).collects.runs _ fun _ _ => trivial)
      hreal hl (fun t x u h => ⟨?_,trivial⟩) (fun _ _ => hi true given) ht hf
    cases h
    exact .refl _

theorem conditional_landed {s : Span} {test consequent alternate : Node}
    (hp : (conditional s test consequent alternate).hasPlaces = true)
    (hc : ∀ m ∈ (conditional s test consequent alternate).children, m.Landed ctx) :
    (conditional s test consequent alternate).Landed ctx := by
  have htest := (hc test (by simp [children])).alone
  have hconsequent := (hc consequent (by simp [children])).alone
  have halternate := (hc alternate (by simp [children])).alone
  have hi : ∀ counters : Option Counter × Option Counter, Lands ctx false [] _ _ _ _ [] _ :=
    fun counters => htest.bind fun x => (hconsequent.behind? counters.1).bind fun y =>
      (halternate.behind? counters.2).node (conditional s x y) fun _ _ => id
  refine landed_visiting (ctx.conditionalRecords s consequent alternate) id (fun _ => rfl)
    hi ?_ hp rfl (fun _ => rfl) (fun _ => rfl) rfl (fun k => ?_)
    (isDummy_eq_false hp List.mem_cons_self) (.coverConditional s _ _)
    (fun x => (hi x).collects.runs _ fun _ _ => trivial)
    (fun t x u h => ⟨Action.coverConditional_notes h,x,rfl⟩)
  · simp [kept,children]
  · simp [keys_eq (conditional s test consequent alternate),ownKeys,children]

/-- What is walked inside a function. -/
theorem function_runs (head : FunctionHead) (key : Option Node) (before : List Part) (body : Body)
    (after : List Part) (counter : Option Counter) : Runs ctx (fun _ => True) (do
      let key ← walkOption ctx none key
      let before ← walkParts ctx before
      let body ← walkBody ctx counter body
      let after ← walkParts ctx after
      return function head key before body after) :=
  (walkOption_runs none fun m _ => m.walk_runs_true).bind fun _ =>
    (walkParts_runs fun m _ => m.walk_runs_true).bind fun _ =>
      (walkBody_runs counter (fun _ _ => trivial) fun m _ => m.walk_runs_true).bind fun _ =>
        (walkParts_runs fun m _ => m.walk_runs_true).bind fun _ => .pure _

theorem function_landed {head : FunctionHead} {key : Option Node} {before : List Part} {body : Body}
    {after : List Part} (hp : (function head key before body after).hasPlaces = true)
    (hc : ∀ m ∈ (function head key before body after).children, m.Landed ctx) :
    (function head key before body after).Landed ctx := by
  have hpc : ∀ m ∈ (function head key before body after).children, m.hasPlaces = true :=
    fun m hm => hasPlaces_of_mem_children hp hm
  have hs : (head.recordedSpan key).isDummy = false := isDummy_eq_false hp List.mem_cons_self
  have hbodies : ∀ s ∈ (Action.bodyContent? body).toList.map (·.1), s.isDummy = false :=
    fun s h => isDummy_eq_false hp (List.mem_cons_of_mem _ h)
  simp only [children,List.mem_append] at hc hpc
  have hkey := walkOption_lands none fun n hn => hc n (.inl (.inl (.inl hn)))
  have hbefore := walkParts_lands fun n hn => hc n (.inl (.inl (.inr hn)))
  have hbody := fun (counter : Option Counter) (hx : counter.isSome = _) => walkBody_lands hx hbodies
    (fun n hn => hpc n (.inl (.inr hn))) fun n hn => hc n (.inl (.inr hn))
  have hafter := walkParts_lands fun n hn => hc n (.inr hn)
  refine landed_visiting (ctx.functionRecords head key body)
    (Subtype.val (p := fun x : Option Counter => x.isSome = (Action.bodyContent? body).isSome))
    (fun _ => rfl) (fun y => hkey.bind fun k => hbefore.bind fun b => (hbody y.val y.property).bind fun x =>
      hafter.node (function head k b x) fun _ _ => id) ?_ hp rfl (fun _ => rfl)
    (fun _ => branches_functionRecords head key body) rfl (count_keys_function head key before body after) hs
    (.coverFunction head key body fun _ _ _ _ => Or.inr trivial) (function_runs head key before body after)
    fun t x u h => ?_
  · simp [kept]
  · obtain ⟨hn,hx⟩ := Action.coverFunction_notes hs h
    refine ⟨?_,⟨x,hx⟩,rfl⟩
    simpa using hn

theorem classDeclaration_landed {s : Span} {data : List (String × Json)} {name : Node}
    {before : List Part} {heritage : Option Node} {after : List Part}
    (hp : (classDeclaration s data name before heritage after).hasPlaces = true)
    (hc : ∀ m ∈ (classDeclaration s data name before heritage after).children, m.Landed ctx) :
    (classDeclaration s data name before heritage after).Landed ctx := by
  simp only [children,List.mem_append,List.mem_cons] at hc
  have hname := (hc name (.inl (.inl (.inl rfl)))).alone
  have hbefore := walkParts_lands fun n hn => hc n (.inl (.inl (.inr hn)))
  have hheritage := fun counted => walkHeritage_lands counted fun n hn => hc n (.inl (.inr hn))
  have hafter := walkParts_lands fun n hn => hc n (.inr hn)
  have hi : ∀ counted : Bool, Lands ctx false [] _ _ _ _ [] _ := fun counted =>
    hname.bind fun x => hbefore.bind fun y => (hheritage counted).bind fun z =>
      hafter.node (classDeclaration s data x y z) fun _ _ => id
  refine landed_visiting ∅ id (fun _ => rfl) hi ?_ hp rfl (fun _ => rfl) (fun _ => rfl) rfl
    (fun k => ?_) (isDummy_eq_false hp List.mem_cons_self) (.pure true)
    (fun x => (hi x).collects.runs _ fun _ _ => trivial) fun t x u h => ⟨?_,x,rfl⟩
  · simp [kept,children]
  · simp [keys_eq (classDeclaration s data name before heritage after),ownKeys,children]
  · cases h
    exact .refl _

theorem compound_landed {form : CompoundForm} {s : Span} {data : List (String × Json)}
    {init : Option Node} {head : List Part} {body : Node}
    (hp : (compound form s data init head body).hasPlaces = true)
    (hc : ∀ m ∈ (compound form s data init head body).children, m.Landed ctx) :
    (compound form s data init head body).Landed ctx := by
  have hpc : ∀ m ∈ (compound form s data init head body).children, m.hasPlaces = true :=
    fun m hm => hasPlaces_of_mem_children hp hm
  simp only [children,List.mem_append,List.mem_singleton] at hc hpc
  have hinit := walkInit_lands (fun n hn => hpc n (.inl (.inl hn))) fun n hn => hc n (.inl (.inl hn))
  have hhead := walkParts_lands fun n hn => hc n (.inl (.inr hn))
  have hbody := Lands.asBody (hc body (.inr rfl) false)
  refine landed_visiting (ctx.statementRecords s) (fun _ : Unit => true) (fun _ => rfl)
    (fun _ => hinit.bind fun i => hhead.bind fun p =>
      hbody.node (compound form s data i p) fun _ _ => id) ?_ hp rfl (fun _ => rfl) (fun _ => rfl)
    rfl (fun k => ?_) (isDummy_eq_false hp List.mem_cons_self)
    (.coverCompound form s fun _ _ => Or.inr trivial) (fun counted => ?_) fun t x u h => ?_
  · simp [kept]
  · exact count_keys_compound form s data init head body k
  · exact (walkOption_runs none fun m _ => m.walk_runs_true).bind fun _ =>
      (walkParts_runs fun m _ => m.walk_runs_true).bind fun _ =>
        (Runs.asBody (fun _ _ => trivial) body.walk_runs_true).bind fun _ => .pure _
  · obtain ⟨hn,rfl⟩ := Action.coverCompound_notes h
    refine ⟨?_,(),rfl⟩
    simpa using hn

theorem ifElse_landed {s : Span} {test consequent : Node} {alternate : Option Node}
    (hp : (ifElse s test consequent alternate).hasPlaces = true)
    (hc : ∀ m ∈ (ifElse s test consequent alternate).children, m.Landed ctx) :
    (ifElse s test consequent alternate).Landed ctx := by
  have hreal : ∀ r ∈ (ifElse s test consequent alternate).spans, r.isDummy = false :=
    fun r hr => isDummy_eq_false hp hr
  simp only [children,List.mem_cons] at hc
  have htest := (hc test (.inl rfl)).alone
  have hside := fun counter => side_lands (ctx.directives.hintFor? s = some .consequent) counter
    (hreal _ (List.mem_cons_of_mem _ List.mem_cons_self)) (hc consequent (.inr (.inl rfl)))
  have helse := fun counter => walkElse_lands (ctx.directives.hintFor? s = some .alternate) counter
    (fun n hn => hreal n.span
      (List.mem_cons_of_mem _ (List.mem_cons_of_mem _ (List.mem_map_of_mem hn))))
    fun n hn => hc n (.inr (.inr hn))
  refine landed_visiting (ctx.ifRecords s) some (fun _ => rfl)
    (fun cs => htest.bind fun x => (hside cs.1).bind fun c =>
      (helse cs.2).node (fun a => ifElse s x c (some a)) fun _ _ => id) ?_ hp rfl (fun _ => rfl)
    (fun _ => rfl) rfl (fun k => ?_) (hreal s List.mem_cons_self)
    (.coverIf s (Or.inr trivial) (Or.inr trivial)) (fun counters => ?_) fun t x u h => ?_
  · simp only [kept,reachedIn_cons,reachedIn_append,decide_eq_true_eq]
    split <;> rfl
  · exact count_keys_ifElse s test consequent alternate k
  · refine (test.walk_runs_true []).bind fun _ => ?_
    cases counters with
    | none => exact (consequent.walk_runs_true []).bind fun _ =>
        (walkOption_runs none fun m _ => m.walk_runs_true).bind fun _ => .pure _
    | some cs => exact ((hside cs.1).collects.runs _ fun _ _ => trivial).bind fun _ =>
        ((helse cs.2).collects.runs _ fun _ _ => trivial).bind fun _ => .pure _
  · obtain ⟨hn,hx⟩ := Action.coverIf_notes h
    obtain ⟨cs,rfl⟩ := Option.isSome_iff_exists.mp hx
    refine ⟨?_,cs,rfl⟩
    simpa [Context.sideKeys] using hn

theorem bindings_landed {s : Span} {data : List (String × Json)} {declarators : List Declarator}
    (hp : (bindings s data declarators).hasPlaces = true)
    (hc : ∀ m ∈ (bindings s data declarators).children, m.Landed ctx) :
    (bindings s data declarators).Landed ctx := by
  have hs : ∀ d ∈ declarators, d.span.isDummy = false := by
    intro d hd
    refine isDummy_eq_false hp (List.mem_cons_of_mem _ (List.mem_flatMap.mpr ⟨d,hd,?_⟩))
    obtain ⟨s,data,target,init⟩ := d
    exact List.mem_cons_self
  have hi : Lands ctx false [] _ ((bindings s data declarators).walk ctx []) _ _ [] _ :=
    Lands.takeHoist.bind fun hoistable => ((walkDeclarators_lands hoistable hs hc).node
      (bindings s data) fun _ _ => id).passing List.not_mem_nil
  refine landed_alone ∅ hp rfl (fun _ => rfl) (fun _ => rfl) fun given t ht hl hf => ?_
  have hl : ctx.leavesOut s none = false := hl
  have h := hi.sited t (ht.of_count_le fun k => ?_) hf
  · rw [if_neg (by rw [hl]; exact Bool.false_ne_true)] at h
    exact h
  · exact count_keys_bindings s data declarators k

theorem walk_landed (n : Node) (hp : n.hasPlaces = true) : n.Landed ctx := by
  induction n using induction_children with
  | step n ih =>
    have hpc : ∀ m ∈ n.children, m.hasPlaces = true := fun m hm => hasPlaces_of_mem_children hp hm
    have hc : ∀ m ∈ n.children, m.Landed ctx := fun m hm => ih m hm (hpc m hm)
    have hreal : ∀ s ∈ n.spans, s.isDummy = false := fun s hs => isDummy_eq_false hp hs
    clear ih
    cases n with
    | plain head parts =>
      refine landed_alone ∅ hp rfl (fun _ => rfl) (fun _ => rfl) fun given t ht _ hf => ?_
      rw [keys_eq] at ht
      exact ((walkParts_lands hc).node (plain head) fun _ _ => id).sited t ht hf
    | paren s inner => exact paren_landed hp (hc inner List.mem_cons_self)
    | logical s operator left right =>
      exact logical_landed hp (hc left (by simp [children])) (hc right (by simp [children]))
    | conditional s test consequent alternate => exact conditional_landed hp hc
    | function head key before body after => exact function_landed hp hc
    | defaulted form s target value =>
      have hi : ∀ counter : Option Counter, Lands ctx false [] _ _ _ _ [] _ := fun counter =>
        (hc target List.mem_cons_self).alone.bind fun x =>
          (walkOption_lands counter fun n hn => hc n (List.mem_cons_of_mem _ hn)).node
            (defaulted form s x) fun _ _ => id
      refine landed_visiting (ctx.defaultRecords s value) id (fun _ => rfl) hi rfl hp rfl
        (fun _ => rfl) (fun _ => rfl) rfl (fun k => ?_) (hreal s List.mem_cons_self)
        (.coverDefault s value) (fun x => (hi x).collects.runs _ fun _ _ => trivial)
        fun t x u h => ⟨Action.coverDefault_notes h,x,rfl⟩
      rw [keys_eq (defaulted form s target value)]
      exact Nat.le_refl _
    | classDeclaration s data name before heritage after => exact classDeclaration_landed hp hc
    | expression s inner =>
      have hi : Lands ctx false [] inner.keys _ _ (inner.reached ctx false) [] _ :=
        (hc inner List.mem_cons_self).alone.node (expression s) fun _ _ => id
      refine landed_visiting (ctx.statementRecords s) id (fun _ => rfl) (fun _ => hi)
        (List.append_nil _) hp rfl (fun _ => rfl) (fun _ => rfl) rfl (fun k => ?_)
        (hreal s List.mem_cons_self) (.coverStatement _ s)
        (fun x => hi.collects.runs _ fun _ _ => trivial)
        fun t x u h => ⟨Action.coverStatement_notes h,x,rfl⟩
      simp [keys_eq (expression s inner),ownKeys,children]
    | simple form s parts =>
      have hi : Lands ctx false [] _ _ _ _ [] _ := (walkParts_lands hc).node (simple form s) fun _ _ => id
      refine landed_visiting (ctx.statementRecords s) id (fun _ => rfl) (fun _ => hi) rfl hp rfl
        (fun _ => rfl) (fun _ => rfl) rfl (fun k => ?_) (hreal s List.mem_cons_self)
        (.coverStatement _ s) (fun x => hi.collects.runs _ fun _ _ => trivial)
        fun t x u h => ⟨Action.coverStatement_notes h,x,rfl⟩
      rw [keys_eq (simple form s parts)]
      exact Nat.le_refl _
    | compound form s data init head body => exact compound_landed hp hc
    | ifElse s test consequent alternate => exact ifElse_landed hp hc
    | switch s discriminant cases =>
      refine landed_alone (ctx.switchRecords s cases) hp rfl (fun _ => rfl) (fun _ => rfl)
        fun given t ht hl hf => walk_switch_sited given hp hc hl (ht.of_count_le fun k => ?_) hf
      exact count_keys_switch s discriminant cases k
    | bindings s data declarators => exact bindings_landed hp hc
    | block s statements =>
      refine landed_passing (fun given => .afterCounter given.head?.join fun first =>
        (walkItems_lands false hpc hc).node (fun items => block s (placed (first ++ items)))
          fun _ _ hm => by simpa [children] using hm)
        hp rfl (fun _ => rfl) (fun _ => rfl) (fun _ => rfl) rfl fun k => ?_
      rw [keys_eq (block s statements)]
      exact Nat.le_refl _
    | exported s declaration =>
      have hk : (exported s declaration).keys = declaration.keys := by
        simp [keys_eq (exported s declaration),ownKeys,children]
      have hi : Lands ctx false [] declaration.keys _ _ (declaration.reached ctx false) [] _ :=
        (hc declaration List.mem_cons_self).alone.node (exported s) fun _ _ => id
      refine landed_alone ∅ hp rfl (fun _ => rfl) (fun _ => rfl) fun given t ht _ hf => ?_
      rw [hk] at ht
      have hsites : reachedIn ctx ((exported s declaration).kept ctx) = declaration.reached ctx false :=
        List.append_nil _
      rw [hsites]
      exact hi.sited t ht hf
    | namespaceBlock s items =>
      refine landed_alone ∅ hp rfl (fun _ => rfl) (fun _ => rfl) fun given t ht _ hf => ?_
      rw [keys_eq] at ht
      exact ((walkItems_lands false hpc hc).node (fun items => namespaceBlock s (placed items))
        fun _ _ => id).sited t ht hf

end Node

namespace Program

variable {ctx : Context} {p : Program} {coverage : CoverageMap}

/-- A program is walked from a state in which the directives at its head are asked to be left out. -/
theorem ready_start (hd : p.hasDistinctPlaces = true) (hc : coverage.Parallel) :
    Traversal.Ready ctx false (Action.directiveKeys p.body) (p.body.flatMap Node.keys)
      { Traversal.start coverage with marks := p.prologueMarks } := by
  refine ⟨fresh_keys hd,⟨rfl,rfl,fun k hk => ?_⟩,fun k _ hk => ?_,List.forall_mem_nil _,hc⟩
  · exact Marks.get?_foldl_markSkip hk _ _ _ rfl
  · exact Marks.skips_foldl_markSkip hk _ _ _

/-- The constructs of a program at which counting is on stand in the walked program. -/
theorem sited_walk (hp : p.hasPlaces = true) (hd : p.hasDistinctPlaces = true)
    (hc : coverage.Parallel) (hf : (p.walk ctx coverage).2.failure = none) :
    Sited ctx coverage.branchCount (p.reached ctx) [] (p.walk ctx coverage).1.body := by
  have hplaces : ∀ n ∈ p.body, n.hasPlaces = true := List.all_eq_true.mp hp
  have hi : Lands ctx false _ _ (walkItems ctx p.body) _ _ [] placed :=
    walkItems_lands true hplaces fun n hn => n.walk_landed (hplaces n hn)
  exact hi.sited _ (ready_start hd hc) hf

theorem nodes_subset_prepend (p : Program) (nodes : List Node) : p.nodes ⊆ (p.prepend nodes).nodes := by
  intro m hm
  rw [Program.nodes,prepend] at *
  simp only [List.flatMap_append,List.mem_append]
  rw [← List.take_append_drop (prologueLength p.body) p.body,List.flatMap_append,
    List.mem_append] at hm
  exact hm.imp .inl id

end Program
end CoverageCounters
