import CoverageCounters.Proofs.Placement

/-!
Where a walk puts the counters that it adds to the tables: they stand in its answer, or they are queued
in front of the list item that is being walked, for something in front of that item. Each way to put
walks together keeps this, and so do the walks over lists and parts of nodes.
-/

namespace CoverageCounters

open Walk Traversal

namespace Traversal

variable {ctx : Context} {m : CoverageMap} {visited : Key → Prop} {t u : Traversal}

/-- Once it is taken, the note that variables are declared does not come back. -/
theorem Run.hoist_eq_false (h : Run ctx visited t u) (ht : t.hoist = false) : u.hoist = false := by
  induction h with
  | refl t => exact ht
  | trans _ _ ih₁ ih₂ => exact ih₂ (ih₁ ht)
  | visit _ hu _ ih => exact ih (hu.hoist_eq.trans ht)
  | item _ _ => rfl
  | hoist t => rfl
  | chain _ ih => exact ih ht

/-- Where counting is off no branch is noted. -/
theorem Run.branch?_of_quiet (h : Run ctx visited t u) (ht : t.AnchorBelow) (hq : t.Quiet) {k : Key}
    {b : Nat} (hb : u.marks.branch? k = some b) : t.marks.branch? k = some b := by
  induction h with
  | refl t => exact hb
  | @trans t u v h₁ _ ih₁ ih₂ =>
    exact ih₁ ht hq (ih₂ ((h₁.samePlace ht).anchorBelow ht) (h₁.quiet ht hq) hb)
  | @visit t u v key name _ hu _ ih =>
    have he : (t.enter ctx key name).Quiet := hq.enter key name
    have heq := hu.eq_of_quiet he
    subst heq
    exact ih (ht.enter key name) he (Marks.branch?_eq_some_of_clear hb)
  | item _ ih => exact ih ht hq hb
  | hoist t => exact hb
  | chain _ ih => exact ih ht hq hb

/-- A state in which the walk may go on. -/
structure Steady (ctx : Context) (m : CoverageMap) (t : Traversal) : Prop extends t.Noted ctx m where
  anchorBelow : t.AnchorBelow
  queues : t.QueuesCounters ctx

theorem Steady.of_run (h : t.Steady ctx m) (hr : Run ctx visited t u) (hn : u.Noted ctx m) :
    u.Steady ctx m :=
  ⟨hn,(hr.samePlace h.anchorBelow).anchorBelow h.anchorBelow,hr.queuesCounters h.queues⟩

theorem Steady.of_acts (h : t.Steady ctx m) (ha : Acts ctx key marked t u) (hn : u.Noted ctx m) :
    u.Steady ctx m :=
  ⟨hn,ha.samePlace.anchorBelow h.anchorBelow,ha.queuesCounters h.queues⟩

theorem Steady.enter (h : t.Steady ctx m) (key : Key) (name : Option String) :
    (t.enter ctx key name).Steady ctx m :=
  ⟨⟨h.parallel,h.branches⟩,h.anchorBelow.enter key name,h.queues⟩

/-- The action of a construct is run only if no hint leaves the construct out. -/
theorem skips_of_counts {name : Option String} (h : (t.enter ctx key name).counts key = true) :
    ctx.directives.skips key.span = false := by
  rw [counts,Bool.and_eq_true,Bool.and_eq_true] at h
  have hs : (t.enter ctx key name).isSuppressed = false := by simpa using h.1.2
  simp only [Traversal.enter,isSuppressed] at hs
  split at hs
  · cases hs
  · rename_i hn
    simp only [startsSuppression,isSuppressed,hs] at hn
    simp_all

theorem Noted.leave (h : t.Noted ctx m) (key : Key) (depth : Nat) : (t.leave key depth).Noted ctx m :=
  ⟨h.parallel,fun k b hb => h.branches k b (Marks.branch?_eq_some_of_clear hb)⟩

/-- Entering and leaving a construct adds no counters. -/
theorem Accounts.visit {held : Counter → Prop} {places : Span → Prop} {name : Option String} {depth : Nat}
    (h : Accounts ctx m (t.enter ctx key name) u held places) :
    Accounts ctx m t (u.leave key depth) held places :=
  ⟨h.noted.leave key depth,h.counters⟩

end Traversal

theorem Counter.statementNode_injective (name : String) :
    Function.Injective (Counter.statementNode name) := by
  intro c c' h
  have hn : c.node name = c'.node name := (Node.expression.inj h).2
  have hr := congrArg (Counter.ofNode? name) hn
  rwa [Counter.ofNode?_node,Counter.ofNode?_node,Option.some.injEq] at hr

section Held

variable {ctx : Context} {d : FileCoverage} {c : Counter} {n x : Node} {nodes rest : List Node}

theorem Held.of_subset (h : Held ctx d nodes c)
    (hs : ∀ x ∈ nodes, x.subnodes ⊆ rest.flatMap Node.subnodes) : Held ctx d rest c := by
  obtain ⟨m,hm,h⟩ := h
  obtain ⟨x,hx,hm⟩ := List.mem_flatMap.mp hm
  exact ⟨m,hs x hx hm,h⟩

theorem Held.of_mem (h : Held ctx d [x] c) (hx : x ∈ nodes) : Held ctx d nodes c := by
  refine h.of_subset fun y hy => ?_
  rw [List.mem_singleton.mp hy]
  exact subnodes_of_mem hx

theorem Held.append_left (h : Held ctx d nodes c) : Held ctx d (nodes ++ rest) c :=
  h.of_subset fun _ hx => subnodes_of_mem (List.mem_append_left _ hx)

theorem Held.append_right (h : Held ctx d rest c) : Held ctx d (nodes ++ rest) c :=
  h.of_subset fun _ hx => subnodes_of_mem (List.mem_append_right _ hx)

theorem Held.tail (h : Held ctx d rest c) : Held ctx d (x :: rest) c :=
  h.of_subset fun _ hx => subnodes_of_mem (List.mem_cons_of_mem _ hx)

theorem Held.inside (h : Held ctx d nodes c) (hn : nodes ⊆ n.children) : Held ctx d [n] c :=
  h.of_subset fun _ hx => subnodes_of_mem_children (hn hx)

theorem Held.of_child (h : Held ctx d [x] c) (hx : x ∈ n.children) : Held ctx d [n] c :=
  h.inside (List.cons_subset.mpr ⟨hx,List.nil_subset _⟩)

theorem Held.here (h : StandsIn ctx d n c) : Held ctx d [n] c :=
  ⟨n,by simp [Node.subnodes],h⟩

theorem Held.after (first : Node) (h : Held ctx d [n] c) : Held ctx d [Build.after first n] c := by
  refine h.of_subset fun y hy => ?_
  rw [List.mem_singleton.mp hy]
  exact subnodes_after first n

end Held

section Lists

variable {ctx : Context} {d : FileCoverage} {c : Counter} {n : Node}

/-- A counter stands in a list of statements, inside an item or in front of one. -/
def ListHeld (ctx : Context) (d : FileCoverage) (items : List Node) (c : Counter) : Prop :=
  Held ctx d items c ∨ ∃ i, c = .statement i ∧ Leads ctx d items i

/-- A counter stands at a walked item: inside it, or among the counters that are queued in front. -/
def ItemHeld (ctx : Context) (d : FileCoverage) (item : List Node × Node) (c : Counter) : Prop :=
  Held ctx d [item.2] c ∨ (∀ k ∈ item.1, k.isCounter ctx.identifier = true) ∧
    ∃ i s, c = .statement i ∧ c.statementNode ctx.identifier ∈ item.1 ∧ item.2.InFront true s ∧
      d.CountsAt ctx s c

theorem Leads.append {items : List Node} {i : Nat} (first last : List Node)
    (h : Leads ctx d items i) : Leads ctx d (first ++ items ++ last) i := by
  obtain ⟨before,between,item,after,s,rfl,hb,hs,hc⟩ := h
  exact ⟨first ++ before,between,item,after ++ last,s,by simp,hb,hs,hc⟩

theorem ListHeld.append {items : List Node} (first last : List Node) (h : ListHeld ctx d items c) :
    ListHeld ctx d (first ++ items ++ last) c := by
  rcases h with h | ⟨i,rfl,h⟩
  · exact .inl h.append_right.append_left
  · exact .inr ⟨i,rfl,h.append first last⟩

theorem ListHeld.held {items : List Node} (h : ListHeld ctx d items c) (hn : items ∈ n.lists)
    (hs : items ⊆ n.children) : Held ctx d [n] c := by
  rcases h with h | ⟨i,rfl,h⟩
  · exact h.inside hs
  · exact .here (.item hn h)

theorem ItemHeld.listHeld {item : List Node × Node} (h : ItemHeld ctx d item c) :
    ListHeld ctx d (item.1 ++ [item.2]) c := by
  rcases h with h | ⟨hk,i,s,rfl,hm,hs,hc⟩
  · exact .inl h.append_right
  · obtain ⟨before,between,he⟩ := List.append_of_mem hm
    refine .inr ⟨i,rfl,before,between,item.2,[],s,by rw [he]; simp,fun k hb => hk k ?_,hs,hc⟩
    rw [he]
    exact List.mem_append_right _ (List.mem_cons_of_mem _ hb)

theorem ItemHeld.placed {items : List (List Node × Node)} {item : List Node × Node}
    (h : ItemHeld ctx d item c) (hi : item ∈ items) : ListHeld ctx d (placed items) c := by
  obtain ⟨before,after,rfl⟩ := List.append_of_mem hi
  have hp := h.listHeld.append (Walk.placed before) (Walk.placed after)
  rwa [Walk.placed,List.flatMap_append,List.flatMap_cons,← List.append_assoc]

/-- A counter stands in every function with the given body. -/
def BodyHeld (ctx : Context) (d : FileCoverage) (body : Body) (c : Counter) : Prop :=
  ∀ head key before after, Held ctx d [.function head key before body after] c

theorem BodyHeld.of_inside {body : Body} (h : Held ctx d body.nodes c) : BodyHeld ctx d body c :=
  fun _ _ _ _ => h.inside fun _ hx => List.mem_append_left _ (List.mem_append_right _ hx)

theorem ListHeld.bodyHeld {s : Span} {items : List Node} (h : ListHeld ctx d items c) :
    BodyHeld ctx d (.block s items) c :=
  fun _ _ _ _ => h.held (List.mem_singleton_self _)
    fun _ hx => List.mem_append_left _ (List.mem_append_right _ hx)

end Lists

def Body.statements : Body → List Node
  | block _ statements => statements
  | _ => []

theorem Body.statements_subset (body : Body) : body.statements ⊆ body.nodes := by
  cases body with
  | block s statements => exact List.Subset.refl _
  | _ => exact List.nil_subset _

namespace Node

variable {hoist : Bool} {n : Node} {s : Span}

theorem isCounted_of_isBlock (h : n.isBlock = true) : n.isCounted = false := by
  cases n with
  | block => rfl
  | _ => cases h

theorem InFront.of_false (h : n.InFront false s) : n.InFront hoist s := by
  cases h with
  | own h => exact .own h
  | labeled hb h => exact .labeled hb h

theorem not_inFront (hn : n.isCounted = false) : ¬n.InFront false s := by
  intro h
  cases h with
  | own h =>
    rw [hn] at h
    cases h
  | labeled => cases hn

end Node

namespace Walk

variable {α β γ : Type} {ctx : Context} {m : CoverageMap} {hoist : Bool} {held : α → Counter → Prop}
  {held' : β → Counter → Prop} {places : α → Span → Prop} {places' : β → Span → Prop}

/-- A walk whose new counters are held in its answer, or queued for places in front of it. -/
structure Lays (ctx : Context) (m : CoverageMap) (hoist : Bool) (w : Walk α)
    (held : α → Counter → Prop) (places : α → Span → Prop) : Prop where
  runs : Runs ctx (fun _ => True) w
  accounts : ∀ t, t.Steady ctx m → t.hoist = hoist → (w.run t).2.failure = none →
    (w.run t).2.coverage.Keeps m →
    Accounts ctx m t (w.run t).2 (held (w.run t).1) (places (w.run t).1)

/-- No place is in front of the answer of a walk. -/
abbrev Nowhere : α → Span → Prop := fun _ _ => False

namespace Lays

theorem pure (a : α) : Lays ctx m hoist (Pure.pure a) held places :=
  ⟨.pure a,fun _ ht _ _ _ => .refl ht.toNoted⟩

theorem mono {w : Walk α} {held' : α → Counter → Prop} {places' : α → Span → Prop}
    (h : Lays ctx m hoist w held places) (hh : ∀ t c, held (w.run t).1 c → held' (w.run t).1 c)
    (hp : ∀ t s, places (w.run t).1 s → places' (w.run t).1 s) : Lays ctx m hoist w held' places' :=
  ⟨h.runs,fun t ht hb hf hk => (h.accounts t ht hb hf hk).mono (hh t) (hp t)⟩

theorem map {w : Walk α} (h : Lays ctx m hoist w held places) (f : α → β)
    (hh : ∀ a c, held a c → held' (f a) c) (hp : ∀ a s, places a s → places' (f a) s) :
    Lays ctx m hoist (w >>= fun a => Pure.pure (f a)) held' places' :=
  ⟨h.runs.bind fun _ => .pure _,
    fun t ht hb hf hk => (h.accounts t ht hb hf hk).mono (hh _) (hp _)⟩

/-- One walk after the other: what the first holds and has in front is not lost by the second. -/
theorem bind_front {w : Walk α} {f : α → Walk β} (h : Lays ctx m false w held places)
    (hf : ∀ a, Lays ctx m false (f a) held' places')
    (hh : ∀ a t c, held a c → held' ((f a).run t).1 c)
    (hp : ∀ a t s, places a s → places' ((f a).run t).1 s) :
    Lays ctx m false (w >>= f) held' places' := by
  refine ⟨h.runs.bind fun a => (hf a).runs,fun t ht hb hn hk => ?_⟩
  rw [run_bind] at hn hk ⊢
  have hr := h.runs t
  have hr' := (hf (w.run t).1).runs (w.run t).2
  have hu := (hr.samePlace ht.anchorBelow).anchorBelow ht.anchorBelow
  have hw := h.accounts t ht hb (hr'.failure_eq_none hu hn) (hr'.grows.keeps.trans hk)
  have hf' := (hf _).accounts _ (ht.of_run hr hw.noted) (hr.hoist_eq_false hb) hn hk
  exact (hw.mono (hh _ _) (hp _ _)).trans hf'

theorem bind {w : Walk α} {f : α → Walk β} (h : Lays ctx m false w held Nowhere)
    (hf : ∀ a, Lays ctx m false (f a) held' places')
    (hh : ∀ a t c, held a c → held' ((f a).run t).1 c) : Lays ctx m false (w >>= f) held' places' :=
  h.bind_front hf hh fun _ _ _ hs => hs.elim

section Visits

variable {key : Key} {name : Option String} {action : Action γ} {idle : γ} {inside : γ → Walk α}

/-- A visit of a construct that is counted. What its action has in hand is held in the answer, and what it
queues is in front of it; where counting is off there is neither. -/
theorem visiting_of (possible : γ → Prop) (hand : γ → Counter → Prop) (own : γ → Span → Prop)
    (ha : Action.Acting ctx key (Within fun _ => True) action) (hk : key.isSynthetic = false)
    (hr : ∀ x, Runs ctx (fun _ => True) (inside x))
    (hact : ∀ t x u, t.Noted ctx m → ctx.directives.skips key.span = false →
      action.run.run t = (.ok x,u) → u.coverage.Keeps m →
      possible x ∧ Accounts ctx m t u (hand x) (own x))
    (hi : ∀ x, possible x → Lays ctx m hoist (inside x) held places)
    (hh : ∀ x t c, t.QueuesCounters ctx → hand x c → held ((inside x).run t).1 c)
    (hown : ∀ x t s, own x s → places ((inside x).run t).1 s) :
    Lays ctx m hoist (visiting ctx key name action idle inside) held places := by
  refine ⟨.visiting (Or.inr trivial) ha hr,fun t ht hb hf hkeep => ?_⟩
  have he : (t.enter ctx key name).Steady ctx m := ht.enter key name
  rw [run_visiting,run_attempt] at hf hkeep ⊢
  by_cases hc : (t.enter ctx key name).counts key = true
  · rw [if_pos hc] at hf hkeep ⊢
    have hacts := ha (t.enter ctx key name)
    cases hrun : action.run.run (t.enter ctx key name) with
    | mk r u =>
    rw [hrun] at hf hkeep hacts
    dsimp only at hacts
    have hbelow := hacts.samePlace.anchorBelow he.anchorBelow
    cases r with
    | error e =>
      have hn : (u.failure.or (some e)) = none :=
        (hr idle { u with failure := u.failure.or (some e) }).failure_eq_none hbelow hf
      rw [Option.or_eq_none_iff] at hn
      cases hn.2
    | ok x =>
      dsimp only at hf hkeep ⊢
      have hrx := hr x u
      obtain ⟨hx,hfirst⟩ := hact _ x u he.toNoted (skips_of_counts hc) hrun (hrx.grows.keeps.trans hkeep)
      have hsteady := he.of_acts hacts hfirst.noted
      have hrest := (hi x hx).accounts u hsteady (hacts.hoist_eq.trans hb) hf hkeep
      exact ((hfirst.mono (fun c => hh x u c hsteady.queues) (hown x u)).trans hrest).visit
  · rw [if_neg hc] at hf hkeep ⊢
    dsimp only at hf hkeep ⊢
    have hrun := hr idle (t.enter ctx key name)
    have hn := hrun.failure_eq_none he.anchorBelow hf
    have hq : (t.enter ctx key name).Quiet := by
      refine Or.inr ?_
      simpa [counts,hn,hk] using hc
    obtain ⟨hcov,-,hframes⟩ := hrun.eq_of_quiet he.anchorBelow hq
    refine Accounts.visit (.of_eq ⟨hrun.parallel he.parallel,fun k b hb => ?_⟩ hcov hframes)
    exact he.branches k b (hrun.branch?_of_quiet he.anchorBelow hq hb)

theorem visiting (hand : γ → Counter → Prop) (own : γ → Span → Prop)
    (ha : Action.Acting ctx key (Within fun _ => True) action) (hk : key.isSynthetic = false)
    (hact : ∀ t x u, t.Noted ctx m → action.run.run t = (.ok x,u) → u.coverage.Keeps m →
      Accounts ctx m t u (hand x) (own x))
    (hi : ∀ x, Lays ctx m hoist (inside x) held places)
    (hh : ∀ x t c, hand x c → held ((inside x).run t).1 c)
    (hown : ∀ x t s, own x s → places ((inside x).run t).1 s) :
    Lays ctx m hoist (visiting ctx key name action idle inside) held places :=
  visiting_of (fun _ => True) hand own ha hk (fun x => (hi x).runs)
    (fun t x u hn _ hrun hkeep => ⟨trivial,hact t x u hn hrun hkeep⟩) (fun x _ => hi x)
    (fun x t c _ => hh x t c) hown

theorem passing {w : Walk α} (h : Lays ctx m hoist w held places) :
    Lays ctx m hoist (passing ctx key w) held places := by
  refine ⟨.passing (Or.inr trivial) h.runs,fun t ht hb hf hkeep => ?_⟩
  have hidle : (attempt key (Pure.pure ()) ()).run (t.enter ctx key none) = ((),t.enter ctx key none) := by
    rw [run_attempt]
    split <;> rfl
  rw [Walk.passing,run_visiting,hidle] at hf hkeep ⊢
  exact (h.accounts (t.enter ctx key none) (ht.enter key none) hb hf hkeep).visit

end Visits

theorem withChain {w : Walk α} (inChain : Bool) (h : Lays ctx m hoist w held places) :
    Lays ctx m hoist (withChain inChain w) held places := by
  refine ⟨.withChain inChain h.runs,fun t ht hb hf hkeep => ?_⟩
  have hacc := h.accounts { t with inChain } ⟨⟨ht.parallel,ht.branches⟩,ht.anchorBelow,ht.queues⟩ hb hf hkeep
  exact ⟨⟨hacc.noted.parallel,hacc.noted.branches⟩,hacc.counters⟩

theorem takeHoist {f : Bool → Walk α} (hr : ∀ b, Runs ctx (fun _ => True) (f b))
    (h : Lays ctx m false (f hoist) held places) :
    Lays ctx m hoist (Walk.takeHoist >>= f) held places := by
  refine ⟨Runs.takeHoist.bind hr,fun t ht hb hf hkeep => ?_⟩
  have hrun : (Walk.takeHoist >>= f).run t = (f hoist).run { t with hoist := false } := by
    rw [← hb]
    rfl
  rw [hrun] at hf hkeep ⊢
  have hacc := h.accounts { t with hoist := false } ⟨⟨ht.parallel,ht.branches⟩,ht.anchorBelow,ht.queues⟩ rfl
    hf hkeep
  exact ⟨hacc.noted,hacc.counters⟩

/-- What is queued in front of a list item is taken by the item. -/
theorem asItem {declares : Bool} {walk : Walk Node}
    (h : Lays ctx m declares walk (fun x => Held ctx m.data [x]) fun x => x.InFront declares) :
    Lays ctx m false (asItem declares walk) (ItemHeld ctx m.data) Nowhere := by
  refine ⟨.asItem declares h.runs,fun t ht _ hf hkeep => ?_⟩
  have hsteady : Steady ctx m { t with frames := [] :: t.frames, hoist := declares } := by
    refine ⟨⟨ht.parallel,ht.branches⟩,ht.anchorBelow,fun frame hm => ?_⟩
    rcases List.mem_cons.mp hm with rfl | hm
    · exact List.forall_mem_nil _
    · exact ht.queues frame hm
  have hacc := h.accounts _ hsteady rfl hf hkeep
  obtain ⟨new,hframes,hnew,hcount⟩ := hacc.counters
  rw [queuedTop,List.nil_append] at hframes
  change Accounts ctx m t
    { (walk.run { t with frames := [] :: t.frames, hoist := declares }).2 with
      frames := (walk.run { t with frames := [] :: t.frames, hoist := declares }).2.frames.tail, hoist := false }
    (ItemHeld ctx m.data
      ((walk.run { t with frames := [] :: t.frames, hoist := declares }).2.frames.headD [],
        (walk.run { t with frames := [] :: t.frames, hoist := declares }).1)) _
  rw [hframes]
  refine ⟨⟨hacc.noted.parallel,hacc.noted.branches⟩,[],(queuedTop_nil _).symm,List.forall_mem_nil _,
    fun c hc => ?_⟩
  rcases hcount c hc with hold | hqueued | hheld
  · exact .inl hold
  · obtain ⟨i,s,he,hs,hat⟩ := hnew _ hqueued
    obtain rfl := Counter.statementNode_injective _ he
    refine .inr (.inr (.inr ⟨fun k hk => ?_,i,s,rfl,hqueued,?_,hat⟩))
    · obtain ⟨i,-,rfl,-⟩ := hnew k hk
      exact Node.isCounter_statementNode _ _
    · cases declares with
      | false => exact hs.of_false
      | true => exact hs
  · exact .inr (.inr (.inl hheld))

section Shapes

variable {walk : Walk Node}

theorem behind? (c : Option Counter) (h : Lays ctx m hoist walk (fun x => Held ctx m.data [x]) Nowhere) :
    Lays ctx m hoist (behind? ctx c walk) (fun x => Held ctx m.data [x]) Nowhere := by
  cases c with
  | none => exact h
  | some c => exact passing (h.map _ (fun _ _ hc => hc.after _) fun _ _ => id)

theorem inParens (wanted : Bool) (heritage : Node)
    (h : Lays ctx m hoist walk (fun x => Held ctx m.data [x]) Nowhere) :
    Lays ctx m hoist (inParens ctx wanted heritage walk) (fun x => Held ctx m.data [x]) Nowhere := by
  unfold Walk.inParens
  split
  · exact passing (h.map _ (fun _ _ hc => hc.inside (List.Subset.refl _)) fun _ _ => id)
  · exact h

theorem operand {n : Node} {counters : List (Option Counter)} {walk : List (Option Counter) → Walk Node}
    (h : ∀ given, Lays ctx m hoist (walk given) (fun x => Held ctx m.data [x]) Nowhere) :
    Lays ctx m hoist (operand ctx n counters walk) (fun x => Held ctx m.data [x]) Nowhere := by
  unfold Walk.operand
  split
  · exact h counters
  · exact withChain false ((h []).behind? _)

/-- A counter in a list brings no new ones. -/
theorem counterItem (c : Option Counter) {held : List (List Node × Node) → Counter → Prop} :
    Lays ctx m false (Walk.counterItem ctx c) held Nowhere := by
  refine ⟨.counterItem c,fun t ht _ _ _ => ?_⟩
  cases c with
  | none => exact .refl ht.toNoted
  | some c =>
    rw [run_counterItem]
    exact .of_eq ⟨ht.parallel,fun k b hb => ht.branches k b (Marks.branch?_eq_some_of_clear hb)⟩ rfl rfl

theorem afterCounter {f : List (List Node × Node) → Walk α} (c : Option Counter)
    (h : ∀ first, Lays ctx m false (f first) held places) :
    Lays ctx m false (Walk.counterItem ctx c >>= f) held places := by
  have hc : Lays ctx m false (Walk.counterItem ctx c) (fun _ _ => False) Nowhere := counterItem c
  exact hc.bind h fun _ _ _ => False.elim

/-- A body that becomes a block takes what is queued in front of it. -/
theorem inBlock {body : Node} {walk : List (Option Counter) → Walk Node} (c : Option Counter)
    (hb : body.isBlock = true → ∀ given t, ((walk given).run t).1.isBlock = true)
    (h : ∀ given, Lays ctx m body.declaresVariables (walk given) (fun x => Held ctx m.data [x])
      fun x => x.InFront body.declaresVariables) :
    Lays ctx m false (inBlock ctx c body walk) (fun x => Held ctx m.data [x]) Nowhere := by
  unfold Walk.inBlock
  split
  · rename_i hblock
    have hd : body.declaresVariables = false := by
      cases body with
      | block => rfl
      | _ => cases hblock
    rw [hd] at h
    exact (h [c]).mono (fun t c hc => hc) fun t s hs =>
      Node.not_inFront (Node.isCounted_of_isBlock (hb hblock [c] t)) hs
  · refine passing (afterCounter c fun first => (h []).asItem.map _ (fun item c' hc => ?_) fun _ _ => id)
    have hl := hc.placed (List.mem_append_right first (List.mem_singleton_self item))
    exact hl.held (List.mem_singleton_self _) (List.Subset.refl _)

/-- The value of an arrow that is counted stands in a block, and is counted there. -/
theorem asReturn {s : Span} (c : Counter) (hs : s.isDummy = false)
    (h : Lays ctx m false walk (fun x => Held ctx m.data [x]) Nowhere) :
    Lays ctx m false (asReturn ctx c s walk) (BodyHeld ctx m.data) Nowhere := by
  have hreturn : Lays ctx m false
      (Walk.visiting ctx ⟨.return,s⟩ none (Action.coverStatement ctx .return s) () fun _ => do
        return .simple .return s [.child "argument" (← walk)])
      (fun x => Held ctx m.data [x]) fun x => x.InFront false := by
    refine visiting (fun _ _ => False) (fun _ => (· = s)) (.coverStatement _ _) hs
      (fun t x u => Action.coverStatement_accounts)
      (fun _ => h.map _ (fun _ _ hc => hc.inside (List.Subset.refl _)) fun _ _ => False.elim)
      (fun _ _ _ => False.elim) fun _ t r hr => ?_
    rw [hr]
    exact .own rfl
  refine passing (afterCounter (some c) fun first =>
    hreturn.asItem.map _ (fun item c' hc => ?_) fun _ _ => id)
  exact (hc.placed (List.mem_append_right first (List.mem_singleton_self item))).bodyHeld

end Shapes
end Lays
end Walk

section Walks

variable {ctx : Context} {m : CoverageMap}

/-- The walk of a node holds its new counters in the answer, or queues them for places in front of it. -/
def Node.Laid (ctx : Context) (m : CoverageMap) (n : Node) : Prop :=
  ∀ hoist given, (hoist = true → n.declaresVariables = true) →
    Lays ctx m hoist (n.walk ctx given) (fun x => Held ctx m.data [x]) fun x => x.InFront hoist

/-- The walk of a node queues nothing. -/
def Node.LaidInline (ctx : Context) (m : CoverageMap) (n : Node) : Prop :=
  ∀ given, Lays ctx m false (n.walk ctx given) (fun x => Held ctx m.data [x]) Nowhere

theorem Node.Laid.item {n : Node} (h : n.Laid ctx m) :
    Lays ctx m false (asItem n.declaresVariables (n.walk ctx [])) (ItemHeld ctx m.data) Nowhere :=
  (h n.declaresVariables [] id).asItem

theorem Node.Laid.inBlock {n : Node} (c : Option Counter) (h : n.Laid ctx m) :
    Lays ctx m false (inBlock ctx c n fun given => n.walk ctx given) (fun x => Held ctx m.data [x])
      Nowhere := by
  refine Lays.inBlock c (fun hb given t => ?_) fun given => h n.declaresVariables given id
  cases n with
  | block s statements => rfl
  | _ => cases hb

theorem walkNodes_lays {nodes : List Node} (h : ∀ n ∈ nodes, n.LaidInline ctx m) :
    Lays ctx m false (walkNodes ctx nodes) (Held ctx m.data) Nowhere := by
  induction nodes with
  | nil => exact .pure []
  | cons n rest ih =>
    rw [walkNodes]
    refine (h n List.mem_cons_self []).bind (fun x => ?_) fun x t c hc => hc.of_mem List.mem_cons_self
    refine (ih fun n hn => h n (List.mem_cons_of_mem _ hn)).map _ (fun _ _ hc => hc.tail) fun _ _ => id

theorem walkPart_lays {p : Part} (h : ∀ n ∈ p.nodes, n.LaidInline ctx m) :
    Lays ctx m false (walkPart ctx p) (fun out => Held ctx m.data out.nodes) Nowhere := by
  cases p with
  | child field n => exact (h n (List.mem_singleton_self n) []).map _ (fun _ _ hc => hc) fun _ _ => id
  | children field nodes => exact (walkNodes_lays h).map _ (fun _ _ hc => hc) fun _ _ => id

theorem walkParts_lays {parts : List Part} (h : ∀ n ∈ parts.flatMap Part.nodes, n.LaidInline ctx m) :
    Lays ctx m false (walkParts ctx parts) (fun out => Held ctx m.data (out.flatMap Part.nodes)) Nowhere := by
  induction parts with
  | nil => exact .pure []
  | cons p rest ih =>
    rw [List.flatMap_cons] at h
    rw [walkParts]
    refine (walkPart_lays fun n hn => h n (List.mem_append_left _ hn)).bind (fun x => ?_)
      fun x t c hc => hc.append_left
    refine (ih fun n hn => h n (List.mem_append_right _ hn)).map _ (fun xs c hc => ?_) fun _ _ => id
    exact hc.append_right

theorem walkOption_lays (counter : Option Counter) {o : Option Node}
    (h : ∀ n ∈ o.toList, n.LaidInline ctx m) :
    Lays ctx m false (walkOption ctx counter o) (fun out => Held ctx m.data out.toList) Nowhere := by
  cases o with
  | none => exact .pure none
  | some n =>
    exact ((h n (List.mem_singleton_self n) []).behind? counter).map _ (fun _ _ hc => hc) fun _ _ => id

theorem walkHeritage_lays (counted : Bool) {o : Option Node} (h : ∀ n ∈ o.toList, n.LaidInline ctx m) :
    Lays ctx m false (walkHeritage ctx counted o) (fun out => Held ctx m.data out.toList) Nowhere := by
  cases o with
  | none => exact .pure none
  | some n =>
    exact ((h n (List.mem_singleton_self n) []).inParens counted n).map _ (fun _ _ hc => hc) fun _ _ => id

theorem walkElse_lays (counter : Option Counter) {o : Option Node} (h : ∀ n ∈ o.toList, n.Laid ctx m) :
    Lays ctx m false (walkElse ctx counter o) (fun x => Held ctx m.data [x]) Nowhere := by
  cases o with
  | none => exact .passing (.afterCounter counter fun _ => .pure _)
  | some n =>
    rw [walkElse]
    exact (h n (List.mem_singleton_self n)).inBlock counter

theorem walkItems_lays {items : List Node} (h : ∀ n ∈ items, n.Laid ctx m) :
    Lays ctx m false (walkItems ctx items) (fun out c => ∃ item ∈ out, ItemHeld ctx m.data item c)
      Nowhere := by
  induction items with
  | nil => exact .pure []
  | cons n rest ih =>
    rw [walkItems]
    refine (h n List.mem_cons_self).item.bind (fun x => ?_) fun x t c hc => ⟨x,List.mem_cons_self,hc⟩
    refine (ih fun n hn => h n (List.mem_cons_of_mem _ hn)).map _ (fun xs c hc => ?_) fun _ _ => id
    obtain ⟨item,hi,hc⟩ := hc
    exact ⟨item,List.mem_cons_of_mem _ hi,hc⟩

theorem walkStatements_lays (counter : Option Counter) {statements : List Node}
    (h : ∀ n ∈ statements, n.Laid ctx m) :
    Lays ctx m false (walkStatements ctx counter statements)
      (fun out c => ∃ item ∈ out, ItemHeld ctx m.data item c) Nowhere := by
  rw [walkStatements_eq]
  refine (walkItems_lays fun n hn => h n ((List.takeWhile_sublist _).mem hn)).bind (fun front => ?_)
    fun front t c hc => ?_
  · refine .afterCounter counter fun first => ?_
    refine (walkItems_lays fun n hn => h n ((List.dropWhile_sublist _).mem hn)).map _
      (fun back c hc => ?_) fun _ _ => id
    obtain ⟨item,hi,hc⟩ := hc
    exact ⟨item,List.mem_append_right _ hi,hc⟩
  · obtain ⟨item,hi,hc⟩ := hc
    exact ⟨item,List.mem_append_left _ (List.mem_append_left _ hi),hc⟩

theorem walkBody_lays (counter : Option Counter) {body : Body}
    (hs : ∀ e, body = .value e → e.span.isDummy = false ∧ e.LaidInline ctx m)
    (h : ∀ n ∈ body.statements, n.Laid ctx m) :
    Lays ctx m false (walkBody ctx counter body) (BodyHeld ctx m.data) Nowhere := by
  cases body with
  | absent => exact .pure _
  | block s statements =>
    refine .passing ((walkStatements_lays counter h).map _ (fun items c hc => ?_) fun _ _ => id)
    obtain ⟨item,hi,hc⟩ := hc
    exact (hc.placed hi).bodyHeld
  | value e =>
    obtain ⟨hd,he⟩ := hs e rfl
    cases counter with
    | none => exact (he []).map _ (fun x c hc => .of_inside hc) fun _ _ => id
    | some c => exact .asReturn c hd (he [])

end Walks

end CoverageCounters
