import CoverageCounters.Proofs.Ledger

/-!
Counters and tables correspond one to one. The walk keeps the ledger balanced: what a node is given
in hand it puts into the tree it answers with. At the end of a program nothing is in hand or queued, so
the program has gained each counter of the tables once, on the object with the file's name, and no other;
one that does not hold the name before has those counters and no more.
-/

namespace CoverageCounters

open Walk Traversal

namespace Node

variable {ctx : Context}

/-- A node that is made of plain nodes only. -/
inductive Bare : Node → Prop where
  | plain (head : Head) (parts : List (String × Node)) (inner : ∀ p ∈ parts, Bare p.2) :
      Bare (.plain head (parts.map fun p => .child p.1 p.2))

namespace Bare

variable {n m : Node}

theorem leaf (form : Form) (s : Span) (data : Attributes) : Bare (leaf form s data) :=
  .plain ⟨form,s,data⟩ [] nofun

theorem one (head : Head) (field : String) (hn : Bare n) : Bare (.plain head [.child field n]) :=
  .plain head [(field,n)] fun _ hp => List.mem_singleton.mp hp ▸ hn

theorem two (head : Head) (first second : String) (hn : Bare n) (hm : Bare m) :
    Bare (.plain head [.child first n,.child second m]) := by
  refine .plain head [(first,n),(second,m)] fun p hp => ?_
  rcases List.mem_cons.mp hp with rfl | hp
  · exact hn
  · exact List.mem_singleton.mp hp ▸ hm

theorem counter (name : String) (c : Counter) : Bare (c.node name) := by
  have hmember : ∀ table, Bare (Build.member (Build.identifier name) table) := fun table =>
    .two _ _ _ (.leaf _ _ _) (.leaf _ _ _)
  have helement : ∀ {object : Node} (i : Nat), Bare object →
      Bare (Build.element object (Build.index i)) := fun i h =>
    .two _ _ _ h (.one _ _ (.leaf _ _ _))
  cases c with
  | statement i => exact .one _ _ (helement i (hmember "s"))
  | function i => exact .one _ _ (helement i (hmember "f"))
  | branch i path => exact .one _ _ (helement path (helement i (hmember "b")))

end Bare

theorem walk_eq_plain {n : Node} {given : List (Option Counter)} {t : Traversal} {head : Head}
    {parts : List Part} (h : ((n.walk ctx given).run t).1 = .plain head parts) :
    ∃ old, n = .plain head old ∧ ((walkParts ctx old).run t).1 = parts := by
  cases n with
  | plain head' old =>
    cases h
    exact ⟨old,rfl,rfl⟩
  | ifElse s test consequent alternate =>
    rw [walk,run_visiting] at h
    dsimp only at h
    split at h <;> cases h
  | _ => cases h

theorem walkParts_eq_iff {parts : List (String × Node)} {old : List Part} {t : Traversal}
    (h : ∀ p ∈ parts, ∀ {n : Node} {t : Traversal}, ((n.walk ctx []).run t).1 = p.2 ↔ n = p.2) :
    ((walkParts ctx old).run t).1 = parts.map (fun p => .child p.1 p.2) ↔
      old = parts.map fun p => .child p.1 p.2 := by
  induction old generalizing parts t with
  | nil => exact Iff.rfl
  | cons q old ih =>
    cases parts with
    | nil => exact iff_of_false (List.cons_ne_nil _ _) (List.cons_ne_nil _ _)
    | cons p parts =>
      have hrest := @ih parts
      rw [List.map_cons,List.cons.injEq,walkParts,run_bind,run_bind,run_pure]
      dsimp only
      rw [List.cons.injEq,hrest fun p hp => h p (List.mem_cons_of_mem _ hp)]
      refine and_congr_left fun _ => ?_
      cases q with
      | child field m =>
        change Part.child field ((m.walk ctx []).run t).1 = _ ↔ _
        rw [Part.child.injEq,Part.child.injEq,h p List.mem_cons_self]
      | children field nodes => exact iff_of_false Part.noConfusion Part.noConfusion

/-- The walk answers with a bare node just if it was given that node. -/
theorem walk_eq_bare_iff {n m : Node} (hm : Bare m) {given : List (Option Counter)} {t : Traversal} :
    ((n.walk ctx given).run t).1 = m ↔ n = m := by
  induction hm generalizing n given t with
  | plain head parts _ ih =>
    constructor
    · intro h
      obtain ⟨old,rfl,hold⟩ := walk_eq_plain h
      rw [(walkParts_eq_iff fun p hp => ih p hp).mp hold]
    · rintro rfl
      have hold := (walkParts_eq_iff (t := t) fun p hp => ih p hp).mpr rfl
      exact congrArg (Node.plain head) hold

/-- The walk neither makes a node a counter nor takes a counter away. -/
theorem ofNode?_walk (name : String) (n : Node) (given : List (Option Counter)) (t : Traversal) :
    Counter.ofNode? name ((n.walk ctx given).run t).1 = Counter.ofNode? name n := by
  refine Option.ext fun c => ?_
  rw [Counter.ofNode?_eq_some_iff,Counter.ofNode?_eq_some_iff,walk_eq_bare_iff (Bare.counter name c)]

end Node

/-- The ledger is balanced, unless an error was met. -/
def Traversal.Settled (ctx : Context) (name : String) (c : Counter) (hand : Int) (t : Traversal) :
    Prop :=
  t.failure = none → t.Balanced ctx name c hand

namespace Walk

variable {α β : Type} {ctx : Context} {name : String} {c : Counter} {chain : Bool} {g : Int}

/-- A walk that starts with `g` counters in hand ends with those in its answer. -/
def Settles (ctx : Context) (name : String) (c : Counter) (chain : Bool) (g : Int) (w : Walk α)
    (held : α → Int) : Prop :=
  ∀ k t, t.inChain = chain → t.Settled ctx name c (k + g) →
    (w.run t).2.inChain = chain ∧ (w.run t).2.Settled ctx name c (k + held (w.run t).1)

namespace Settles

variable {held : α → Int} {result : β → Int}

theorem pure {b : β} (h : result b = g) : Settles ctx name c chain g (Pure.pure b) result := by
  intro k t hc ht
  refine ⟨hc,?_⟩
  change t.Settled ctx name c (k + result b)
  rw [h]
  exact ht

/-- The first walk takes `taken` of the counters in hand, and the others are kept for the second. -/
theorem bind_taking {w : Walk α} {f : α → Walk β} (kept : Int) {taken : Int}
    (hw : Settles ctx name c chain taken w held) (hg : g = kept + taken)
    (hf : ∀ a, Settles ctx name c chain (kept + held a) (f a) result) :
    Settles ctx name c chain g (w >>= f) result := by
  intro k t hc ht
  rw [hg,← Int.add_assoc] at ht
  obtain ⟨hc',hu⟩ := hw (k + kept) t hc ht
  rw [Int.add_assoc] at hu
  exact hf _ k _ hc' hu

theorem bind {w : Walk α} {f : α → Walk β} (hw : Settles ctx name c chain 0 w held)
    (hf : ∀ a, Settles ctx name c chain (g + held a) (f a) result) :
    Settles ctx name c chain g (w >>= f) result :=
  bind_taking g hw (Int.add_zero g).symm hf

/-- An attempt earns what its action earns; one that fails leaves nothing to settle. -/
theorem settled_attempt {key : Key} {action : Action α} {idle : α}
    (ha : Action.Earns ctx name c 0 action held)
    (hm : Action.Acting ctx key (Within fun _ => True) action)
    (hi : held idle = 0) {k : Int} {t : Traversal} (ht : t.Settled ctx name c k) :
    ((attempt key action idle).run t).2.Settled ctx name c
      (k + held ((attempt key action idle).run t).1) := by
  intro hf
  rw [run_attempt] at hf ⊢
  by_cases hc : t.counts key = true
  · rw [if_pos hc] at hf ⊢
    have hft : t.failure = none := by
      simp only [counts,Bool.and_eq_true,Option.isNone_iff_eq_none] at hc
      exact hc.1.1
    have hacts := hm t
    cases hr : action.run.run t with
    | mk r u =>
      rw [hr] at hf hacts
      cases r with
      | ok x => exact ha k t x u hr (by rw [Int.add_zero]; exact ht hft)
      | error e =>
        have hu : u.failure = none := hacts.failure_eq.trans hft
        simp [hu] at hf
  · rw [if_neg hc] at hf ⊢
    rw [hi,Int.add_zero]
    exact ht hf

theorem attempt_cases (key : Key) (action : Action α) (idle : α) (t : Traversal) :
    ((attempt key action idle).run t).1 = idle ∨
      ∃ u v, action.run.run u = (.ok ((attempt key action idle).run t).1,v) := by
  rw [run_attempt]
  by_cases hc : t.counts key = true
  · rw [if_pos hc]
    cases hr : action.run.run t with
    | mk r u =>
      cases r with
      | ok x => exact Or.inr ⟨t,u,hr⟩
      | error e => exact Or.inl rfl
  · rw [if_neg hc]
    exact Or.inl rfl

/-- What a visit earns goes to what is walked inside, which may rely on where it comes from. -/
theorem visiting {key : Key} {label : Option String} {action : Action α} {idle : α}
    {inside : α → Walk β} (ha : Action.Earns ctx name c 0 action held)
    (hm : Action.Acting ctx key (Within fun _ => True) action) (hz : held idle = 0)
    (hi : ∀ a, (a = idle ∨ ∃ u v, action.run.run u = (.ok a,v)) →
      Settles ctx name c chain (g + held a) (inside a) result) :
    Settles ctx name c chain g (visiting ctx key label action idle inside) result := by
  intro k t hc ht
  have he : (t.enter ctx key label).Settled ctx name c (k + g) := fun hf =>
    ⟨(ht hf).parallel,(ht hf).total⟩
  have hu := settled_attempt ha hm hz he
  have hp := (Runs.attempts hm idle (t.enter ctx key label)).samePlace.inChain
  rw [Int.add_assoc] at hu
  obtain ⟨hc',hv⟩ := hi _ (attempt_cases key action idle _) k _ (hp.trans hc) hu
  rw [run_visiting]
  exact ⟨hc',fun hf => ⟨(hv hf).parallel,(hv hf).total⟩⟩

theorem passing {key : Key} {inside : Walk β} (h : Settles ctx name c chain g inside result) :
    Settles ctx name c chain g (passing ctx key inside) result := by
  have hp : Action.Earns ctx name c 0 (Pure.pure ()) fun _ => 0 := .pure rfl
  exact visiting hp (.pure ()) rfl fun _ _ => (Int.add_zero g).symm ▸ h

theorem withChain {walk : Walk β} {inside : Bool} (h : Settles ctx name c inside g walk result) :
    Settles ctx name c chain g (withChain inside walk) result := by
  intro k t hc ht
  have hi : Traversal.Settled ctx name c (k + g) { t with inChain := inside } := fun hf =>
    ⟨(ht hf).parallel,(ht hf).total⟩
  have hu := (h k { t with inChain := inside } rfl hi).2
  exact ⟨hc,fun hf => ⟨(hu hf).parallel,(hu hf).total⟩⟩

theorem takeHoist : Settles ctx name c chain 0 takeHoist fun _ => 0 :=
  fun _ _ hc ht => ⟨hc,fun hf => ⟨(ht hf).parallel,(ht hf).total⟩⟩

section Placing

variable {walk : Walk Node} {n : Node}

/-- The walk of a node ends with the counters that its answer has more than the node. -/
abbrev Places (ctx : Context) (name : String) (c : Counter) (chain : Bool) (g : Int) (n : Node)
    (walk : Walk Node) : Prop :=
  Settles ctx name c chain g walk fun m => gain name c [m] [n]

theorem asItem (declares : Bool) (h : Places ctx name c chain g n walk) :
    Settles ctx name c chain g (asItem declares walk) fun item =>
      gain name c (item.1 ++ [item.2]) [n] := by
  intro k t hc ht
  let s : Traversal := { t with frames := [] :: t.frames, hoist := declares }
  have hs : s.Settled ctx name c (k + g) := fun hf => ⟨(ht hf).parallel,(ht hf).total⟩
  obtain ⟨hc',hu⟩ := h k s hc hs
  refine ⟨hc',fun hf => ⟨(hu hf).parallel,?_⟩⟩
  have htotal := (hu hf).total
  have hframes : ∀ frames : List (List Node),
      tally name c frames.flatten =
        tally name c (frames.headD []) + tally name c frames.tail.flatten := by
    intro frames
    cases frames <;> simp
  rw [hframes] at htotal
  dsimp only at htotal
  change k + gain name c ((walk.run s).2.frames.headD [] ++ [(walk.run s).1]) [n] +
    tally name c (walk.run s).2.frames.tail.flatten = (walk.run s).2.coverage.due ctx name c
  simp only [gain,tally_append] at htotal ⊢
  omega

theorem behind? (o : Option Counter) (h : Places ctx name c chain 0 n walk) :
    Places ctx name c chain (share ctx name c [o]) n (behind? ctx o walk) := by
  cases o with
  | none => exact h
  | some c' => exact passing (h.bind fun m => .pure (gain_after c' m n))

/-- An operand takes the counters it is given: a part of the chain hands them on, any other operand has
one at most. -/
theorem operand {counters : List (Option Counter)} {walk : List (Option Counter) → Walk Node}
    (hl : counters.length ≤ (ctx.directives.operands n).length)
    (hchain : n.isChain = true → Places ctx name c true (share ctx name c counters) n (walk counters))
    (hplain : Places ctx name c false 0 n (walk [])) :
    Places ctx name c true (share ctx name c counters) n (operand ctx n counters walk) := by
  unfold Walk.operand
  split
  · rename_i hn
    exact hchain hn
  · rename_i hn
    have hone : (ctx.directives.operands n).length = 1 := by
      cases n with
      | logical => exact absurd rfl hn
      | paren s inner =>
        have hi : ¬inner.isChain = true := hn
        rw [Directives.operands,if_neg hi]
        rfl
      | _ => rfl
    rw [hone] at hl
    have hb : Places ctx name c true (share ctx name c [counters.head?.join]) n
        (Walk.withChain false (Walk.behind? ctx counters.head?.join (walk []))) :=
      withChain (hplain.behind? counters.head?.join)
    match counters, hl with
    | [], _ => exact hb
    | [o], _ => exact hb

/-- A counter that is walked as an item ends up in the list. -/
theorem counterItem (o : Option Counter) :
    Settles ctx name c chain (share ctx name c [o]) (counterItem ctx o) fun first =>
      tally name c (placed first) := by
  cases o with
  | none => exact .pure rfl
  | some c' =>
    intro k t hc ht
    rw [run_counterItem]
    refine ⟨hc,fun hf => ⟨(ht hf).parallel,?_⟩⟩
    have hitem : (tally name c [c'.statementNode ctx.identifier] : Int) = share ctx name c [some c'] :=
      tally_statementNode c'
    have htotal := (ht hf).total
    rw [← hitem] at htotal
    exact htotal

theorem inBlock (o : Option Counter) {walk : List (Option Counter) → Walk Node}
    (hb : n.isBlock = true → Places ctx name c chain (share ctx name c [o]) n (walk [o]))
    (h : Places ctx name c chain 0 n (walk [])) :
    Places ctx name c chain (share ctx name c [o]) n (inBlock ctx o n walk) := by
  unfold Walk.inBlock
  split
  · rename_i hn
    exact hb hn
  · refine passing ((counterItem o).bind_taking 0 (Int.zero_add _).symm fun first =>
      (asItem _ h).bind fun item => .pure ?_)
    rw [gain,tally_children rfl,Node.children,placed_append,tally_append,gain]
    simp only [placed_cons,placed_nil,Int.natCast_add]
    omega

theorem asBody (counted : Bool) {walk : List (Option Counter) → Walk Node}
    (hb : n.isBlock = true → Places ctx name c chain (share ctx name c [none]) n (walk [none]))
    (h : Places ctx name c chain 0 n (walk [])) :
    Places ctx name c chain 0 n (asBody ctx counted n walk) := by
  unfold Walk.asBody
  split
  · exact inBlock none hb h
  · exact h

theorem inParens (wanted : Bool) (h : Places ctx name c chain 0 n walk) :
    Places ctx name c chain 0 n (inParens ctx wanted n walk) := by
  unfold Walk.inParens
  split
  · refine passing (h.bind fun m => .pure ?_)
    rw [Build.paren,gain,tally_children rfl,Int.zero_add]
    rfl
  · exact h

theorem asReturn (c' : Counter) (s : Span) (h : Places ctx name c chain 0 n walk) :
    Settles ctx name c chain (share ctx name c [some c']) (asReturn ctx c' s walk) fun b =>
      gain name c b.nodes [n] := by
  have hr : Places ctx name c chain 0 n (Walk.visiting ctx ⟨.return,s⟩ none
      (Action.coverStatement ctx .return s) () fun _ => do
        return .simple .return s [.child "argument" (← walk)]) := by
    refine visiting (.coverStatement _ _) (.coverStatement _ _) rfl fun _ _ =>
      h.bind fun m => .pure ?_
    rw [gain,tally_children rfl]
    simp [Node.children,Part.nodes,gain]
  refine passing ((counterItem (some c')).bind_taking 0 (Int.zero_add _).symm fun first =>
    (asItem _ hr).bind fun item => .pure ?_)
  rw [Body.nodes,gain,placed_append,tally_append,gain]
  simp only [placed_cons,placed_nil,Int.natCast_add]
  omega

end Placing
end Settles
end Walk

section Lists

variable {ctx : Context} {name : String} {c : Counter} {chain : Bool}

theorem walkNodes_settles {nodes : List Node}
    (h : ∀ n ∈ nodes, Settles.Places ctx name c chain 0 n (n.walk ctx [])) :
    Settles ctx name c chain 0 (walkNodes ctx nodes) fun ms => gain name c ms nodes := by
  induction nodes with
  | nil => exact .pure (gain_self [])
  | cons n rest ih =>
    rw [walkNodes]
    refine (h n List.mem_cons_self).bind fun m => ?_
    refine (ih fun x hx => h x (List.mem_cons_of_mem _ hx)).bind fun ms => .pure ?_
    rw [gain_cons,Int.zero_add]

theorem walkParts_settles {parts : List Part}
    (h : ∀ n ∈ parts.flatMap Part.nodes, Settles.Places ctx name c chain 0 n (n.walk ctx [])) :
    Settles ctx name c chain 0 (walkParts ctx parts) fun ps =>
      gain name c (ps.flatMap Part.nodes) (parts.flatMap Part.nodes) := by
  induction parts with
  | nil => exact .pure (gain_self [])
  | cons p rest ih =>
    rw [List.flatMap_cons] at h
    have hp : Settles ctx name c chain 0 (walkPart ctx p) fun q => gain name c q.nodes p.nodes := by
      cases p with
      | child field n =>
        exact (h n (List.mem_append_left _ (List.mem_singleton_self n))).bind fun m =>
          .pure (Int.zero_add _).symm
      | children field nodes =>
        exact (walkNodes_settles fun n hn => h n (List.mem_append_left _ hn)).bind fun ms =>
          .pure (Int.zero_add _).symm
    rw [walkParts]
    refine hp.bind fun q => ?_
    refine (ih fun n hn => h n (List.mem_append_right _ hn)).bind fun qs => .pure ?_
    rw [List.flatMap_cons,List.flatMap_cons,gain_append,Int.zero_add]

theorem walkOption_settles {counter : Option Counter} {o : Option Node}
    (hn : o = none → counter = none)
    (h : ∀ n ∈ o.toList, Settles.Places ctx name c chain 0 n (n.walk ctx [])) :
    Settles ctx name c chain (share ctx name c [counter]) (walkOption ctx counter o) fun m =>
      gain name c m.toList o.toList := by
  cases o with
  | none =>
    rw [hn rfl]
    exact .pure (gain_self [])
  | some n =>
    have hb := Settles.behind? counter (h n (List.mem_singleton_self n))
    exact hb.bind_taking 0 (Int.zero_add _).symm fun m => .pure (Int.zero_add _).symm

theorem walkElse_settles (counter : Option Counter) {o : Option Node}
    (hb : ∀ n ∈ o.toList, n.isBlock = true →
      Settles.Places ctx name c chain (share ctx name c [counter]) n (n.walk ctx [counter]))
    (h : ∀ n ∈ o.toList, Settles.Places ctx name c chain 0 n (n.walk ctx [])) :
    Settles ctx name c chain (share ctx name c [counter]) (walkElse ctx counter o) fun m =>
      gain name c [m] o.toList := by
  cases o with
  | none =>
    rw [walkElse]
    refine .passing ((Settles.counterItem counter).bind_taking 0 (Int.zero_add _).symm fun first =>
      .pure ?_)
    rw [gain,tally_children rfl,Node.children,Int.zero_add]
    exact Int.sub_zero _
  | some n =>
    rw [walkElse]
    exact .inBlock counter (hb n (List.mem_singleton_self n)) (h n (List.mem_singleton_self n))

theorem walkHeritage_settles (counted : Bool) {o : Option Node}
    (h : ∀ n ∈ o.toList, Settles.Places ctx name c chain 0 n (n.walk ctx [])) :
    Settles ctx name c chain 0 (walkHeritage ctx counted o) fun m =>
      gain name c m.toList o.toList := by
  cases o with
  | none => exact .pure (gain_self [])
  | some n =>
    exact (Settles.inParens counted (h n (List.mem_singleton_self n))).bind fun m =>
      .pure (Int.zero_add _).symm

theorem walkItems_settles {items : List Node}
    (h : ∀ n ∈ items, Settles.Places ctx name c chain 0 n (n.walk ctx [])) :
    Settles ctx name c chain 0 (walkItems ctx items) fun ms => gain name c (placed ms) items := by
  induction items with
  | nil => exact .pure (gain_self [])
  | cons n rest ih =>
    rw [walkItems]
    refine (Settles.asItem _ (h n List.mem_cons_self)).bind fun item => ?_
    refine (ih fun x hx => h x (List.mem_cons_of_mem _ hx)).bind fun ms => .pure ?_
    have hp : placed (item :: ms) = (item.1 ++ [item.2]) ++ placed ms := by
      rw [placed_cons,List.append_assoc]
      rfl
    rw [hp,Int.zero_add]
    exact gain_append _ _ [n] rest

/-- The counter of a function goes between the directives at the head and what follows them. -/
theorem walkStatements_settles (counter : Option Counter) {statements : List Node}
    (h : ∀ n ∈ statements, Settles.Places ctx name c chain 0 n (n.walk ctx [])) :
    Settles ctx name c chain (share ctx name c [counter]) (walkStatements ctx counter statements)
      fun ms => gain name c (placed ms) statements := by
  rw [walkStatements_eq]
  refine (walkItems_settles fun n hn => h n ((List.takeWhile_sublist _).mem hn)).bind fun front => ?_
  refine (Settles.counterItem counter).bind_taking
    (gain name c (placed front) (statements.takeWhile Node.isDirective)) (Int.add_comm _ _)
    fun first => ?_
  refine (walkItems_settles fun n hn => h n ((List.dropWhile_sublist _).mem hn)).bind fun back =>
    .pure ?_
  have hs := congrArg (tally name c) (List.takeWhile_append_dropWhile (p := Node.isDirective)
    (l := statements))
  rw [tally_append] at hs
  simp only [placed_append,gain,tally_append]
  omega

theorem walkBody_settles {counter : Option Counter} {body : Body}
    (hn : body = .absent → counter = none)
    (h : ∀ n ∈ body.nodes, Settles.Places ctx name c chain 0 n (n.walk ctx [])) :
    Settles ctx name c chain (share ctx name c [counter]) (walkBody ctx counter body) fun b =>
      gain name c b.nodes body.nodes := by
  cases body with
  | absent =>
    rw [hn rfl]
    exact .pure (gain_self [])
  | block s statements =>
    exact .passing ((walkStatements_settles counter h).bind_taking 0 (Int.zero_add _).symm
      fun ms => .pure (Int.zero_add _).symm)
  | value e =>
    have he := h e (List.mem_singleton_self e)
    cases counter with
    | none => exact he.bind fun m => .pure (Int.zero_add _).symm
    | some c' => exact .asReturn c' e.span he

theorem walkCase_settles (switch : Key) {x : Case}
    (h : ∀ n ∈ x.nodes, Settles.Places ctx name c chain 0 n (n.walk ctx [])) :
    Settles ctx name c chain 0 (walkCase ctx switch x) fun y => gain name c y.nodes x.nodes := by
  obtain ⟨s,test,consequent⟩ := x
  simp only [Case.nodes,List.mem_append] at h
  refine .visiting (.coverCase s switch) (.coverCase s switch) rfl fun counter _ => ?_
  refine Settles.bind_taking _ (walkOption_settles (fun _ => rfl) fun n hn => h n (.inl hn))
    (Int.add_zero _).symm fun test' => ?_
  refine (Settles.counterItem counter).bind_taking (gain name c test'.toList test.toList)
    (by omega) fun first => ?_
  refine (walkItems_settles fun n hn => h n (.inr hn)).bind fun items => .pure ?_
  simp only [Case.nodes,gain,placed_append,tally_append]
  omega

theorem walkCases_settles (switch : Key) {cases : List Case}
    (h : ∀ n ∈ cases.flatMap Case.nodes, Settles.Places ctx name c chain 0 n (n.walk ctx [])) :
    Settles ctx name c chain 0 (walkCases ctx switch cases) fun ys =>
      gain name c (ys.flatMap Case.nodes) (cases.flatMap Case.nodes) := by
  induction cases with
  | nil => exact .pure (gain_self [])
  | cons x rest ih =>
    simp only [List.flatMap_cons,List.mem_append] at h
    rw [walkCases]
    refine (walkCase_settles switch fun n hn => h n (.inl hn)).bind fun y => ?_
    refine (ih fun n hn => h n (.inr hn)).bind fun ys => .pure ?_
    rw [List.flatMap_cons,List.flatMap_cons,gain_append,Int.zero_add]

theorem walkDeclarator_settles (hoistable : Bool) {d : Declarator}
    (h : ∀ n ∈ d.nodes, Settles.Places ctx name c chain 0 n (n.walk ctx [])) :
    Settles ctx name c chain 0 (walkDeclarator ctx hoistable d) fun d' =>
      gain name c d'.nodes d.nodes := by
  obtain ⟨s,data,target,init⟩ := d
  refine .visiting (.coverInitializer hoistable init) (.coverInitializer hoistable init) rfl
    fun counter hv => ?_
  have hn : init = none → counter = none := by
    rintro rfl
    rcases hv with hv | ⟨u,v,hv⟩
    · exact hv
    · cases hv
      rfl
  refine (h target List.mem_cons_self).bind fun target' => ?_
  refine (walkOption_settles hn fun n hn => h n (List.mem_cons_of_mem _ hn)).bind_taking
    (gain name c [target'] [target]) (by omega) fun init' => .pure ?_
  exact gain_cons _ _ _ _

theorem walkDeclarators_settles (hoistable : Bool) {declarators : List Declarator}
    (h : ∀ n ∈ declarators.flatMap Declarator.nodes,
      Settles.Places ctx name c chain 0 n (n.walk ctx [])) :
    Settles ctx name c chain 0 (walkDeclarators ctx hoistable declarators) fun ds =>
      gain name c (ds.flatMap Declarator.nodes) (declarators.flatMap Declarator.nodes) := by
  induction declarators with
  | nil => exact .pure (gain_self [])
  | cons d rest ih =>
    simp only [List.flatMap_cons,List.mem_append] at h
    rw [walkDeclarators]
    refine (walkDeclarator_settles hoistable fun n hn => h n (.inl hn)).bind fun d' => ?_
    refine (ih fun n hn => h n (.inr hn)).bind fun ds => .pure ?_
    rw [List.flatMap_cons,List.flatMap_cons,gain_append,Int.zero_add]

end Lists

namespace Action

variable {ctx : Context} {t u : Traversal}

theorem length_mapM {α β : Type} {f : α → Action β} {xs : List α} {ys : List β}
    (h : (xs.mapM f).run.run t = (.ok ys,u)) : ys.length = xs.length := by
  induction xs generalizing ys t with
  | nil =>
    cases h
    rfl
  | cons x xs ih =>
    rw [List.mapM_cons] at h
    obtain ⟨y,v,-,hv⟩ := exists_of_run_bind h
    obtain ⟨zs,w,hz,hw⟩ := exists_of_run_bind hv
    cases hw
    rw [List.length_cons,List.length_cons,ih hz]

/-- A chain has no more counters than operands. -/
theorem length_coverChain {s : Span} {left right : Node} {os : List (Option Counter)}
    (h : (coverChain ctx s left right).run.run t = (.ok os,u)) :
    os.length ≤ (ctx.directives.operands left ++ ctx.directives.operands right).length := by
  unfold coverChain at h
  split at h
  · cases h
    exact Nat.zero_le _
  · obtain ⟨b,v,-,hv⟩ := exists_of_run_bind h
    exact Nat.le_of_eq (length_mapM hv)

theorem coverFunction_absent {head : FunctionHead} {key : Option Node} {o : Option Counter}
    (h : (coverFunction ctx head key .absent).run.run t = (.ok o,u)) : o = none := by
  unfold coverFunction at h
  split at h
  · rename_i hb
    cases hb
  · cases h
    rfl

end Action

namespace Node

variable {ctx : Context} {name : String} {c : Counter}

/-- What a node may be given: counters for operands of the chain it is part of, or the counter that
stands first in a block. -/
def Accepts (ctx : Context) (chain : Bool) (n : Node) (given : List (Option Counter)) : Prop :=
  given = [] ∨ (chain = true ∧ n.isChain = true ∧
    given.length ≤ (ctx.directives.operands n).length) ∨ n.isBlock = true ∧ ∃ o, given = [o]

theorem Accepts.nil (ctx : Context) (chain : Bool) (n : Node) : Accepts ctx chain n [] := Or.inl rfl

theorem Accepts.inner {chain : Bool} {s : Span} {inner : Node} {given : List (Option Counter)}
    (h : Accepts ctx chain (paren s inner) given) : Accepts ctx chain inner given := by
  rcases h with h | ⟨hc,hn,hl⟩ | ⟨hb,-⟩
  · exact Or.inl h
  · have hi : inner.isChain = true := hn
    rw [Directives.operands,if_pos hi] at hl
    split at hl
    · exact Or.inl (List.eq_nil_of_length_eq_zero (Nat.le_zero.mp hl))
    · exact Or.inr (Or.inl ⟨hc,hi,hl⟩)
  · cases hb

theorem Accepts.length_le {chain : Bool} {s : Span} {operator : LogicalOperator} {left right : Node}
    {given : List (Option Counter)} (h : Accepts ctx chain (logical s operator left right) given) :
    given.length ≤ (ctx.directives.operands left ++ ctx.directives.operands right).length := by
  rcases h with rfl | ⟨-,-,hl⟩ | ⟨hb,-⟩
  · exact Nat.zero_le _
  · rw [Directives.operands] at hl
    split at hl
    · exact Nat.le_trans hl (Nat.zero_le _)
    · exact hl
  · cases hb

theorem Accepts.eq_nil {s : Span} {operator : LogicalOperator} {left right : Node}
    {given : List (Option Counter)} (h : Accepts ctx false (logical s operator left right) given) :
    given = [] := by
  rcases h with h | ⟨hc,-⟩ | ⟨hb,-⟩
  · exact h
  · cases hc
  · cases hb

section Constructs

variable {chain : Bool} {s : Span}

/-- The counters that a chain hands on go to its operands in turn. -/
theorem walkChain_settles {operator : LogicalOperator} {left right : Node}
    {counters : List (Option Counter)}
    (hl : counters.length ≤ (ctx.directives.operands left ++ ctx.directives.operands right).length)
    (hgiven : ∀ m ∈ [left,right], ∀ given, Accepts ctx true m given →
      Settles.Places ctx name c true (share ctx name c given) m (m.walk ctx given))
    (hplain : ∀ m ∈ [left,right], Settles.Places ctx name c false 0 m (m.walk ctx [])) :
    Settles.Places ctx name c chain (share ctx name c counters) (logical s operator left right)
      (walkChain ctx s operator left right counters) := by
  rw [List.length_append] at hl
  simp only [List.mem_cons,List.not_mem_nil,or_false,forall_eq_or_imp,forall_eq] at hgiven hplain
  let n := (ctx.directives.operands left).length
  have hlt : (counters.take n).length ≤ (ctx.directives.operands left).length :=
    List.length_take_le n counters
  have hrt : (counters.drop n).length ≤ (ctx.directives.operands right).length := by
    rw [List.length_drop]
    omega
  have hcount : share ctx name c counters =
      share ctx name c (counters.drop n) + share ctx name c (counters.take n) := by
    rw [Int.add_comm,← share_append,List.take_append_drop]
  refine .withChain ?_
  refine (Settles.operand hlt (fun h => hgiven.1 _ (Or.inr (Or.inl ⟨rfl,h,hlt⟩))) hplain.1).bind_taking _
    hcount fun l => ?_
  refine (Settles.operand hrt (fun h => hgiven.2 _ (Or.inr (Or.inl ⟨rfl,h,hrt⟩))) hplain.2).bind_taking
    (gain name c [l] [left]) (Int.add_comm _ _) fun r => .pure ?_
  rw [gain_children rfl rfl]
  exact gain_cons l left [r] [right]

/-- The counters of a chain are its own at the outermost operator, and given at all others. -/
theorem walk_logical_settles {operator : LogicalOperator} {left right : Node}
    {given : List (Option Counter)} (hg : Accepts ctx chain (logical s operator left right) given)
    (hgiven : ∀ m ∈ [left,right], ∀ given, Accepts ctx true m given →
      Settles.Places ctx name c true (share ctx name c given) m (m.walk ctx given))
    (hplain : ∀ m ∈ [left,right], Settles.Places ctx name c false 0 m (m.walk ctx [])) :
    Settles.Places ctx name c chain (share ctx name c given) (logical s operator left right)
      ((logical s operator left right).walk ctx given) := by
  intro k t hchain ht
  cases chain with
  | false =>
    have hv : Settles.Places ctx name c false 0 (logical s operator left right)
        (visiting ctx ⟨.logical,s⟩ none (Action.coverChain ctx s left right) []
          (walkChain ctx s operator left right)) := by
      refine .visiting (.coverChain s left right) (.coverChain s left right) rfl fun own hv => ?_
      rw [Int.zero_add]
      refine walkChain_settles ?_ hgiven hplain
      rcases hv with rfl | ⟨u,v,hv⟩
      · exact Nat.zero_le _
      · exact Action.length_coverChain hv
    rw [hg.eq_nil] at ht
    rw [run_walk_outermost hchain]
    exact hv k t hchain ht
  | true =>
    have hp : Action.Earns ctx name c 0 (Pure.pure []) fun _ : List (Option Counter) => 0 := .pure rfl
    have hv : Settles.Places ctx name c true (share ctx name c given) (logical s operator left right)
        (visiting ctx ⟨.logical,s⟩ none (Pure.pure []) [] fun _ : List (Option Counter) =>
          walkChain ctx s operator left right given) := by
      refine .visiting hp (.pure []) rfl fun _ _ => ?_
      rw [Int.add_zero]
      exact walkChain_settles hg.length_le hgiven hplain
    rw [run_walk_inChain hchain]
    exact hv k t hchain ht

theorem walk_conditional_settles {test consequent alternate : Node}
    (hc : ∀ m ∈ (conditional s test consequent alternate).children,
      Settles.Places ctx name c chain 0 m (m.walk ctx [])) :
    Settles.Places ctx name c chain 0 (conditional s test consequent alternate)
      ((conditional s test consequent alternate).walk ctx []) := by
  have hq := hc consequent (by simp [children])
  have ha := hc alternate (by simp [children])
  refine .visiting (.coverConditional s _ _) (.coverConditional s _ _) rfl fun counters _ => ?_
  refine (hc test (by simp [children])).bind fun x => ?_
  refine (Settles.behind? counters.1 hq).bind_taking
    (share ctx name c [counters.2] + gain name c [x] [test]) (by omega) fun y => ?_
  refine (Settles.behind? counters.2 ha).bind_taking
    (gain name c [x] [test] + gain name c [y] [consequent]) (by omega) fun z => .pure ?_
  rw [gain_children rfl rfl,children,children,gain_cons x,gain_cons y]
  omega

theorem walk_function_settles {head : FunctionHead} {key : Option Node} {before : List Part}
    {body : Body} {after : List Part}
    (hc : ∀ m ∈ (function head key before body after).children,
      Settles.Places ctx name c chain 0 m (m.walk ctx [])) :
    Settles.Places ctx name c chain 0 (function head key before body after)
      ((function head key before body after).walk ctx []) := by
  simp only [children,List.mem_append] at hc
  refine .visiting (.coverFunction head key body)
    (.coverFunction head key body fun _ _ _ _ => Or.inr trivial) rfl fun counter hv => ?_
  have ha : body = .absent → counter = none := by
    rintro rfl
    rcases hv with hv | ⟨u,v,hv⟩
    · exact hv
    · exact Action.coverFunction_absent hv
  refine Settles.bind_taking _ (walkOption_settles (fun _ => rfl) fun n hn =>
    hc n (.inl (.inl (.inl hn)))) (Int.add_zero _).symm fun key' => ?_
  refine (walkParts_settles fun n hn => hc n (.inl (.inl (.inr hn)))).bind fun before' => ?_
  refine (walkBody_settles ha fun n hn => hc n (.inl (.inr hn))).bind_taking
    (gain name c key'.toList key.toList +
      gain name c (before'.flatMap Part.nodes) (before.flatMap Part.nodes))
    (by omega) fun body' => ?_
  refine (walkParts_settles fun n hn => hc n (.inr hn)).bind fun after' => .pure ?_
  rw [gain_children rfl rfl,children,children,gain_append,gain_append,gain_append]

theorem walk_classDeclaration_settles {data : Attributes} {id : Node} {before : List Part}
    {heritage : Option Node} {after : List Part}
    (hc : ∀ m ∈ (classDeclaration s data id before heritage after).children,
      Settles.Places ctx name c chain 0 m (m.walk ctx [])) :
    Settles.Places ctx name c chain 0 (classDeclaration s data id before heritage after)
      ((classDeclaration s data id before heritage after).walk ctx []) := by
  simp only [children,List.mem_append,List.mem_cons] at hc
  have hp : Action.Earns ctx name c 0 (Pure.pure true) fun _ : Bool => 0 := .pure rfl
  refine .visiting hp (.pure true) rfl fun counted _ => ?_
  refine (hc id (.inl (.inl (.inl rfl)))).bind fun x => ?_
  refine (walkParts_settles fun n hn => hc n (.inl (.inl (.inr hn)))).bind fun y => ?_
  refine (walkHeritage_settles counted fun n hn => hc n (.inl (.inr hn))).bind fun z => ?_
  refine (walkParts_settles fun n hn => hc n (.inr hn)).bind fun w => .pure ?_
  rw [gain_children rfl rfl,children,children,gain_append,gain_append,gain_cons x]
  omega

theorem walk_ifElse_settles {test consequent : Node} {alternate : Option Node}
    (hb : ∀ m ∈ (ifElse s test consequent alternate).children, m.isBlock = true → ∀ o,
      Settles.Places ctx name c chain (share ctx name c [o]) m (m.walk ctx [o]))
    (hc : ∀ m ∈ (ifElse s test consequent alternate).children,
      Settles.Places ctx name c chain 0 m (m.walk ctx [])) :
    Settles.Places ctx name c chain 0 (ifElse s test consequent alternate)
      ((ifElse s test consequent alternate).walk ctx []) := by
  simp only [children,List.mem_cons] at hb hc
  have hq := hc consequent (.inr (.inl rfl))
  refine .visiting (.coverIf s consequent alternate)
    (.coverIf s (Or.inr trivial) (Or.inr trivial)) rfl fun counters _ => ?_
  refine (hc test (.inl rfl)).bind fun x => ?_
  cases counters with
  | none =>
    refine hq.bind fun y => ?_
    refine Settles.bind_taking _ (walkOption_settles (fun _ => rfl) fun n hn =>
      hc n (.inr (.inr hn))) (Int.add_zero _).symm fun z => .pure ?_
    rw [gain_children rfl rfl,children,children,gain_cons x,gain_cons y]
    simp only [Action.Earns.sides]
    omega
  | some cs =>
    have hblock := fun h => hb consequent (.inr (.inl rfl)) h cs.1
    refine (Settles.inBlock cs.1 hblock hq).bind_taking
      (share ctx name c [cs.2] + gain name c [x] [test])
      (by simp only [Action.Earns.sides]; omega) fun y => ?_
    refine (walkElse_settles cs.2 (fun n hn h => hb n (.inr (.inr hn)) h cs.2)
      fun n hn => hc n (.inr (.inr hn))).bind_taking
      (gain name c [x] [test] + gain name c [y] [consequent]) (by omega) fun z => .pure ?_
    rw [gain_children rfl rfl,children,children,gain_cons x,gain_cons y]
    exact (Int.add_assoc _ _ _).symm

end Constructs

/-- The walk of a node puts every counter it is given or earns into the node it answers with, or
queues it. -/
theorem walk_settles (n : Node) (chain : Bool) (given : List (Option Counter))
    (hg : Accepts ctx chain n given) :
    Settles.Places ctx name c chain (share ctx name c given) n (n.walk ctx given) := by
  induction n using induction_children generalizing chain given with
  | step n hm =>
    have hc : ∀ m ∈ n.children, ∀ chain, Settles.Places ctx name c chain 0 m (m.walk ctx []) :=
      fun m h chain => hm m h chain [] (.nil ctx chain m)
    have hb : ∀ m ∈ n.children, m.isBlock = true → ∀ chain o,
        Settles.Places ctx name c chain (share ctx name c [o]) m (m.walk ctx [o]) :=
      fun m h hb chain o => hm m h chain [o] (Or.inr (Or.inr ⟨hb,o,rfl⟩))
    -- only a part of a chain or a block is given anything
    have alone : n.isChain = false → n.isBlock = false →
        Settles.Places ctx name c chain 0 n (n.walk ctx []) →
        Settles.Places ctx name c chain (share ctx name c given) n (n.walk ctx given) := by
      intro h hk hw
      rcases hg with rfl | ⟨-,hn,-⟩ | ⟨hn,-⟩
      · exact hw
      · rw [h] at hn
        cases hn
      · rw [hk] at hn
        cases hn
    cases n with
    | plain head parts =>
      refine alone rfl rfl fun k t hchain ht => ?_
      have hr := @ofNode?_walk ctx name (plain head parts) [] t
      obtain ⟨hchain',hu⟩ := walkParts_settles (fun n hn => hc n hn chain) k t hchain ht
      refine ⟨hchain',?_⟩
      dsimp only
      rw [gain_children_of_eq hr]
      exact hu
    | paren s inner =>
      refine .passing ((hm inner List.mem_cons_self chain given hg.inner).bind_taking 0
        (Int.zero_add _).symm fun m => .pure ?_)
      rw [gain_children rfl rfl,Int.zero_add]
      rfl
    | logical s operator left right =>
      exact walk_logical_settles hg (fun m h given => hm m (by simpa [children] using h) true given)
        fun m h => hc m (by simpa [children] using h) false
    | conditional => exact alone rfl rfl (walk_conditional_settles fun m h => hc m h chain)
    | function => exact alone rfl rfl (walk_function_settles fun m h => hc m h chain)
    | defaulted form s target value =>
      refine alone rfl rfl ?_
      refine .visiting (.coverDefault s value) (.coverDefault s value) rfl fun counter hv => ?_
      have ha : value = none → counter = none := by
        rintro rfl
        rcases hv with hv | ⟨u,v,hv⟩
        · exact hv
        · cases hv
          rfl
      refine (hc target List.mem_cons_self chain).bind fun x => ?_
      refine (walkOption_settles ha fun n hn => hc n (List.mem_cons_of_mem _ hn) chain).bind_taking
        (gain name c [x] [target]) (by omega) fun y => .pure ?_
      rw [gain_children rfl rfl,children,children,gain_cons]
    | classDeclaration => exact alone rfl rfl (walk_classDeclaration_settles fun m h => hc m h chain)
    | expression s inner =>
      refine alone rfl rfl ?_
      refine .visiting (.coverStatement _ s) (.coverStatement _ s) rfl fun _ _ => ?_
      refine (hc inner List.mem_cons_self chain).bind fun m => .pure ?_
      rw [gain_children rfl rfl]
      simp [children]
    | simple form s parts =>
      refine alone rfl rfl ?_
      refine .visiting (.coverStatement _ s) (.coverStatement _ s) rfl fun _ _ => ?_
      refine (walkParts_settles fun n hn => hc n hn chain).bind fun ps => .pure ?_
      rw [gain_children rfl rfl]
      simp [children]
    | compound form s data init head body =>
      refine alone rfl rfl ?_
      simp only [children,List.mem_append,List.mem_singleton] at hb hc
      refine .visiting (.coverCompound form s init)
        (.coverCompound form s fun _ _ => Or.inr trivial) rfl fun counted _ => ?_
      refine Settles.bind_taking _ (walkOption_settles (fun _ => rfl) fun n hn =>
        hc n (.inl (.inl hn)) chain) (Int.add_zero _).symm fun x => ?_
      refine (walkParts_settles fun n hn => hc n (.inl (.inr hn)) chain).bind fun y => ?_
      refine (Settles.asBody counted (fun h => hb body (.inr rfl) h chain none)
        (hc body (.inr rfl) chain)).bind fun z => .pure ?_
      rw [gain_children rfl rfl,children,children,gain_append,gain_append]
      omega
    | ifElse => exact alone rfl rfl (walk_ifElse_settles
        (fun m h hk => hb m h hk chain) fun m h => hc m h chain)
    | switch s discriminant cases =>
      refine alone rfl rfl ?_
      refine .visiting (.coverSwitch s) (.coverSwitch s) rfl fun _ _ => ?_
      refine (hc discriminant List.mem_cons_self chain).bind fun x => ?_
      refine (walkCases_settles _ fun n hn => hc n (List.mem_cons_of_mem _ hn) chain).bind
        fun cs => .pure ?_
      rw [gain_children rfl rfl,children,children,gain_cons]
      omega
    | bindings s data declarators =>
      refine alone rfl rfl ?_
      refine Settles.takeHoist.bind fun hoistable => .passing ?_
      refine (walkDeclarators_settles hoistable fun n hn => hc n hn chain).bind fun ds => .pure ?_
      rw [gain_children rfl rfl]
      simp [children]
    | block s statements =>
      have hshare : share ctx name c given = share ctx name c [given.head?.join] := by
        rcases hg with rfl | ⟨-,hn,-⟩ | ⟨-,o,rfl⟩
        · rfl
        · cases hn
        · rfl
      rw [hshare]
      refine .passing ((Settles.counterItem _).bind_taking 0 (Int.zero_add _).symm fun first =>
        (walkItems_settles fun n hn => hc n hn chain).bind fun ms => .pure ?_)
      rw [gain_children rfl rfl,children,children]
      simp only [gain,placed_append,tally_append]
      omega
    | exported s declaration =>
      refine alone rfl rfl ?_
      refine (hc declaration List.mem_cons_self chain).bind fun m => .pure ?_
      rw [gain_children rfl rfl]
      simp [children]
    | namespaceBlock s items =>
      refine alone rfl rfl ?_
      refine (walkItems_settles fun n hn => hc n hn chain).bind fun ms => .pure ?_
      rw [gain_children rfl rfl]
      simp [children]

end Node

theorem startMap_parallel (path : String) (options : Options) :
    (startMap path options).Parallel := by
  unfold startMap
  split <;> rfl

theorem entries_startMap (path : String) (options : Options) (c : Counter) :
    (startMap path options).entries c = 0 := by
  unfold startMap
  split <;> cases c <;> rfl

theorem has_freeze (m : CoverageMap) (c : Counter) : m.freeze.2.data.has c = m.data.has c := by
  rw [CoverageMap.freeze_eq]
  dsimp only
  split
  · rfl
  · cases c <;> rfl

namespace Program

variable {ctx : Context}

theorem count_counters (p : Program) (name : String) (c : Counter) :
    (p.counters name).count c = tally name c p.body := by
  rw [counters,nodes,List.filterMap_flatMap]
  rfl

/-- A program that was walked without an error has the counters of the tables, on the object with the
file's name, and those it had. -/
theorem gain_walk {p : Program} {coverage : CoverageMap} (hp : coverage.Parallel) (name : String)
    {c : Counter} (hz : coverage.entries c = 0) (hf : (p.walk ctx coverage).2.failure = none) :
    gain name c (p.walk ctx coverage).1.body p.body =
      (p.walk ctx coverage).2.coverage.due ctx name c := by
  let start : Traversal := { Traversal.start coverage with marks := p.prologueMarks }
  have hw : Settles ctx name c false 0 (walkItems ctx p.body) fun ms =>
      gain name c (placed ms) p.body :=
    walkItems_settles fun n _ => n.walk_settles false [] (.nil ctx false n)
  have hs : start.Settled ctx name c (0 + 0) := by
    refine fun _ => ⟨hp,?_⟩
    change 0 + 0 + 0 = coverage.due ctx name c
    rw [CoverageMap.due,hz]
    exact (ite_self _).symm
  have htotal := ((hw 0 start rfl hs).2 hf).total
  have hr : Runs ctx (fun _ => True) (walkItems ctx p.body) :=
    walkItems_runs fun n _ => n.walk_runs fun _ _ => trivial
  have hframes : ((walkItems ctx p.body).run start).2.frames = [] :=
    List.eq_nil_of_length_eq_zero (hr start).length_frames
  rw [hframes,List.flatten_nil,tally_nil,Int.zero_add] at htotal
  exact (Int.add_zero _).symm.trans htotal

theorem tally_walk {p : Program} {coverage : CoverageMap}
    (hm : p.mentions ctx.identifier = false) (hp : coverage.Parallel) {c : Counter}
    (hz : coverage.entries c = 0) (hf : (p.walk ctx coverage).2.failure = none) :
    tally ctx.identifier c (p.walk ctx coverage).1.body =
      (p.walk ctx coverage).2.coverage.entries c := by
  have hg := gain_walk hp ctx.identifier hz hf
  rw [gain,tally_of_mentions (mentions_eq_false_iff.mp hm),CoverageMap.due,if_pos rfl] at hg
  omega

theorem tally_prepend (p : Program) {items : List Node} {name : String} (c : Counter)
    (h : items.flatMap (Node.counters name) = []) :
    tally name c (p.prepend items).body = tally name c p.body := by
  have hi : tally name c items = 0 := by
    rw [tally,h]
    rfl
  have hb : tally name c p.body = tally name c (p.body.take (prologueLength p.body)) +
      tally name c (p.body.drop (prologueLength p.body)) := by
    rw [← tally_append,List.take_append_drop]
  rw [prepend,tally_append,tally_append,hi,hb]
  rfl

end Program

/-- In an instrumented program each counter that the tables have an entry for stands once, and no other
counter stands anywhere. -/
theorem count_counters_instrument {program : Program} {file : SourceFile} {options : Options}
    {batch : Batch} {o : Outcome} (h : (instrument program file options batch).outcome = .ok o)
    (hs : o.status = .instrumented)
    (hm : program.mentions (identifierOf file.path) = false) (c : Counter) :
    (((instrument program file options batch).program.counters (identifierOf file.path)).count c) =
      if o.coverage.has c then 1 else 0 := by
  obtain ⟨hf,hc,hp⟩ := instrument_of_instrumented h hs
  have hw := Program.tally_walk hm (startMap_parallel file.path options)
    (entries_startMap file.path options c) hf
  rw [Program.count_counters,hp,Program.tally_prepend _ c (counters_prelude ..),hc,has_freeze]
  refine hw.trans ?_
  rw [CoverageMap.entries]
  cases FileCoverage.has _ c <;> rfl

theorem count_counters_instrument_sample :
    sampleProgram.mentions (identifierOf sampleFile.path) = false ∧
    ∃ o, (instrument sampleProgram sampleFile {} (.new none)).outcome = .ok o ∧
      o.status = .instrumented ∧
      ((instrument sampleProgram sampleFile {} (.new none)).program.counters
        (identifierOf sampleFile.path)).count (.branch 2 1) =
        if o.coverage.has (.branch 2 1) then 1 else 0 := by
  obtain ⟨o,h,hs⟩ := exists_instrumented_sample
  exact ⟨sampleProgram_mentions,o,h,hs,
    count_counters_instrument h hs sampleProgram_mentions (.branch 2 1)⟩

end CoverageCounters
