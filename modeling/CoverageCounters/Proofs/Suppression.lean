import CoverageCounters.Proofs.RunInvariants
import CoverageCounters.Proofs.VisitOrder

/-!
Suppression over the visits of a walk. The construct that switches counting off is left as it was
found, nothing is recorded between entering and leaving it, and leaving it switches counting on again;
at any other construct counting is off only inside such a one.
-/

namespace CoverageCounters

/-- A visit of a list, or inside one of its visits, with the visits around it: the innermost first. -/
inductive Nested (visits : List Visit) : Visit → List Visit → Prop where
  | outer {v : Visit} (h : v ∈ visits) : Nested visits v []
  | inner {v w : Visit} {around : List Visit} (h : Nested visits v around) (hw : w ∈ v.inside) :
      Nested visits w (v :: around)

namespace Nested

variable {visits visits' around : List Visit} {v w : Visit}

theorem mono (h : Nested visits v around) (hs : visits ⊆ visits') : Nested visits' v around := by
  induction h with
  | outer h => exact .outer (hs h)
  | inner _ hw ih => exact .inner ih hw

theorem within (hv : v ∈ visits) (h : Nested v.inside w around) :
    Nested visits w (around ++ [v]) := by
  induction h with
  | outer h => exact .inner (.outer hv) h
  | inner _ hw ih => exact .inner ih hw

end Nested

namespace Visit

/-- The state in which the construct is acted on. -/
def entered (ctx : Context) (v : Visit) : Traversal := v.before.enter ctx v.key v.name

/-- Whether the construct asks to be left out: by a hint, by its name, or by a mark. -/
def anchors (ctx : Context) (v : Visit) : Bool :=
  ctx.directives.skips v.key.span || ctx.ignores v.name || v.before.marks.skips v.key

/-- A visit that switches counting off. -/
def Silences (ctx : Context) (v : Visit) : Prop :=
  v.before.isSuppressed = false ∧ v.anchors ctx = true

theorem silences_iff {ctx : Context} {v : Visit} :
    v.Silences ctx ↔ v.before.startsSuppression ctx v.key v.name = true := by
  simp [Silences,anchors,Traversal.startsSuppression]

/-- A visit that starts under the given suppression and puts it back, and of which nothing comes while
counting is off. -/
inductive Bracketed (ctx : Context) : Option Anchor → Visit → Prop where
  | intro {a : Option Anchor} {v : Visit} (before : v.before.anchor = a) (after : v.after.anchor = a)
      (silent : (v.entered ctx).isSuppressed = true →
        (v.after.coverage = v.before.coverage ∧ v.after.failure = v.before.failure ∧
          v.after.frames = v.before.frames) ∧
        v.left = v.found ∧ ∀ w ∈ v.inside, w.before.coverage = v.before.coverage)
      (inside : ∀ w ∈ v.inside, Bracketed ctx (v.entered ctx).anchor w) : Bracketed ctx a v

end Visit

namespace Traversal

variable {ctx : Context} {key : Key} {name : Option String} {t : Traversal}

theorem anchor_enter (h : t.isSuppressed = true) : (t.enter ctx key name).anchor = t.anchor := by
  have hs : t.startsSuppression ctx key name = false := by
    rw [startsSuppression,h]
    rfl
  rw [enter,hs]
  rfl

theorem isSuppressed_enter (h : t.isSuppressed = true) :
    (t.enter ctx key name).isSuppressed = true := by
  rw [isSuppressed,anchor_enter h]
  exact h

theorem isSuppressed_enter_of_starts (h : t.startsSuppression ctx key name = true) :
    (t.enter ctx key name).isSuppressed = true := by
  simp only [isSuppressed,enter,h]
  rfl

/-- A construct that is left out by a hint, by its name or by a mark is entered with counting off. -/
theorem quiet_enter (h : (ctx.directives.skips key.span || ctx.ignores name || t.marks.skips key) = true) :
    (t.enter ctx key name).Quiet := by
  cases hs : t.isSuppressed with
  | true => exact Or.inr (isSuppressed_enter hs)
  | false =>
    refine Or.inr (isSuppressed_enter_of_starts ?_)
    rw [startsSuppression,hs]
    exact h

/-- A construct at which counting is off was entered so, or has switched it off. -/
theorem isSuppressed_or_starts (h : (t.enter ctx key name).isSuppressed = true) :
    t.isSuppressed = true ∨ t.startsSuppression ctx key name = true := by
  cases hs : t.startsSuppression ctx key name with
  | true => exact Or.inr rfl
  | false =>
    simp only [isSuppressed,enter,hs] at h
    exact Or.inl h

end Traversal

/-- The action of a construct at which nothing is recorded is not run. -/
theorem Walk.run_attempt_of_quiet {α : Type} {t : Traversal} (h : t.Quiet)
    (key : Key) (action : Action α) (idle : α) : (attempt key action idle).run t = (idle,t) := by
  rw [run_attempt,h.counts_eq_false key]
  rfl

/-- The key of a construct and the name it may be left out by. -/
abbrev Site := Key × Option String

namespace Traced

open Traversal Walk

variable {α β : Type} {ctx : Context} {chain : Bool} {sites sites' : List Site}

/-- A walk that visits the given constructs, among others, in brackets, hands errors on, and answers with
what it was given where nothing is recorded. -/
structure Brackets (ctx : Context) (chain : Bool) (sites : List Site) (w : Traced α) (kept : α) :
    Prop where
  runs : Runs ctx (fun _ => True) w.erase
  kept : ∀ t : Traversal, t.AnchorBelow → t.inChain = chain → t.Quiet → (w t).1.1 = kept
  threads : ∀ t : Traversal, t.AnchorBelow → t.inChain = chain →
    Threads t.standing (w t).2 (w t).1.2.standing
  visits : ∀ t : Traversal, t.AnchorBelow → t.inChain = chain → ∀ v ∈ (w t).2,
    Visit.Bracketed ctx t.anchor v ∧ (t.isSuppressed = true → v.before.coverage = t.coverage)
  meets : ∀ t : Traversal, t.inChain = chain → t.AnchorBelow → ∀ e ∈ sites,
    ∃ v around, Nested (w t).2 v around ∧ (v.key,v.name) = e

namespace Brackets

theorem pure (a : α) : Brackets ctx chain [] (Pure.pure a : Traced α) a :=
  ⟨.pure a,fun _ _ _ _ => rfl,fun _ _ _ => .nil _,fun _ _ _ _ hv => absurd hv List.not_mem_nil,
    fun _ _ _ _ he => absurd he List.not_mem_nil⟩

theorem of_subset {w : Traced α} {kept : α} (h : Brackets ctx chain sites w kept)
    (hs : ∀ e ∈ sites', e ∈ sites) : Brackets ctx chain sites' w kept :=
  ⟨h.runs,h.kept,h.threads,h.visits,fun t hc ha e he => h.meets t hc ha e (hs e he)⟩

/-- A walk whose form depends on whether it is inside a chain. -/
theorem of_eq {w w' : Traced α} {kept : α} (hr : Runs ctx (fun _ => True) w.erase)
    (he : ∀ t : Traversal, t.inChain = chain → w t = w' t) (h : Brackets ctx chain sites w' kept) :
    Brackets ctx chain sites w kept := by
  refine ⟨hr,fun t ha hc hq => ?_,fun t ha hc => ?_,fun t ha hc => ?_,fun t hc ha => ?_⟩
  · rw [he t hc]
    exact h.kept t ha hc hq
  · rw [he t hc]
    exact h.threads t ha hc
  · rw [he t hc]
    exact h.visits t ha hc
  · rw [he t hc]
    exact h.meets t hc ha

/-- One walk after the other, if what is kept in the end does not depend on the state. -/
theorem bind_of {w : Traced α} {f : α → Traced β} {kept : α → β} {last : β}
    (hr : Runs ctx (fun _ => True) w.erase)
    (ht : ∀ t : Traversal, t.AnchorBelow → t.inChain = chain →
      Threads t.standing (w t).2 (w t).1.2.standing)
    (hv : ∀ t : Traversal, t.AnchorBelow → t.inChain = chain → ∀ v ∈ (w t).2,
      Visit.Bracketed ctx t.anchor v ∧ (t.isSuppressed = true → v.before.coverage = t.coverage))
    (hm : ∀ t : Traversal, t.inChain = chain → t.AnchorBelow → ∀ e ∈ sites,
      ∃ v around, Nested (w t).2 v around ∧ (v.key,v.name) = e)
    (hf : ∀ a, Brackets ctx chain sites' (f a) (kept a))
    (hk : ∀ t : Traversal, t.AnchorBelow → t.inChain = chain → t.Quiet → kept (w t).1.1 = last) :
    Brackets ctx chain (sites ++ sites') (w >>= f) last := by
  have hplace : ∀ t : Traversal, t.AnchorBelow → SamePlace t (w t).1.2 := fun t ha =>
    (hr t).samePlace ha
  refine ⟨hr.bind fun a => (hf a).runs,fun t ha hc hq => ?_,fun t ha hc => ?_,
    fun t ha hc v hmem => ?_,fun t hc ha e he => ?_⟩
  · have hp := hplace t ha
    rw [← hk t ha hc hq]
    exact (hf (w t).1.1).kept (w t).1.2 (hp.anchorBelow ha) (hp.inChain.trans hc)
      ((hr t).quiet ha hq)
  · have hp := hplace t ha
    exact (ht t ha hc).append
      ((hf (w t).1.1).threads (w t).1.2 (hp.anchorBelow ha) (hp.inChain.trans hc))
  · have hp := hplace t ha
    rcases List.mem_append.mp hmem with hmem | hmem
    · exact hv t ha hc v hmem
    · obtain ⟨hb,hcov⟩ := (hf (w t).1.1).visits (w t).1.2 (hp.anchorBelow ha)
        (hp.inChain.trans hc) v hmem
      rw [hp.anchor] at hb
      refine ⟨hb,fun hs => ?_⟩
      rw [hcov (by rw [isSuppressed,hp.anchor]; exact hs)]
      exact ((hr t).eq_of_quiet ha (Or.inr hs)).1
  · have hp := hplace t ha
    rcases List.mem_append.mp he with he | he
    · obtain ⟨v,around,hn,hk⟩ := hm t hc ha e he
      exact ⟨v,around,hn.mono (List.subset_append_left _ _),hk⟩
    · obtain ⟨v,around,hn,hk⟩ := (hf (w t).1.1).meets (w t).1.2 (hp.inChain.trans hc)
        (hp.anchorBelow ha) e he
      exact ⟨v,around,hn.mono (List.subset_append_right _ _),hk⟩

theorem bind {w : Traced α} {f : α → Traced β} {kept : α} {kept' : α → β}
    (hw : Brackets ctx chain sites w kept)
    (hf : ∀ a, Brackets ctx chain sites' (f a) (kept' a)) :
    Brackets ctx chain (sites ++ sites') (w >>= f) (kept' kept) :=
  bind_of hw.runs hw.threads hw.visits hw.meets hf fun t ha hc hq =>
    congrArg kept' (hw.kept t ha hc hq)

theorem map {w : Traced α} {kept : α} (h : Brackets ctx chain sites w kept) (f : α → β) :
    Brackets ctx chain sites (w >>= fun a => Pure.pure (f a)) (f kept) :=
  (h.bind fun a => .pure (f a)).of_subset fun _ he => List.mem_append_left _ he

/-- A step that visits nothing and records nothing, whatever its answer. -/
theorem ofWalk_bind {w : Walk α} {f : α → Traced β} {kept : β} (hr : Runs ctx (fun _ => True) w)
    (hs : ∀ t : Traversal, (w t).2.standing = t.standing)
    (hf : ∀ a, Brackets ctx chain sites (f a) kept) :
    Brackets ctx chain sites (ofWalk w >>= f) kept :=
  bind_of hr (fun t _ _ => hs t ▸ .nil _) (fun _ _ _ _ hv => absurd hv List.not_mem_nil)
    (fun _ _ _ _ he => absurd he List.not_mem_nil) hf fun _ _ _ _ => rfl

/-- A visit is in brackets if the visits inside are, and keeps what it finds if the walk inside does. -/
theorem visiting {construct : β → Construct} {found : β} {key : Key} {name : Option String}
    {action : Action α} {idle : α} {inside : α → Traced β} (kept : α → β)
    (hm : Action.Acting ctx key (Within fun _ => True) action)
    (hi : ∀ x, Brackets ctx chain sites (inside x) (kept x)) (hk : kept idle = found) :
    Brackets ctx chain ((key,name) :: sites)
      (visiting ctx construct found key name action idle inside) found := by
  have hatt : ∀ t : Traversal, SamePlace (t.enter ctx key name)
      ((attempt key action idle).run (t.enter ctx key name)).2 := fun t =>
    (Runs.attempts hm idle _).samePlace
  have hidle : ∀ t : Traversal, (t.enter ctx key name).Quiet →
      (attempt key action idle).run (t.enter ctx key name) = (idle,t.enter ctx key name) :=
    fun t hq => run_attempt_of_quiet hq key action idle
  refine ⟨.visiting (Or.inr trivial) hm fun x => (hi x).runs,fun t ha hc hq => ?_,
    fun t ha hc => ?_,fun t ha hc v hv => ?_,fun t hc ha e he => ?_⟩
  · rw [← hk]
    simp only [Traced.visiting,hidle t (hq.enter key name)]
    exact (hi idle).kept _ (ha.enter key name) hc (hq.enter key name)
  · have hp := hatt t
    refine .cons rfl (fun hf => ?_) ((hi _).threads _ (hp.anchorBelow (ha.enter key name))
      (hp.inChain.trans hc)) (.nil _)
    have hq : (t.enter ctx key name).Quiet := Or.inl hf
    simp only [hidle t hq]
    exact ⟨rfl,(((hi idle).runs _).eq_of_quiet (ha.enter key name) hq).2.2,
      by rw [(hi idle).kept _ (ha.enter key name) hc hq,hk]⟩
  · obtain rfl := List.mem_singleton.mp hv
    have hp := hatt t
    have hb : Traversal.AnchorBelow ((attempt key action idle).run (t.enter ctx key name)).2 :=
      hp.anchorBelow (ha.enter key name)
    have hrun := ((hi ((attempt key action idle).run (t.enter ctx key name)).1).runs _).samePlace hb
    refine ⟨.intro rfl (anchor_leave ha (hrun.anchor.trans hp.anchor)) (fun hs => ?_)
      (fun w hw => ?_),fun _ => rfl⟩
    · have hes : (t.enter ctx key name).isSuppressed = true := hs
      simp only [hidle t (Or.inr hes)]
      refine ⟨((hi idle).runs _).eq_of_quiet (ha.enter key name) (Or.inr hes),?_,fun w hw => ?_⟩
      · rw [(hi idle).kept _ (ha.enter key name) hc (Or.inr hes),hk]
      · exact ((hi idle).visits _ (ha.enter key name) hc w hw).2 hes
    · have hw' := ((hi _).visits _ hb (hp.inChain.trans hc) w hw).1
      rw [hp.anchor] at hw'
      exact hw'
  · rcases List.mem_cons.mp he with rfl | he
    · exact ⟨_,[],.outer (List.mem_singleton_self _),rfl⟩
    · have hp := hatt t
      obtain ⟨v,around,hn,hv⟩ := (hi ((attempt key action idle).run (t.enter ctx key name)).1).meets
        _ (hp.inChain.trans hc) (hp.anchorBelow (ha.enter key name)) e he
      obtain ⟨visit,hvisit,hinside⟩ :
          ∃ visit ∈ (Traced.visiting ctx construct found key name action idle inside t).2,
            visit.inside = (inside ((attempt key action idle).run (t.enter ctx key name)).1
              ((attempt key action idle).run (t.enter ctx key name)).2).2 :=
        ⟨_,List.mem_singleton_self _,rfl⟩
      exact ⟨v,around ++ [visit],.within hvisit (hinside ▸ hn),hv⟩

theorem passing {construct : β → Construct} {found : β} {key : Key} {inside : Traced β}
    (hi : Brackets ctx chain sites inside found) :
    Brackets ctx chain ((key,none) :: sites) (passing ctx construct found key inside) found :=
  visiting (fun _ => found) (.pure ()) (fun _ => hi) rfl

theorem withChain {w : Traced α} {kept : α} (inside : Bool)
    (h : Brackets ctx inside sites w kept) :
    Brackets ctx chain sites (withChain inside w) kept :=
  ⟨.withChain inside h.runs,fun t ha _ hq => h.kept { t with inChain := inside } ha rfl hq,
    fun t ha _ => h.threads { t with inChain := inside } ha rfl,
    fun t ha _ => h.visits { t with inChain := inside } ha rfl,
    fun t _ ha => h.meets { t with inChain := inside } rfl ha⟩

/-- While nothing is recorded nothing is queued before an item. -/
theorem asItem {w : Traced Node} {kept : Node} (declares : Bool)
    (h : Brackets ctx chain sites w kept) :
    Brackets ctx chain sites (asItem declares w) ([],kept) := by
  refine ⟨.asItem declares h.runs,fun t ha hc hq => ?_,fun t ha hc => ?_,fun t ha hc => ?_,
    fun t hc ha => ?_⟩
  · have hf := ((h.runs { t with frames := [] :: t.frames, hoist := declares }).eq_of_quiet ha hq).2.2
    have hk := h.kept { t with frames := [] :: t.frames, hoist := declares } ha hc hq
    change (_,_) = _
    rw [hk]
    congr 1
    exact (congrArg (List.headD · []) hf).trans rfl
  · exact h.threads { t with frames := [] :: t.frames, hoist := declares } ha hc
  · exact h.visits { t with frames := [] :: t.frames, hoist := declares } ha hc
  · exact h.meets { t with frames := [] :: t.frames, hoist := declares } hc ha

theorem behind? {n : Node} {w : Traced Node} (c : Option Counter)
    (h : Brackets ctx chain sites w n) :
    Brackets ctx chain sites (behind? ctx c n w) (n.behind? ctx c) := by
  cases c with
  | none => exact h
  | some c => exact (passing (h.map _)).of_subset fun _ he => List.mem_cons_of_mem _ he

/-- A counter that is put into a list is visited there, and stays as it is. -/
theorem counterItem (c : Option Counter) :
    Brackets ctx chain [] (counterItem ctx c) (counterItems ctx c) := by
  cases c with
  | none => exact .pure []
  | some c =>
    have hv : Brackets ctx chain [(counterKey,none)]
        (Traced.visiting ctx .node (c.statementNode ctx.identifier) counterKey none
          (Action.coverStatement ctx .expressionStatement .dummy) ()
          fun _ => Pure.pure (c.statementNode ctx.identifier)) (c.statementNode ctx.identifier) :=
      visiting _ (.coverStatement _ _) (fun _ => .pure _) rfl
    exact ((hv.asItem false).map fun item => [item]).of_subset fun _ he => absurd he List.not_mem_nil

theorem asReturn {e : Node} {w : Traced Node} (c : Counter) (h : Brackets ctx chain sites w e) :
    Brackets ctx chain sites (asReturn ctx c e w) ((Body.value e).withCounter ctx (some c)) := by
  have hr : Brackets ctx chain ((⟨.return,e.span⟩,none) :: sites)
      (Traced.visiting ctx .node e.returned ⟨.return,e.span⟩ none
        (Action.coverStatement ctx .return e.span) () fun _ => do
          return .simple .return e.span [.child "argument" (← w)]) e.returned :=
    visiting _ (.coverStatement _ _) (fun _ => h.map _) rfl
  have hi := (counterItem (some c)).bind fun first => (hr.asItem false).map fun item =>
    Body.block e.span (placed (first ++ [item]))
  exact (passing (hi.of_subset fun _ he => List.mem_cons_of_mem _ he)).of_subset
    fun _ he => List.mem_cons_of_mem _ he

theorem inParens {n : Node} {w : Traced Node} (wanted : Bool) (h : Brackets ctx chain sites w n) :
    Brackets ctx chain sites (inParens ctx wanted n w)
      (if wanted && !n.isParen then Build.paren n else n) := by
  unfold Traced.inParens
  split
  · exact (passing (h.map _)).of_subset fun _ he => List.mem_cons_of_mem _ he
  · exact h

end Brackets
end Traced

open Traced

namespace Body

def sites : Body → List Site
  | block s _ => [(⟨.block,s⟩,none)]
  | _ => []

end Body

namespace Node

/-- The constructs of a node that are visited, apart from those of the nodes inside it and from what
the walk itself puts in. -/
def ownSites : Node → List Site
  | plain _ _ => []
  | paren s _ => [(⟨.parenthesized,s⟩,none)]
  | logical s _ _ _ => [(⟨.logical,s⟩,none)]
  | conditional s _ _ _ => [(⟨.conditional,s⟩,none)]
  | function head key _ body _ => (head.key key,head.ignorableName? key) :: body.sites
  | defaulted form s _ _ => [(⟨form.kind,s⟩,none)]
  | classDeclaration s _ _ _ _ _ => [(⟨.classDeclaration,s⟩,none)]
  | expression s _ => [(⟨.expressionStatement,s⟩,none)]
  | simple form s _ => [(⟨form.kind,s⟩,none)]
  | compound form s _ _ _ _ => [(⟨form.kind,s⟩,none)]
  | ifElse s _ _ _ => [(⟨.if,s⟩,none)]
  | switch s _ cases => (⟨.switch,s⟩,none) :: cases.map fun c => (⟨.switchCase,c.span⟩,none)
  | bindings s _ declarators =>
    (⟨.variableDeclaration,s⟩,none) ::
      declarators.map fun d => (⟨.variableDeclarator,d.span⟩,none)
  | block s _ => [(⟨.block,s⟩,none)]
  | exported _ _ => []
  | namespaceBlock _ _ => []

/-- All constructs of a node that are visited. -/
def sites (n : Node) : List Site := n.subnodes.flatMap ownSites

theorem sites_eq (n : Node) : n.sites = n.ownSites ++ n.children.flatMap sites := by
  rw [sites,subnodes,List.flatMap_cons,inner_eq,List.flatMap_assoc]
  rfl

/-- The walk of a node is in brackets, inside a chain or not. -/
def Bracketed (ctx : Context) (n : Node) : Prop :=
  ∀ (chain : Bool) (given : List (Option Counter)),
    Brackets ctx chain n.sites (n.traced ctx given) (n.withGiven ctx chain given)

theorem Bracketed.alone {ctx : Context} {n : Node} (h : n.Bracketed ctx) (chain : Bool) :
    Brackets ctx chain n.sites (n.traced ctx []) n := by
  have hn := h chain []
  rwa [withGiven_nil] at hn

/-- A node that is neither a part of a chain nor a block is found as it is. -/
theorem Bracketed.of_alone {ctx : Context} {n : Node}
    (hn : ∀ chain given, n.withGiven ctx chain given = n)
    (h : ∀ chain given, Brackets ctx chain (n.ownSites ++ n.children.flatMap sites)
      (n.traced ctx given) n) : n.Bracketed ctx := by
  intro chain given
  rw [hn,sites_eq]
  exact h chain given

/-- A body that becomes a block is found in it behind the counter. -/
theorem Bracketed.inBlock {ctx : Context} {n : Node} (h : n.Bracketed ctx) (chain : Bool)
    (c : Option Counter) :
    Brackets ctx chain n.sites (inBlock ctx c n fun given => n.traced ctx given)
      (n.asBlock? ctx c) := by
  unfold Traced.inBlock
  split
  · rename_i hb
    rw [asBlock?_eq_withGiven hb chain c]
    exact h chain [c]
  · rename_i hb
    have hi := (Brackets.counterItem c).bind fun first =>
      ((h.alone chain).asItem n.declaresVariables).map fun item =>
        Node.block n.span (Walk.placed (first ++ [item]))
    rw [Walk.placed_append,Walk.placed_counterItems] at hi
    rw [asBlock?_of_not_isBlock hb]
    exact hi.passing.of_subset fun _ he => List.mem_cons_of_mem _ he

theorem Bracketed.asBody {ctx : Context} {n : Node} (h : n.Bracketed ctx) (chain counted : Bool) :
    Brackets ctx chain n.sites (asBody ctx counted n fun given => n.traced ctx given)
      (if counted then n.asBlock? ctx none else n) := by
  cases counted with
  | false => exact h.alone chain
  | true => exact h.inBlock chain none

theorem erase_traced_runs (ctx : Context) (n : Node) (given : List (Option Counter)) :
    Walk.Runs ctx (fun _ => True) (n.traced ctx given).erase := by
  rw [n.erase_traced]
  exact n.walk_runs (fun _ _ => trivial) given

end Node

@[simp] theorem Walk.placed_map (items : List Node) :
    placed (items.map fun n => ([],n)) = items := by
  induction items with
  | nil => rfl
  | cons n rest ih => rw [List.map_cons,placed_cons,ih,List.nil_append]

@[simp] theorem Body.withCounter_none (ctx : Context) (b : Body) : b.withCounter ctx none = b := by
  cases b with
  | block s statements =>
    change block s (statements.takeWhile _ ++ [] ++ statements.dropWhile _) = _
    rw [List.append_nil,List.takeWhile_append_dropWhile]
  | _ => rfl

section Lists

variable {ctx : Context} (chain : Bool)

theorem tracedNodes_brackets {nodes : List Node} (h : ∀ n ∈ nodes, n.Bracketed ctx) :
    Brackets ctx chain (nodes.flatMap Node.sites) (tracedNodes ctx nodes) nodes := by
  induction nodes with
  | nil => exact .pure []
  | cons n rest ih =>
    rw [tracedNodes,List.flatMap_cons]
    exact ((h n List.mem_cons_self).alone chain).bind fun _ =>
      (ih fun m hm => h m (List.mem_cons_of_mem _ hm)).map _

theorem tracedPart_brackets {p : Part} (h : ∀ n ∈ p.nodes, n.Bracketed ctx) :
    Brackets ctx chain (p.nodes.flatMap Node.sites) (tracedPart ctx p) p := by
  cases p with
  | child field n =>
    simp only [Part.nodes,List.flatMap_cons,List.flatMap_nil,List.append_nil]
    exact ((h n (List.mem_singleton_self n)).alone chain).map _
  | children field nodes => exact (tracedNodes_brackets chain h).map _

theorem tracedParts_brackets {parts : List Part}
    (h : ∀ n ∈ parts.flatMap Part.nodes, n.Bracketed ctx) :
    Brackets ctx chain ((parts.flatMap Part.nodes).flatMap Node.sites) (tracedParts ctx parts)
      parts := by
  induction parts with
  | nil => exact .pure []
  | cons p rest ih =>
    rw [List.flatMap_cons] at h
    rw [tracedParts,List.flatMap_cons,List.flatMap_append]
    exact (tracedPart_brackets chain fun n hn => h n (List.mem_append_left _ hn)).bind fun _ =>
      (ih fun n hn => h n (List.mem_append_right _ hn)).map _

theorem tracedOption_brackets (counter : Option Counter) {o : Option Node}
    (h : ∀ n ∈ o.toList, n.Bracketed ctx) :
    Brackets ctx chain (o.toList.flatMap Node.sites) (tracedOption ctx counter o)
      (o.map (Node.behind? ctx counter)) := by
  cases o with
  | none => exact .pure none
  | some n =>
    simp only [Option.toList,List.flatMap_cons,List.flatMap_nil,List.append_nil]
    exact (((h n (List.mem_singleton_self n)).alone chain).behind? counter).map _

theorem tracedOption_brackets_none {o : Option Node} (h : ∀ n ∈ o.toList, n.Bracketed ctx) :
    Brackets ctx chain (o.toList.flatMap Node.sites) (tracedOption ctx none o) o := by
  have ho := tracedOption_brackets chain none h
  have hk : o.map (Node.behind? ctx none) = o := by cases o <;> rfl
  rwa [hk] at ho

theorem tracedElse_brackets (counter : Option Counter) {o : Option Node}
    (h : ∀ n ∈ o.toList, n.Bracketed ctx) :
    Brackets ctx chain (o.toList.flatMap Node.sites) (tracedElse ctx counter o)
      ((o.map (Node.asBlock? ctx counter)).getD
        (.block .dummy (Walk.counterStatements ctx counter))) := by
  cases o with
  | none =>
    have hc : Brackets ctx chain [] (counterItem ctx counter) (Walk.counterItems ctx counter) :=
      .counterItem counter
    have hi := hc.map fun first => Node.block .dummy (Walk.placed first)
    rw [Walk.placed_counterItems] at hi
    exact hi.passing.of_subset fun _ he => absurd he List.not_mem_nil
  | some n =>
    simp only [Option.toList,List.flatMap_cons,List.flatMap_nil,List.append_nil]
    exact (h n (List.mem_singleton_self n)).inBlock chain counter

theorem tracedHeritage_brackets (counted : Bool) {o : Option Node}
    (h : ∀ n ∈ o.toList, n.Bracketed ctx) :
    Brackets ctx chain (o.toList.flatMap Node.sites) (tracedHeritage ctx counted o)
      (o.map fun n => if counted && !n.isParen then Build.paren n else n) := by
  cases o with
  | none => exact .pure none
  | some n =>
    simp only [Option.toList,List.flatMap_cons,List.flatMap_nil,List.append_nil]
    exact (((h n (List.mem_singleton_self n)).alone chain).inParens counted).map _

theorem tracedItems_brackets {items : List Node} (h : ∀ n ∈ items, n.Bracketed ctx) :
    Brackets ctx chain (items.flatMap Node.sites) (tracedItems ctx items)
      (items.map fun n => ([],n)) := by
  induction items with
  | nil => exact .pure []
  | cons n rest ih =>
    rw [tracedItems,List.flatMap_cons]
    exact (((h n List.mem_cons_self).alone chain).asItem n.declaresVariables).bind fun _ =>
      (ih fun m hm => h m (List.mem_cons_of_mem _ hm)).map _

/-- The counter of a function is found behind the directives at the head of its body. -/
theorem tracedStatements_brackets (counter : Option Counter) {statements : List Node}
    (h : ∀ n ∈ statements, n.Bracketed ctx) :
    Brackets ctx chain (statements.flatMap Node.sites) (tracedStatements ctx counter statements)
      ((statements.takeWhile Node.isDirective).map (fun n => ([],n)) ++
        Walk.counterItems ctx counter ++
        (statements.dropWhile Node.isDirective).map fun n => ([],n)) := by
  have hfront := tracedItems_brackets chain fun n hn =>
    h n ((List.takeWhile_sublist Node.isDirective).mem hn)
  have hback := tracedItems_brackets chain fun n hn =>
    h n ((List.dropWhile_sublist Node.isDirective).mem hn)
  have hw := hfront.bind fun front => (Brackets.counterItem counter).bind fun first =>
    hback.map fun back => front ++ first ++ back
  rw [tracedStatements_eq]
  refine hw.of_subset fun e he => ?_
  rwa [List.nil_append,← List.flatMap_append,List.takeWhile_append_dropWhile]

theorem tracedBody_brackets (counter : Option Counter) {body : Body}
    (h : ∀ n ∈ body.nodes, n.Bracketed ctx) :
    Brackets ctx chain (body.sites ++ body.nodes.flatMap Node.sites)
      (tracedBody ctx counter body) (body.withCounter ctx counter) := by
  cases body with
  | absent => exact .pure _
  | block s statements =>
    have hi := (tracedStatements_brackets chain counter h).map fun items =>
      Body.block s (Walk.placed items)
    simp only [Walk.placed_append,Walk.placed_map,Walk.placed_counterItems] at hi
    exact hi.passing
  | value e =>
    have he := (h e (List.mem_singleton_self e)).alone chain
    have hs : Brackets ctx chain e.sites (tracedBody ctx counter (.value e))
        ((Body.value e).withCounter ctx counter) := by
      cases counter with
      | none => exact he.map _
      | some c => exact he.asReturn c
    simpa [Body.sites,Body.nodes] using hs

theorem tracedCase_brackets (switch : Key) {c : Case} (h : ∀ n ∈ c.nodes, n.Bracketed ctx) :
    Brackets ctx chain ((⟨.switchCase,c.span⟩,none) :: c.nodes.flatMap Node.sites)
      (tracedCase ctx switch c) c := by
  obtain ⟨s,test,consequent⟩ := c
  simp only [Case.nodes,List.mem_append,List.flatMap_append,Case.span] at h ⊢
  have htest := tracedOption_brackets_none chain fun n hn => h n (.inl hn)
  have hi := fun counter : Option Counter => htest.bind fun test =>
    (Brackets.counterItem counter).bind fun first =>
      (tracedItems_brackets chain fun n hn => h n (.inr hn)).map fun items =>
        Case.mk s test (Walk.placed (first ++ items))
  rw [tracedCase]
  refine .visiting _ (.coverCase s switch) hi ?_
  change Case.mk s test (Walk.placed (consequent.map fun n => ([],n))) = _
  rw [Walk.placed_map]

theorem tracedCases_brackets (switch : Key) {cases : List Case}
    (h : ∀ n ∈ cases.flatMap Case.nodes, n.Bracketed ctx) :
    Brackets ctx chain
      (cases.flatMap fun c => (⟨.switchCase,c.span⟩,none) :: c.nodes.flatMap Node.sites)
      (tracedCases ctx switch cases) cases := by
  induction cases with
  | nil => exact .pure []
  | cons c rest ih =>
    simp only [List.flatMap_cons,List.mem_append] at h
    rw [tracedCases,List.flatMap_cons]
    exact (tracedCase_brackets chain switch fun n hn => h n (.inl hn)).bind fun _ =>
      (ih fun n hn => h n (.inr hn)).map _

theorem tracedDeclarator_brackets (hoistable : Bool) {d : Declarator}
    (h : ∀ n ∈ d.nodes, n.Bracketed ctx) :
    Brackets ctx chain ((⟨.variableDeclarator,d.span⟩,none) :: d.nodes.flatMap Node.sites)
      (tracedDeclarator ctx hoistable d) d := by
  obtain ⟨s,data,target,init⟩ := d
  have hi := fun counter : Option Counter =>
    ((h target List.mem_cons_self).alone chain).bind fun target =>
      (tracedOption_brackets chain counter fun n hn => h n (List.mem_cons_of_mem _ hn)).map fun init =>
        Declarator.mk s data target init
  rw [tracedDeclarator]
  refine .visiting _ (.coverInitializer hoistable init) hi ?_
  cases init <;> rfl

theorem tracedDeclarators_brackets (hoistable : Bool) {declarators : List Declarator}
    (h : ∀ n ∈ declarators.flatMap Declarator.nodes, n.Bracketed ctx) :
    Brackets ctx chain
      (declarators.flatMap fun d =>
        (⟨.variableDeclarator,d.span⟩,none) :: d.nodes.flatMap Node.sites)
      (tracedDeclarators ctx hoistable declarators) declarators := by
  induction declarators with
  | nil => exact .pure []
  | cons d rest ih =>
    simp only [List.flatMap_cons,List.mem_append] at h
    rw [tracedDeclarators,List.flatMap_cons]
    exact (tracedDeclarator_brackets chain hoistable fun n hn => h n (.inl hn)).bind fun _ =>
      (ih fun n hn => h n (.inr hn)).map _

/-- The operands of a chain are walked inside it, and where counting is off they are found behind the
counters that were given for them. -/
theorem operand_brackets {n : Node} (counters : List (Option Counter)) (h : n.Bracketed ctx) :
    Brackets ctx true n.sites (operand ctx n counters fun c => n.traced ctx c)
      (n.asOperand ctx counters (n.withGiven ctx true counters)) := by
  unfold Traced.operand Node.asOperand
  split
  · exact h true counters
  · exact .withChain false ((h.alone false).behind? _)

end Lists

/-- The elements that stand for a list and those of its nodes, element by element. -/
theorem mem_flatMap_cons {α β γ : Type} {f : α → γ} {g : α → List β} {h : β → List γ} {l : List α}
    {e : γ} (he : e ∈ l.map f ++ (l.flatMap g).flatMap h) :
    e ∈ l.flatMap fun a => f a :: (g a).flatMap h := by
  rcases List.mem_append.mp he with he | he
  · obtain ⟨a,ha,rfl⟩ := List.mem_map.mp he
    exact List.mem_flatMap.mpr ⟨a,ha,List.mem_cons_self⟩
  · obtain ⟨b,hb,he⟩ := List.mem_flatMap.mp he
    obtain ⟨a,ha,hb⟩ := List.mem_flatMap.mp hb
    exact List.mem_flatMap.mpr ⟨a,ha,List.mem_cons_of_mem _ (List.mem_flatMap.mpr ⟨b,hb,he⟩)⟩

namespace Node

variable {ctx : Context}

/-- The walk over the operands of a chain that have the given counters. -/
def tracedChain (ctx : Context) (s : Span) (operator : LogicalOperator) (left right : Node)
    (counters : List (Option Counter)) : Traced Node :=
  Traced.withChain true do
    let n := (ctx.directives.operands left).length
    let left ← operand ctx left (counters.take n) fun c => left.traced ctx c
    let right ← operand ctx right (counters.drop n) fun c => right.traced ctx c
    return .logical s operator left right

section Chain

variable {given : List (Option Counter)} {s : Span} {operator : LogicalOperator}
  {inner left right : Node} {t : Traversal}

theorem traced_paren :
    (paren s inner).traced ctx given t =
      passing ctx .node ((paren s inner).withGiven ctx t.inChain given) ⟨.parenthesized,s⟩
        (do return .paren s (← inner.traced ctx given)) t := rfl

theorem traced_logical :
    (logical s operator left right).traced ctx given t =
      visiting ctx .node ((logical s operator left right).withGiven ctx t.inChain given)
        ⟨.logical,s⟩ none (if !t.inChain then Action.coverChain ctx s left right else pure []) []
        (fun own => tracedChain ctx s operator left right (if !t.inChain then own else given)) t :=
  rfl

theorem traced_outermost (h : t.inChain = false) :
    (logical s operator left right).traced ctx given t =
      visiting ctx .node (logical s operator left right) ⟨.logical,s⟩ none
        (Action.coverChain ctx s left right) [] (tracedChain ctx s operator left right) t := by
  rw [traced_logical,h]
  rfl

theorem traced_inChain (h : t.inChain = true) :
    (logical s operator left right).traced ctx given t =
      visiting ctx .node ((logical s operator left right).withGiven ctx true given) ⟨.logical,s⟩
        none (pure []) [] (fun _ : List (Option Counter) => tracedChain ctx s operator left right given)
        t := by
  rw [traced_logical,h]
  rfl

end Chain

theorem tracedChain_brackets {chain : Bool} {s : Span} {operator : LogicalOperator} {left right : Node}
    (counters : List (Option Counter)) (hl : left.Bracketed ctx) (hr : right.Bracketed ctx) :
    Brackets ctx chain (left.sites ++ right.sites)
      (tracedChain ctx s operator left right counters)
      ((logical s operator left right).withGiven ctx true counters) :=
  .withChain true ((operand_brackets _ hl).bind fun left =>
    (operand_brackets _ hr).map fun right => logical s operator left right)

/-- An `if` with both sides as blocks that count them. -/
def withSides (ctx : Context) (s : Span) (test consequent : Node) (alternate : Option Node) :
    Option (Option Counter × Option Counter) → Node
  | none => ifElse s test consequent alternate
  | some (c,a) =>
    ifElse s test (consequent.asBlock? ctx c) (some ((alternate.map (asBlock? ctx a)).getD
      (.block .dummy (Walk.counterStatements ctx a))))

section Constructs

variable {s : Span}

theorem traced_paren_bracketed {inner : Node} (h : inner.Bracketed ctx) :
    (paren s inner).Bracketed ctx := by
  intro chain given
  have hi := (h chain given).map (paren s)
  have hs : ∀ e ∈ (paren s inner).sites, e ∈ (⟨.parenthesized,s⟩,none) :: inner.sites := by
    simp [sites_eq (paren s inner),ownSites,children]
  exact .of_eq (erase_traced_runs ctx _ given) (fun t ht => ht ▸ traced_paren)
    (hi.passing.of_subset hs)

/-- The outermost operator finds the chain as it is, the others with the counters of their operands. -/
theorem traced_logical_bracketed {operator : LogicalOperator} {left right : Node}
    (hl : left.Bracketed ctx) (hr : right.Bracketed ctx) :
    (logical s operator left right).Bracketed ctx := by
  intro chain given
  have hs : ∀ e ∈ (logical s operator left right).sites,
      e ∈ (⟨.logical,s⟩,none) :: (left.sites ++ right.sites) := by
    simp [sites_eq (logical s operator left right),ownSites,children]
  refine .of_subset ?_ hs
  cases chain with
  | false =>
    exact .of_eq (erase_traced_runs ctx _ given) (fun t ht => traced_outermost ht)
      (.visiting _ (.coverChain s left right) (fun own => tracedChain_brackets own hl hr)
        (withGiven_nil ctx true _))
  | true =>
    exact .of_eq (erase_traced_runs ctx _ given) (fun t ht => traced_inChain ht)
      (.visiting _ (.pure []) (fun _ => tracedChain_brackets given hl hr) rfl)

theorem traced_function_bracketed {head : FunctionHead} {key : Option Node} {before after : List Part}
    {body : Body} (h : ∀ n ∈ (function head key before body after).children, n.Bracketed ctx) :
    (function head key before body after).Bracketed ctx := by
  refine .of_alone (fun _ _ => rfl) fun chain _ => ?_
  simp only [children,List.mem_append] at h
  have hkey := tracedOption_brackets_none chain fun n hn => h n (.inl (.inl (.inl hn)))
  have hbefore := tracedParts_brackets chain fun n hn => h n (.inl (.inl (.inr hn)))
  have hbody := fun counter =>
    tracedBody_brackets chain counter fun n hn => h n (.inl (.inr hn))
  have hafter := tracedParts_brackets chain fun n hn => h n (.inr hn)
  have hi := fun counter : Option Counter => hkey.bind fun key => hbefore.bind fun before =>
    (hbody counter).bind fun body => hafter.map fun after => function head key before body after
  have hm : Action.Acting ctx (head.key key) (Traversal.Within fun _ => True)
      (Action.coverFunction ctx head key body) :=
    .coverFunction head key body fun _ _ _ _ => Or.inr trivial
  rw [traced]
  refine (Brackets.visiting _ hm hi ?_).of_subset fun e he => ?_
  · rw [Body.withCounter_none]
  · simp only [ownSites,children,List.flatMap_append,List.mem_append,List.mem_cons] at he ⊢
    rcases he with (he | he) | ((he | he) | he) | he <;> simp only [he,true_or,or_true]

/-- An `if` that is not counted keeps its sides, and one that is counted has them as blocks. -/
theorem traced_ifElse_bracketed {test consequent : Node} {alternate : Option Node}
    (h : ∀ n ∈ (ifElse s test consequent alternate).children, n.Bracketed ctx) :
    (ifElse s test consequent alternate).Bracketed ctx := by
  refine .of_alone (fun _ _ => rfl) fun chain _ => ?_
  have hs : ∀ e ∈ (ifElse s test consequent alternate).ownSites ++
      (ifElse s test consequent alternate).children.flatMap sites,
      e ∈ (⟨.if,s⟩,none) ::
        (test.sites ++ (consequent.sites ++ alternate.toList.flatMap sites)) := by
    simp [ownSites,children]
  simp only [children,List.mem_cons] at h
  have htest := (h test (.inl rfl)).alone chain
  have hconsequent := (h consequent (.inr (.inl rfl))).alone chain
  rw [traced]
  refine .of_subset (.visiting (withSides ctx s test consequent alternate)
    (.coverIf s (Or.inr trivial) (Or.inr trivial)) ?_ rfl) hs
  intro counters
  cases counters with
  | none =>
    have halternate := tracedOption_brackets_none chain fun n hn => h n (.inr (.inr hn))
    exact htest.bind fun test => hconsequent.bind fun consequent =>
      halternate.map fun alternate => ifElse s test consequent alternate
  | some counters =>
    have halternate := tracedElse_brackets chain counters.2 fun n hn => h n (.inr (.inr hn))
    have hblock := (h consequent (.inr (.inl rfl))).inBlock chain counters.1
    exact htest.bind fun test => hblock.bind fun consequent =>
      halternate.map fun alternate => ifElse s test consequent (some alternate)

theorem traced_switch_bracketed {discriminant : Node} {cases : List Case}
    (h : ∀ n ∈ (switch s discriminant cases).children, n.Bracketed ctx) :
    (switch s discriminant cases).Bracketed ctx := by
  refine .of_alone (fun _ _ => rfl) fun chain _ => ?_
  have hdiscriminant := (h discriminant List.mem_cons_self).alone chain
  have hcases := tracedCases_brackets chain ⟨.switch,s⟩ fun n hn => h n (List.mem_cons_of_mem _ hn)
  have hi := fun _ : Unit => hdiscriminant.bind fun discriminant =>
    hcases.map fun cases => switch s discriminant cases
  refine (Brackets.visiting _ (.coverSwitch s) hi rfl).of_subset fun e he => ?_
  simp only [ownSites,children,List.flatMap_cons,List.mem_append,List.mem_cons] at he ⊢
  rcases he with (he | he) | he | he
  · exact .inl he
  · exact .inr (.inr (mem_flatMap_cons (List.mem_append_left _ he)))
  · exact .inr (.inl he)
  · exact .inr (.inr (mem_flatMap_cons (List.mem_append_right _ he)))

end Constructs

/-- The walk of every node is in brackets. -/
theorem traced_bracketed (ctx : Context) (n : Node) : n.Bracketed ctx := by
  induction n using induction_children with
  | step n hc =>
    cases n with
    | plain head parts =>
      exact .of_alone (fun _ _ => rfl) fun chain _ => (tracedParts_brackets chain hc).map _
    | paren s inner => exact traced_paren_bracketed (hc inner List.mem_cons_self)
    | logical s operator left right =>
      exact traced_logical_bracketed (hc left (by simp [children])) (hc right (by simp [children]))
    | conditional s test consequent alternate =>
      refine .of_alone (fun _ _ => rfl) fun chain _ => ?_
      have htest := (hc test (by simp [children])).alone chain
      have hconsequent := (hc consequent (by simp [children])).alone chain
      have halternate := (hc alternate (by simp [children])).alone chain
      have hi := fun counters : Option Counter × Option Counter => htest.bind fun test =>
        (hconsequent.behind? counters.1).bind fun first =>
          (halternate.behind? counters.2).map fun second => conditional s test first second
      rw [traced]
      exact (Brackets.visiting _ (.coverConditional s _ _) hi rfl).of_subset
        (by simp [ownSites,children])
    | function head key before body after => exact traced_function_bracketed hc
    | defaulted form s target value =>
      refine .of_alone (fun _ _ => rfl) fun chain _ => ?_
      have htarget := (hc target List.mem_cons_self).alone chain
      have hvalue := fun counter =>
        tracedOption_brackets chain counter fun n hn => hc n (List.mem_cons_of_mem _ hn)
      have hi := fun counter : Option Counter => htarget.bind fun target =>
        (hvalue counter).map fun value => defaulted form s target value
      rw [traced]
      refine (Brackets.visiting _ (.coverDefault s value) hi ?_).of_subset
        (by simp [ownSites,children])
      cases value <;> rfl
    | classDeclaration s data name before heritage after =>
      refine .of_alone (fun _ _ => rfl) fun chain _ => ?_
      simp only [children,List.mem_append,List.mem_cons] at hc
      have hname := (hc name (.inl (.inl (.inl rfl)))).alone chain
      have hbefore := tracedParts_brackets chain fun n hn => hc n (.inl (.inl (.inr hn)))
      have hheritage := fun counted =>
        tracedHeritage_brackets chain counted fun n hn => hc n (.inl (.inr hn))
      have hafter := tracedParts_brackets chain fun n hn => hc n (.inr hn)
      have hi := fun counted : Bool => hname.bind fun name => hbefore.bind fun before =>
        (hheritage counted).bind fun heritage => hafter.map fun after =>
          classDeclaration s data name before heritage after
      rw [traced]
      refine (Brackets.visiting _ (.pure true) hi ?_).of_subset (by simp [ownSites,children])
      cases heritage <;> rfl
    | expression s inner =>
      refine .of_alone (fun _ _ => rfl) fun chain _ => ?_
      have hi := fun _ : Unit => ((hc inner List.mem_cons_self).alone chain).map (expression s)
      exact (Brackets.visiting _ (.coverStatement _ s) hi rfl).of_subset
        (by simp [ownSites,children])
    | simple form s parts =>
      refine .of_alone (fun _ _ => rfl) fun chain _ => ?_
      have hi := fun _ : Unit => (tracedParts_brackets chain hc).map (simple form s)
      exact Brackets.visiting _ (.coverStatement _ s) hi rfl
    | compound form s data init head body =>
      refine .of_alone (fun _ _ => rfl) fun chain _ => ?_
      simp only [children,List.mem_append,List.mem_singleton] at hc
      have hinit := tracedOption_brackets_none chain fun n hn => hc n (.inl (.inl hn))
      have hhead := tracedParts_brackets chain fun n hn => hc n (.inl (.inr hn))
      have hi := fun counted : Bool => hinit.bind fun init => hhead.bind fun head =>
        ((hc body (.inr rfl)).asBody chain counted).map fun body =>
          compound form s data init head body
      rw [traced]
      exact (Brackets.visiting _ (.coverCompound form s fun _ _ => Or.inr trivial) hi rfl).of_subset
        (by simp [ownSites,children])
    | ifElse s test consequent alternate => exact traced_ifElse_bracketed hc
    | switch s discriminant cases => exact traced_switch_bracketed hc
    | bindings s data declarators =>
      refine .of_alone (fun _ _ => rfl) fun chain _ =>
        .ofWalk_bind .takeHoist (fun _ => rfl) fun hoistable => ?_
      have hi := (tracedDeclarators_brackets chain hoistable hc).map (bindings s data)
      refine hi.passing.of_subset fun e he => ?_
      rcases List.mem_cons.mp he with he | he
      · exact List.mem_cons.mpr (.inl he)
      · exact List.mem_cons_of_mem _ (mem_flatMap_cons he)
    | block s statements =>
      intro chain given
      have hi := (Brackets.counterItem given.head?.join).bind fun first =>
        (tracedItems_brackets chain hc).map fun items => block s (Walk.placed (first ++ items))
      rw [Walk.placed_append,Walk.placed_counterItems,Walk.placed_map] at hi
      rw [sites_eq]
      exact hi.passing
    | exported s declaration =>
      refine .of_alone (fun _ _ => rfl) fun chain _ => ?_
      have hi := ((hc declaration List.mem_cons_self).alone chain).map (exported s)
      exact hi.of_subset (by simp [ownSites,children])
    | namespaceBlock s items =>
      refine .of_alone (fun _ _ => rfl) fun chain _ => ?_
      have hi := (tracedItems_brackets chain hc).map fun items => namespaceBlock s (Walk.placed items)
      rw [Walk.placed_map] at hi
      exact hi

end Node

namespace Nested

variable {ctx : Context} {visits around : List Visit} {v : Visit} {a : Option Anchor}

/-- Every visit is in brackets, and counting is off at a construct just if a visit to it or around it
has switched it off. -/
theorem bracketed (hn : Nested visits v around) (h : ∀ u ∈ visits, u.Bracketed ctx none) :
    v.Bracketed ctx v.before.anchor ∧
      ((v.entered ctx).isSuppressed = true ↔ ∃ u ∈ v :: around, u.Silences ctx) := by
  induction hn with
  | @outer v hv =>
    obtain ⟨hb,ha,hs,hi⟩ := h v hv
    have hoff : v.before.isSuppressed = false := by rw [Traversal.isSuppressed,hb]; rfl
    refine ⟨.intro rfl (ha.trans hb.symm) hs hi,fun he => ?_,?_⟩
    · rcases Traversal.isSuppressed_or_starts he with h | h
      · rw [hoff] at h
        cases h
      · exact ⟨v,List.mem_cons_self,Visit.silences_iff.mpr h⟩
    · rintro ⟨u,hu,h⟩
      obtain rfl := List.mem_singleton.mp hu
      exact Traversal.isSuppressed_enter_of_starts (Visit.silences_iff.mp h)
  | @inner v w around hn hw ih =>
    obtain ⟨⟨-,-,-,hi⟩,hiff⟩ := ih
    obtain ⟨hb,ha,hs,hi⟩ := hi w hw
    -- Counting is off when the inner visit starts just if it is off at the construct around it.
    have hoff : w.before.isSuppressed = (v.entered ctx).isSuppressed := by
      rw [Traversal.isSuppressed,hb]
      rfl
    refine ⟨.intro rfl (ha.trans hb.symm) hs hi,fun he => ?_,?_⟩
    · rcases Traversal.isSuppressed_or_starts he with h | h
      · rw [hoff,hiff] at h
        obtain ⟨u,hu,hs⟩ := h
        exact ⟨u,List.mem_cons_of_mem _ hu,hs⟩
      · exact ⟨w,List.mem_cons_self,Visit.silences_iff.mpr h⟩
    · rintro ⟨u,hu,h⟩
      rcases List.mem_cons.mp hu with rfl | hu
      · exact Traversal.isSuppressed_enter_of_starts (Visit.silences_iff.mp h)
      · exact Traversal.isSuppressed_enter (hoff.trans (hiff.mpr ⟨u,hu,h⟩))

/-- Inside a construct at which counting is off no visit records or changes anything. -/
theorem silent {coverage : CoverageMap} (hn : Nested visits v around) (ha : a.isSome = true)
    (h : ∀ u ∈ visits, u.Bracketed ctx a ∧ u.before.coverage = coverage) :
    v.Bracketed ctx a ∧ v.before.coverage = coverage ∧ v.after.coverage = coverage ∧
      v.left = v.found := by
  have step : ∀ u : Visit, u.Bracketed ctx a → u.before.coverage = coverage →
      u.after.coverage = coverage ∧ u.left = u.found ∧
      ∀ w ∈ u.inside, w.Bracketed ctx a ∧ w.before.coverage = coverage := by
    rintro u ⟨hb,-,hs,hi⟩ hc
    have hoff : u.before.isSuppressed = true := by rw [Traversal.isSuppressed,hb]; exact ha
    obtain ⟨⟨hcov,-⟩,hleft,hin⟩ := hs (Traversal.isSuppressed_enter hoff)
    have he : (u.entered ctx).anchor = a := (Traversal.anchor_enter hoff).trans hb
    refine ⟨hcov.trans hc,hleft,fun w hw => ⟨?_,(hin w hw).trans hc⟩⟩
    rw [← he]
    exact hi w hw
  have hv : v.Bracketed ctx a ∧ v.before.coverage = coverage := by
    induction hn with
    | outer hv => exact h _ hv
    | inner _ hw ih => exact (step _ ih.1 ih.2).2.2 _ hw
  have hs := step v hv.1 hv.2
  exact ⟨hv.1,hv.2,hs.1,hs.2.1⟩

end Nested

namespace Program

theorem traced_brackets (ctx : Context) (coverage : CoverageMap) (p : Program) :
    (∀ v ∈ (p.traced ctx coverage).2, v.Bracketed ctx none) ∧
    ∀ e ∈ p.body.flatMap Node.sites, ∃ v around,
      Nested (p.traced ctx coverage).2 v around ∧ (v.key,v.name) = e := by
  have hb := tracedItems_brackets false fun n (_ : n ∈ p.body) => n.traced_bracketed ctx
  have ha : Traversal.AnchorBelow { Traversal.start coverage with marks := p.prologueMarks } :=
    fun _ h => by cases h
  exact ⟨fun v hv => (hb.visits _ ha rfl v hv).1,fun e he => hb.meets _ rfl ha e he⟩

end Program

/-- Suppression is exact and in brackets. The walk visits every construct of the program. One that
switches counting off is left as it was found, nothing is recorded until it is left, and counting is
on again then; counting is off at just those constructs that are inside such a one. -/
theorem suppression_bracketed (ctx : Context) (coverage : CoverageMap) (p : Program) :
    (p.traced ctx coverage).1 = p.walk ctx coverage ∧
    (∀ e ∈ p.body.flatMap Node.sites, ∃ v around,
      Nested (p.traced ctx coverage).2 v around ∧ (v.key,v.name) = e) ∧
    ∀ v around, Nested (p.traced ctx coverage).2 v around →
      (v.Silences ctx →
        v.after.coverage = v.before.coverage ∧ v.left = v.found ∧ v.after.isSuppressed = false ∧
        ∀ w inner, Nested v.inside w inner →
          w.before.coverage = v.before.coverage ∧ w.after.coverage = v.before.coverage ∧
          w.left = w.found) ∧
      ((v.entered ctx).isSuppressed = true ↔ ∃ u ∈ v :: around, u.Silences ctx) := by
  obtain ⟨hb,hm⟩ := p.traced_brackets ctx coverage
  refine ⟨p.fst_traced ctx coverage,hm,fun v around hn => ?_⟩
  obtain ⟨⟨-,ha,hs,hi⟩,hiff⟩ := hn.bracketed hb
  refine ⟨fun h => ?_,hiff⟩
  have hoff : (v.entered ctx).isSuppressed = true := hiff.mpr ⟨v,List.mem_cons_self,h⟩
  obtain ⟨⟨hcov,-⟩,hleft,hin⟩ := hs hoff
  refine ⟨hcov,hleft,?_,fun w inner hw => ?_⟩
  · rw [Traversal.isSuppressed,ha]
    exact h.1
  · exact (hw.silent hoff fun u hu => ⟨hi u hu,hin u hu⟩).2

section Sample

def hintedFile : SourceFile :=
  ⟨"a.js",.ofString "/* istanbul ignore next */ if (1) 2; 3;",
    ⟨⟨[(28,[⟨" istanbul ignore next ",.ofBounds 1 27⟩])]⟩,.empty⟩⟩

def sampleLiteral (i lo : Nat) : Node :=
  .leaf .numericLiteral (.ofBounds lo (lo + 1)) [("value",.nat i)]

def hintedItem : Node :=
  .ifElse (.ofBounds 28 37) (sampleLiteral 1 32) (.expression (.ofBounds 35 37) (sampleLiteral 2 35))
    none

def nextItem : Node := .expression (.ofBounds 38 40) (sampleLiteral 3 38)

def hintedProgram : Program := ⟨.script,.ofBounds 28 40,[],[hintedItem,nextItem]⟩

end Sample

theorem suppression_bracketed_hinted :
    ∃ v around, Nested (hintedProgram.traced (hintedFile.context {}) (.new "a.js")).2 v around ∧
      v.key = ⟨.if,.ofBounds 28 37⟩ ∧ v.Silences (hintedFile.context {}) ∧
      v.after.coverage = v.before.coverage ∧ v.left = v.found ∧ v.after.isSuppressed = false := by
  have hv : (hintedProgram.traced (hintedFile.context {}) (.new "a.js")).2.any (fun v =>
      v.key = ⟨.if,.ofBounds 28 37⟩ && !v.before.isSuppressed && v.anchors (hintedFile.context {})) =
      true := by
    decide +kernel
  obtain ⟨v,hv,hk⟩ := List.any_eq_true.mp hv
  simp only [Bool.and_eq_true,decide_eq_true_eq,Bool.not_eq_true'] at hk
  have hn : Nested (hintedProgram.traced (hintedFile.context {}) (.new "a.js")).2 v [] :=
    .outer hv
  have hs : v.Silences (hintedFile.context {}) := ⟨hk.1.2,hk.2⟩
  obtain ⟨hc,hl,ha,-⟩ := ((suppression_bracketed _ _ _).2.2 v [] hn).1 hs
  exact ⟨v,[],hn,hk.1.1,hs,hc,hl,ha⟩

end CoverageCounters
