import CoverageCounters.Proofs.Correspondence
import CoverageCounters.Proofs.Rebuild

/-!
The walk under another stamp. A pass marks its results with the identifier, the path and the source map
of its file, and the walk decides nothing by them. With another stamp it takes the same steps over a
program, adds the same records and meets the same error; the tree it answers with is the same too, but
for the object that its counters are on.
-/

namespace CoverageCounters

open Walk Traversal

/-- What a pass marks its results with. -/
structure Stamp where
  identifier : String
  path : String
  inputSourceMap : Option Json

/-! ### Counters of another object -/

/-- Put the counters of one object in the place of those of another. -/
def Rebuilding.renaming (old new : String) : Rebuilding :=
  { node := fun n => ((Counter.ofNode? old n).map (Counter.node new)).getD n
    items := id
    body := id }

namespace Node

variable {old new : String}

/-- A node with its counters on another object. -/
def renameCounters (old new : String) (n : Node) : Node := n.rebuild (.renaming old new)

@[simp] theorem renameCounters_node (c : Counter) :
    (c.node old).renameCounters old new = c.node new := by
  have h : (c.node old).renameCounters old new =
      (Rebuilding.renaming old new).node (c.node old) := by
    cases c <;> rfl
  rw [h,Rebuilding.renaming]
  dsimp only
  rw [Counter.ofNode?_node]
  rfl

@[simp] theorem renameCounters_statementNode (c : Counter) :
    (c.statementNode old).renameCounters old new = c.statementNode new :=
  congrArg Build.statement (renameCounters_node c)

theorem renameCounters_after (c : Counter) (n : Node) :
    (Build.after (c.node old) n).renameCounters old new =
      Build.after (c.node new) (n.renameCounters old new) := by
  change Build.after ((c.node old).renameCounters old new) (n.renameCounters old new) = _
  rw [renameCounters_node]

theorem renameCounters_block (s : Span) (statements : List Node) :
    (block s statements).renameCounters old new =
      .block s (statements.map (renameCounters old new)) :=
  congrArg (block s) (rebuildNodes_eq_map _ statements)

end Node

namespace Walk

variable {old new : String}

/-- An item of a list and what is put before it, with their counters on another object. -/
def renameItem (old new : String) (item : List Node × Node) : List Node × Node :=
  (item.1.map (Node.renameCounters old new),item.2.renameCounters old new)

theorem placed_renameItem (items : List (List Node × Node)) :
    placed (items.map (renameItem old new)) = (placed items).map (Node.renameCounters old new) := by
  induction items with
  | nil => rfl
  | cons item rest ih =>
    rw [List.map_cons,placed_cons,placed_cons,ih,List.map_append,List.map_cons]
    rfl

end Walk

/-! ### The state under another stamp -/

/-- The same pass with another identifier. -/
def Context.stamped (ctx : Context) (stamp : Stamp) : Context :=
  { ctx with identifier := stamp.identifier }

@[simp] theorem Context.location?_stamped (ctx : Context) (stamp : Stamp) (s : Span) :
    (ctx.stamped stamp).location? s = ctx.location? s := rfl

namespace CoverageMap

def stamped (m : CoverageMap) (stamp : Stamp) : CoverageMap :=
  { m with data := { m.data with path := stamp.path, inputSourceMap := stamp.inputSourceMap } }

/-- A registration that an open map answers in the same way under another stamp, and that leaves it
open. -/
def AddsAlike (stamp : Stamp) (add : CoverageMap → Except InstrumentError Nat × CoverageMap) : Prop :=
  ∀ m, m.frozen = false → (add m).2.frozen = false ∧
    add (m.stamped stamp) = ((add m).1,(add m).2.stamped stamp)

namespace AddsAlike

variable {stamp : Stamp}

theorem ifOpen {result : CoverageMap → Except InstrumentError Nat × CoverageMap}
    (h : AddsAlike stamp result) : AddsAlike stamp fun m => m.ifOpen (result m) := by
  intro m hm
  have ho : ∀ answer : Except InstrumentError Nat × CoverageMap, m.ifOpen answer = answer ∧
      (m.stamped stamp).ifOpen answer = answer := by
    intro answer
    simp only [CoverageMap.ifOpen,stamped,hm,Bool.false_eq_true,if_false,and_self]
  dsimp only
  rw [(ho _).1,(ho _).2]
  exact h m hm

/-- What is appended to the tables does not depend on the stamp. -/
theorem ok {index : CoverageMap → Nat} {grown : CoverageMap → CoverageMap}
    (hi : ∀ m, index (m.stamped stamp) = index m)
    (hg : ∀ m, grown (m.stamped stamp) = (grown m).stamped stamp)
    (ho : ∀ m, (grown m).frozen = m.frozen) : AddsAlike stamp fun m => (.ok (index m),grown m) := by
  intro m hm
  refine ⟨(ho m).trans hm,?_⟩
  dsimp only
  rw [hi,hg]

theorem newStatement (loc : Location) : AddsAlike stamp (·.newStatement loc) :=
  ifOpen (ok (fun _ => rfl) (fun _ => rfl) fun _ => rfl)

theorem newFunction (name : Option String) (decl loc : Location) :
    AddsAlike stamp (·.newFunction name decl loc) :=
  ifOpen (ok (fun _ => rfl) (fun _ => rfl) fun _ => rfl)

theorem newBranch (kind : BranchKind) (loc : Location) : AddsAlike stamp (·.newBranch kind loc) :=
  ifOpen (ok (fun _ => rfl) (fun _ => rfl) fun _ => rfl)

theorem addBranchPath (branch : Nat) (loc : Location) :
    AddsAlike stamp (·.addBranchPath branch loc) := by
  refine ifOpen fun m hm => ?_
  have hc : (m.stamped stamp).branchCount = m.branchCount := rfl
  dsimp only
  rw [hc]
  by_cases hb : branch < m.branchCount
  · rw [if_pos hb,if_pos hb]
    exact ⟨hm,rfl⟩
  · rw [if_neg hb,if_neg hb]
    exact ⟨hm,rfl⟩

end AddsAlike
end CoverageMap

/-- The state under another stamp: what is queued is counted on the other object. -/
def Traversal.stamped (ctx : Context) (stamp : Stamp) (t : Traversal) : Traversal :=
  { t with
    frames := t.frames.map (List.map (Node.renameCounters ctx.identifier stamp.identifier))
    coverage := t.coverage.stamped stamp }

@[simp] theorem Traversal.url_stamped (ctx : Context) (stamp : Stamp) (t : Traversal) :
    (t.stamped ctx stamp).url = t.url := rfl

@[simp] theorem Traversal.failure_stamped (ctx : Context) (stamp : Stamp) (t : Traversal) :
    (t.stamped ctx stamp).failure = t.failure := rfl

/-- From the same state under another stamp the second walk ends in the state of the first under that
stamp, and it answers with what `f` makes of the first answer. -/
def Walk.Agrees {α : Type} (ctx : Context) (stamp : Stamp) (f : α → α) (w w' : Walk α) : Prop :=
  ∀ t, t.coverage.frozen = false →
    (w.run t).2.coverage.frozen = false ∧
    w'.run (t.stamped ctx stamp) = (f (w.run t).1,(w.run t).2.stamped ctx stamp)

/-- The two actions do the same and answer alike. -/
abbrev Action.Agrees {α : Type} (ctx : Context) (stamp : Stamp) (a a' : Action α) : Prop :=
  Walk.Agrees ctx stamp id a.run a'.run

/-! ### Actions -/

namespace Action

variable {α β : Type} {ctx : Context} {stamp : Stamp}

namespace Agrees

theorem pure (x : α) : Agrees ctx stamp (Pure.pure x) (Pure.pure x) := fun _ ht => ⟨ht,rfl⟩

theorem throw (e : InstrumentError) :
    Agrees ctx stamp (MonadExcept.throw e : Action α) (MonadExcept.throw e) :=
  fun _ ht => ⟨ht,rfl⟩

theorem bind {a a' : Action α} {f f' : α → Action β} (ha : Agrees ctx stamp a a')
    (hf : ∀ x, Agrees ctx stamp (f x) (f' x)) : Agrees ctx stamp (a >>= f) (a' >>= f') := by
  intro t ht
  obtain ⟨hu,hr⟩ := ha t ht
  rw [run_bind,run_bind,hr]
  cases hw : a.run.run t with
  | mk r u =>
    rw [hw] at hu
    cases r with
    | ok x => exact hf x u hu
    | error e => exact ⟨hu,rfl⟩

/-- What an action makes of the state may be another under another stamp. -/
theorem get {f f' : Traversal → Action β}
    (hf : ∀ t, Agrees ctx stamp (f t) (f' (t.stamped ctx stamp))) :
    Agrees ctx stamp (MonadState.get >>= f) (MonadState.get >>= f') :=
  fun t ht => hf t t ht

theorem register {add : CoverageMap → Except InstrumentError Nat × CoverageMap}
    (h : CoverageMap.AddsAlike stamp add) : Agrees ctx stamp (register add) (register add) := by
  intro t ht
  obtain ⟨hu,hs⟩ := h t.coverage ht
  have hc : (t.stamped ctx stamp).coverage = t.coverage.stamped stamp := rfl
  rw [run_register,run_register,hc,hs]
  exact ⟨hu,rfl⟩

theorem markSkip (key : Key) : Agrees ctx stamp (markSkip key) (markSkip key) :=
  fun _ ht => ⟨ht,rfl⟩

theorem queue (kind : Kind) (s : Span) (c : Counter) :
    Agrees ctx stamp (queue ctx kind s c) (queue (ctx.stamped stamp) kind s c) := by
  intro t ht
  rw [run_queue,run_queue,Traversal.stamped]
  dsimp only
  cases hf : t.frames with
  | nil => exact ⟨ht,by rw [Traversal.stamped,hf]; rfl⟩
  | cons frame rest =>
    refine ⟨ht,?_⟩
    rw [List.map_cons]
    dsimp only
    rw [Traversal.stamped,List.map_cons,List.map_append,List.map_singleton,
      Node.renameCounters_statementNode]
    rfl

theorem forM {γ : Type} {items : List γ} {f : γ → Action Unit}
    (h : ∀ x ∈ items, Agrees ctx stamp (f x) (f x)) :
    Agrees ctx stamp (items.forM f) (items.forM f) := by
  induction items with
  | nil => exact .pure ()
  | cons x rest ih =>
    change Agrees ctx stamp (f x >>= fun _ => rest.forM f) (f x >>= fun _ => rest.forM f)
    exact (h x List.mem_cons_self).bind fun _ => ih fun y hy => h y (List.mem_cons_of_mem _ hy)

theorem mapM {γ : Type} {items : List γ} {f : γ → Action β}
    (h : ∀ x ∈ items, Agrees ctx stamp (f x) (f x)) :
    Agrees ctx stamp (items.mapM f) (items.mapM f) := by
  induction items with
  | nil => exact .pure []
  | cons x rest ih =>
    rw [List.mapM_cons]
    exact (h x List.mem_cons_self).bind fun _ =>
      (ih fun y hy => h y (List.mem_cons_of_mem _ hy)).bind fun _ => .pure _

theorem coverStatement (kind : Kind) (s : Span) :
    Agrees ctx stamp (coverStatement ctx kind s) (coverStatement (ctx.stamped stamp) kind s) := by
  unfold Action.coverStatement
  rw [Context.location?_stamped]
  cases ctx.location? s with
  | none => exact .pure ()
  | some loc => exact (register (.newStatement loc)).bind fun i => queue kind s _

theorem coverInitializer (hoistable : Bool) (init : Option Node) :
    Agrees ctx stamp (coverInitializer ctx hoistable init)
      (coverInitializer (ctx.stamped stamp) hoistable init) := by
  cases init with
  | none => exact .pure none
  | some init =>
    simp only [Action.coverInitializer,Context.location?_stamped]
    cases ctx.location? init.span with
    | none => exact .pure none
    | some loc =>
      refine (register (.newStatement loc)).bind fun i => .get fun t => ?_
      rw [Traversal.stamped,List.isEmpty_map]
      split
      · exact (queue _ _ _).bind fun _ => .pure none
      · exact .pure _

theorem coverFunction (head : FunctionHead) (key : Option Node) (body : Body) :
    Agrees ctx stamp (coverFunction ctx head key body)
      (coverFunction (ctx.stamped stamp) head key body) := by
  change Agrees ctx stamp (Action.coverFunction ctx head key body)
    (Action.coverFunction ctx head key body)
  unfold Action.coverFunction
  split
  · exact (register (.newFunction _ _ _)).bind fun i =>
      (forM fun n _ => markSkip _).bind fun _ => .pure _
  · exact .pure none

theorem addPath (branch : Nat) (loc : Location) :
    Agrees ctx stamp (addPath branch loc) (addPath branch loc) :=
  (register (.addBranchPath branch loc)).bind fun _ => .pure _

theorem coverSide (branch : Nat) (loc : Location) (ignored : Bool) (side : Node) :
    Agrees ctx stamp (coverSide branch loc ignored side) (coverSide branch loc ignored side) := by
  unfold Action.coverSide
  split
  · split
    · exact (markSkip _).bind fun _ => .pure none
    · exact (addPath branch loc).bind fun _ => .pure _
  · exact .throw _

theorem coverIf (s : Span) (consequent : Node) (alternate : Option Node) :
    Agrees ctx stamp (coverIf ctx s consequent alternate)
      (coverIf (ctx.stamped stamp) s consequent alternate) := by
  change Agrees ctx stamp (Action.coverIf ctx s consequent alternate)
    (Action.coverIf ctx s consequent alternate)
  unfold Action.coverIf
  split
  · exact .pure _
  · exact (register (.newBranch _ _)).bind fun branch =>
      (coverSide branch _ _ _).bind fun _ => (coverSide branch _ _ _).bind fun _ => .pure _

theorem coverCompound (form : CompoundForm) (s : Span) (init : Option Node) :
    Agrees ctx stamp (coverCompound ctx form s init)
      (coverCompound (ctx.stamped stamp) form s init) := by
  unfold Action.coverCompound
  cases init.bind initKey? with
  | none => exact (coverStatement _ s).bind fun _ => .pure true
  | some key => exact (markSkip key).bind fun _ => (coverStatement _ s).bind fun _ => .pure true

theorem coverSwitch (s : Span) :
    Agrees ctx stamp (coverSwitch ctx s) (coverSwitch (ctx.stamped stamp) s) := by
  have hm : ∀ branch, Agrees ctx stamp
      (modify fun t => { t with marks := t.marks.setBranch ⟨.switch,s⟩ branch })
      (modify fun t => { t with marks := t.marks.setBranch ⟨.switch,s⟩ branch }) :=
    fun _ _ ht => ⟨ht,rfl⟩
  unfold Action.coverSwitch
  rw [Context.location?_stamped]
  cases ctx.location? s with
  | none => exact coverStatement _ s
  | some loc =>
    exact (register (.newBranch _ loc)).bind fun branch =>
      (hm branch).bind fun _ => coverStatement .switch s

theorem coverCase (s : Span) (switch : Key) :
    Agrees ctx stamp (coverCase ctx s switch) (coverCase (ctx.stamped stamp) s switch) := by
  change Agrees ctx stamp (Action.coverCase ctx s switch) (Action.coverCase ctx s switch)
  unfold Action.coverCase
  refine .get fun t => ?_
  rw [Traversal.stamped]
  dsimp only
  cases t.marks.branch? switch with
  | none => exact .throw _
  | some branch =>
    cases ctx.location? s with
    | none => exact .pure none
    | some loc => exact (addPath branch loc).bind fun _ => .pure _

theorem coverOperand (branch : Nat) (n : Node) :
    Agrees ctx stamp (coverOperand ctx branch n) (coverOperand ctx branch n) := by
  unfold Action.coverOperand
  split
  · exact .pure none
  · split
    · exact .pure none
    · exact (addPath branch _).bind fun _ => .pure _

theorem coverConditional (s : Span) (consequent alternate : Node) :
    Agrees ctx stamp (coverConditional ctx s consequent alternate)
      (coverConditional (ctx.stamped stamp) s consequent alternate) := by
  change Agrees ctx stamp (Action.coverConditional ctx s consequent alternate)
    (Action.coverConditional ctx s consequent alternate)
  unfold Action.coverConditional
  split
  · exact .pure _
  · exact (register (.newBranch _ _)).bind fun branch =>
      (coverOperand branch _).bind fun _ => (coverOperand branch _).bind fun _ => .pure _

theorem coverChain (s : Span) (left right : Node) :
    Agrees ctx stamp (coverChain ctx s left right) (coverChain (ctx.stamped stamp) s left right) := by
  change Agrees ctx stamp (Action.coverChain ctx s left right) (Action.coverChain ctx s left right)
  unfold Action.coverChain
  split
  · exact .pure []
  · exact (register (.newBranch _ _)).bind fun branch => mapM fun n _ => coverOperand branch n

theorem coverDefault (s : Span) (value : Option Node) :
    Agrees ctx stamp (coverDefault ctx s value) (coverDefault (ctx.stamped stamp) s value) := by
  change Agrees ctx stamp (Action.coverDefault ctx s value) (Action.coverDefault ctx s value)
  cases value with
  | none => exact .pure none
  | some value =>
    simp only [Action.coverDefault]
    cases ctx.location? s with
    | none => exact .pure none
    | some loc =>
      refine (register (.newBranch _ loc)).bind fun branch => ?_
      cases ctx.location? value.span with
      | none => exact .pure none
      | some valueLoc => exact (addPath branch valueLoc).bind fun _ => .pure _

end Agrees
end Action

/-! ### Walks -/

namespace Walk

variable {α β : Type} {ctx : Context} {stamp : Stamp}

namespace Agrees

variable {f : α → α} {g : β → β}

theorem pure {a a' : α} (h : a' = f a) : Agrees ctx stamp f (Pure.pure a) (Pure.pure a') :=
  fun _ ht => ⟨ht,by rw [h]; rfl⟩

theorem bind {w w' : Walk α} {k k' : α → Walk β} (hw : Agrees ctx stamp f w w')
    (hk : ∀ a, Agrees ctx stamp g (k a) (k' (f a))) :
    Agrees ctx stamp g (w >>= k) (w' >>= k') := by
  intro t ht
  obtain ⟨hu,hr⟩ := hw t ht
  rw [run_bind,run_bind,hr]
  exact hk _ _ hu

theorem get {k k' : Traversal → Walk β}
    (hk : ∀ t, Agrees ctx stamp g (k t) (k' (t.stamped ctx stamp))) :
    Agrees ctx stamp g (MonadState.get >>= k) (MonadState.get >>= k') :=
  fun t ht => hk t t ht

theorem takeHoist : Agrees ctx stamp id takeHoist takeHoist := fun _ ht => ⟨ht,rfl⟩

theorem attempt {key : Key} {action action' : Action α} {idle : α}
    (ha : Action.Agrees ctx stamp action action') :
    Agrees ctx stamp id (attempt key action idle) (attempt key action' idle) := by
  intro t ht
  have hc : (t.stamped ctx stamp).counts key = t.counts key := rfl
  rw [run_attempt,run_attempt,hc]
  by_cases h : t.counts key = true
  · obtain ⟨hu,hr⟩ := ha t ht
    rw [if_pos h,if_pos h,hr]
    cases hw : action.run.run t with
    | mk r u =>
      rw [hw] at hu
      cases r with
      | ok x => exact ⟨hu,rfl⟩
      | error e => exact ⟨hu,rfl⟩
  · rw [if_neg h,if_neg h]
    exact ⟨ht,rfl⟩

/-- A visit asks the state for its depth, its anchor, its marks and its error only. -/
theorem visiting {key : Key} {name : Option String} {action action' : Action α} {idle : α}
    {inside inside' : α → Walk β} (ha : Action.Agrees ctx stamp action action')
    (hi : ∀ a, Agrees ctx stamp g (inside a) (inside' a)) :
    Agrees ctx stamp g (visiting ctx key name action idle inside)
      (visiting (ctx.stamped stamp) key name action' idle inside') := by
  intro t ht
  have he : (t.stamped ctx stamp).enter (ctx.stamped stamp) key name =
      (t.enter ctx key name).stamped ctx stamp := rfl
  have hattempt : Agrees ctx stamp id (Walk.attempt key action idle) (Walk.attempt key action' idle) :=
    attempt ha
  obtain ⟨hu,hr⟩ := hattempt (t.enter ctx key name) ht
  obtain ⟨hv,hs⟩ := hi _ _ hu
  rw [run_visiting,run_visiting,he,hr]
  dsimp only [id]
  rw [hs]
  exact ⟨hv,rfl⟩

theorem passing {key : Key} {inside inside' : Walk β} (h : Agrees ctx stamp g inside inside') :
    Agrees ctx stamp g (passing ctx key inside) (passing (ctx.stamped stamp) key inside') :=
  visiting (.pure ()) fun _ => h

theorem withChain {w w' : Walk α} (inChain : Bool) (h : Agrees ctx stamp f w w') :
    Agrees ctx stamp f (withChain inChain w) (withChain inChain w') := by
  intro t ht
  obtain ⟨hu,hr⟩ := h { t with inChain } ht
  have hs : (Walk.withChain inChain w').run (t.stamped ctx stamp) =
      ((w'.run (Traversal.stamped ctx stamp { t with inChain })).1,
        { (w'.run (Traversal.stamped ctx stamp { t with inChain })).2 with
          inChain := t.inChain }) := rfl
  rw [hs,hr]
  exact ⟨hu,rfl⟩

section Nodes

variable {w w' : Walk Node}

/-- The second walk answers with the node of the first, with its counters on the other object. -/
abbrev Renames (ctx : Context) (stamp : Stamp) (w w' : Walk Node) : Prop :=
  Agrees ctx stamp (Node.renameCounters ctx.identifier stamp.identifier) w w'

theorem asItem (declares : Bool) (h : Renames ctx stamp w w') :
    Agrees ctx stamp (renameItem ctx.identifier stamp.identifier) (asItem declares w)
      (asItem declares w') := by
  intro t ht
  let start : Traversal := { t with frames := [] :: t.frames, hoist := declares }
  obtain ⟨hu,hr⟩ := h start ht
  have hs : (Walk.asItem declares w').run (t.stamped ctx stamp) =
      (((w'.run (start.stamped ctx stamp)).2.frames.headD [],(w'.run (start.stamped ctx stamp)).1),
        { (w'.run (start.stamped ctx stamp)).2 with
          frames := (w'.run (start.stamped ctx stamp)).2.frames.tail
          hoist := false }) := rfl
  have hw : (Walk.asItem declares w).run t =
      (((w.run start).2.frames.headD [],(w.run start).1),
        { (w.run start).2 with frames := (w.run start).2.frames.tail, hoist := false }) := rfl
  rw [hs,hw,hr]
  refine ⟨hu,?_⟩
  generalize w.run start = r
  simp only [renameItem,Traversal.stamped]
  cases r.2.frames <;> rfl

theorem behind? (c : Option Counter) (h : Renames ctx stamp w w') :
    Renames ctx stamp (behind? ctx c w) (behind? (ctx.stamped stamp) c w') := by
  cases c with
  | none => exact h
  | some c => exact passing (h.bind fun n => .pure (Node.renameCounters_after c n).symm)

theorem operand {n : Node} {counters : List (Option Counter)}
    {walk walk' : List (Option Counter) → Walk Node}
    (h : ∀ given, Renames ctx stamp (walk given) (walk' given)) :
    Renames ctx stamp (operand ctx n counters walk) (operand (ctx.stamped stamp) n counters walk') := by
  unfold Walk.operand
  split
  · exact h counters
  · exact withChain false (behind? _ (h []))

/-- A counter in a list is walked as the counter that takes its place. -/
theorem counterItem (c : Option Counter) :
    Agrees ctx stamp (List.map (renameItem ctx.identifier stamp.identifier)) (counterItem ctx c)
      (counterItem (ctx.stamped stamp) c) := by
  cases c with
  | none => exact .pure rfl
  | some c =>
    have hv : Renames ctx stamp
        (Walk.visiting ctx ⟨.expressionStatement,.dummy⟩ none
          (Action.coverStatement ctx .expressionStatement .dummy) () fun _ =>
            Pure.pure (c.statementNode ctx.identifier))
        (Walk.visiting (ctx.stamped stamp) ⟨.expressionStatement,.dummy⟩ none
          (Action.coverStatement (ctx.stamped stamp) .expressionStatement .dummy) () fun _ =>
            Pure.pure (c.statementNode stamp.identifier)) :=
      visiting (.coverStatement _ _) fun _ => .pure (Node.renameCounters_statementNode c).symm
    exact (asItem false hv).bind fun item => .pure rfl

theorem inBlock {walk walk' : List (Option Counter) → Walk Node} (c : Option Counter) (body : Node)
    (h : ∀ given, Renames ctx stamp (walk given) (walk' given)) :
    Renames ctx stamp (inBlock ctx c body walk) (inBlock (ctx.stamped stamp) c body walk') := by
  unfold Walk.inBlock
  split
  · exact h [c]
  · refine passing ((counterItem c).bind fun first => (asItem _ (h [])).bind fun item => .pure ?_)
    rw [Node.renameCounters_block,← placed_renameItem,List.map_append]
    rfl

theorem asBody {walk walk' : List (Option Counter) → Walk Node} (counted : Bool) (body : Node)
    (h : ∀ given, Renames ctx stamp (walk given) (walk' given)) :
    Renames ctx stamp (asBody ctx counted body walk) (asBody (ctx.stamped stamp) counted body walk') := by
  cases counted with
  | false => exact h []
  | true => exact inBlock none body h

theorem asReturn (c : Counter) (s : Span) (h : Renames ctx stamp w w') :
    Agrees ctx stamp (rebuildBody (.renaming ctx.identifier stamp.identifier))
      (asReturn ctx c s w) (asReturn (ctx.stamped stamp) c s w') := by
  refine passing ((counterItem (some c)).bind fun first => Agrees.bind (asItem false
    (visiting (.coverStatement _ _) fun _ => h.bind fun n => .pure rfl)) fun item => .pure ?_)
  change Body.block s (placed (first.map (renameItem _ _) ++ [item].map (renameItem _ _))) =
    Body.block s (rebuildNodes _ _)
  rw [rebuildNodes_eq_map,← List.map_append,placed_renameItem]
  rfl

theorem inParens (wanted : Bool) (heritage : Node) (h : Renames ctx stamp w w') :
    Renames ctx stamp (inParens ctx wanted heritage w)
      (inParens (ctx.stamped stamp) wanted heritage w') := by
  unfold Walk.inParens
  split
  · exact passing (h.bind fun n => .pure rfl)
  · exact h

end Nodes
end Agrees
end Walk

section Lists

variable {ctx : Context} {stamp : Stamp}

/-- The walk of a node goes the same way under another stamp. -/
def Node.WalksAlike (ctx : Context) (stamp : Stamp) (n : Node) : Prop :=
  ∀ given, Agrees.Renames ctx stamp (n.walk ctx given) (n.walk (ctx.stamped stamp) given)

theorem walkNodes_stamped {nodes : List Node} (h : ∀ n ∈ nodes, n.WalksAlike ctx stamp) :
    Agrees ctx stamp (rebuildNodes (.renaming ctx.identifier stamp.identifier))
      (walkNodes ctx nodes) (walkNodes (ctx.stamped stamp) nodes) := by
  induction nodes with
  | nil => exact .pure rfl
  | cons n rest ih =>
    rw [walkNodes,walkNodes]
    exact (h n List.mem_cons_self []).bind fun m =>
      (ih fun x hx => h x (List.mem_cons_of_mem _ hx)).bind fun ms => .pure rfl

theorem walkPart_stamped {p : Part} (h : ∀ n ∈ p.nodes, n.WalksAlike ctx stamp) :
    Agrees ctx stamp (rebuildPart (.renaming ctx.identifier stamp.identifier))
      (walkPart ctx p) (walkPart (ctx.stamped stamp) p) := by
  cases p with
  | child field n => exact (h n (List.mem_singleton_self n) []).bind fun m => .pure rfl
  | children field nodes => exact (walkNodes_stamped h).bind fun ms => .pure rfl

theorem walkParts_stamped {parts : List Part}
    (h : ∀ n ∈ parts.flatMap Part.nodes, n.WalksAlike ctx stamp) :
    Agrees ctx stamp (rebuildParts (.renaming ctx.identifier stamp.identifier))
      (walkParts ctx parts) (walkParts (ctx.stamped stamp) parts) := by
  induction parts with
  | nil => exact .pure rfl
  | cons p rest ih =>
    rw [List.flatMap_cons] at h
    rw [walkParts,walkParts]
    exact (walkPart_stamped fun n hn => h n (List.mem_append_left _ hn)).bind fun q =>
      (ih fun n hn => h n (List.mem_append_right _ hn)).bind fun qs => .pure rfl

theorem walkOption_stamped (counter : Option Counter) {o : Option Node}
    (h : ∀ n ∈ o.toList, n.WalksAlike ctx stamp) :
    Agrees ctx stamp (rebuildOption (.renaming ctx.identifier stamp.identifier))
      (walkOption ctx counter o) (walkOption (ctx.stamped stamp) counter o) := by
  cases o with
  | none => exact .pure rfl
  | some n =>
    exact (Agrees.behind? counter (h n (List.mem_singleton_self n) [])).bind fun m => .pure rfl

theorem walkElse_stamped (counter : Option Counter) {o : Option Node}
    (h : ∀ n ∈ o.toList, n.WalksAlike ctx stamp) :
    Agrees.Renames ctx stamp (walkElse ctx counter o) (walkElse (ctx.stamped stamp) counter o) := by
  cases o with
  | none =>
    refine .passing ((Agrees.counterItem counter).bind fun items => .pure ?_)
    rw [Node.renameCounters_block,placed_renameItem]
  | some n =>
    rw [walkElse,walkElse]
    exact Agrees.inBlock counter n (h n (List.mem_singleton_self n))

theorem walkHeritage_stamped (counted : Bool) {o : Option Node}
    (h : ∀ n ∈ o.toList, n.WalksAlike ctx stamp) :
    Agrees ctx stamp (rebuildOption (.renaming ctx.identifier stamp.identifier))
      (walkHeritage ctx counted o) (walkHeritage (ctx.stamped stamp) counted o) := by
  cases o with
  | none => exact .pure rfl
  | some n =>
    exact (Agrees.inParens counted n (h n (List.mem_singleton_self n) [])).bind fun m => .pure rfl

theorem walkItems_stamped {items : List Node} (h : ∀ n ∈ items, n.WalksAlike ctx stamp) :
    Agrees ctx stamp (List.map (renameItem ctx.identifier stamp.identifier))
      (walkItems ctx items) (walkItems (ctx.stamped stamp) items) := by
  induction items with
  | nil => exact .pure rfl
  | cons n rest ih =>
    rw [walkItems,walkItems]
    exact (Agrees.asItem n.declaresVariables (h n List.mem_cons_self [])).bind fun item =>
      (ih fun x hx => h x (List.mem_cons_of_mem _ hx)).bind fun items => .pure rfl

theorem walkStatements_stamped (counter : Option Counter) {statements : List Node}
    (h : ∀ n ∈ statements, n.WalksAlike ctx stamp) :
    Agrees ctx stamp (List.map (renameItem ctx.identifier stamp.identifier))
      (walkStatements ctx counter statements) (walkStatements (ctx.stamped stamp) counter statements) := by
  rw [walkStatements_eq,walkStatements_eq]
  refine (walkItems_stamped fun n hn => h n ((List.takeWhile_sublist _).mem hn)).bind fun front => ?_
  refine (Agrees.counterItem counter).bind fun first => ?_
  refine (walkItems_stamped fun n hn => h n ((List.dropWhile_sublist _).mem hn)).bind fun back =>
    .pure ?_
  rw [List.map_append,List.map_append]

theorem walkBody_stamped (counter : Option Counter) {body : Body}
    (h : ∀ n ∈ body.nodes, n.WalksAlike ctx stamp) :
    Agrees ctx stamp (rebuildBody (.renaming ctx.identifier stamp.identifier))
      (walkBody ctx counter body) (walkBody (ctx.stamped stamp) counter body) := by
  cases body with
  | absent => exact .pure rfl
  | block s statements =>
    refine .passing ((walkStatements_stamped counter h).bind fun items => .pure ?_)
    rw [placed_renameItem]
    exact congrArg (Body.block s) (rebuildNodes_eq_map _ _).symm
  | value e =>
    have he := h e (List.mem_singleton_self e) []
    cases counter with
    | none => exact he.bind fun m => .pure rfl
    | some c => exact he.asReturn c e.span

theorem walkCases_stamped (switch : Key) {cases : List Case}
    (h : ∀ n ∈ cases.flatMap Case.nodes, n.WalksAlike ctx stamp) :
    Agrees ctx stamp (rebuildCases (.renaming ctx.identifier stamp.identifier))
      (walkCases ctx switch cases) (walkCases (ctx.stamped stamp) switch cases) := by
  induction cases with
  | nil => exact .pure rfl
  | cons c rest ih =>
    obtain ⟨s,test,consequent⟩ := c
    simp only [List.flatMap_cons,Case.nodes,List.mem_append] at h
    have hc : Agrees ctx stamp (rebuildCase (.renaming ctx.identifier stamp.identifier))
        (walkCase ctx switch (.mk s test consequent))
        (walkCase (ctx.stamped stamp) switch (.mk s test consequent)) := by
      refine .visiting (.coverCase s switch) fun counter => ?_
      refine (walkOption_stamped none fun n hn => h n (.inl (.inl hn))).bind fun test => ?_
      refine (Agrees.counterItem counter).bind fun first => ?_
      refine (walkItems_stamped fun n hn => h n (.inl (.inr hn))).bind fun items => .pure ?_
      rw [← List.map_append,placed_renameItem]
      exact congrArg (Case.mk s _) (rebuildNodes_eq_map _ _).symm
    rw [walkCases,walkCases]
    exact hc.bind fun c => (ih fun n hn => h n (.inr hn)).bind fun cs => .pure rfl

theorem walkDeclarators_stamped (hoistable : Bool) {declarators : List Declarator}
    (h : ∀ n ∈ declarators.flatMap Declarator.nodes, n.WalksAlike ctx stamp) :
    Agrees ctx stamp (rebuildDeclarators (.renaming ctx.identifier stamp.identifier))
      (walkDeclarators ctx hoistable declarators)
      (walkDeclarators (ctx.stamped stamp) hoistable declarators) := by
  induction declarators with
  | nil => exact .pure rfl
  | cons d rest ih =>
    obtain ⟨s,data,target,init⟩ := d
    simp only [List.flatMap_cons,Declarator.nodes,List.mem_append,List.mem_cons] at h
    have hd : Agrees ctx stamp (rebuildDeclarator (.renaming ctx.identifier stamp.identifier))
        (walkDeclarator ctx hoistable (.mk s data target init))
        (walkDeclarator (ctx.stamped stamp) hoistable (.mk s data target init)) := by
      refine .visiting (.coverInitializer hoistable init) fun counter => ?_
      exact (h target (.inl (.inl rfl)) []).bind fun m =>
        (walkOption_stamped counter fun n hn => h n (.inl (.inr hn))).bind fun o => .pure rfl
    rw [walkDeclarators,walkDeclarators]
    exact hd.bind fun d => (ih fun n hn => h n (.inr hn)).bind fun ds => .pure rfl

end Lists

namespace Node

variable {ctx : Context} {stamp : Stamp}

/-- The walk keeps a plain node that is no counter one that is no counter. -/
theorem plain_walksAlike {head : Head} {parts : List Part}
    (hn : Counter.ofNode? ctx.identifier (plain head parts) = none)
    (h : ∀ n ∈ (plain head parts).children, n.WalksAlike ctx stamp) :
    (plain head parts).WalksAlike ctx stamp := by
  intro given t ht
  obtain ⟨hu,hr⟩ := walkParts_stamped h t ht
  have hw : Counter.ofNode? ctx.identifier
      (((plain head parts).walk (ctx.stamped stamp) given).run (t.stamped ctx stamp)).1 =
      Counter.ofNode? ctx.identifier (plain head parts) := ofNode?_walk _ _ _ _
  have hs : ((plain head parts).walk (ctx.stamped stamp) given).run (t.stamped ctx stamp) =
      (.plain head ((walkParts (ctx.stamped stamp) parts).run (t.stamped ctx stamp)).1,
        ((walkParts (ctx.stamped stamp) parts).run (t.stamped ctx stamp)).2) := rfl
  rw [hs,hr,hn] at hw
  refine ⟨hu,?_⟩
  rw [hs,hr]
  refine Prod.ext ?_ rfl
  change _ = ((Counter.ofNode? ctx.identifier (plain head
    (rebuildParts _ ((walkParts ctx parts).run t).1))).map _).getD _
  rw [hw]
  rfl

/-- A node without counters of the file is walked in the same way under every stamp. -/
theorem walksAlike {n : Node} (hn : n.counters ctx.identifier = []) : n.WalksAlike ctx stamp := by
  induction n using induction_children with
  | step n ih =>
    rw [counters_eq,List.append_eq_nil_iff,List.flatMap_eq_nil_iff] at hn
    replace ih : ∀ m ∈ n.children, m.WalksAlike ctx stamp := fun m hm => ih m hm (hn.2 m hm)
    have ho : Counter.ofNode? ctx.identifier n = none := Option.toList_eq_nil_iff.mp hn.1
    intro given
    cases n with
    | plain head parts => exact plain_walksAlike ho ih given
    | paren s inner => exact .passing ((ih inner List.mem_cons_self given).bind fun m => .pure rfl)
    | logical s operator left right =>
      -- whether the expression is an operand is noted in the state, which no stamp changes
      refine .get fun t => ?_
      refine .visiting ?_ fun own => .withChain true ?_
      · change Action.Agrees ctx stamp _ (if (!t.inChain) = true then _ else _)
        split
        · exact .coverChain s left right
        · exact .pure []
      · exact (Agrees.operand (ih left (by simp [children]))).bind fun l =>
          (Agrees.operand (ih right (by simp [children]))).bind fun r => .pure rfl
    | conditional s test consequent alternate =>
      refine .visiting (.coverConditional s consequent alternate) fun counters => ?_
      exact (ih test (by simp [children]) []).bind fun t =>
        (Agrees.behind? _ (ih consequent (by simp [children]) [])).bind fun c =>
          (Agrees.behind? _ (ih alternate (by simp [children]) [])).bind fun a => .pure rfl
    | function head key before body after =>
      simp only [children,List.mem_append] at ih
      refine .visiting (.coverFunction head key body) fun counter => ?_
      exact (walkOption_stamped none fun n hn => ih n (.inl (.inl (.inl hn)))).bind fun k =>
        (walkParts_stamped fun n hn => ih n (.inl (.inl (.inr hn)))).bind fun b =>
          (walkBody_stamped counter fun n hn => ih n (.inl (.inr hn))).bind fun c =>
            (walkParts_stamped fun n hn => ih n (.inr hn)).bind fun a => .pure rfl
    | defaulted form s target value =>
      refine .visiting (.coverDefault s value) fun counter => ?_
      exact (ih target List.mem_cons_self []).bind fun t =>
        (walkOption_stamped counter fun n hn => ih n (List.mem_cons_of_mem _ hn)).bind fun v =>
          .pure rfl
    | classDeclaration s data name before heritage after =>
      simp only [children,List.mem_append,List.mem_cons] at ih
      refine .visiting (.pure true) fun counted => ?_
      exact (ih name (.inl (.inl (.inl rfl))) []).bind fun m =>
        (walkParts_stamped fun n hn => ih n (.inl (.inl (.inr hn)))).bind fun b =>
          (walkHeritage_stamped counted fun n hn => ih n (.inl (.inr hn))).bind fun c =>
            (walkParts_stamped fun n hn => ih n (.inr hn)).bind fun a => .pure rfl
    | expression s inner =>
      exact .visiting (.coverStatement _ s) fun _ =>
        (ih inner List.mem_cons_self []).bind fun m => .pure rfl
    | simple form s parts =>
      exact .visiting (.coverStatement _ s) fun _ => (walkParts_stamped ih).bind fun p => .pure rfl
    | compound form s data init head body =>
      simp only [children,List.mem_append,List.mem_singleton] at ih
      refine .visiting (.coverCompound form s init) fun counted => ?_
      exact (walkOption_stamped none fun n hn => ih n (.inl (.inl hn))).bind fun i =>
        (walkParts_stamped fun n hn => ih n (.inl (.inr hn))).bind fun h =>
          (Agrees.asBody counted body (ih body (.inr rfl))).bind fun b => .pure rfl
    | ifElse s test consequent alternate =>
      simp only [children,List.mem_cons] at ih
      refine .visiting (.coverIf s consequent alternate) fun counters => ?_
      refine (ih test (.inl rfl) []).bind fun t => ?_
      cases counters with
      | none =>
        exact (ih consequent (.inr (.inl rfl)) []).bind fun c =>
          (walkOption_stamped none fun n hn => ih n (.inr (.inr hn))).bind fun a => .pure rfl
      | some counters =>
        exact (Agrees.inBlock _ consequent (ih consequent (.inr (.inl rfl)))).bind fun c =>
          (walkElse_stamped counters.2 fun n hn => ih n (.inr (.inr hn))).bind fun a => .pure rfl
    | switch s discriminant cases =>
      refine .visiting (.coverSwitch s) fun _ => ?_
      exact (ih discriminant List.mem_cons_self []).bind fun d =>
        (walkCases_stamped _ fun n hn => ih n (List.mem_cons_of_mem _ hn)).bind fun c => .pure rfl
    | bindings s data declarators =>
      exact Agrees.takeHoist.bind fun hoistable =>
        .passing ((walkDeclarators_stamped hoistable ih).bind fun d => .pure rfl)
    | block s statements =>
      refine .passing ((Agrees.counterItem _).bind fun first =>
        (walkItems_stamped ih).bind fun items => .pure ?_)
      rw [renameCounters_block,← List.map_append,placed_renameItem]
    | exported s declaration =>
      exact (ih declaration List.mem_cons_self []).bind fun m => .pure rfl
    | namespaceBlock s items =>
      refine (walkItems_stamped ih).bind fun items => .pure ?_
      rw [placed_renameItem]
      exact congrArg (namespaceBlock s) (rebuildNodes_eq_map _ _).symm

end Node

namespace Program

/-- A program with its counters on another object. -/
def renameCounters (old new : String) (p : Program) : Program :=
  { p with body := p.body.map (Node.renameCounters old new) }

/-- Under another stamp the walk of a program without counters of the file ends in the same state, and
its answer has the same counters on the other object. -/
theorem walk_stamped (ctx : Context) (coverage : CoverageMap) {p : Program} (stamp : Stamp)
    (hc : coverage.frozen = false) (hp : p.counters ctx.identifier = []) :
    p.walk (ctx.stamped stamp) (coverage.stamped stamp) =
      ((p.walk ctx coverage).1.renameCounters ctx.identifier stamp.identifier,
        (p.walk ctx coverage).2.stamped ctx stamp) ∧
    (p.walk ctx coverage).2.coverage.frozen = false := by
  have hn : ∀ n ∈ p.body, n.WalksAlike ctx stamp := by
    intro n hn
    refine Node.walksAlike ?_
    rw [counters,nodes,List.filterMap_flatMap,List.flatMap_eq_nil_iff] at hp
    exact hp n hn
  obtain ⟨hu,hr⟩ := walkItems_stamped hn
    { Traversal.start coverage with marks := p.prologueMarks } hc
  refine ⟨?_,hu⟩
  have hb := congrArg (fun r : List (List Node × Node) × Traversal =>
    (({ p with body := placed r.1 } : Program),r.2)) hr
  refine hb.trans (Prod.ext ?_ rfl)
  exact congrArg (fun body => { p with body }) (placed_renameItem _)

end Program

end CoverageCounters
