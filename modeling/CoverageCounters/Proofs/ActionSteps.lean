import CoverageCounters.Pass.Walk

/-!
What the action of a node can do to the state. It registers records, marks nodes that are met later,
notes the branch of its own node, and queues counters; it does nothing else, and it may stop at an
error halfway. Every invariant of actions is an induction over these steps.
-/

namespace CoverageCounters

/-- One record is added to an open map. -/
inductive CoverageMap.Registers (m m' : CoverageMap) : Prop where
  | statement {loc : Location} {i : Nat} (h : m.newStatement loc = (.ok i,m'))
  | function {name : Option String} {decl loc : Location} {i : Nat}
      (h : m.newFunction name decl loc = (.ok i,m'))
  | branch {kind : BranchKind} {loc : Location} {i : Nat} (h : m.newBranch kind loc = (.ok i,m'))
  | path {b : Nat} {loc : Location} {i : Nat} (h : m.addBranchPath b loc = (.ok i,m'))

namespace CoverageMap

theorem lt_branchCount_of_newBranch {m m' : CoverageMap} {kind : BranchKind}
    {loc : Location} {i : Nat} (h : m.newBranch kind loc = (.ok i,m')) : i < m'.branchCount := by
  unfold newBranch ifOpen at h
  split at h
  · cases h
  · cases h
    simp [branchCount]

/-- An operation that either adds a record or fails and leaves the map as it was. -/
structure Recording (add : CoverageMap → Except InstrumentError Nat × CoverageMap) : Prop where
  registers : ∀ {m i m'}, add m = (.ok i,m') → m.Registers m'
  fails : ∀ {m e m'}, add m = (.error e,m') → m' = m

theorem eq_of_ifOpen_error {m m' : CoverageMap} {result : Except InstrumentError Nat × CoverageMap}
    {e : InstrumentError} (h : m.ifOpen result = (.error e,m'))
    (hr : result = (.error e,m') → m' = m) : m' = m := by
  unfold ifOpen at h
  split at h
  · exact (Prod.mk.inj h).2.symm
  · exact hr h

theorem recording_newStatement (loc : Location) : Recording (·.newStatement loc) :=
  ⟨.statement,fun h => eq_of_ifOpen_error h nofun⟩

theorem recording_newFunction (name : Option String) (decl loc : Location) :
    Recording (·.newFunction name decl loc) :=
  ⟨.function,fun h => eq_of_ifOpen_error h nofun⟩

theorem recording_newBranch (kind : BranchKind) (loc : Location) : Recording (·.newBranch kind loc) :=
  ⟨.branch,fun h => eq_of_ifOpen_error h nofun⟩

theorem recording_addBranchPath (b : Nat) (loc : Location) : Recording (·.addBranchPath b loc) := by
  refine ⟨.path,fun h => eq_of_ifOpen_error h fun hr => ?_⟩
  split at hr
  · cases hr
  · exact (Prod.mk.inj hr).2.symm

end CoverageMap

namespace Traversal

/-- The states that the action of a node can lead to, step by step. It marks only nodes that
`marked` allows. -/
inductive Acts (ctx : Context) (key : Key) (marked : Key → Prop) (t : Traversal) :
    Traversal → Prop where
  | refl : Acts ctx key marked t t
  | register {u : Traversal} {m : CoverageMap} (h : Acts ctx key marked t u)
      (hm : u.coverage.Registers m) : Acts ctx key marked t { u with coverage := m }
  | skip {u : Traversal} {k : Key} (h : Acts ctx key marked t u) (hk : marked k) :
      Acts ctx key marked t { u with marks := u.marks.markSkip k }
  | branch {u : Traversal} {b : Nat} (h : Acts ctx key marked t u)
      (hb : b < u.coverage.branchCount) :
      Acts ctx key marked t { u with marks := u.marks.setBranch key b }
  | queue {u : Traversal} {frame : List Node} {rest : List (List Node)} {c : Counter}
      (h : Acts ctx key marked t u) (hf : u.frames = frame :: rest) :
      Acts ctx key marked t
        { u with frames := (frame ++ [c.statementNode ctx.identifier]) :: rest }

variable {ctx : Context} {key : Key} {marked : Key → Prop} {t u v : Traversal}

theorem Acts.trans (h₁ : Acts ctx key marked t u) (h₂ : Acts ctx key marked u v) :
    Acts ctx key marked t v := by
  induction h₂ with
  | refl => exact h₁
  | register _ hm ih => exact ih.register hm
  | skip _ hk ih => exact ih.skip hk
  | branch _ hb ih => exact ih.branch hb
  | queue _ hf ih => exact ih.queue hf

end Traversal

namespace Action

variable {α β : Type}

@[simp] theorem run_pure (x : α) (t : Traversal) : (pure x : Action α).run.run t = (.ok x,t) := rfl

theorem run_bind (a : Action α) (f : α → Action β) (t : Traversal) :
    (a >>= f).run.run t =
      match a.run.run t with
      | (.ok x,u) => (f x).run.run u
      | (.error e,u) => (.error e,u) := by
  change StateT.run (ExceptT.bindCont f (a.run.run t).1) (a.run.run t).2 = _
  cases h : a.run.run t with
  | mk r u => cases r <;> rfl

/-- Both steps of an action that gives a result give one. -/
theorem exists_of_run_bind {a : Action α} {f : α → Action β} {t v : Traversal} {y : β}
    (h : (a >>= f).run.run t = (.ok y,v)) :
    ∃ x u, a.run.run t = (.ok x,u) ∧ (f x).run.run u = (.ok y,v) := by
  rw [run_bind] at h
  cases hr : a.run.run t with
  | mk r u =>
    rw [hr] at h
    cases r with
    | ok x => exact ⟨x,u,rfl,h⟩
    | error e => cases h

@[simp] theorem run_get_bind (f : Traversal → Action α) (t : Traversal) :
    ((get : Action Traversal) >>= f).run.run t = (f t).run.run t := rfl

theorem run_register (add : CoverageMap → Except InstrumentError Nat × CoverageMap)
    (t : Traversal) :
    (register add).run.run t =
      ((add t.coverage).1,{ t with coverage := (add t.coverage).2 }) := by
  unfold register
  rw [run_get_bind]
  rcases add t.coverage with ⟨_ | _,m⟩ <;> rfl

theorem run_queue (ctx : Context) (kind : Kind) (s : Span) (c : Counter) (t : Traversal) :
    (queue ctx kind s c).run.run t =
      match t.frames with
      | frame :: rest =>
        (.ok (),{ t with frames := (frame ++ [c.statementNode ctx.identifier]) :: rest })
      | [] => (.error (.unsupportedNode kind (ctx.location? s)),t) := by
  unfold queue
  rw [run_get_bind]
  cases t.frames with
  | nil => rfl
  | cons frame rest => rfl

/-- Wherever it starts and however it ends, an action only takes the steps of its node. -/
def Acting (ctx : Context) (key : Key) (marked : Key → Prop) (a : Action α) : Prop :=
  ∀ t, Traversal.Acts ctx key marked t (a.run.run t).2

namespace Acting

variable {ctx : Context} {key : Key} {marked : Key → Prop}

theorem pure (x : α) : Acting ctx key marked (Pure.pure x : Action α) := fun _ => .refl

theorem throw (e : InstrumentError) : Acting ctx key marked (MonadExcept.throw e : Action α) :=
  fun _ => .refl

theorem bind {a : Action α} {f : α → Action β} (ha : Acting ctx key marked a)
    (hf : ∀ x, Acting ctx key marked (f x)) : Acting ctx key marked (a >>= f) := by
  intro t
  have h := ha t
  rw [run_bind]
  cases hr : a.run.run t with
  | mk r u =>
    rw [hr] at h
    cases r with
    | ok x => exact h.trans (hf x u)
    | error e => exact h

theorem register {add : CoverageMap → Except InstrumentError Nat × CoverageMap}
    (h : CoverageMap.Recording add) : Acting ctx key marked (register add) := by
  intro t
  rw [run_register]
  cases ha : add t.coverage with
  | mk answer m =>
    cases answer with
    | ok i => exact Traversal.Acts.refl.register (h.registers ha)
    | error e =>
      rw [h.fails ha]
      exact .refl

theorem markSkip {k : Key} (hk : marked k) : Acting ctx key marked (markSkip k) :=
  fun _ => Traversal.Acts.refl.skip hk

theorem queue (kind : Kind) (s : Span) (c : Counter) :
    Acting ctx key marked (queue ctx kind s c) := by
  intro t
  rw [run_queue]
  split
  · rename_i frame rest hf
    exact Traversal.Acts.refl.queue hf
  · exact .refl

theorem coverStatement (kind : Kind) (s : Span) :
    Acting ctx key marked (coverStatement ctx kind s) := by
  unfold Action.coverStatement
  split
  · exact .pure ()
  · exact (register (CoverageMap.recording_newStatement _)).bind fun i => queue kind s _

theorem coverInitializer (hoistable : Bool) (init : Option Node) :
    Acting ctx key marked (coverInitializer ctx hoistable init) := by
  cases init with
  | none => exact .pure none
  | some init =>
    simp only [Action.coverInitializer]
    split
    · exact .pure none
    · refine (register (CoverageMap.recording_newStatement _)).bind fun i => ?_
      intro t
      rw [run_get_bind]
      split
      · exact (queue _ _ _).bind (fun _ => .pure none) t
      · exact .refl

theorem forM_markSkip {nodes : List Node} {f : Node → Key} (h : ∀ n ∈ nodes, marked (f n)) :
    Acting ctx key marked (nodes.forM fun n => Action.markSkip (f n)) := by
  induction nodes with
  | nil => exact .pure ()
  | cons n rest ih =>
    change Acting ctx key marked (Action.markSkip (f n) >>= fun _ => rest.forM _)
    exact (markSkip (h n List.mem_cons_self)).bind fun _ =>
      ih fun m hm => h m (List.mem_cons_of_mem _ hm)

theorem coverFunction (head : FunctionHead) (name : Option Node) (body : Body)
    (h : ∀ c ∈ bodyContent? body, ∀ n ∈ c.2.takeWhile Node.isDirective,
      marked ⟨.expressionStatement,n.span⟩) :
    Acting ctx key marked (coverFunction ctx head name body) := by
  unfold Action.coverFunction
  split
  · rename_i loc bodySpan statements hl hb
    refine (register (CoverageMap.recording_newFunction _ _ _)).bind fun i => ?_
    exact (forM_markSkip (h _ hb)).bind fun _ => .pure _
  · exact .pure none

theorem newBranch (kind : BranchKind) (loc : Location) :
    Acting ctx key marked (Action.register (·.newBranch kind loc)) :=
  register (CoverageMap.recording_newBranch _ _)

theorem addPath (branch : Nat) (loc : Location) : Acting ctx key marked (addPath branch loc) :=
  (register (CoverageMap.recording_addBranchPath _ _)).bind fun _ => .pure _

theorem coverSide (branch : Nat) (loc : Location) {side : Node} {ignored : Bool}
    (h : marked ⟨.block,side.span⟩) : Acting ctx key marked (coverSide branch loc ignored side) := by
  unfold Action.coverSide
  split
  · split
    · exact (markSkip h).bind fun _ => .pure none
    · exact (addPath branch loc).bind fun _ => .pure _
  · exact .throw _

theorem coverIf (s : Span) {consequent : Node} {alternate : Option Node}
    (hc : marked ⟨.block,consequent.span⟩)
    (ha : marked ⟨.block,(alternate.map Node.span).getD .dummy⟩) :
    Acting ctx key marked (coverIf ctx s consequent alternate) := by
  rw [← Node.span_asBlock] at hc
  rw [← Node.span_elseBlock] at ha
  unfold Action.coverIf
  split
  · exact .pure _
  · exact (newBranch _ _).bind fun b => (coverSide b _ hc).bind fun _ =>
      (coverSide b _ ha).bind fun _ => .pure _

theorem coverCompound (form : CompoundForm) (s : Span) {init : Option Node}
    (h : ∀ k ∈ init.bind initKey?, marked k) :
    Acting ctx key marked (coverCompound ctx form s init) := by
  unfold Action.coverCompound
  split
  · rename_i k hk
    exact (markSkip (h k hk)).bind fun _ => (coverStatement _ s).bind fun _ => .pure true
  · exact (coverStatement _ s).bind fun _ => .pure true

/-- The branch that a switch notes is the one it has just registered. -/
theorem coverSwitch (s : Span) : Acting ctx ⟨.switch,s⟩ marked (coverSwitch ctx s) := by
  intro t
  unfold Action.coverSwitch
  split
  · exact coverStatement .switch s t
  · rename_i loc hl
    have hr : Acting ctx ⟨.switch,s⟩ marked (Action.register (·.newBranch .switch loc)) :=
      register (CoverageMap.recording_newBranch .switch loc)
    replace hr := hr t
    rw [run_register] at hr
    rw [run_bind,run_register]
    cases hn : t.coverage.newBranch .switch loc with
    | mk answer m =>
      rw [hn] at hr
      cases answer with
      | error e => exact hr
      | ok b =>
        exact (hr.branch (CoverageMap.lt_branchCount_of_newBranch hn)).trans
          (coverStatement .switch s _)

theorem coverCase (s : Span) (switch : Key) : Acting ctx key marked (coverCase ctx s switch) := by
  intro t
  unfold Action.coverCase
  rw [run_get_bind]
  split
  · exact .refl
  · split
    · exact .refl
    · exact (addPath _ _).bind (fun _ => .pure _) t

theorem coverOperand (branch : Nat) (n : Node) :
    Acting ctx key marked (coverOperand ctx branch n) := by
  unfold Action.coverOperand
  split
  · exact .pure none
  · split
    · exact .pure none
    · exact (addPath branch _).bind fun _ => .pure _

theorem coverConditional (s : Span) (consequent alternate : Node) :
    Acting ctx key marked (coverConditional ctx s consequent alternate) := by
  unfold Action.coverConditional
  split
  · exact .pure _
  · exact (newBranch _ _).bind fun b => (coverOperand b consequent).bind fun _ =>
      (coverOperand b alternate).bind fun _ => .pure _

theorem mapM {f : α → Action β} (hf : ∀ x, Acting ctx key marked (f x)) (xs : List α) :
    Acting ctx key marked (xs.mapM f) := by
  induction xs with
  | nil => exact .pure []
  | cons x xs ih =>
    rw [List.mapM_cons]
    exact (hf x).bind fun _ => ih.bind fun _ => .pure _

theorem coverChain (s : Span) (left right : Node) :
    Acting ctx key marked (coverChain ctx s left right) := by
  unfold Action.coverChain
  split
  · exact .pure []
  · exact (newBranch _ _).bind fun b => mapM (fun n => coverOperand b n) _

theorem coverDefault (s : Span) (value : Option Node) :
    Acting ctx key marked (coverDefault ctx s value) := by
  cases value with
  | none => exact .pure none
  | some value =>
    simp only [Action.coverDefault]
    split
    · exact .pure none
    · refine (newBranch _ _).bind fun b => ?_
      split
      · exact .pure none
      · exact (addPath b _).bind fun _ => .pure _

end Acting
end Action
end CoverageCounters
