import CoverageCounters.Proofs.HintedExpressions
import CoverageCounters.Proofs.PassExits
import CoverageCounters.Proofs.TreeVisits

/-!
The init clause of a loop. A loop that is counted marks its init clause, so that nothing is recorded
inside it, provided the clause is of a form that is visited itself: a declaration, or an expression that
is counted or stands in parentheses. A clause of another form takes no mark, and what is inside it is
counted as anywhere else.
-/

namespace CoverageCounters

/-- A visit of the order is one of the list, or inside one of its visits. -/
theorem exists_nested {visits : List Visit} {v : Visit} (h : v ∈ visitOrder visits) :
    ∃ around, Nested visits v around := by
  match visits with
  | [] => cases h
  | u :: rest =>
    rw [visitOrder_cons,List.mem_cons,List.mem_append] at h
    rcases h with rfl | h | h
    · exact ⟨[],.outer List.mem_cons_self⟩
    · obtain ⟨around,hn⟩ := exists_nested h
      exact ⟨around ++ [u],hn.within List.mem_cons_self⟩
    · obtain ⟨around,hn⟩ := exists_nested h
      exact ⟨around,hn.mono (List.subset_cons_self u rest)⟩
termination_by sizeOf visits
decreasing_by
  · obtain ⟨key,name,before,after,found,left,inside⟩ := u
    simp only [List.cons.sizeOf_spec,Visit.mk.sizeOf_spec]
    omega
  · simp only [List.cons.sizeOf_spec]
    omega

/-- A visit at which nothing is recorded or changed, nor anywhere inside it. -/
structure Visit.Silent (w : Visit) : Prop where
  coverage : w.after.coverage = w.before.coverage
  left : w.left = w.found
  inside : ∀ u ∈ visitOrder w.inside, u.before.coverage = w.before.coverage ∧
    u.after.coverage = w.before.coverage ∧ u.left = u.found

/-- A visit at which counting is off is silent. -/
theorem Visit.Bracketed.isSilent {ctx : Context} {a : Option Anchor} {w : Visit}
    (h : w.Bracketed ctx a) (hs : (w.entered ctx).isSuppressed = true) : w.Silent := by
  obtain ⟨-,-,hsilent,hinside⟩ := h
  obtain ⟨⟨hcov,-⟩,hleft,hin⟩ := hsilent hs
  refine ⟨hcov,hleft,fun u hu => ?_⟩
  obtain ⟨around,hn⟩ := exists_nested hu
  exact (hn.silent hs fun w' hw' => ⟨hinside w' hw',hin w' hw'⟩).2

/-- After an error every visit is silent. -/
theorem Threads.isSilent {p q : Standing} {visits : List Visit} {w : Visit} (h : Threads p visits q)
    (hp : p.failure.isSome = true) (hw : w ∈ visits) : w.Silent := by
  have hidle := (h.idle hp).2
  have hmem := mem_visitOrder_of_mem hw
  have hcov : ∀ u ∈ visitOrder visits, u.before.coverage = p.coverage ∧
      u.after.coverage = p.coverage ∧ u.left = u.found := fun u hu =>
    ⟨congrArg Standing.coverage (hidle u hu).before,congrArg Standing.coverage (hidle u hu).after,
      (hidle u hu).left⟩
  obtain ⟨hb,ha,hl⟩ := hcov w hmem
  refine ⟨ha.trans hb.symm,hl,fun u hu => ?_⟩
  rw [hb]
  exact hcov u (visitOrder_inside_subset hmem hu)

namespace Action

theorem marks_coverStatement (ctx : Context) (kind : Kind) (s : Span) (t : Traversal) :
    ((coverStatement ctx kind s).run.run t).2.marks = t.marks := by
  unfold coverStatement
  split
  · rfl
  · rw [run_bind,run_register]
    cases (t.coverage.newStatement _).1 with
    | error e => rfl
    | ok i =>
      simp only [run_queue]
      cases t.frames <;> rfl

/-- However its action ends, a loop has marked its init clause. -/
theorem marks_coverCompound {init : Node} {key : Key} (hk : initKey? init = some key) (ctx : Context)
    (form : CompoundForm) (s : Span) (t : Traversal) :
    ((coverCompound ctx form s (some init)).run.run t).2.marks = t.marks.markSkip key := by
  have hm := marks_coverStatement ctx form.kind s { t with marks := t.marks.markSkip key }
  have hskip : (markSkip key).run.run t = (.ok (),{ t with marks := t.marks.markSkip key }) := rfl
  simp only [coverCompound,Option.bind_some,hk]
  rw [run_bind,hskip]
  simp only [run_bind]
  cases hr : (coverStatement ctx form.kind s).run.run { t with marks := t.marks.markSkip key } with
  | mk r u =>
    rw [hr] at hm
    cases r <;> exact hm

end Action

namespace Node

variable {ctx : Context} {init body : Node} {key : Key} {form : CompoundForm} {s : Span}
  {data : Attributes} {head : List Part} {v : Visit} {t : Traversal}

/-- An init clause that can be marked is visited under the key of the mark. -/
theorem traced_of_initKey? (hk : Action.initKey? init = some key) (ctx : Context) (t : Traversal) :
    ∃ w, (init.traced ctx [] t).2 = [w] ∧ w.key = key ∧ w.found = .node init ∧
      w.before.anchor = t.anchor ∧ w.before.marks = t.marks := by
  cases init with
  | bindings s data declarators =>
    cases hk
    exact ⟨_,rfl,rfl,rfl,rfl,rfl⟩
  | paren s inner =>
    cases hk
    exact ⟨_,rfl,rfl,congrArg Construct.node (withGiven_nil ctx _ _),rfl,rfl⟩
  | logical s operator left right =>
    cases hk
    exact ⟨_,rfl,rfl,congrArg Construct.node (withGiven_nil ctx _ _),rfl,rfl⟩
  | conditional s test consequent alternate =>
    cases hk
    exact ⟨_,rfl,rfl,rfl,rfl,rfl⟩
  | function head name before body after =>
    simp only [Action.initKey?,expressionKey?] at hk
    split at hk
    · cases hk
      exact ⟨_,rfl,rfl,rfl,rfl,rfl⟩
    · cases hk
  | _ => cases hk

/-- The state in which a loop hands over to its init clause. -/
def loopState (ctx : Context) (form : CompoundForm) (s : Span) (init : Node) (t : Traversal) :
    Traversal :=
  ((Walk.attempt ⟨form.kind,s⟩ (Action.coverCompound ctx form s (some init)) false).run t).2

/-- A loop is entered and acted on, and its init clause is visited first. -/
theorem inside_of_loop
    (hv : ((compound form s data (some init) head body).traced ctx [] t).2 = [v]) :
    ∃ rest, v.inside = (init.traced ctx [] (loopState ctx form s init (v.entered ctx))).2 ++ rest := by
  rw [traced] at hv
  obtain rfl := List.singleton_inj.mp hv
  exact ⟨_,congrArg (· ++ _) (List.append_nil _)⟩

/-- A loop at which counting is on has marked its init clause by the time that is visited. -/
theorem skips_init (hk : Action.initKey? init = some key) (hkey : key.isSynthetic = false)
    (hc : t.counts ⟨form.kind,s⟩ = true) :
    (loopState ctx form s init t).marks.skips key = true := by
  have hm := Action.marks_coverCompound hk ctx form s t
  have hskips : (t.marks.markSkip key).skips key = true := by
    rw [Marks.skips_markSkip _ _ hkey]
    simp
  rw [← hm] at hskips
  rw [loopState,Walk.run_attempt,if_pos hc]
  cases hr : (Action.coverCompound ctx form s (some init)).run.run t with
  | mk r u =>
    rw [hr] at hskips
    cases r <;> exact hskips

theorem loop_init_silent {a : Option Anchor} (hb : v.Bracketed ctx a)
    (hv : ((compound form s data (some init) head body).traced ctx [] t).2 = [v])
    (hs : s.isDummy = false) (hk : Action.initKey? init = some key)
    (hkey : key.isSynthetic = false) :
    ∃ w rest, v.inside = w :: rest ∧ w.key = key ∧ w.found = .node init ∧ w.Silent := by
  obtain ⟨rest,hinside⟩ := inside_of_loop hv
  have hplace : Traversal.SamePlace (v.entered ctx) (loopState ctx form s init (v.entered ctx)) := by
    have hacts : Action.Acting ctx ⟨form.kind,s⟩ (Traversal.Within fun _ => True)
        (Action.coverCompound ctx form s (some init)) :=
      .coverCompound form s fun _ _ => Or.inr trivial
    exact (Walk.Runs.attempts hacts false _).samePlace
  have hacted : (v.entered ctx).counts ⟨form.kind,s⟩ = false →
      loopState ctx form s init (v.entered ctx) = v.entered ctx := fun hc => by
    rw [loopState,Walk.run_attempt,hc]
    rfl
  have hskips : (v.entered ctx).counts ⟨form.kind,s⟩ = true →
      (loopState ctx form s init (v.entered ctx)).marks.skips key = true := skips_init hk hkey
  generalize loopState ctx form s init (v.entered ctx) = q at hinside hplace hacted hskips
  obtain ⟨w,hw,hwk,hwf,hwa,hwm⟩ := traced_of_initKey? hk ctx q
  rw [hw] at hinside
  refine ⟨w,rest,hinside,hwk,hwf,?_⟩
  have hmem : w ∈ (init.traced ctx [] q).2 := by simp [hw]
  cases hsup : (v.entered ctx).isSuppressed with
  | true =>
    -- counting is off at the loop already
    obtain ⟨-,-,-,hin⟩ := hb
    refine (hin w (by simp [hinside])).isSilent (Traversal.isSuppressed_enter ?_)
    rw [Traversal.isSuppressed,hwa,hplace.anchor]
    exact hsup
  | false =>
    have hanchor : q.anchor = none := by
      rw [hplace.anchor]
      simpa [Traversal.isSuppressed] using hsup
    have hbelow : q.AnchorBelow := fun a ha => by rw [hanchor] at ha; cases ha
    have hinit := (init.traced_bracketed ctx).alone q.inChain
    cases hc : (v.entered ctx).counts ⟨form.kind,s⟩ with
    | true =>
      refine (hinit.visits q hbelow rfl w hmem).1.isSilent (Traversal.isSuppressed_enter_of_starts ?_)
      simp [Traversal.startsSuppression,Traversal.isSuppressed,hwa,hanchor,hwm,hwk,hskips hc]
    | false =>
      -- the loop has a place and counting is not off, so there was an error before
      have hfail : q.standing.failure.isSome = true := by
        rw [hacted hc]
        simpa [Traversal.standing,Traversal.counts,hsup,Key.isSynthetic,hs,
          Option.isSome_iff_ne_none] using hc
      exact (hinit.threads q hbelow rfl).isSilent hfail hmem

end Node

/-- In every walk over a program, each loop with an init clause that can be marked, and with a place of
its own, is visited as it stands there, and whenever it is, its init clause is visited first, is left as
it was found, and nothing is recorded inside it. -/
theorem loop_inits_silent (ctx : Context) (coverage : CoverageMap) (p : Program) {form : CompoundForm}
    {s : Span} {data : Attributes} {init body : Node} {head : List Part} {key : Key}
    (hn : .compound form s data (some init) head body ∈ p.nodes) (hs : s.isDummy = false)
    (hk : Action.initKey? init = some key) (hkey : key.isSynthetic = false) :
    (p.traced ctx coverage).1 = p.walk ctx coverage ∧
    (∃ v ∈ visitOrder (p.traced ctx coverage).2,
      v.found = .node (.compound form s data (some init) head body)) ∧
    ∀ v ∈ visitOrder (p.traced ctx coverage).2,
      v.found = .node (.compound form s data (some init) head body) →
      ∃ w rest, v.inside = w :: rest ∧ w.key = key ∧ w.found = .node init ∧ w.Silent := by
  have hf := p.traced_sweeps ctx
  refine ⟨p.fst_traced ctx coverage,?_,fun v hv hfound => ?_⟩
  · have hm : .compound form s data (some init) head body ∈
        (visitOrder (p.traced ctx coverage).2).filterMap (·.found.alone?) := by
      rw [Program.traced,hf.order]
      exact List.mem_filter.mpr ⟨hn,rfl⟩
    obtain ⟨v,hv,ha⟩ := List.mem_filterMap.mp hm
    exact ⟨v,hv,(Construct.standsAlone_of_alone? ha).1⟩
  · obtain ⟨t,ht⟩ := hf.walked _ v hv (.compound form s data (some init) head body) (hfound ▸ rfl)
    obtain ⟨around,hnested⟩ := exists_nested hv
    exact Node.loop_init_silent (hnested.bracketed (p.traced_brackets ctx coverage).1).1 ht hs hk hkey

section Sample

def sampleChain (lo : Nat) : Node :=
  .logical (.ofBounds lo (lo + 6)) .or (sampleName "a" lo) (sampleName "b" (lo + 5))

/-- A loop with an init clause and an empty block that starts at the given place. -/
def sampleLoop (init : Node) (lo : Nat) : Node :=
  .compound .for (.ofBounds 1 (lo + 3)) [] (some init) [] (.block (.ofBounds lo (lo + 3)) [])

def loopProgram (init : Node) (lo : Nat) : Program :=
  ⟨.script,.ofBounds 1 (lo + 3),[],[sampleLoop init lo]⟩

def loopFile : SourceFile := ⟨"a.js",.ofString "for (a || b; ; ) \x7b \x7d",⟨.empty,.empty⟩⟩

def assignedInit : Node :=
  .plain ⟨.assignmentExpression,.ofBounds 6 16,[("operator",.string "=")]⟩
    [.child "left" (sampleName "x" 6),.child "right" (sampleChain 10)]

def assignedFile : SourceFile :=
  ⟨"a.js",.ofString "for (x = a || b; ; ) \x7b \x7d",⟨.empty,.empty⟩⟩

end Sample

theorem loop_inits_silent_chain :
    Action.initKey? (sampleChain 6) = some ⟨.logical,.ofBounds 6 12⟩ ∧
    (Key.mk .logical (.ofBounds 6 12)).isSynthetic = false ∧
    ∃ v ∈ visitOrder ((loopProgram (sampleChain 6) 18).traced (loopFile.context {}) (.new "a.js")).2,
      ∃ w rest, v.inside = w :: rest ∧ w.found = .node (sampleChain 6) ∧ w.Silent := by
  have hn : sampleLoop (sampleChain 6) 18 ∈ (loopProgram (sampleChain 6) 18).nodes := by
    simp [Program.nodes,loopProgram,Node.subnodes]
  obtain ⟨-,⟨v,hv,hf⟩,hall⟩ := loop_inits_silent (loopFile.context {}) (.new "a.js") _ hn
    (by decide) rfl (by decide)
  obtain ⟨w,rest,hin,-,hw,hs⟩ := hall v hv hf
  exact ⟨rfl,by decide,v,hv,w,rest,hin,hw,hs⟩

/-- An assignment takes no mark: a chain inside an init clause of this form has its branch. -/
theorem assigned_init_counted :
    Action.initKey? assignedInit = none ∧ sampleChain 10 ∈ assignedInit.subnodes ∧
    ((loopProgram assignedInit 22).walk (assignedFile.context {})
      (.new "a.js")).2.coverage.data.branchMap.map
        (fun r => (r.kind,some r.loc,r.locations.length)) =
      [(.binary,(assignedFile.context {}).location? (sampleChain 10).span,2)] := by
  have hc : sampleChain 10 ∈ assignedInit.children :=
    List.mem_cons_of_mem _ List.mem_cons_self
  have hm : sampleChain 10 ∈ assignedInit.subnodes :=
    List.mem_cons_of_mem _ (Node.subnodes_subset_of_mem_children hc (Node.self_mem_subnodes _))
  exact ⟨rfl,hm,by decide +kernel⟩

end CoverageCounters
