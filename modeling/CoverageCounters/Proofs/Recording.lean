import CoverageCounters.Proofs.Collector
import CoverageCounters.Proofs.RunInvariants

/-!
What an action records. The tables grow at their ends by the records of the node, the paths of a branch
behind those it has, and the nodes that are to be left out are marked; nothing else is marked.
-/

namespace CoverageCounters

def BranchRecord.withPaths (paths : List Location) (b : BranchRecord) : BranchRecord :=
  { b with locations := b.locations ++ paths }

namespace CoverageMap

variable {m m' m'' : CoverageMap} {r r' : Records} {i : Nat} {b? : Option Nat}
  {paths paths' : List Location}

/-- The second map is the first with records at the ends of its tables. -/
structure Extends (m : CoverageMap) (r : Records) (m' : CoverageMap) : Prop where
  statements : m'.data.statementMap = m.data.statementMap ++ r.statements
  functions : m'.data.fnMap =
    m.data.fnMap ++ r.functions.mapIdx fun i e => e.record (m.functionCount + i)
  branches : m'.data.branchMap = m.data.branchMap ++ r.branches

/-- A map with paths behind those of a branch, if there is one. -/
def withPaths (m : CoverageMap) (b? : Option Nat) (paths : List Location) : CoverageMap :=
  match b? with
  | none => m
  | some b =>
    { m with data := { m.data with
        branchMap := m.data.branchMap.modify b (BranchRecord.withPaths paths) } }

theorem Extends.refl (m : CoverageMap) : m.Extends ∅ m :=
  ⟨(List.append_nil _).symm,(List.append_nil _).symm,(List.append_nil _).symm⟩

theorem Extends.trans (h₁ : m.Extends r m') (h₂ : m'.Extends r' m'') : m.Extends (r ++ r') m'' := by
  have hc : m'.functionCount = m.functionCount + r.functions.length := by
    rw [functionCount,h₁.functions,List.length_append,List.length_mapIdx]
    rfl
  refine ⟨?_,?_,?_⟩
  · rw [h₂.statements,h₁.statements,List.append_assoc]
    rfl
  · rw [h₂.functions,h₁.functions,hc,List.append_assoc]
    change _ = _ ++ (r.functions ++ r'.functions).mapIdx _
    rw [List.mapIdx_append]
    congr 3
    funext i e
    rw [Nat.add_assoc,Nat.add_comm i]
  · rw [h₂.branches,h₁.branches,List.append_assoc]
    rfl

theorem Extends.branchCount_le (h : m.Extends r m') : m.branchCount ≤ m'.branchCount := by
  rw [branchCount,branchCount,h.branches,List.length_append]
  exact Nat.le_add_right _ _

@[simp] theorem branchCount_withPaths (m : CoverageMap) (b? : Option Nat) (paths : List Location) :
    (m.withPaths b? paths).branchCount = m.branchCount := by
  cases b? with
  | none => rfl
  | some b => exact List.length_modify _ _ _

@[simp] theorem withPaths_nil (m : CoverageMap) (b? : Option Nat) : m.withPaths b? [] = m := by
  cases b? with
  | none => rfl
  | some b =>
    have h : BranchRecord.withPaths [] = id := by
      funext r
      rw [BranchRecord.withPaths,List.append_nil]
      rfl
    rw [withPaths,h,List.modify_id]

@[simp] theorem withPaths_withPaths (m : CoverageMap) (b? : Option Nat) (paths paths' : List Location) :
    (m.withPaths b? paths).withPaths b? paths' = m.withPaths b? (paths ++ paths') := by
  cases b? with
  | none => rfl
  | some b =>
    have h : BranchRecord.withPaths paths' ∘ BranchRecord.withPaths paths =
        BranchRecord.withPaths (paths ++ paths') := by
      funext r
      simp only [Function.comp,BranchRecord.withPaths,List.append_assoc]
    simp only [withPaths,List.modify_modify_eq,h]

theorem modify_append_left {α : Type} {f : α → α} {l l' : List α} (h : i < l.length) :
    (l ++ l').modify i f = l.modify i f ++ l' := by
  induction l generalizing i with
  | nil => cases h
  | cons a l ih =>
    cases i with
    | zero => rfl
    | succ i =>
      rw [List.cons_append,List.modify_succ_cons,List.modify_succ_cons,List.cons_append,
        ih (Nat.lt_of_succ_lt_succ h)]

theorem modify_append_length {α : Type} {f : α → α} {l l' : List α} {a : α} :
    (l ++ a :: l').modify l.length f = l ++ f a :: l' := by
  induction l with
  | nil => rfl
  | cons x l ih => rw [List.cons_append,List.length_cons,List.modify_succ_cons,ih,List.cons_append]

theorem Extends.withPaths_of_empty (h : m.Extends ∅ m') :
    (m.withPaths b? paths).Extends ∅ (m'.withPaths b? paths) := by
  have hb : m'.data.branchMap = m.data.branchMap := h.branches.trans (List.append_nil _)
  cases b? with
  | none => exact h
  | some b =>
    refine ⟨h.statements,h.functions,?_⟩
    simp only [CoverageMap.withPaths,hb]
    exact (List.append_nil _).symm

/-- Paths of a branch that is there already do not touch what is added behind it. -/
theorem Extends.withPaths (h : m.Extends r m') (hb : ∀ b ∈ b?, b < m.branchCount) :
    (m.withPaths b? paths).Extends r (m'.withPaths b? paths) := by
  cases b? with
  | none => exact h
  | some b =>
    have hl : b < m.data.branchMap.length := hb b rfl
    refine ⟨h.statements,h.functions,?_⟩
    simp only [CoverageMap.withPaths,h.branches]
    exact modify_append_left hl

/-- Paths of the branch that was added first. -/
theorem Extends.withPaths_first {kind : BranchKind} {loc : Location}
    (h : m.Extends ({ branches := [⟨loc,kind,[],loc.start.line⟩] } ++ r) m') :
    m.Extends ({ branches := [⟨loc,kind,paths,loc.start.line⟩] } ++ r)
      (m'.withPaths (some m.branchCount) paths) := by
  refine ⟨h.statements,h.functions,?_⟩
  simp only [CoverageMap.withPaths,h.branches]
  exact modify_append_length

theorem newStatement_extends {loc : Location} (h : m.newStatement loc = (.ok i,m')) :
    m.Extends { statements := [loc] } m' := by
  unfold newStatement ifOpen at h
  split at h
  · cases h
  · cases h
    exact ⟨rfl,(List.append_nil _).symm,(List.append_nil _).symm⟩

theorem newFunction_extends {name : Option String} {decl loc : Location}
    (h : m.newFunction name decl loc = (.ok i,m')) :
    m.Extends { functions := [⟨name,decl,loc⟩] } m' := by
  unfold newFunction ifOpen at h
  split at h
  · cases h
  · cases h
    exact ⟨(List.append_nil _).symm,rfl,(List.append_nil _).symm⟩

theorem newBranch_extends {kind : BranchKind} {loc : Location}
    (h : m.newBranch kind loc = (.ok i,m')) :
    i = m.branchCount ∧ m.Extends { branches := [⟨loc,kind,[],loc.start.line⟩] } m' := by
  unfold newBranch ifOpen at h
  split at h
  · cases h
  · cases h
    exact ⟨rfl,(List.append_nil _).symm,(List.append_nil _).symm,rfl⟩

theorem addBranchPath_extends {b : Nat} {loc : Location} (h : m.addBranchPath b loc = (.ok i,m')) :
    (m.withPaths (some b) [loc]).Extends ∅ m' := by
  unfold addBranchPath ifOpen at h
  split at h
  · cases h
  · split at h
    · cases h
      exact ⟨(List.append_nil _).symm,(List.append_nil _).symm,(List.append_nil _).symm⟩
    · cases h

end CoverageMap

namespace Traversal

variable {asked asked' : List Key} {r r' : Records} {b : Nat} {paths paths' : List Location}
  {t u v : Traversal}

/-- The nodes asked for are marked to be left out, and no others. -/
def Asked (asked : List Key) (t u : Traversal) : Prop :=
  ∀ k, k.isSynthetic = false → u.marks.skips k = (t.marks.skips k || decide (k ∈ asked))

theorem Asked.of_eq (h : u.marks = t.marks) : Asked [] t u := by
  intro k hk
  rw [h]
  simp

theorem Asked.trans (h₁ : Asked asked t u) (h₂ : Asked asked' u v) : Asked (asked ++ asked') t v := by
  intro k hk
  rw [h₂ k hk,h₁ k hk,Bool.or_assoc]
  simp

theorem Asked.markSkip (t : Traversal) (k : Key) :
    Asked [k] t { t with marks := t.marks.markSkip k } := by
  intro k' hk
  rw [Marks.skips_markSkip _ _ hk]
  simp

/-- Records are added, and nodes asked to be left out. -/
structure Notes (asked : List Key) (r : Records) (t u : Traversal) : Prop where
  tables : t.coverage.Extends r u.coverage
  asked : Asked asked t u

/-- Paths are added to a branch, and nodes asked to be left out. -/
structure NotesPaths (asked : List Key) (b : Nat) (paths : List Location) (t u : Traversal) : Prop where
  tables : (t.coverage.withPaths (some b) paths).Extends ∅ u.coverage
  asked : Asked asked t u

theorem Notes.refl (t : Traversal) : Notes [] ∅ t t := ⟨.refl _,.of_eq rfl⟩

theorem Notes.trans (h₁ : Notes asked r t u) (h₂ : Notes asked' r' u v) :
    Notes (asked ++ asked') (r ++ r') t v :=
  ⟨h₁.tables.trans h₂.tables,h₁.asked.trans h₂.asked⟩

theorem NotesPaths.refl (b : Nat) (t : Traversal) : NotesPaths [] b [] t t := by
  refine ⟨?_,.of_eq rfl⟩
  rw [CoverageMap.withPaths_nil]
  exact .refl _

theorem NotesPaths.trans (h₁ : NotesPaths asked b paths t u) (h₂ : NotesPaths asked' b paths' u v) :
    NotesPaths (asked ++ asked') b (paths ++ paths') t v := by
  refine ⟨?_,h₁.asked.trans h₂.asked⟩
  rw [← CoverageMap.withPaths_withPaths]
  exact h₁.tables.withPaths_of_empty.trans h₂.tables

/-- A branch that is registered gets its paths. -/
theorem Notes.withPaths {kind : BranchKind} {loc : Location}
    (h : Notes [] { branches := [⟨loc,kind,[],loc.start.line⟩] } t u)
    (hp : NotesPaths asked t.coverage.branchCount paths u v) :
    Notes asked { branches := [⟨loc,kind,paths,loc.start.line⟩] } t v :=
  ⟨((h.tables.withPaths_first (r := ∅)).trans hp.tables),h.asked.trans hp.asked⟩

end Traversal

namespace Context

variable (ctx : Context) {s : Span}

theorem location?_eq_none_iff : ctx.location? s = none ↔ s.isDummy = true :=
  SourceText.location?_eq_none_iff _ _

theorem exists_location (h : s.isDummy = false) : ∃ loc, ctx.location? s = some loc := by
  cases hl : ctx.location? s with
  | some loc => exact ⟨loc,rfl⟩
  | none =>
    rw [ctx.location?_eq_none_iff.mp hl] at h
    cases h

theorem statementRecords_of_isDummy (h : s.isDummy = true) : ctx.statementRecords s = ∅ := by
  rw [statementRecords,ctx.location?_eq_none_iff.mpr h]
  rfl

theorem branchRecords_of_isDummy {kind : BranchKind} {paths : Location → List Location}
    (h : s.isDummy = true) : ctx.branchRecords kind s paths = ∅ := by
  rw [branchRecords,ctx.location?_eq_none_iff.mpr h]
  rfl

/-- The blocks of the sides of an `if` that a hint leaves out. -/
def sideKeys (s : Span) (consequent : Node) (alternate : Option Node) : List Key :=
  (if ctx.directives.hintFor? s = some .consequent then [⟨.block,consequent.span⟩] else []) ++
    if ctx.directives.hintFor? s = some .alternate then
      alternate.toList.map fun n => ⟨.block,n.span⟩
    else []

end Context

namespace Action

open Traversal

variable {ctx : Context} {t u : Traversal} {i b : Nat} {s : Span} {loc : Location}

theorem run_register_eq_ok {add : CoverageMap → Except InstrumentError Nat × CoverageMap}
    (h : (register add).run.run t = (.ok i,u)) :
    add t.coverage = (.ok i,u.coverage) ∧ u.marks = t.marks := by
  rw [run_register] at h
  obtain ⟨ha,rfl⟩ := Prod.mk.inj h
  exact ⟨Prod.ext ha rfl,rfl⟩

theorem run_queue_eq_ok {kind : Kind} {c : Counter} {x : Unit}
    (h : (queue ctx kind s c).run.run t = (.ok x,u)) :
    u.coverage = t.coverage ∧ u.marks = t.marks := by
  rw [run_queue] at h
  split at h
  · cases h
    exact ⟨rfl,rfl⟩
  · cases h

theorem register_notes {add : CoverageMap → Except InstrumentError Nat × CoverageMap}
    {r : Records} (ha : ∀ m m', add m = (.ok i,m') → m.Extends r m')
    (h : (register add).run.run t = (.ok i,u)) : Notes [] r t u := by
  obtain ⟨hm,hk⟩ := run_register_eq_ok h
  exact ⟨ha _ _ hm,.of_eq hk⟩

theorem queue_notes {kind : Kind} {c : Counter} {x : Unit}
    (h : (queue ctx kind s c).run.run t = (.ok x,u)) : Notes [] ∅ t u := by
  obtain ⟨hc,hk⟩ := run_queue_eq_ok h
  refine ⟨?_,.of_eq hk⟩
  rw [hc]
  exact .refl _

theorem newBranch_notes {kind : BranchKind}
    (h : (register (·.newBranch kind loc)).run.run t = (.ok b,u)) :
    b = t.coverage.branchCount ∧ Notes [] { branches := [⟨loc,kind,[],loc.start.line⟩] } t u := by
  obtain ⟨hm,hk⟩ := run_register_eq_ok h
  exact ⟨(CoverageMap.newBranch_extends hm).1,(CoverageMap.newBranch_extends hm).2,.of_eq hk⟩

theorem coverStatement_notes {kind : Kind} {x : Unit}
    (h : (coverStatement ctx kind s).run.run t = (.ok x,u)) :
    Notes [] (ctx.statementRecords s) t u := by
  unfold coverStatement at h
  split at h
  · rename_i hl
    cases h
    rw [ctx.statementRecords_of_isDummy (ctx.location?_eq_none_iff.mp hl)]
    exact .refl t
  · rename_i loc hl
    obtain ⟨i,v,hi,hq⟩ := exists_of_run_bind h
    have hn := (register_notes (fun _ _ => CoverageMap.newStatement_extends) hi).trans (queue_notes hq)
    rw [Context.statementRecords,hl]
    exact hn

theorem coverStatement_marks {kind : Kind} {x : Unit}
    (h : (coverStatement ctx kind s).run.run t = (.ok x,u)) : u.marks = t.marks := by
  unfold coverStatement at h
  split at h
  · cases h
    rfl
  · obtain ⟨i,v,hi,hq⟩ := exists_of_run_bind h
    exact (run_queue_eq_ok hq).2.trans (run_register_eq_ok hi).2

theorem coverInitializer_notes {hoistable : Bool} {init : Option Node} {x : Option Counter}
    (h : (coverInitializer ctx hoistable init).run.run t = (.ok x,u)) :
    Notes [] (ctx.initializerRecords init) t u := by
  cases init with
  | none =>
    cases h
    exact .refl t
  | some init =>
    simp only [coverInitializer] at h
    rw [Context.initializerRecords]
    split at h
    · rename_i hl
      cases h
      rw [ctx.statementRecords_of_isDummy (ctx.location?_eq_none_iff.mp hl)]
      exact .refl t
    · rename_i loc hl
      obtain ⟨i,v,hi,hq⟩ := exists_of_run_bind h
      have hn := register_notes (fun _ _ => CoverageMap.newStatement_extends) hi
      rw [run_get_bind] at hq
      rw [Context.statementRecords,hl]
      split at hq
      · obtain ⟨y,w,hy,hw⟩ := exists_of_run_bind hq
        cases hw
        exact hn.trans (queue_notes hy)
      · cases hq
        exact hn

theorem forM_markSkip_notes {nodes : List Node} {f : Node → Key} {x : Unit}
    (h : (nodes.forM fun n => markSkip (f n)).run.run t = (.ok x,u)) :
    Notes (nodes.map f) ∅ t u := by
  induction nodes generalizing t with
  | nil =>
    cases h
    exact .refl _
  | cons n rest ih =>
    change (markSkip (f n) >>= fun _ => rest.forM _).run.run t = _ at h
    obtain ⟨y,v,hy,hv⟩ := exists_of_run_bind h
    cases hy
    have hn : Notes [f n] ∅ t { t with marks := t.marks.markSkip (f n) } :=
      ⟨.refl _,.markSkip t (f n)⟩
    exact hn.trans (ih hv)

/-- The directives at the head of a body that is counted. -/
def directiveKeys (statements : List Node) : List Key :=
  (statements.takeWhile Node.isDirective).map fun n => ⟨.expressionStatement,n.span⟩

theorem coverFunction_notes {head : FunctionHead} {key : Option Node} {body : Body}
    {x : Option Counter} (hs : (head.recordedSpan key).isDummy = false)
    (h : (coverFunction ctx head key body).run.run t = (.ok x,u)) :
    Notes (((bodyContent? body).toList.flatMap fun c => directiveKeys c.2))
      (ctx.functionRecords head key body) t u ∧ x.isSome = (bodyContent? body).isSome := by
  obtain ⟨loc',hloc'⟩ := ctx.exists_location hs
  unfold coverFunction at h
  split at h
  · rename_i loc bodySpan statements hloc hb
    obtain ⟨i,v,hi,hv⟩ := exists_of_run_bind h
    obtain ⟨y,w,hy,hw⟩ := exists_of_run_bind hv
    cases hw
    have hn := (register_notes (fun _ _ => CoverageMap.newFunction_extends) hi).trans
      (forM_markSkip_notes hy)
    rw [Context.functionRecords,hloc,hb]
    simpa [directiveKeys] using hn
  · rename_i hn
    cases h
    cases hb : bodyContent? body with
    | none =>
      rw [Context.functionRecords,hloc',hb]
      exact ⟨.refl t,rfl⟩
    | some c => exact absurd hb (hn loc' c.1 c.2 hloc')

theorem run_addPath_eq_ok {c : Counter} (h : (addPath b loc).run.run t = (.ok c,u)) :
    (t.coverage.withPaths (some b) [loc]).Extends ∅ u.coverage ∧ u.marks = t.marks := by
  obtain ⟨i,v,hi,hv⟩ := exists_of_run_bind h
  cases hv
  obtain ⟨hm,hk⟩ := run_register_eq_ok hi
  exact ⟨CoverageMap.addBranchPath_extends hm,hk⟩

theorem addPath_notes {c : Counter} (h : (addPath b loc).run.run t = (.ok c,u)) :
    NotesPaths [] b [loc] t u :=
  ⟨(run_addPath_eq_ok h).1,.of_eq (run_addPath_eq_ok h).2⟩

theorem coverSide_notes {side : Node} {ignored : Bool} {x : Option Counter}
    (h : (coverSide b loc ignored side).run.run t = (.ok x,u)) :
    NotesPaths (if ignored then [⟨.block,side.span⟩] else []) b (if ignored then [] else [loc])
      t u := by
  unfold coverSide at h
  split at h
  · cases ignored with
    | true =>
      cases h
      exact ⟨(NotesPaths.refl b t).tables,.markSkip t _⟩
    | false =>
      obtain ⟨c,v,hc,hv⟩ := exists_of_run_bind h
      cases hv
      exact addPath_notes hc
  · cases h

theorem coverIf_notes {consequent : Node} {alternate : Option Node}
    {x : Option (Option Counter × Option Counter)}
    (h : (coverIf ctx s consequent alternate).run.run t = (.ok x,u)) :
    Notes (ctx.sideKeys s consequent alternate) (ctx.ifRecords s) t u ∧ x.isSome = true := by
  unfold coverIf at h
  split at h
  · rename_i hl
    cases h
    have hd : s.isDummy = true := ctx.location?_eq_none_iff.mp hl
    have hh : ctx.directives.hintFor? s = none := if_pos hd
    rw [Context.sideKeys,Context.ifRecords,ctx.branchRecords_of_isDummy hd,hh]
    exact ⟨.refl t,rfl⟩
  · rename_i loc hl
    obtain ⟨b,v,hb,hv⟩ := exists_of_run_bind h
    obtain ⟨y,w,hy,hw⟩ := exists_of_run_bind hv
    obtain ⟨z,w',hz,hw'⟩ := exists_of_run_bind hw
    cases hw'
    obtain ⟨rfl,hn⟩ := newBranch_notes hb
    have hs := hn.withPaths ((coverSide_notes hy).trans (coverSide_notes hz))
    refine ⟨⟨?_,fun k hk => ?_⟩,rfl⟩
    · rw [Context.ifRecords,Context.branchRecords,hl]
      simpa using hs.tables
    · rw [hs.asked k hk,Context.sideKeys]
      -- the block of an `else` that is missing has no place, so its mark is none
      have hne : k ≠ ⟨.block,.dummy⟩ := fun he => by rw [he] at hk; cases hk
      cases alternate with
      | none => by_cases ha : ctx.directives.hintFor? s = some .alternate <;> simp [ha,hne]
      | some a => simp

theorem coverCompound_notes {form : CompoundForm} {init : Option Node} {x : Bool}
    (h : (coverCompound ctx form s init).run.run t = (.ok x,u)) :
    Notes (init.bind initKey?).toList (ctx.statementRecords s) t u ∧ x = true := by
  unfold coverCompound at h
  split at h
  · rename_i key hk
    obtain ⟨y,v,hy,hv⟩ := exists_of_run_bind h
    obtain ⟨z,w,hz,hw⟩ := exists_of_run_bind hv
    cases hy
    cases hw
    have hn : Notes [key] ∅ t { t with marks := t.marks.markSkip key } := ⟨.refl _,.markSkip t key⟩
    rw [hk]
    exact ⟨hn.trans (coverStatement_notes hz),rfl⟩
  · rename_i hk
    obtain ⟨z,w,hz,hw⟩ := exists_of_run_bind h
    cases hw
    rw [hk]
    exact ⟨coverStatement_notes hz,rfl⟩

/-- A switch is registered without paths, and its branch is noted under its key. -/
theorem coverSwitch_notes {x : Unit} (h : (coverSwitch ctx s).run.run t = (.ok x,u)) :
    Notes [] (ctx.switchRecords s []) t u ∧
      (s.isDummy = false → u.marks.branch? ⟨.switch,s⟩ = some t.coverage.branchCount) := by
  unfold coverSwitch at h
  split at h
  · rename_i hl
    have hd : s.isDummy = true := ctx.location?_eq_none_iff.mp hl
    rw [Context.switchRecords,ctx.branchRecords_of_isDummy hd]
    refine ⟨coverStatement_notes h,fun hs => ?_⟩
    rw [hd] at hs
    cases hs
  · rename_i loc hl
    obtain ⟨b,v,hb,hv⟩ := exists_of_run_bind h
    obtain ⟨rfl,hn⟩ := newBranch_notes hb
    obtain ⟨y,w,hy,hw⟩ := exists_of_run_bind hv
    cases hy
    have hm : Notes [] ∅ v
        { v with marks := v.marks.setBranch ⟨.switch,s⟩ t.coverage.branchCount } := by
      refine ⟨.refl _,fun k _ => ?_⟩
      rw [Marks.skips_setBranch]
      simp
    have hs := (hn.trans hm).trans (coverStatement_notes hw)
    refine ⟨?_,fun hd => ?_⟩
    · rw [Context.switchRecords,Context.branchRecords,hl]
      exact hs
    · rw [coverStatement_marks hw]
      exact Marks.branch?_setBranch _ _ _ hd

/-- A case that is counted is a path of the branch that its switch noted. -/
theorem coverCase_notes {switch : Key} {x : Option Counter}
    (h : (coverCase ctx s switch).run.run t = (.ok x,u)) :
    u.marks = t.marks ∧
      (t.coverage.withPaths (t.marks.branch? switch) (ctx.location? s).toList).Extends ∅
        u.coverage := by
  unfold coverCase at h
  rw [run_get_bind] at h
  split at h
  · cases h
  · rename_i b hb
    rw [hb]
    split at h
    · rename_i hl
      cases h
      rw [hl]
      exact ⟨rfl,(NotesPaths.refl b t).tables⟩
    · rename_i loc hl
      obtain ⟨c,v,hc,hv⟩ := exists_of_run_bind h
      cases hv
      rw [hl]
      exact (run_addPath_eq_ok hc).symm

theorem coverOperand_notes {n : Node} {x : Option Counter}
    (h : (coverOperand ctx b n).run.run t = (.ok x,u)) :
    NotesPaths [] b (ctx.operandPaths [n]) t u := by
  unfold coverOperand at h
  split at h
  · rename_i hs
    cases h
    simpa [Context.operandPaths,hs] using NotesPaths.refl b t
  · rename_i hs
    split at h
    · rename_i hl
      cases h
      simpa [Context.operandPaths,hs,hl] using NotesPaths.refl b t
    · rename_i loc hl
      obtain ⟨c,v,hc,hv⟩ := exists_of_run_bind h
      cases hv
      simpa [Context.operandPaths,hs,hl] using addPath_notes hc

theorem coverConditional_notes {consequent alternate : Node} {x : Option Counter × Option Counter}
    (h : (coverConditional ctx s consequent alternate).run.run t = (.ok x,u)) :
    Notes [] (ctx.conditionalRecords s consequent alternate) t u := by
  unfold coverConditional at h
  rw [Context.conditionalRecords]
  split at h
  · rename_i hl
    cases h
    rw [ctx.branchRecords_of_isDummy (ctx.location?_eq_none_iff.mp hl)]
    exact .refl t
  · rename_i loc hl
    obtain ⟨b,v,hb,hv⟩ := exists_of_run_bind h
    obtain ⟨y,w,hy,hw⟩ := exists_of_run_bind hv
    obtain ⟨z,w',hz,hw'⟩ := exists_of_run_bind hw
    cases hw'
    obtain ⟨rfl,hn⟩ := newBranch_notes hb
    rw [Context.branchRecords,hl]
    have hp : ctx.operandPaths [consequent,alternate] =
        ctx.operandPaths [consequent] ++ ctx.operandPaths [alternate] :=
      List.filterMap_append (l := [consequent])
    rw [hp]
    exact hn.withPaths ((coverOperand_notes hy).trans (coverOperand_notes hz))

theorem mapM_coverOperand_notes {nodes : List Node} {xs : List (Option Counter)}
    (h : (nodes.mapM (coverOperand ctx b)).run.run t = (.ok xs,u)) :
    NotesPaths [] b (ctx.operandPaths nodes) t u := by
  induction nodes generalizing t xs with
  | nil =>
    cases h
    exact .refl b _
  | cons n rest ih =>
    rw [List.mapM_cons] at h
    obtain ⟨x,v,hx,hv⟩ := exists_of_run_bind h
    obtain ⟨ys,w,hy,hw⟩ := exists_of_run_bind hv
    cases hw
    have hp : ctx.operandPaths (n :: rest) = ctx.operandPaths [n] ++ ctx.operandPaths rest :=
      List.filterMap_append (l := [n])
    rw [hp]
    exact (coverOperand_notes hx).trans (ih hy)

theorem coverChain_notes {left right : Node} {xs : List (Option Counter)}
    (h : (coverChain ctx s left right).run.run t = (.ok xs,u)) :
    Notes [] (ctx.chainRecords s left right) t u := by
  unfold coverChain at h
  rw [Context.chainRecords]
  split at h
  · rename_i hl
    cases h
    rw [ctx.branchRecords_of_isDummy (ctx.location?_eq_none_iff.mp hl)]
    exact .refl t
  · rename_i loc hl
    obtain ⟨b,v,hb,hv⟩ := exists_of_run_bind h
    obtain ⟨rfl,hn⟩ := newBranch_notes hb
    rw [Context.branchRecords,hl]
    exact hn.withPaths (mapM_coverOperand_notes hv)

theorem coverDefault_notes {value : Option Node} {x : Option Counter}
    (h : (coverDefault ctx s value).run.run t = (.ok x,u)) :
    Notes [] (ctx.defaultRecords s value) t u := by
  cases value with
  | none =>
    cases h
    exact .refl t
  | some value =>
    simp only [coverDefault] at h
    rw [Context.defaultRecords]
    split at h
    · rename_i hl
      cases h
      rw [ctx.branchRecords_of_isDummy (ctx.location?_eq_none_iff.mp hl)]
      exact .refl t
    · rename_i loc hl
      obtain ⟨b,v,hb,hv⟩ := exists_of_run_bind h
      obtain ⟨rfl,hn⟩ := newBranch_notes hb
      rw [Context.branchRecords,hl]
      split at hv
      · rename_i hvl
        cases hv
        rw [hvl]
        exact hn
      · rename_i valueLoc hvl
        obtain ⟨c,w,hc,hw⟩ := exists_of_run_bind hv
        cases hw
        rw [hvl]
        exact hn.withPaths (addPath_notes hc)

end Action
end CoverageCounters
