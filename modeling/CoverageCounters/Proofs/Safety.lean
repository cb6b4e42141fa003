import CoverageCounters.Proofs.Instrumented
import CoverageCounters.Proofs.RunInvariants

/-!
A pass over a parsed program does not fail. A list is open at every node that is visited, the map is open
until the walk is over, paths are only added to branches that are registered, and a case that is
counted finds the branch of its switch: it was noted when the switch was counted, and nothing inside the
switch is visited under the same key.
-/

namespace CoverageCounters

namespace CoverageMap

variable {m m' : CoverageMap}

/-- An open map to which a record is added stays open and loses no branch. -/
theorem Registers.kept (h : m.Registers m') :
    m'.frozen = false ∧ m.branchCount ≤ m'.branchCount := by
  rcases h with h | h | h | h
  all_goals
    simp only [newStatement,newFunction,newBranch,addBranchPath,ifOpen] at h
    split at h
    · cases h
    · rename_i hf
      rw [Bool.not_eq_true] at hf
      first
      | cases h
        simp [hf,branchCount]
      | split at h
        · cases h
          simp [hf,branchCount]
        · cases h

end CoverageMap

namespace Traversal

variable {t : Traversal} {n m : Nat}

/-- Every branch that is noted is registered. -/
def BranchesKnown (t : Traversal) : Prop :=
  ∀ k b, t.marks.branch? k = some b → b < t.coverage.branchCount

/-- No error was met, the map is open and every branch that is noted is registered. -/
structure Calm (t : Traversal) : Prop where
  failure : t.failure = none
  opened : t.coverage.frozen = false
  branches : t.BranchesKnown

/-- A state in which a node can be counted: a list is open, and there are `n` branches at least. -/
structure Able (n : Nat) (t : Traversal) : Prop extends Calm t where
  frames : t.frames ≠ []
  count : n ≤ t.coverage.branchCount

theorem Able.mono (h : n ≤ m) (ht : t.Able m) : t.Able n :=
  ⟨ht.toCalm,ht.frames,Nat.le_trans h ht.count⟩

theorem Able.register {map : CoverageMap} (ht : t.Able n) (h : t.coverage.Registers map) :
    Able n { t with coverage := map } :=
  ⟨⟨ht.failure,h.kept.1,fun k b hb => Nat.lt_of_lt_of_le (ht.branches k b hb) h.kept.2⟩,
    ht.frames,Nat.le_trans ht.count h.kept.2⟩

theorem Able.markSkip (ht : t.Able n) (k : Key) :
    Able n { t with marks := t.marks.markSkip k } := by
  refine ⟨⟨ht.failure,ht.opened,fun k' b hb => ht.branches k' b ?_⟩,ht.frames,ht.count⟩
  rw [← Marks.branch?_markSkip]
  exact hb

theorem Able.setBranch {b : Nat} (ht : t.Able (b + 1)) (k : Key) :
    Able (b + 1) { t with marks := t.marks.setBranch k b } := by
  refine ⟨⟨ht.failure,ht.opened,fun k' b' hb => ?_⟩,ht.frames,ht.count⟩
  rcases Marks.branch?_eq_some_of_setBranch hb with rfl | hb
  · exact ht.count
  · exact ht.branches k' b' hb

end Traversal

namespace Action

open Traversal

variable {α β : Type} {P : Traversal → Prop} {Q : α → Traversal → Prop} {ctx : Context} {n : Nat}

/-- Where `P` holds the action gives a result, and `Q` holds of it afterwards. -/
def Succeeds (P : Traversal → Prop) (a : Action α) (Q : α → Traversal → Prop) : Prop :=
  ∀ t, P t → ∃ x u, a.run.run t = (.ok x,u) ∧ Q x u

namespace Succeeds

theorem pure {x : α} : Succeeds P (Pure.pure x : Action α) fun _ => P := fun t ht => ⟨x,t,rfl,ht⟩

theorem bind {a : Action α} {f : α → Action β} {S : β → Traversal → Prop} (ha : Succeeds P a Q)
    (hf : ∀ x, Succeeds (Q x) (f x) S) : Succeeds P (a >>= f) S := by
  intro t ht
  obtain ⟨x,u,hr,hx⟩ := ha t ht
  rw [run_bind,hr]
  exact hf x u hx

theorem mono {a : Action α} {S : α → Traversal → Prop} (ha : Succeeds P a Q)
    (h : ∀ x t, Q x t → S x t) : Succeeds P a S := by
  intro t ht
  obtain ⟨x,u,hr,hx⟩ := ha t ht
  exact ⟨x,u,hr,h x u hx⟩

theorem register {add : CoverageMap → Except InstrumentError Nat × CoverageMap}
    (hadd : ∀ t : Traversal, t.Able n → ∃ i m, add t.coverage = (.ok i,m))
    (h : ∀ m i m', add m = (.ok i,m') → m.Registers m') :
    Succeeds (Able n) (register add) fun i u => u.Able n ∧ ∃ m, add m = (.ok i,u.coverage) := by
  intro t ht
  obtain ⟨i,m,hr⟩ := hadd t ht
  rw [run_register,hr]
  exact ⟨i,_,rfl,ht.register (h _ _ _ hr),_,hr⟩

theorem newStatement (loc : Location) :
    Succeeds (Able n) (Action.register (·.newStatement loc)) fun _ => Able n := by
  refine (register (fun t ht => ?_) fun _ _ _ => .statement).mono fun _ _ h => h.1
  rw [CoverageMap.newStatement,CoverageMap.ifOpen,ht.opened]
  exact ⟨_,_,rfl⟩

theorem newFunction (name : Option String) (decl loc : Location) :
    Succeeds (Able n) (Action.register (·.newFunction name decl loc)) fun _ => Able n := by
  refine (register (fun t ht => ?_) fun _ _ _ => .function).mono fun _ _ h => h.1
  rw [CoverageMap.newFunction,CoverageMap.ifOpen,ht.opened]
  exact ⟨_,_,rfl⟩

theorem newBranch (kind : BranchKind) (loc : Location) :
    Succeeds (Able n) (Action.register (·.newBranch kind loc)) fun b => Able (b + 1) := by
  refine (register (fun t ht => ?_) fun _ _ _ => .branch).mono fun b u h => ?_
  · rw [CoverageMap.newBranch,CoverageMap.ifOpen,ht.opened]
    exact ⟨_,_,rfl⟩
  · obtain ⟨hu,m,hm⟩ := h
    exact ⟨hu.toCalm,hu.frames,CoverageMap.lt_branchCount_of_newBranch hm⟩

theorem addPath (b : Nat) (loc : Location) :
    Succeeds (Able (b + 1)) (addPath b loc) fun _ => Able (b + 1) := by
  have hr : Succeeds (Able (b + 1)) (Action.register (·.addBranchPath b loc))
      fun _ => Able (b + 1) := by
    refine (register (fun t ht => ?_) fun _ _ _ => .path).mono fun _ _ h => h.1
    have hb : b < t.coverage.branchCount := ht.count
    rw [CoverageMap.addBranchPath,CoverageMap.ifOpen,ht.opened,if_pos hb]
    exact ⟨_,_,rfl⟩
  exact hr.bind fun _ => pure

theorem markSkip (k : Key) : Succeeds (Able n) (markSkip k) fun _ => Able n :=
  fun _ ht => ⟨(),_,rfl,ht.markSkip k⟩

theorem queue (kind : Kind) (s : Span) (c : Counter) :
    Succeeds (Able n) (queue ctx kind s c) fun _ => Able n := by
  intro t ht
  rw [run_queue]
  cases hf : t.frames with
  | nil => exact absurd hf ht.frames
  | cons frame rest =>
    exact ⟨(),_,rfl,⟨ht.failure,ht.opened,ht.branches⟩,List.cons_ne_nil _ _,ht.count⟩

theorem coverStatement (kind : Kind) (s : Span) :
    Succeeds (Able n) (coverStatement ctx kind s) fun _ => Able n := by
  unfold Action.coverStatement
  split
  · exact pure
  · exact (newStatement _).bind fun _ => queue kind s _

theorem coverInitializer (hoistable : Bool) (init : Option Node) :
    Succeeds (Able n) (coverInitializer ctx hoistable init) fun _ => Able n := by
  cases init with
  | none => exact pure
  | some init =>
    simp only [Action.coverInitializer]
    split
    · exact pure
    · refine (newStatement _).bind fun i t ht => ?_
      rw [run_get_bind]
      split
      · exact ((queue _ _ _).bind fun _ => pure) t ht
      · exact ⟨_,t,rfl,ht⟩

theorem forM_markSkip (nodes : List Node) (f : Node → Key) :
    Succeeds (Able n) (nodes.forM fun m => Action.markSkip (f m)) fun _ => Able n := by
  induction nodes with
  | nil => exact pure
  | cons m rest ih =>
    change Succeeds (Able n) (Action.markSkip (f m) >>= fun _ => rest.forM _) _
    exact (markSkip (f m)).bind fun _ => ih

theorem coverFunction (head : FunctionHead) (name : Option Node) (body : Body) :
    Succeeds (Able n) (coverFunction ctx head name body) fun _ => Able n := by
  unfold Action.coverFunction
  split
  · exact (newFunction _ _ _).bind fun _ => (forM_markSkip _ _).bind fun _ => pure
  · exact pure

/-- A side that is a block is not refused. -/
theorem coverSide (b : Nat) (loc : Location) (ignored : Bool) {side : Node}
    (h : side.isBlock = true) :
    Succeeds (Able (b + 1)) (coverSide b loc ignored side) fun _ => Able (b + 1) := by
  obtain ⟨s,statements,rfl⟩ := Node.exists_block_of_isBlock h
  simp only [Action.coverSide]
  split
  · exact (markSkip _).bind fun _ => pure
  · exact (addPath b loc).bind fun _ => pure

theorem coverIf (s : Span) (consequent : Node) (alternate : Option Node) :
    Succeeds (Able 0) (coverIf ctx s consequent alternate) fun _ => Able 0 := by
  unfold Action.coverIf
  split
  · exact pure
  · -- both sides have been made blocks before they are counted
    exact (newBranch _ _).bind fun b => (coverSide b _ _ consequent.isBlock_asBlock).bind fun _ =>
      (coverSide b _ _ (Node.isBlock_elseBlock alternate)).bind fun _ =>
        pure.mono fun _ _ h => h.mono (Nat.zero_le _)

theorem coverCompound (form : CompoundForm) (s : Span) (init : Option Node) :
    Succeeds (Able n) (coverCompound ctx form s init) fun _ => Able n := by
  unfold Action.coverCompound
  split
  · exact (markSkip _).bind fun _ => (coverStatement _ s).bind fun _ => pure
  · exact (coverStatement _ s).bind fun _ => pure

theorem coverOperand (b : Nat) (m : Node) :
    Succeeds (Able (b + 1)) (coverOperand ctx b m) fun _ => Able (b + 1) := by
  unfold Action.coverOperand
  split
  · exact pure
  · split
    · exact pure
    · exact (addPath b _).bind fun _ => pure

theorem coverConditional (s : Span) (consequent alternate : Node) :
    Succeeds (Able 0) (coverConditional ctx s consequent alternate) fun _ => Able 0 := by
  unfold Action.coverConditional
  split
  · exact pure
  · exact (newBranch _ _).bind fun b => (coverOperand b _).bind fun _ =>
      (coverOperand b _).bind fun _ => pure.mono fun _ _ h => h.mono (Nat.zero_le _)

theorem mapM {f : α → Action β} (hf : ∀ x, Succeeds P (f x) fun _ => P) (xs : List α) :
    Succeeds P (xs.mapM f) fun _ => P := by
  induction xs with
  | nil => exact pure
  | cons x xs ih =>
    rw [List.mapM_cons]
    exact (hf x).bind fun _ => ih.bind fun _ => pure

theorem coverChain (s : Span) (left right : Node) :
    Succeeds (Able 0) (coverChain ctx s left right) fun _ => Able 0 := by
  unfold Action.coverChain
  split
  · exact pure
  · exact (newBranch _ _).bind fun b =>
      (mapM (fun m => coverOperand b m) _).mono fun _ _ h => h.mono (Nat.zero_le _)

theorem coverDefault (s : Span) (value : Option Node) :
    Succeeds (Able 0) (coverDefault ctx s value) fun _ => Able 0 := by
  cases value with
  | none => exact pure
  | some value =>
    simp only [Action.coverDefault]
    split
    · exact pure
    · refine (newBranch _ _).bind fun b => ?_
      split
      · exact pure.mono fun _ _ h => h.mono (Nat.zero_le _)
      · exact (addPath b _).bind fun _ => pure.mono fun _ _ h => h.mono (Nat.zero_le _)

theorem coverSwitch (s : Span) :
    Succeeds (Able 0) (coverSwitch ctx s) fun _ u =>
      u.Able 0 ∧ (s.isDummy = false → (u.marks.branch? ⟨.switch,s⟩).isSome = true) := by
  intro t ht
  unfold Action.coverSwitch
  split
  · rename_i hl
    have hd : s.isDummy = true := (SourceText.location?_eq_none_iff _ _).mp hl
    obtain ⟨x,u,hr,hu⟩ : ∃ x u, (Action.coverStatement ctx .switch s).run.run t = (.ok x,u) ∧
      u.Able 0 := coverStatement .switch s t ht
    refine ⟨x,u,hr,hu,fun h => ?_⟩
    rw [hd] at h
    cases h
  · rename_i loc _
    obtain ⟨b,u,hr,hu⟩ := newBranch .switch loc t ht
    rw [run_bind,hr]
    let v : Traversal := { u with marks := u.marks.setBranch ⟨.switch,s⟩ b }
    obtain ⟨x,w,hw,haw⟩ : ∃ x w, (Action.coverStatement ctx .switch s).run.run v = (.ok x,w) ∧
      w.Able (b + 1) := coverStatement .switch s v (hu.setBranch ⟨.switch,s⟩)
    refine ⟨x,w,hw,haw.mono (Nat.zero_le _),fun hd => ?_⟩
    -- counting the statement does not touch the mark
    have hacts : Acts ctx ⟨.block,.dummy⟩ (fun _ => False) v
        ((Action.coverStatement ctx .switch s).run.run v).2 := Acting.coverStatement .switch s v
    rw [hw] at hacts
    have hm : w.marks.get? ⟨.switch,s⟩ = v.marks.get? ⟨.switch,s⟩ := hacts.get?_marks (by simp) id
    have hb : w.marks.branch? ⟨.switch,s⟩ = some b := by
      rw [Marks.branch?,hm]
      exact Marks.branch?_setBranch _ _ _ hd
    rw [hb]
    rfl

/-- A case is counted where the branch of its switch is noted. -/
theorem coverCase (s : Span) (switch : Key) :
    Succeeds (fun t => t.Able 0 ∧ (t.marks.branch? switch).isSome = true) (coverCase ctx s switch)
      fun _ => Able 0 := by
  rintro t ⟨ht,hb⟩
  obtain ⟨b,hb⟩ := Option.isSome_iff_exists.mp hb
  have hable : t.Able (b + 1) := ⟨ht.toCalm,ht.frames,ht.branches _ _ hb⟩
  unfold Action.coverCase
  rw [run_get_bind,hb]
  dsimp only
  split
  · exact ⟨none,t,rfl,ht⟩
  · exact ((addPath b _).bind fun _ => pure.mono fun _ _ h => h.mono (Nat.zero_le _)) t hable

end Succeeds
end Action

namespace Traversal

variable {ctx : Context} {key : Key} {t u : Traversal}

theorem Calm.leave (h : t.Calm) (key : Key) (depth : Nat) : (t.leave key depth).Calm :=
  ⟨h.failure,h.opened,fun k b hb => h.branches k b (Marks.branch?_eq_some_of_clear hb)⟩

/-- The cases of a switch that is counted find its branch. -/
def SwitchOpen (s : Span) (t : Traversal) : Prop :=
  t.anchor = none → s.isDummy = false → (t.marks.branch? ⟨.switch,s⟩).isSome = true

/-- Walking what stands elsewhere leaves a switch open. -/
theorem SwitchOpen.of_run {visited : Key → Prop} {s : Span} (h : t.SwitchOpen s)
    (hr : Run ctx visited t u) (ht : t.AnchorBelow) (hv : ¬visited ⟨.switch,s⟩) :
    u.SwitchOpen s := by
  intro ha hd
  have hp := hr.samePlace ht
  have hn : ¬Within visited ⟨.switch,s⟩ := by
    rintro (hs | hs)
    · have hd' : s.isDummy = true := hs
      rw [hd] at hd'
      cases hd'
    · exact hv hs
  rw [Marks.branch?,hr.get?_marks hn]
  exact h (hp.anchor ▸ ha) hd

end Traversal

namespace Walk

open Traversal

variable {α β : Type} {ctx : Context} {t : Traversal}

/-- A walk in which nothing fails, wherever a list is open. -/
structure Safe (ctx : Context) (w : Walk α) : Prop where
  runs : Runs ctx (fun _ => True) w
  calm : ∀ t, t.AnchorBelow → t.Calm → t.frames ≠ [] → (w.run t).2.Calm

theorem frames_ne_nil {visited : Key → Prop} {w : Walk α} (h : Runs ctx visited w) (hf : t.frames ≠ []) :
    (w.run t).2.frames ≠ [] := by
  have hl := List.length_pos_iff.mpr hf
  rw [← (h t).length_frames] at hl
  exact List.length_pos_iff.mp hl

/-- An attempt does not fail if its action gives a result wherever the node is counted. -/
theorem calm_attempt (key : Key) (action : Action α) (idle : α) {Q : Traversal → Prop}
    (hc : t.Calm) (hf : t.frames ≠ [])
    (ha : t.counts key = true → ∃ x u, action.run.run t = (.ok x,u) ∧ u.Able 0 ∧ Q u)
    (hi : t.counts key = false → Q t) :
    ((attempt key action idle).run t).2.Able 0 ∧ Q ((attempt key action idle).run t).2 := by
  rw [run_attempt]
  by_cases h : t.counts key = true
  · obtain ⟨x,u,hr,hu⟩ := ha h
    rw [if_pos h,hr]
    exact hu
  · rw [if_neg h]
    exact ⟨⟨hc,hf,Nat.zero_le _⟩,hi (Bool.eq_false_iff.mpr h)⟩

namespace Safe

theorem pure (a : α) : Safe ctx (Pure.pure a : Walk α) := ⟨.pure a,fun _ _ hc _ => hc⟩

theorem bind {w : Walk α} {f : α → Walk β} (hw : Safe ctx w) (hf : ∀ a, Safe ctx (f a)) :
    Safe ctx (w >>= f) := by
  refine ⟨hw.runs.bind fun a => (hf a).runs,fun t ha hc hne => ?_⟩
  have hp := (hw.runs t).samePlace ha
  exact (hf _).calm _ (hp.anchorBelow ha) (hw.calm t ha hc hne) (frames_ne_nil hw.runs hne)

theorem visiting {key : Key} {label : Option String} {action : Action α} {idle : α}
    {inside : α → Walk β} (hm : Action.Acting ctx key (Within fun _ => True) action)
    (hs : Action.Succeeds (Able 0) action fun _ => Able 0) (hi : ∀ a, Safe ctx (inside a)) :
    Safe ctx (visiting ctx key label action idle inside) := by
  refine ⟨.visiting (Or.inr trivial) hm fun a => (hi a).runs,fun t ha hc hne => ?_⟩
  have he : (t.enter ctx key label).Calm := ⟨hc.failure,hc.opened,hc.branches⟩
  obtain ⟨x,u,hr,hu⟩ := hs (t.enter ctx key label) ⟨he,hne,Nat.zero_le _⟩
  have hu := (calm_attempt key action idle (Q := fun _ => True) he hne
    (fun _ => ⟨x,u,hr,hu,trivial⟩) fun _ => trivial).1
  have hp := (Runs.attempts hm idle (t.enter ctx key label)).samePlace
  rw [run_visiting]
  exact ((hi _).calm _ (hp.anchorBelow (ha.enter key label)) hu.toCalm hu.frames).leave _ _

theorem passing {key : Key} {inside : Walk β} (h : Safe ctx inside) :
    Safe ctx (passing ctx key inside) :=
  visiting (.pure ()) .pure fun _ => h

theorem withChain {walk : Walk β} (inChain : Bool) (h : Safe ctx walk) :
    Safe ctx (withChain inChain walk) := by
  refine ⟨.withChain inChain h.runs,fun t ha hc hne => ?_⟩
  have hu := h.calm { t with inChain } ha ⟨hc.failure,hc.opened,hc.branches⟩ hne
  exact ⟨hu.failure,hu.opened,hu.branches⟩

theorem takeHoist : Safe ctx takeHoist :=
  ⟨.takeHoist,fun _ _ hc _ => ⟨hc.failure,hc.opened,hc.branches⟩⟩

end Safe

/-- A list item opens a list itself. -/
theorem calm_asItem {walk : Walk Node} (declares : Bool) (h : Safe ctx walk) (ha : t.AnchorBelow)
    (hc : t.Calm) : ((asItem declares walk).run t).2.Calm := by
  have hu := h.calm { t with frames := [] :: t.frames, hoist := declares } ha
    ⟨hc.failure,hc.opened,hc.branches⟩ (List.cons_ne_nil _ _)
  exact ⟨hu.failure,hu.opened,hu.branches⟩

namespace Safe

variable {walk : Walk Node}

theorem asItem (declares : Bool) (h : Safe ctx walk) : Safe ctx (asItem declares walk) :=
  ⟨.asItem declares h.runs,fun _ ha hc _ => calm_asItem declares h ha hc⟩

theorem behind? (c : Option Counter) (h : Safe ctx walk) : Safe ctx (behind? ctx c walk) := by
  cases c with
  | none => exact h
  | some c => exact passing (h.bind fun _ => .pure _)

theorem operand {n : Node} {counters : List (Option Counter)}
    {walk : List (Option Counter) → Walk Node} (h : ∀ c, Safe ctx (walk c)) :
    Safe ctx (operand ctx n counters walk) := by
  unfold Walk.operand
  split
  · exact h counters
  · exact withChain false ((h []).behind? _)

theorem counterItem (c : Option Counter) : Safe ctx (counterItem ctx c) := by
  cases c with
  | none => exact .pure []
  | some c =>
    exact (asItem _ (visiting (.coverStatement _ _) (.coverStatement _ _) fun _ => .pure _)).bind
      fun _ => .pure _

theorem inBlock {walk : List (Option Counter) → Walk Node} (c : Option Counter) (body : Node)
    (h : ∀ given, Safe ctx (walk given)) : Safe ctx (inBlock ctx c body walk) := by
  unfold Walk.inBlock
  split
  · exact h [c]
  · exact passing ((counterItem c).bind fun _ => (asItem _ (h [])).bind fun _ => .pure _)

theorem asBody {walk : List (Option Counter) → Walk Node} (counted : Bool) (body : Node)
    (h : ∀ given, Safe ctx (walk given)) : Safe ctx (asBody ctx counted body walk) := by
  unfold Walk.asBody
  split
  · exact inBlock none body h
  · exact h []

theorem asReturn (c : Counter) (s : Span) (h : Safe ctx walk) : Safe ctx (asReturn ctx c s walk) :=
  passing ((counterItem _).bind fun _ =>
    (asItem _ (visiting (.coverStatement _ _) (.coverStatement _ _) fun _ =>
      h.bind fun _ => .pure _)).bind fun _ => .pure _)

theorem inParens (wanted : Bool) (heritage : Node) (h : Safe ctx walk) :
    Safe ctx (inParens ctx wanted heritage walk) := by
  unfold Walk.inParens
  split
  · exact passing (h.bind fun _ => .pure _)
  · exact h

end Safe
end Walk

open Walk Traversal

section Lists

variable {ctx : Context}

theorem walkNodes_safe {nodes : List Node} (h : ∀ n ∈ nodes, Safe ctx (n.walk ctx [])) :
    Safe ctx (walkNodes ctx nodes) := by
  induction nodes with
  | nil => exact .pure []
  | cons n rest ih =>
    rw [walkNodes]
    exact (h n List.mem_cons_self).bind fun _ =>
      (ih fun x hx => h x (List.mem_cons_of_mem _ hx)).bind fun _ => .pure _

theorem walkParts_safe {parts : List Part}
    (h : ∀ n ∈ parts.flatMap Part.nodes, Safe ctx (n.walk ctx [])) :
    Safe ctx (walkParts ctx parts) := by
  induction parts with
  | nil => exact .pure []
  | cons p rest ih =>
    rw [List.flatMap_cons] at h
    rw [walkParts]
    have hp : Safe ctx (walkPart ctx p) := by
      cases p with
      | child field n =>
        exact (h n (List.mem_append_left _ (List.mem_singleton_self n))).bind fun _ => .pure _
      | children field nodes =>
        exact (walkNodes_safe fun n hn => h n (List.mem_append_left _ hn)).bind fun _ => .pure _
    exact hp.bind fun _ => (ih fun n hn => h n (List.mem_append_right _ hn)).bind fun _ => .pure _

theorem walkOption_safe (counter : Option Counter) {o : Option Node}
    (h : ∀ n ∈ o.toList, Safe ctx (n.walk ctx [])) : Safe ctx (walkOption ctx counter o) := by
  cases o with
  | none => exact .pure none
  | some n => exact ((h n (List.mem_singleton_self n)).behind? counter).bind fun _ => .pure _

theorem walkElse_safe (counter : Option Counter) {o : Option Node}
    (h : ∀ n ∈ o.toList, ∀ given, Safe ctx (n.walk ctx given)) :
    Safe ctx (walkElse ctx counter o) := by
  cases o with
  | none => exact .passing ((Safe.counterItem counter).bind fun _ => .pure _)
  | some n =>
    rw [walkElse]
    exact .inBlock counter n (h n (List.mem_singleton_self n))

theorem walkHeritage_safe (counted : Bool) {o : Option Node}
    (h : ∀ n ∈ o.toList, Safe ctx (n.walk ctx [])) : Safe ctx (walkHeritage ctx counted o) := by
  cases o with
  | none => exact .pure none
  | some n => exact (Safe.inParens counted n (h n (List.mem_singleton_self n))).bind fun _ => .pure _

/-- The items of a list need no list around them. -/
theorem calm_walkItems {items : List Node} (h : ∀ n ∈ items, Safe ctx (n.walk ctx []))
    {t : Traversal} (ha : t.AnchorBelow) (hc : t.Calm) : ((walkItems ctx items).run t).2.Calm := by
  induction items generalizing t with
  | nil => exact hc
  | cons n rest ih =>
    have hn := h n List.mem_cons_self
    have hp := (Runs.asItem n.declaresVariables hn.runs t).samePlace ha
    exact ih (fun x hx => h x (List.mem_cons_of_mem _ hx)) (hp.anchorBelow ha)
      (calm_asItem n.declaresVariables hn ha hc)

theorem walkItems_safe {items : List Node} (h : ∀ n ∈ items, Safe ctx (n.walk ctx [])) :
    Safe ctx (walkItems ctx items) :=
  ⟨walkItems_runs fun n _ given => n.walk_runs (fun _ _ => trivial) given,
    fun _ ha hc _ => calm_walkItems h ha hc⟩

theorem walkStatements_safe (counter : Option Counter) {statements : List Node}
    (h : ∀ n ∈ statements, Safe ctx (n.walk ctx [])) :
    Safe ctx (walkStatements ctx counter statements) := by
  rw [walkStatements_eq]
  exact (walkItems_safe fun n hn => h n ((List.takeWhile_sublist _).mem hn)).bind fun _ =>
    (Safe.counterItem counter).bind fun _ =>
      (walkItems_safe fun n hn => h n ((List.dropWhile_sublist _).mem hn)).bind fun _ => .pure _

theorem walkBody_safe (counter : Option Counter) {body : Body}
    (h : ∀ n ∈ body.nodes, Safe ctx (n.walk ctx [])) : Safe ctx (walkBody ctx counter body) := by
  cases body with
  | absent => exact .pure _
  | block s statements => exact .passing ((walkStatements_safe counter h).bind fun _ => .pure _)
  | value e =>
    have he := h e (List.mem_singleton_self e)
    cases counter with
    | none => exact he.bind fun _ => .pure _
    | some c => exact .asReturn c e.span he

theorem walkDeclarator_safe (hoistable : Bool) {d : Declarator}
    (h : ∀ n ∈ d.nodes, Safe ctx (n.walk ctx [])) : Safe ctx (walkDeclarator ctx hoistable d) := by
  obtain ⟨s,data,target,init⟩ := d
  refine .visiting (.coverInitializer hoistable init) (.coverInitializer hoistable init)
    fun counter => ?_
  exact (h target List.mem_cons_self).bind fun _ =>
    (walkOption_safe counter fun n hn => h n (List.mem_cons_of_mem _ hn)).bind fun _ => .pure _

theorem walkDeclarators_safe (hoistable : Bool) {declarators : List Declarator}
    (h : ∀ n ∈ declarators.flatMap Declarator.nodes, Safe ctx (n.walk ctx [])) :
    Safe ctx (walkDeclarators ctx hoistable declarators) := by
  induction declarators with
  | nil => exact .pure []
  | cons d rest ih =>
    simp only [List.flatMap_cons,List.mem_append] at h
    rw [walkDeclarators]
    exact (walkDeclarator_safe hoistable fun n hn => h n (.inl hn)).bind fun _ =>
      (ih fun n hn => h n (.inr hn)).bind fun _ => .pure _

/-- A case of an open switch is walked without an error: if it is counted, it has a place, and so has
its switch. -/
theorem calm_walkCase {s : Span} {c : Case} (hd : s.isDummy = true → c.span.isDummy = true)
    (h : ∀ n ∈ c.nodes, Safe ctx (n.walk ctx [])) {t : Traversal} (ha : t.AnchorBelow)
    (hc : t.Calm) (hne : t.frames ≠ []) (ho : t.SwitchOpen s) :
    ((walkCase ctx ⟨.switch,s⟩ c).run t).2.Calm := by
  obtain ⟨cs,test,consequent⟩ := c
  simp only [Case.nodes,List.mem_append] at h
  have hm : Action.Acting ctx ⟨.switchCase,cs⟩ (Within fun _ => True)
      (Action.coverCase ctx cs ⟨.switch,s⟩) := .coverCase cs _
  let e := t.enter ctx ⟨.switchCase,cs⟩ none
  have he : e.Calm := ⟨hc.failure,hc.opened,hc.branches⟩
  have hs : e.counts ⟨.switchCase,cs⟩ = true →
      ∃ x u, (Action.coverCase ctx cs ⟨.switch,s⟩).run.run e = (.ok x,u) ∧ u.Able 0 ∧ True := by
    intro hcount
    simp only [counts,isSuppressed,Bool.and_eq_true,Bool.not_eq_true',Option.isSome_eq_false_iff,
      Option.isNone_iff_eq_none] at hcount
    obtain ⟨⟨-,hanchor⟩,hreal⟩ := hcount
    have hn : t.anchor = none := by
      have hl : e.anchor = if t.startsSuppression ctx ⟨.switchCase,cs⟩ none then
        some ⟨⟨.switchCase,cs⟩,t.depth + 1⟩ else t.anchor := rfl
      rw [hanchor] at hl
      split at hl
      · cases hl
      · exact hl.symm
    have hdummy : s.isDummy = false := by
      cases hsd : s.isDummy with
      | false => rfl
      | true =>
        have hcd : cs.isDummy = true := hd hsd
        have hcr : cs.isDummy = false := hreal
        rw [hcd] at hcr
        cases hcr
    obtain ⟨x,u,hr,hu⟩ : ∃ x u, (Action.coverCase ctx cs ⟨.switch,s⟩).run.run e = (.ok x,u) ∧
      u.Able 0 := Action.Succeeds.coverCase cs _ e ⟨⟨he,hne,Nat.zero_le _⟩,ho hn hdummy⟩
    exact ⟨x,u,hr,hu,trivial⟩
  have hu := (calm_attempt ⟨.switchCase,cs⟩ _ none (Q := fun _ => True) he hne hs fun _ => trivial).1
  have hp := (Runs.attempts hm none e).samePlace
  have hi : ∀ counter : Option Counter, Safe ctx (do
      let test ← walkOption ctx none test
      let first ← counterItem ctx counter
      let items ← walkItems ctx consequent
      return Case.mk cs test (placed (first ++ items))) :=
    fun counter => (walkOption_safe none fun n hn => h n (.inl hn)).bind fun _ =>
      (Safe.counterItem counter).bind fun _ =>
        (walkItems_safe fun n hn => h n (.inr hn)).bind fun _ => .pure _
  rw [walkCase,run_visiting]
  exact ((hi _).calm _ (hp.anchorBelow (ha.enter _ none)) hu.toCalm hu.frames).leave _ _

theorem calm_walkCases {s : Span} {cases : List Case}
    (hd : s.isDummy = true → ∀ c ∈ cases, c.span.isDummy = true)
    (hk : ∀ n ∈ cases.flatMap Case.nodes, ⟨.switch,s⟩ ∉ n.keys)
    (h : ∀ n ∈ cases.flatMap Case.nodes, Safe ctx (n.walk ctx [])) {t : Traversal}
    (ha : t.AnchorBelow) (hc : t.Calm) (hne : t.frames ≠ []) (ho : t.SwitchOpen s) :
    ((walkCases ctx ⟨.switch,s⟩ cases).run t).2.Calm := by
  induction cases generalizing t with
  | nil => exact hc
  | cons c rest ih =>
    simp only [List.flatMap_cons,List.mem_append] at h hk
    have hr : Runs ctx (· ≠ ⟨.switch,s⟩) (walkCase ctx ⟨.switch,s⟩ c) :=
      walkCase_runs _ (by simp) fun n hn given =>
        n.walk_runs (fun k hkn (hks : k = ⟨.switch,s⟩) => hk n (.inl hn) (hks ▸ hkn)) given
    have hu := calm_walkCase (fun hs => hd hs c List.mem_cons_self) (fun n hn => h n (.inl hn))
      ha hc hne ho
    exact ih (fun hs x hx => hd hs x (List.mem_cons_of_mem _ hx)) (fun n hn => hk n (.inr hn))
      (fun n hn => h n (.inr hn)) (((hr t).samePlace ha).anchorBelow ha) hu
      (frames_ne_nil hr hne) (ho.of_run (hr t) ha fun hv => hv rfl)

end Lists

namespace Node

variable {ctx : Context}

def switchSpan? : Node → Option Span
  | switch s _ _ => some s
  | _ => none

/-- A switch as it is parsed: one without a place has no case with a place, and none inside it has its
place. -/
def isSoundSwitch (n : Node) : Bool :=
  match n with
  | switch s _ cases =>
    (!s.isDummy || cases.all fun c => c.span.isDummy) && n.inner.all fun m => m.switchSpan? ≠ some s
  | _ => true

theorem switchSpan?_of_mem_ownKeys {n : Node} {s : Span} (h : ⟨.switch,s⟩ ∈ n.ownKeys) :
    n.switchSpan? = some s := by
  have hb : ∀ m : Node, ⟨.switch,s⟩ ∉ m.blockKeys := by
    intro m
    unfold blockKeys
    split <;> simp
  cases n with
  | switch s' discriminant cases =>
    simp only [ownKeys,List.mem_cons,List.mem_map,Key.mk.injEq,true_and] at h
    rcases h with rfl | ⟨c,-,hc,-⟩
    · rfl
    · cases hc
  | function head key before body after =>
    rcases List.mem_cons.mp h with h | h
    · have hk : Kind.switch = head.kind.kind := congrArg Key.kind h
      cases hf : head.kind <;> rw [hf] at hk <;> cases hk
    · cases body <;> simp [Body.keys] at h
  | defaulted form s' target value => cases form <;> simp [ownKeys,DefaultForm.kind] at h
  | simple form s' parts => cases form <;> simp [ownKeys,SimpleForm.kind] at h
  | compound form s' data init head body =>
    rcases List.mem_cons.mp h with h | h
    · cases form <;> simp [CompoundForm.kind] at h
    · exact absurd h (hb body)
  | ifElse s' test consequent alternate => simp [ownKeys,hb] at h
  | _ => simp [ownKeys] at h

/-- A switch is visited under its key only where a switch stands at its place. -/
theorem exists_switch_of_mem_keys {n : Node} {s : Span} (h : ⟨.switch,s⟩ ∈ n.keys) :
    ∃ m ∈ n.subnodes, m.switchSpan? = some s := by
  obtain ⟨m,hm,hk⟩ := List.mem_flatMap.mp h
  exact ⟨m,hm,switchSpan?_of_mem_ownKeys hk⟩

theorem switch_notMem_keys {s : Span} {discriminant : Node} {cases : List Case} {m : Node}
    (h : (switch s discriminant cases).isSoundSwitch = true)
    (hm : m ∈ (switch s discriminant cases).children) : ⟨.switch,s⟩ ∉ m.keys := by
  intro hk
  obtain ⟨x,hx,hs⟩ := exists_switch_of_mem_keys hk
  rw [isSoundSwitch,Bool.and_eq_true,List.all_eq_true] at h
  have hne := of_decide_eq_true (h.2 x (subnodes_subset_of_mem_children hm hx))
  exact hne hs

theorem switchOpen_of_not_counts {s : Span} {t : Traversal} (hc : t.Calm)
    (h : t.counts ⟨.switch,s⟩ = false) : t.SwitchOpen s := by
  intro ha hd
  have hk : t.counts ⟨.switch,s⟩ = true := by
    simp [counts,isSuppressed,ha,hc.failure,Key.isSynthetic,hd]
  rw [hk] at h
  cases h

/-- A switch is open when its cases are walked. -/
theorem walk_switch_safe {s : Span} {discriminant : Node} {cases : List Case}
    (hs : (switch s discriminant cases).isSoundSwitch = true)
    (h : ∀ m ∈ (switch s discriminant cases).children, Safe ctx (m.walk ctx []))
    (given : List (Option Counter)) : Safe ctx ((switch s discriminant cases).walk ctx given) := by
  refine ⟨walk_runs _ (fun _ _ => trivial) given,fun t ha hc hne => ?_⟩
  have hk : ∀ m ∈ (switch s discriminant cases).children, ⟨.switch,s⟩ ∉ m.keys :=
    fun m hm => switch_notMem_keys hs hm
  have hd : s.isDummy = true → ∀ c ∈ cases, c.span.isDummy = true := by
    intro hd c hcase
    rw [isSoundSwitch,hd,Bool.and_eq_true,Bool.not_true,Bool.false_or,List.all_eq_true] at hs
    exact hs.1 c hcase
  have hm : Action.Acting ctx ⟨.switch,s⟩ (Within fun _ => True) (Action.coverSwitch ctx s) :=
    .coverSwitch s
  let e := t.enter ctx ⟨.switch,s⟩ none
  have he : e.Calm := ⟨hc.failure,hc.opened,hc.branches⟩
  obtain ⟨x,u,hr,hu,hb⟩ := Action.Succeeds.coverSwitch s e ⟨he,hne,Nat.zero_le _⟩
  obtain ⟨hv,ho⟩ := calm_attempt ⟨.switch,s⟩ (Action.coverSwitch ctx s) ()
    (Q := SwitchOpen s) he hne (fun _ => ⟨x,u,hr,hu,fun _ => hb⟩) fun hn => switchOpen_of_not_counts he hn
  have hav := (Runs.attempts hm () e).samePlace.anchorBelow (ha.enter _ none)
  have hmem : discriminant ∈ (switch s discriminant cases).children := List.mem_cons_self
  have hrun : Runs ctx (· ≠ ⟨.switch,s⟩) (discriminant.walk ctx []) :=
    discriminant.walk_runs (fun k hkn (hks : k = ⟨.switch,s⟩) => hk _ hmem (hks ▸ hkn)) []
  have hw := (h _ hmem).calm _ hav hv.toCalm hv.frames
  have haw := ((hrun _).samePlace hav).anchorBelow hav
  have hcs := calm_walkCases hd (fun m hm => hk m (List.mem_cons_of_mem _ hm))
    (fun m hm => h m (List.mem_cons_of_mem _ hm)) haw hw (frames_ne_nil hrun hv.frames)
    (ho.of_run (hrun _) hav fun hv => hv rfl)
  rw [walk,run_visiting]
  exact hcs.leave _ _

/-- The walk of a node whose switches are sound is safe. -/
theorem walk_safe (n : Node) (hs : ∀ m ∈ n.subnodes, m.isSoundSwitch = true)
    (given : List (Option Counter)) : Safe ctx (n.walk ctx given) := by
  induction n using induction_children generalizing given with
  | step n ih =>
    have hg : ∀ m ∈ n.children, ∀ given, Safe ctx (m.walk ctx given) := fun m hm =>
      ih m hm fun x hx => hs x (List.mem_cons_of_mem _ (subnodes_subset_of_mem_children hm hx))
    have hc : ∀ m ∈ n.children, Safe ctx (m.walk ctx []) := fun m hm => hg m hm []
    clear ih
    cases n with
    | plain head parts => exact (walkParts_safe hc).bind fun _ => .pure _
    | paren s inner => exact .passing ((hg inner List.mem_cons_self given).bind fun _ => .pure _)
    | logical s operator left right =>
      have hleft := hg left (by simp [children])
      have hright := hg right (by simp [children])
      have hw : ∀ counters, Safe ctx (walkChain ctx s operator left right counters) :=
        fun _ => .withChain true ((Safe.operand hleft).bind fun _ =>
          (Safe.operand hright).bind fun _ => .pure _)
      have ho : Safe ctx (visiting ctx ⟨.logical,s⟩ none (Action.coverChain ctx s left right) []
          (walkChain ctx s operator left right)) :=
        .visiting (.coverChain s left right) (.coverChain s left right) hw
      have hi : Safe ctx (visiting ctx ⟨.logical,s⟩ none (pure []) []
          fun _ : List (Option Counter) => walkChain ctx s operator left right given) :=
        .visiting (.pure []) .pure fun _ => hw given
      refine ⟨walk_runs _ (fun _ _ => trivial) given,fun t ha hcalm hne => ?_⟩
      cases h : t.inChain with
      | false =>
        rw [run_walk_outermost h]
        exact ho.calm t ha hcalm hne
      | true =>
        rw [run_walk_inChain h]
        exact hi.calm t ha hcalm hne
    | conditional s test consequent alternate =>
      have htest := hc test (by simp [children])
      have hconsequent := hc consequent (by simp [children])
      have halternate := hc alternate (by simp [children])
      refine .visiting (.coverConditional s _ _) (.coverConditional s _ _) fun counters => ?_
      exact htest.bind fun _ => (hconsequent.behind? _).bind fun _ =>
        (halternate.behind? _).bind fun _ => .pure _
    | function head key before body after =>
      simp only [children,List.mem_append] at hc
      have hkey := walkOption_safe none fun n hn => hc n (.inl (.inl (.inl hn)))
      have hbefore := walkParts_safe fun n hn => hc n (.inl (.inl (.inr hn)))
      have hbody := fun counter => walkBody_safe counter fun n hn => hc n (.inl (.inr hn))
      have hafter := walkParts_safe fun n hn => hc n (.inr hn)
      refine .visiting (.coverFunction head key body fun _ _ _ _ => Or.inr trivial)
        (.coverFunction head key body) fun counter => ?_
      exact hkey.bind fun _ => hbefore.bind fun _ => (hbody counter).bind fun _ =>
        hafter.bind fun _ => .pure _
    | defaulted form s target value =>
      refine .visiting (.coverDefault s value) (.coverDefault s value) fun counter => ?_
      exact (hc target List.mem_cons_self).bind fun _ =>
        (walkOption_safe counter fun n hn => hc n (List.mem_cons_of_mem _ hn)).bind fun _ => .pure _
    | classDeclaration s data name before heritage after =>
      simp only [children,List.mem_append,List.mem_cons] at hc
      have hname := hc name (.inl (.inl (.inl rfl)))
      have hbefore := walkParts_safe fun n hn => hc n (.inl (.inl (.inr hn)))
      have hheritage := fun counted => walkHeritage_safe counted fun n hn => hc n (.inl (.inr hn))
      have hafter := walkParts_safe fun n hn => hc n (.inr hn)
      refine .visiting (.pure true) .pure fun counted => ?_
      exact hname.bind fun _ => hbefore.bind fun _ => (hheritage counted).bind fun _ =>
        hafter.bind fun _ => .pure _
    | expression s inner =>
      exact .visiting (.coverStatement _ s) (.coverStatement _ s) fun _ =>
        (hc inner List.mem_cons_self).bind fun _ => .pure _
    | simple form s parts =>
      exact .visiting (.coverStatement _ s) (.coverStatement _ s) fun _ =>
        (walkParts_safe hc).bind fun _ => .pure _
    | compound form s data init head body =>
      simp only [children,List.mem_append,List.mem_singleton] at hc
      have hinit := walkOption_safe none fun n hn => hc n (.inl (.inl hn))
      have hhead := walkParts_safe fun n hn => hc n (.inl (.inr hn))
      have hbody := hg body (by simp [children])
      refine .visiting (.coverCompound form s fun _ _ => Or.inr trivial)
        (.coverCompound form s init) fun counted => ?_
      exact hinit.bind fun _ => hhead.bind fun _ => (Safe.asBody counted body hbody).bind fun _ =>
        .pure _
    | ifElse s test consequent alternate =>
      simp only [children,List.mem_cons] at hg
      have hconsequent := hg consequent (.inr (.inl rfl))
      have halternate : ∀ n ∈ alternate.toList, ∀ given, Safe ctx (n.walk ctx given) :=
        fun n hn => hg n (.inr (.inr hn))
      refine .visiting (.coverIf s (Or.inr trivial) (Or.inr trivial)) (.coverIf s _ _)
        fun counters => ?_
      refine (hg test (.inl rfl) []).bind fun _ => ?_
      cases counters with
      | none =>
        exact (hconsequent []).bind fun _ =>
          (walkOption_safe none fun n hn => halternate n hn []).bind fun _ => .pure _
      | some cs =>
        exact (Safe.inBlock cs.1 consequent hconsequent).bind fun _ =>
          (walkElse_safe cs.2 halternate).bind fun _ => .pure _
    | switch s discriminant cases => exact walk_switch_safe (hs _ (self_mem_subnodes _)) hc given
    | bindings s data declarators =>
      exact Safe.takeHoist.bind fun hoistable =>
        .passing ((walkDeclarators_safe hoistable hc).bind fun _ => .pure _)
    | block s statements =>
      exact .passing ((Safe.counterItem _).bind fun _ => (walkItems_safe hc).bind fun _ => .pure _)
    | exported s declaration => exact (hc declaration List.mem_cons_self).bind fun _ => .pure _
    | namespaceBlock s items => exact (walkItems_safe hc).bind fun _ => .pure _

end Node

namespace Program

/-- Whether every switch of a program stands as it is parsed. -/
def hasSoundSwitches (p : Program) : Bool := p.nodes.all Node.isSoundSwitch

theorem branch?_prologueMarks (p : Program) (k : Key) : p.prologueMarks.branch? k = none := by
  have h : ∀ (nodes : List Node) (marks : Marks), marks.branch? k = none →
      (nodes.foldl (fun marks n => marks.markSkip ⟨.expressionStatement,n.span⟩) marks).branch? k =
        none := by
    intro nodes
    induction nodes with
    | nil => exact fun _ hm => hm
    | cons n rest ih =>
      intro marks hm
      exact ih _ (by rw [Marks.branch?_markSkip,hm])
  exact h p.prologue .empty rfl

theorem failure_walk {ctx : Context} {p : Program} {coverage : CoverageMap}
    (hs : p.hasSoundSwitches = true) (hf : coverage.frozen = false) :
    (p.walk ctx coverage).2.failure = none := by
  rw [hasSoundSwitches,List.all_eq_true] at hs
  have hw : ∀ n ∈ p.body, Safe ctx (n.walk ctx []) := fun n hn =>
    n.walk_safe (fun m hm => hs m (List.mem_flatMap.mpr ⟨n,hn,hm⟩)) []
  have hc : Calm { Traversal.start coverage with marks := p.prologueMarks } := by
    refine ⟨rfl,hf,fun k b hb => ?_⟩
    rw [branch?_prologueMarks] at hb
    cases hb
  have ha : AnchorBelow { Traversal.start coverage with marks := p.prologueMarks } := nofun
  exact (calm_walkItems hw ha hc).failure

end Program

theorem frozen_startMap (path : String) (options : Options) :
    (startMap path options).frozen = false := by
  unfold startMap
  split <;> rfl

/-- A pass over a program as it is parsed does not fail, whatever the comments and the options are. -/
theorem instrument_succeeds (program : Program) (file : SourceFile) (options : Options)
    (batch : Batch) (hs : program.hasSoundSwitches = true) :
    ∃ o, (instrument program file options batch).outcome = .ok o := by
  have hf : (program.walk (file.context options) (startMap file.path options)).2.failure = none :=
    Program.failure_walk hs (frozen_startMap file.path options)
  unfold instrument
  split
  · rw [returnIgnored_eq]
    exact ⟨_,rfl⟩
  · split
    · rw [returnDeclared_eq]
      exact ⟨_,rfl⟩
    · rw [instrumentOpen_of_walked hf]
      exact ⟨_,rfl⟩

theorem instrument_succeeds_sample :
    sampleProgram.hasSoundSwitches = true ∧
    ∃ o, (instrument sampleProgram sampleFile {} (.new none)).outcome = .ok o :=
  have hs : sampleProgram.hasSoundSwitches = true := by decide +kernel
  ⟨hs,instrument_succeeds sampleProgram sampleFile {} (.new none) hs⟩

end CoverageCounters
