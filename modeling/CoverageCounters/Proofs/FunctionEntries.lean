import CoverageCounters.Proofs.Recording

/-!
What the action of a node adds to the table of functions. The action of a function adds the function, or
nothing if it has no body or no place or the map is closed; no other action touches the table.
-/

namespace CoverageCounters

namespace CoverageMap

variable {m m' m'' : CoverageMap} {es es' : List FunctionEntry} {r : Records}

/-- The second map has the given functions behind those of the first. -/
def Gains (m : CoverageMap) (es : List FunctionEntry) (m' : CoverageMap) : Prop :=
  m'.data.fnMap = m.data.fnMap ++ es.mapIdx fun i e => e.record (m.functionCount + i)

theorem Extends.gains (h : m.Extends r m') : m.Gains r.functions m' := h.functions

theorem Gains.refl (m : CoverageMap) : m.Gains [] m := (List.append_nil _).symm

theorem Gains.trans (h₁ : m.Gains es m') (h₂ : m'.Gains es' m'') : m.Gains (es ++ es') m'' := by
  have hc : m'.functionCount = m.functionCount + es.length := by
    rw [functionCount,h₁,List.length_append,List.length_mapIdx]
    rfl
  rw [Gains,h₂,h₁,hc,List.append_assoc,List.mapIdx_append]
  congr 3
  funext i e
  rw [Nat.add_assoc,Nat.add_comm i]

theorem addBranchPath_gains {b i : Nat} {loc : Location} (h : m.addBranchPath b loc = (.ok i,m')) :
    m.Gains [] m' :=
  (addBranchPath_extends h).functions

end CoverageMap

/-- The entry of a function that has a body and a place; other nodes have none. -/
def Node.recordedFunction? (ctx : Context) : Node → Option FunctionEntry
  | function head key _ body _ => (ctx.functionRecords head key body).functions.head?
  | _ => none

namespace Action

open CoverageMap

variable {α β : Type} {es es' : List FunctionEntry}

/-- However it ends, an action adds no functions but the given ones, in their order. -/
def Enters (es : List FunctionEntry) (a : Action α) : Prop :=
  ∀ t : Traversal, ∃ added : List FunctionEntry, added.Sublist es ∧
    t.coverage.Gains added (a.run.run t).2.coverage

namespace Enters

variable {ctx : Context}

theorem pure (x : α) : Enters [] (Pure.pure x : Action α) := fun t => ⟨[],.slnil,.refl t.coverage⟩

theorem bind {a : Action α} {f : α → Action β} (ha : Enters es a) (hf : ∀ x, Enters es' (f x)) :
    Enters (es ++ es') (a >>= f) := by
  intro t
  obtain ⟨added,hs,hg⟩ := ha t
  rw [run_bind]
  cases hr : a.run.run t with
  | mk r u =>
    rw [hr] at hg
    cases r with
    | error e => exact ⟨added,hs.trans (List.sublist_append_left es es'),hg⟩
    | ok x =>
      obtain ⟨added',hs',hg'⟩ := hf x u
      exact ⟨added ++ added',hs.append hs',hg.trans hg'⟩

theorem register {add : CoverageMap → Except InstrumentError Nat × CoverageMap} (ha : Recording add)
    (h : ∀ m i m', add m = (.ok i,m') → m.Gains es m') : Enters es (register add) := by
  intro t
  rw [run_register]
  cases hm : add t.coverage with
  | mk answer m =>
    cases answer with
    | ok i => exact ⟨es,.refl es,h _ _ _ hm⟩
    | error e =>
      rw [ha.fails hm]
      exact ⟨[],List.nil_sublist es,.refl t.coverage⟩

theorem newStatement (loc : Location) : Enters [] (Action.register (·.newStatement loc)) :=
  register (recording_newStatement loc) fun _ _ _ h => (newStatement_extends h).gains

theorem newBranch (kind : BranchKind) (loc : Location) :
    Enters [] (Action.register (·.newBranch kind loc)) :=
  register (recording_newBranch kind loc) fun _ _ _ h => (newBranch_extends h).2.gains

theorem markSkip (k : Key) : Enters [] (markSkip k) := fun t => ⟨[],.slnil,.refl t.coverage⟩

theorem queue (kind : Kind) (s : Span) (c : Counter) : Enters [] (queue ctx kind s c) := by
  intro t
  rw [run_queue]
  cases t.frames <;> exact ⟨[],.slnil,.refl t.coverage⟩

theorem coverStatement (kind : Kind) (s : Span) : Enters [] (coverStatement ctx kind s) := by
  unfold Action.coverStatement
  split
  · exact .pure ()
  · exact (newStatement _).bind fun i => queue kind s _

theorem coverInitializer (hoistable : Bool) (init : Option Node) :
    Enters [] (coverInitializer ctx hoistable init) := by
  cases init with
  | none => exact .pure none
  | some init =>
    simp only [Action.coverInitializer]
    split
    · exact .pure none
    · refine (newStatement _).bind fun i => (?_ : Enters [] _)
      intro t
      rw [run_get_bind]
      split
      · exact ((queue _ _ _).bind fun _ => .pure none) t
      · exact ⟨[],.slnil,.refl t.coverage⟩

theorem forM_markSkip (nodes : List Node) (f : Node → Key) :
    Enters [] (nodes.forM fun n => Action.markSkip (f n)) := by
  induction nodes with
  | nil => exact .pure ()
  | cons n rest ih =>
    change Enters [] (Action.markSkip (f n) >>= fun _ => rest.forM _)
    exact (markSkip (f n)).bind fun _ => ih

theorem coverFunction (head : FunctionHead) (key : Option Node) (before after : List Part)
    (body : Body) :
    Enters ((Node.function head key before body after).recordedFunction? ctx).toList
      (coverFunction ctx head key body) := by
  unfold Action.coverFunction
  split
  · rename_i loc bodySpan statements hl hb
    rw [Node.recordedFunction?,Context.functionRecords,hl,hb]
    exact (register (recording_newFunction _ _ _) fun _ _ _ h => (newFunction_extends h).gains).bind
      fun i => (forM_markSkip _ _).bind fun _ => .pure _
  · exact fun t => ⟨[],List.nil_sublist _,.refl t.coverage⟩

theorem addPath (branch : Nat) (loc : Location) : Enters [] (addPath branch loc) :=
  (register (recording_addBranchPath _ _) fun _ _ _ h => addBranchPath_gains h).bind fun _ => .pure _

theorem coverSide (branch : Nat) (loc : Location) (ignored : Bool) (side : Node) :
    Enters [] (coverSide branch loc ignored side) := by
  unfold Action.coverSide
  split
  · split
    · exact (markSkip _).bind fun _ => .pure none
    · exact (addPath branch loc).bind fun _ => .pure _
  · exact fun t => ⟨[],.slnil,.refl t.coverage⟩

theorem coverIf (s : Span) (consequent : Node) (alternate : Option Node) :
    Enters [] (coverIf ctx s consequent alternate) := by
  unfold Action.coverIf
  split
  · exact .pure _
  · exact (newBranch _ _).bind fun b => (coverSide b _ _ _).bind fun _ =>
      (coverSide b _ _ _).bind fun _ => .pure _

theorem coverCompound (form : CompoundForm) (s : Span) (init : Option Node) :
    Enters [] (coverCompound ctx form s init) := by
  unfold Action.coverCompound
  split
  · exact (markSkip _).bind fun _ => (coverStatement _ s).bind fun _ => .pure true
  · exact (coverStatement _ s).bind fun _ => .pure true

theorem coverSwitch (s : Span) : Enters [] (coverSwitch ctx s) := by
  unfold Action.coverSwitch
  split
  · exact coverStatement _ s
  · refine (newBranch _ _).bind fun b => (?_ : Enters [] _)
    have hnote : Enters [] (modify fun t : Traversal =>
        { t with marks := t.marks.setBranch ⟨.switch,s⟩ b } : Action Unit) :=
      fun t => ⟨[],.slnil,.refl t.coverage⟩
    exact hnote.bind fun _ => coverStatement _ s

theorem coverCase (s : Span) (switch : Key) : Enters [] (coverCase ctx s switch) := by
  intro t
  unfold Action.coverCase
  rw [run_get_bind]
  split
  · exact ⟨[],.slnil,.refl t.coverage⟩
  · split
    · exact ⟨[],.slnil,.refl t.coverage⟩
    · exact ((addPath _ _).bind fun _ => .pure _) t

theorem coverOperand (branch : Nat) (n : Node) : Enters [] (coverOperand ctx branch n) := by
  unfold Action.coverOperand
  split
  · exact .pure none
  · split
    · exact .pure none
    · exact (addPath branch _).bind fun _ => .pure _

theorem coverConditional (s : Span) (consequent alternate : Node) :
    Enters [] (coverConditional ctx s consequent alternate) := by
  unfold Action.coverConditional
  split
  · exact .pure _
  · exact (newBranch _ _).bind fun b => (coverOperand b consequent).bind fun _ =>
      (coverOperand b alternate).bind fun _ => .pure _

theorem mapM {f : α → Action β} (hf : ∀ x, Enters [] (f x)) (xs : List α) :
    Enters [] (xs.mapM f) := by
  induction xs with
  | nil => exact .pure []
  | cons x xs ih =>
    rw [List.mapM_cons]
    exact (hf x).bind fun _ => ih.bind fun _ => .pure _

theorem coverChain (s : Span) (left right : Node) : Enters [] (coverChain ctx s left right) := by
  unfold Action.coverChain
  split
  · exact .pure []
  · exact (newBranch _ _).bind fun b => mapM (fun n => coverOperand b n) _

theorem coverDefault (s : Span) (value : Option Node) : Enters [] (coverDefault ctx s value) := by
  cases value with
  | none => exact .pure none
  | some value =>
    simp only [Action.coverDefault]
    split
    · exact .pure none
    · refine (newBranch _ _).bind fun b => (?_ : Enters [] _)
      split
      · exact .pure none
      · exact (addPath b _).bind fun _ => .pure _

end Enters
end Action
end CoverageCounters
