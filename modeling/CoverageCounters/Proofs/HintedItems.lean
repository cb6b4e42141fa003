import CoverageCounters.Proofs.CommentReading
import CoverageCounters.Proofs.Suppression

/-!
Hints in front of list items. A hint that leads the place where an item is entered silences the whole
item and nothing else: the items around it are walked as if it were not there. The place of an export is
not one of these, since only the declaration inside is entered; a hint in front of it is missed.
-/

namespace CoverageCounters

open Walk Traversal

/-- A state that a construct has left as it was, but for the last source-map reference and for the marks
on its own keys. -/
structure Traversal.Untouched (keys : List Key) (t u : Traversal) : Prop where
  place : SamePlace t u
  coverage : u.coverage = t.coverage
  failure : u.failure = t.failure
  frames : u.frames = t.frames
  marks : ∀ k, ¬Within (· ∈ keys) k → u.marks.get? k = t.marks.get? k

/-- The outcome of a walk that is a single visit to a node, led by the hint at the given place. -/
structure Traced.Enters (r : (Node × Traversal) × List Visit) (t : Traversal) (n : Node) (s : Span)
    (v : Visit) : Prop where
  visits : r.2 = [v]
  span : v.key.span = s
  anchor : v.before.anchor = t.anchor
  coverage : v.before.coverage = t.coverage
  failure : v.before.failure = t.failure
  frames : v.before.frames = t.frames
  after : r.1.2 = v.after
  kept : v.left = v.found → r.1.1 = n

namespace Node

variable {ctx : Context} {n : Node} {s : Span}

/-- Where the hint that leaves a list item out is looked up. An export is not entered itself, but the
declaration in it is; items of other kinds are not entered at all. -/
def hintSpan? : Node → Option Span
  | plain _ _ => none
  | exported _ declaration => declaration.hintSpan?
  | namespaceBlock _ _ => none
  | function head key _ _ _ => some (head.key key).span
  | n => some n.span

theorem visiting_enters {α : Type} {key : Key} {name : Option String} {action : Action α} {idle : α}
    {inside : α → Traced Node} {found : Node} (hf : found = n) (t : Traversal) :
    ∃ v, Traced.Enters (Traced.visiting ctx .node found key name action idle inside t) t n key.span v :=
  ⟨_,rfl,rfl,rfl,rfl,rfl,rfl,rfl,fun h => (Construct.node.inj h).trans hf⟩

theorem passing_enters {key : Key} {inside : Traced Node} {found : Node} (hf : found = n)
    (t : Traversal) :
    ∃ v, Traced.Enters (Traced.passing ctx .node found key inside t) t n key.span v :=
  visiting_enters hf t

theorem traced_enters (ctx : Context) (hs : n.hintSpan? = some s) (t : Traversal) :
    ∃ v, Traced.Enters (n.traced ctx [] t) t n s v := by
  induction n using induction_children with
  | step n ih =>
    cases n with
    | plain head parts => cases hs
    | namespaceBlock span items => cases hs
    | exported span declaration =>
      obtain ⟨v,hv⟩ := ih declaration List.mem_cons_self hs
      refine ⟨v,?_,hv.span,hv.anchor,hv.coverage,hv.failure,hv.frames,hv.after,fun h => ?_⟩
      · exact (List.append_nil _).trans hv.visits
      · exact congrArg (exported span) (hv.kept h)
    | paren span inner =>
      cases hs
      exact passing_enters (withGiven_nil ctx t.inChain _) t
    | logical span operator left right =>
      cases hs
      rw [traced_logical]
      exact visiting_enters (withGiven_nil ctx t.inChain _) t
    | bindings span data declarators =>
      cases hs
      obtain ⟨v,hv⟩ : ∃ v, Traced.Enters ((bindings span data declarators).traced ctx [] t)
          { t with hoist := false } (bindings span data declarators) span v :=
        passing_enters rfl { t with hoist := false }
      exact ⟨v,hv.visits,hv.span,hv.anchor,hv.coverage,hv.failure,hv.frames,hv.after,hv.kept⟩
    | block span statements =>
      cases hs
      exact passing_enters rfl t
    | _ =>
      cases hs
      exact visiting_enters rfl t

/-- A node whose hint leaves it out is left as it is, and so is the state. -/
theorem walk_of_hint (hs : n.hintSpan? = some s) (hh : ctx.directives.skips s = true)
    {t : Traversal} (ht : t.anchor = none) :
    ((n.walk ctx []).run t).1 = n ∧ Untouched n.keys t ((n.walk ctx []).run t).2 := by
  have ha : t.AnchorBelow := fun a h => by rw [ht] at h; cases h
  have hrun : Run ctx (· ∈ n.keys) t ((n.walk ctx []).run t).2 :=
    n.walk_runs (fun _ hk => hk) [] t
  have htr : (n.walk ctx []).run t = (n.traced ctx [] t).1 := by
    rw [← n.erase_traced ctx []]
    rfl
  obtain ⟨v,hv⟩ := n.traced_enters ctx hs t
  have hmem : v ∈ (n.traced ctx [] t).2 := by rw [hv.visits]; exact List.mem_singleton_self v
  obtain ⟨hb,-,hsilent,-⟩ := ((n.traced_bracketed ctx t.inChain []).visits t ha rfl v hmem).1
  have hstart : v.Silences ctx := by
    refine ⟨?_,?_⟩
    · rw [isSuppressed,hb,ht]
      rfl
    · rw [Visit.anchors,hv.span,hh]
      rfl
  obtain ⟨⟨hc,hf,hr⟩,hleft,-⟩ :=
    hsilent (isSuppressed_enter_of_starts (Visit.silences_iff.mp hstart))
  rw [htr] at hrun ⊢
  rw [← hv.after] at hc hf hr
  exact ⟨hv.kept hleft,hrun.samePlace ha,hc.trans hv.coverage,hf.trans hv.failure,
    hr.trans hv.frames,fun k hk => hrun.get?_marks hk⟩

end Node

section Lists

variable {ctx : Context} {before after : List Node} {item : Node} {s : Span} {c : Comments}
  {t : Traversal}

theorem run_walkItems_cons (n : Node) (rest : List Node) (t : Traversal) :
    (walkItems ctx (n :: rest)).run t =
      let first := (asItem n.declaresVariables (n.walk ctx [])).run t
      let others := (walkItems ctx rest).run first.2
      (first.1 :: others.1,others.2) := rfl

theorem run_walkItems_append (before after : List Node) (t : Traversal) :
    (walkItems ctx (before ++ after)).run t =
      let first := (walkItems ctx before).run t
      let others := (walkItems ctx after).run first.2
      (first.1 ++ others.1,others.2) := by
  induction before generalizing t with
  | nil => rfl
  | cons n rest ih => simp only [List.cons_append,run_walkItems_cons,ih]

/-- Nothing is put before an item whose hint leaves it out. -/
theorem asItem_of_hint (hs : item.hintSpan? = some s) (hh : ctx.directives.skips s = true)
    (ht : t.anchor = none) (declares : Bool) :
    ((asItem declares (item.walk ctx [])).run t).1 = ([],item) ∧
      Untouched item.keys t ((asItem declares (item.walk ctx [])).run t).2 := by
  obtain ⟨hn,hu⟩ := Node.walk_of_hint hs hh
    (t := { t with frames := [] :: t.frames, hoist := declares }) ht
  refine ⟨?_,⟨hu.place.depth,hu.place.anchor,hu.place.inChain⟩,hu.coverage,hu.failure,
    congrArg List.tail hu.frames,hu.marks⟩
  exact Prod.ext (congrArg (List.headD · []) hu.frames) hn

/-- A hint in front of an item of a list silences the whole item: nothing in it is counted, nothing is
put before it and it is left as it is. The items around it are walked as with any other comments that
say the same about their own places, such as the comments without the hint. -/
theorem walkItems_hinted (hs : item.hintSpan? = some s) (hh : ctx.directives.skips s = true)
    (ht : t.anchor = none) (hc : ∀ n ∈ before ++ after, n.Same ctx c) :
    ∃ u, Untouched item.keys ((walkItems (ctx.withComments c) before).run t).2 u ∧
      (walkItems ctx (before ++ item :: after)).run t =
        (((walkItems (ctx.withComments c) before).run t).1 ++
          ([],item) :: ((walkItems (ctx.withComments c) after).run u).1,
        ((walkItems (ctx.withComments c) after).run u).2) := by
  have hb : walkItems (ctx.withComments c) before = walkItems ctx before :=
    walkItems_withComments fun n hn => n.walk_withComments (hc n (List.mem_append_left _ hn)) []
  have ha : walkItems (ctx.withComments c) after = walkItems ctx after :=
    walkItems_withComments fun n hn => n.walk_withComments (hc n (List.mem_append_right _ hn)) []
  have hrun : Run ctx (fun _ => True) t ((walkItems ctx before).run t).2 :=
    walkItems_runs (fun n _ => n.walk_runs fun _ _ => trivial) t
  have hanchor : ((walkItems ctx before).run t).2.anchor = none :=
    (hrun.samePlace fun a h => by rw [ht] at h; cases h).anchor.trans ht
  obtain ⟨hi,hu⟩ := asItem_of_hint hs hh hanchor item.declaresVariables
  rw [hb,ha]
  refine ⟨_,hu,?_⟩
  simp only [run_walkItems_append,run_walkItems_cons,hi]

end Lists

theorem walkItems_hinted_next :
    (hintedFile.context {}).directives.skips hintedItem.span = true ∧
    ∃ u, u.coverage = CoverageMap.new "a.js" ∧
      ((walkItems (hintedFile.context {}) [hintedItem,nextItem]).run (.start (.new "a.js"))).1 =
        ([],hintedItem) :: ((walkItems ((hintedFile.context {}).withComments
          (hintedFile.comments.withoutLeading 28)) [nextItem]).run u).1 := by
  have hs : hintedItem.hintSpan? = some hintedItem.span := rfl
  have hh : (hintedFile.context {}).directives.skips hintedItem.span = true := by decide +kernel
  have hlo : ∀ s ∈ nextItem.places, s.lo ≠ 28 := by decide +kernel
  have hc : ∀ n ∈ [] ++ [nextItem],
      n.Same (hintedFile.context {}) (hintedFile.comments.withoutLeading 28) := by
    intro n hn s hs
    rw [List.mem_singleton.mp hn] at hs
    exact Context.sameAt_withoutLeading (hlo s hs)
  obtain ⟨u,hu,hr⟩ := walkItems_hinted (t := .start (.new "a.js")) hs hh rfl hc
  exact ⟨hh,u,hu.coverage,congrArg Prod.fst hr⟩

/-- The comments in front of an export make no difference, whatever they say. -/
theorem Node.walk_exported_withComments {ctx : Context} {c : Comments} {declaration : Node}
    (h : declaration.Same ctx c) (s : Span) (given : List (Option Counter)) :
    (exported s declaration).walk (ctx.withComments c) given =
      (exported s declaration).walk ctx given := by
  rw [walk,walk,walk_withComments h]

section Sample

def exportedFile : SourceFile :=
  ⟨"a.js",.ofString "/* istanbul ignore next */ export function f() \x7b return 1; \x7d",
    ⟨⟨[(28,[⟨" istanbul ignore next ",.ofBounds 1 27⟩])]⟩,.empty⟩⟩

def exportedItem : Node :=
  .exported (.ofBounds 28 61) <|
    .function ⟨.declaration,.ofBounds 35 61,[],none⟩
      (some (.leaf .identifier (.ofBounds 44 45) [("value",.string "f")])) []
      (.block (.ofBounds 48 61)
        [.simple .return (.ofBounds 50 59) [.child "argument" (sampleLiteral 1 57)]]) []

end Sample

/-- A hint in front of an export is missed: the function and its statement are counted. -/
theorem exported_hint_missed :
    (exportedFile.context {}).directives.skips exportedItem.span = true ∧
    ((Program.walk (exportedFile.context {}) (.new "a.js")
      ⟨.module,.ofBounds 28 61,[],[exportedItem]⟩).2.coverage.data.fnMap.map (·.name) = ["f"] ∧
    (Program.walk (exportedFile.context {}) (.new "a.js")
      ⟨.module,.ofBounds 28 61,[],[exportedItem]⟩).2.coverage.data.statementMap.length = 1) := by
  decide +kernel

end CoverageCounters
