import CoverageCounters.Proofs.Recording

/-!
Walks that add given records to the tables. The records hold wherever counting is on and the marks on the
keys to be visited are those asked for, as long as no key with a place is visited twice: then a mark
reaches only the node it is meant for, and one walk leaves the marks of the next alone.
-/

namespace CoverageCounters

/-- Keys of which none with a place stands twice. -/
def Fresh (keys : List Key) : Prop := ∀ k, k.isSynthetic = false → keys.count k ≤ 1

namespace Fresh

variable {keys keys' : List Key} {k : Key}

theorem of_count_le (h : Fresh keys') (hk : ∀ k, keys.count k ≤ keys'.count k) : Fresh keys :=
  fun k hs => Nat.le_trans (hk k) (h k hs)

theorem left (h : Fresh (keys ++ keys')) : Fresh keys :=
  h.of_count_le fun _ => (List.sublist_append_left _ _).count_le _

theorem right (h : Fresh (keys ++ keys')) : Fresh keys' :=
  h.of_count_le fun _ => (List.sublist_append_right _ _).count_le _

theorem tail (h : Fresh (k :: keys)) : Fresh keys :=
  h.of_count_le fun _ => List.count_le_count_cons

theorem notMem_tail (h : Fresh (k :: keys)) (hs : k.isSynthetic = false) : k ∉ keys := by
  intro hk
  have hc := h k hs
  rw [List.count_cons_self] at hc
  have hp := List.count_pos_iff.mpr hk
  omega

theorem notMem_right (h : Fresh (keys ++ keys')) (hk : k ∈ keys) (hs : k.isSynthetic = false) :
    k ∉ keys' := by
  intro hk'
  have hc := h k hs
  rw [List.count_append] at hc
  have h₁ := List.count_pos_iff.mpr hk
  have h₂ := List.count_pos_iff.mpr hk'
  omega

theorem notMem_left (h : Fresh (keys ++ keys')) (hk : k ∈ keys') (hs : k.isSynthetic = false) :
    k ∉ keys :=
  fun hk' => h.notMem_right hk' hs hk

end Fresh

namespace Traversal

variable {ctx : Context} {visited : Key → Prop} {chain : Bool} {asked keys : List Key}
  {t u : Traversal}

theorem notWithin {k : Key} (hr : k.isSynthetic = false) (hk : ¬visited k) : ¬Within visited k := by
  rintro (h | h)
  · rw [hr] at h
    cases h
  · exact hk h

/-- A state in which nodes are counted, as operands of a chain or not. -/
structure Counting (chain : Bool) (t : Traversal) : Prop where
  anchor : t.anchor = none
  inChain : t.inChain = chain
  synthetic : ∀ k, k.isSynthetic = true → t.marks.get? k = none

/-- Among the keys exactly those asked for are to be left out. -/
def Asks (asked keys : List Key) (t : Traversal) : Prop :=
  ∀ k ∈ keys, k.isSynthetic = false → t.marks.skips k = decide (k ∈ asked)

theorem Counting.anchorBelow (h : t.Counting chain) : t.AnchorBelow := by
  intro a ha
  rw [h.anchor] at ha
  cases ha

theorem Counting.of_run (h : t.Counting chain) (hr : Run ctx visited t u) : u.Counting chain :=
  have hp := hr.samePlace h.anchorBelow
  ⟨hp.anchor.trans h.anchor,hp.inChain.trans h.inChain,
    fun k hk => hr.get?_marks_of_isSynthetic hk (h.synthetic k hk)⟩

/-- What is asked for stays so while other keys are visited. -/
theorem Asks.of_run {keys' : List Key} (h : t.Asks asked keys) (hr : Run ctx (· ∈ keys') t u)
    (hk : ∀ k ∈ keys, k.isSynthetic = false → k ∉ keys') : u.Asks asked keys := by
  intro k hkey hreal
  rw [Marks.skips,hr.get?_marks (notWithin hreal (hk k hkey hreal)),← Marks.skips,h k hkey hreal]

/-- What an action asks for is added to what was asked before the node was entered. -/
theorem Asks.of_asked {asked' : List Key} {e : Traversal} (h : t.Asks asked keys)
    (he : e.marks = t.marks) (ha : Asked asked' e u) : u.Asks (asked ++ asked') keys := by
  intro k hkey hreal
  rw [ha k hreal,he,h k hkey hreal]
  simp

theorem Counting.skips_eq_false {key : Key} (h : t.Counting chain) (ha : t.Asks asked keys)
    (hk : Within (· ∈ keys) key) (hn : key ∉ asked) : t.marks.skips key = false := by
  cases hs : key.isSynthetic with
  | true => rw [Marks.skips,h.synthetic key hs]
  | false =>
    rcases hk with hk | hk
    · rw [hs] at hk
      cases hk
    · rw [ha key hk hs]
      simp [hn]

/-- A node that is neither asked for nor left out is entered with counting on. -/
theorem Counting.enter {key : Key} {name : Option String} (h : t.Counting chain)
    (hs : t.startsSuppression ctx key name = false) : (t.enter ctx key name).Counting chain := by
  refine ⟨?_,h.inChain,h.synthetic⟩
  simp only [Traversal.enter,hs]
  exact h.anchor

theorem Counting.startsSuppression_eq {key : Key} {name : Option String} (h : t.Counting chain)
    (hs : t.marks.skips key = false) :
    t.startsSuppression ctx key name = ctx.leavesOut key.span name := by
  rw [startsSuppression,isSuppressed,h.anchor,hs,Bool.or_false]
  rfl

end Traversal

namespace Walk

open Traversal

variable {α β : Type} {ctx : Context} {visited : Key → Prop} {chain : Bool} {t : Traversal}

section Visits

variable {key : Key} {name : Option String} {action : Action α} {idle : α} {inside : α → Walk β}

/-- A node that switches counting off adds nothing. -/
theorem coverage_visiting_of_starts (hm : Action.Acting ctx key (Within visited) action)
    (hi : ∀ a, Runs ctx visited (inside a)) (ht : t.AnchorBelow)
    (hs : t.startsSuppression ctx key name = true) :
    ((visiting ctx key name action idle inside).run t).2.coverage = t.coverage := by
  have hq : (t.enter ctx key name).Quiet := by
    refine Or.inr ?_
    simp only [isSuppressed,enter,hs]
    rfl
  have ha : (t.enter ctx key name).AnchorBelow := ht.enter key name
  have he := (Runs.attempts hm idle (t.enter ctx key name)).eq_of_quiet hq
  rw [run_visiting]
  dsimp only
  rw [he]
  exact ((hi _ _).eq_of_quiet ha hq).1

/-- What entering a node with counting on comes to: a node without a place has no action, and the
action of any other gives a result. -/
inductive Enters (ctx : Context) (key : Key) (name : Option String) (action : Action α) (idle : α)
    (t : Traversal) : α → Traversal → Prop where
  | idle (hk : key.isSynthetic = true) :
      Enters ctx key name action idle t idle (t.enter ctx key name)
  | done {x : α} {u : Traversal} (hk : key.isSynthetic = false)
      (h : action.run.run (t.enter ctx key name) = (.ok x,u)) :
      Enters ctx key name action idle t x u

theorem enters_of_failure_eq_none (hc : (t.enter ctx key name).Counting chain)
    (hf : ((attempt key action idle).run (t.enter ctx key name)).2.failure = none) :
    Enters ctx key name action idle t ((attempt key action idle).run (t.enter ctx key name)).1
      ((attempt key action idle).run (t.enter ctx key name)).2 := by
  have hcount : (t.enter ctx key name).counts key = (t.failure.isNone && !key.isSynthetic) := by
    rw [counts,isSuppressed,hc.anchor,Option.isSome_none,Bool.not_false,Bool.and_true]
    rfl
  rw [run_attempt,hcount] at hf ⊢
  cases hk : key.isSynthetic with
  | true =>
    rw [Bool.not_true,Bool.and_false]
    exact .idle hk
  | false =>
    rw [hk,Bool.not_false,Bool.and_true] at hf
    cases ht : t.failure with
    | some e =>
      rw [ht] at hf
      exact absurd (ht.symm.trans hf) (Option.some_ne_none e)
    | none =>
      rw [ht] at hf
      cases hr : action.run.run (t.enter ctx key name) with
      | mk r u =>
        cases r with
        | ok x => exact .done hk hr
        | error e =>
          rw [hr] at hf
          cases hu : u.failure <;> simp [hu] at hf

/-- A node that is neither asked for nor left out is entered, and its walk is what is walked inside. -/
theorem exists_entered (hm : Action.Acting ctx key (Within visited) action)
    (hi : ∀ a, Runs ctx visited (inside a)) (hc : t.Counting chain)
    (hs : t.marks.skips key = false) (hl : ctx.leavesOut key.span name = false)
    (hf : ((visiting ctx key name action idle inside).run t).2.failure = none) :
    ∃ x u, Enters ctx key name action idle t x u ∧ u.Counting chain ∧ u.hoist = t.hoist ∧
      ((inside x).run u).2.failure = none ∧
      (visiting ctx key name action idle inside).run t =
        (((inside x).run u).1,((inside x).run u).2.leave key (t.depth + 1)) := by
  have he := hc.enter ((hc.startsSuppression_eq hs).trans hl)
  have hatt := Runs.attempts hm idle (t.enter ctx key name)
  rw [run_visiting] at hf ⊢
  dsimp only at hf ⊢
  have hp : SamePlace (t.enter ctx key name) _ := hatt.samePlace
  have hu : Counting chain ((attempt key action idle).run (t.enter ctx key name)).2 :=
    ⟨hp.anchor.trans he.anchor,hp.inChain.trans he.inChain,
      fun k hk => hatt.get?_marks_of_isSynthetic hk (he.synthetic k hk)⟩
  have hn := (hi _ _).failure_eq_none hu.anchorBelow hf
  exact ⟨_,_,enters_of_failure_eq_none he hn,hu,hatt.hoist_eq,hf,rfl⟩

/-- A node that is not asked for is left out, or entered and walked inside. -/
theorem visiting_cases (hm : Action.Acting ctx key (Within visited) action)
    (hi : ∀ a, Runs ctx visited (inside a)) (hc : t.Counting chain)
    (hs : t.marks.skips key = false)
    (hf : ((visiting ctx key name action idle inside).run t).2.failure = none) :
    (ctx.leavesOut key.span name = true ∧
      ((visiting ctx key name action idle inside).run t).2.coverage = t.coverage) ∨
    (ctx.leavesOut key.span name = false ∧ ∃ x u, Enters ctx key name action idle t x u ∧
      u.Counting chain ∧ ((inside x).run u).2.failure = none ∧
      ((visiting ctx key name action idle inside).run t).2.coverage =
        ((inside x).run u).2.coverage) := by
  cases hl : ctx.leavesOut key.span name with
  | true =>
    have hst := (hc.startsSuppression_eq hs).trans hl
    exact Or.inl ⟨rfl,coverage_visiting_of_starts hm hi hc.anchorBelow hst⟩
  | false =>
    obtain ⟨x,u,he,hu,-,hn,heq⟩ := exists_entered hm hi hc hs hl hf
    exact Or.inr ⟨rfl,x,u,he,hu,hn,congrArg (fun r => r.2.coverage) heq⟩

end Visits

/-- A walk adds the given records, wherever counting is on and the keys it visits are fresh. -/
structure Collects (ctx : Context) (chain : Bool) (asked keys : List Key) (w : Walk α)
    (r : Records) : Prop where
  runs : ∀ visited : Key → Prop, (∀ k ∈ keys, visited k) → Runs ctx visited w
  asked_subset : ∀ k ∈ asked, k ∈ keys
  tables : Fresh keys → ∀ t : Traversal, t.Counting chain → t.Asks asked keys →
    (w.run t).2.failure = none → t.coverage.Extends r (w.run t).2.coverage

namespace Collects

variable {asked asked' keys keys' : List Key} {r r' : Records}

theorem pure (a : α) : Collects ctx chain [] [] (Pure.pure a : Walk α) ∅ :=
  ⟨fun _ _ => .pure a,nofun,fun _ _ _ _ _ => .refl _⟩

theorem map {w : Walk α} (h : Collects ctx chain asked keys w r) (f : α → β) :
    Collects ctx chain asked keys (w >>= fun a => Pure.pure (f a)) r :=
  ⟨fun visited hk => (h.runs visited hk).bind fun _ => .pure _,h.asked_subset,h.tables⟩

theorem of_count_le {w : Walk α} (h : Collects ctx chain asked keys w r)
    (hk : ∀ k, keys.count k ≤ keys'.count k) : Collects ctx chain asked keys' w r := by
  have hm : ∀ k ∈ keys, k ∈ keys' := fun k h =>
    List.count_pos_iff.mp (Nat.lt_of_lt_of_le (List.count_pos_iff.mpr h) (hk k))
  exact ⟨fun visited hv => h.runs visited fun k h => hv k (hm k h),
    fun k ha => hm k (h.asked_subset k ha),
    fun hf t hc ha => h.tables (hf.of_count_le hk) t hc fun k h => ha k (hm k h)⟩

/-- One walk after the other. Marks meant for the second are not touched by the first. -/
theorem bind {w : Walk α} {f : α → Walk β} (h₁ : Collects ctx chain asked keys w r)
    (h₂ : ∀ a, Collects ctx chain asked' keys' (f a) r') :
    Collects ctx chain (asked ++ asked') (keys ++ keys') (w >>= f) (r ++ r') := by
  -- a walk gives an answer from any state
  have hs : ∀ k ∈ asked', k ∈ keys' := (h₂ (w.run (.start (.new ""))).1).asked_subset
  refine ⟨fun visited hk => ?_,fun k hk => ?_,fun hf t hc ha hn => ?_⟩
  · exact (h₁.runs visited fun k h => hk k (List.mem_append_left _ h)).bind fun a =>
      (h₂ a).runs visited fun k h => hk k (List.mem_append_right _ h)
  · rcases List.mem_append.mp hk with hk | hk
    · exact List.mem_append_left _ (h₁.asked_subset k hk)
    · exact List.mem_append_right _ (hs k hk)
  · have hrun : Run ctx (· ∈ keys) t (w.run t).2 := h₁.runs _ (fun _ => id) t
    have hu := hc.of_run hrun
    have hnu : (w.run t).2.failure = none :=
      ((h₂ _).runs (· ∈ keys') (fun _ => id) _).failure_eq_none hu.anchorBelow hn
    have ha₁ : t.Asks asked keys := by
      intro k hk hr
      rw [ha k (List.mem_append_left _ hk) hr]
      have hna : k ∉ asked' := fun h => hf.notMem_right hk hr (hs k h)
      simp [hna]
    have ha₂ : t.Asks asked' keys' := by
      intro k hk hr
      rw [ha k (List.mem_append_right _ hk) hr]
      have hna : k ∉ asked := fun h => hf.notMem_left hk hr (h₁.asked_subset k h)
      simp [hna]
    have ha₂ := ha₂.of_run hrun fun _ => hf.notMem_left
    exact (h₁.tables hf.left t hc ha₁ hnu).trans ((h₂ _).tables hf.right _ hu ha₂ hn)

section Visits

variable {key : Key} {name : Option String} {action : Action α} {idle : α} {inside : α → Walk β}
  {own rest : Records} (asks : α → List Key) (records : α → Records)

/-- A visit with marks set before it. What the action asks for is left out inside. -/
theorem visiting_asked (hk : Within (· ∈ keys) key) (ha : key ∉ asked)
    (hm : ∀ visited, (∀ k ∈ keys, visited k) → Action.Acting ctx key (Within visited) action)
    (hi : ∀ x, Collects ctx chain (asked ++ asks x) keys (inside x) (records x))
    (hidle : key.isSynthetic = true → own = ∅ ∧ asks idle = [] ∧ records idle = rest)
    (hdone : key.isSynthetic = false → ∀ t x u, action.run.run t = (.ok x,u) →
      Notes (asks x) own t u ∧ records x = rest) :
    Collects ctx chain asked keys (Walk.visiting ctx key name action idle inside)
      (ctx.unlessLeftOut key.span name (own ++ rest)) := by
  have hr : ∀ visited : Key → Prop, (∀ k ∈ keys, visited k) → ∀ x, Runs ctx visited (inside x) :=
    fun visited hv x => (hi x).runs visited hv
  refine ⟨fun visited hv => .visiting (hk.imp id (hv key)) (hm visited hv) (hr visited hv),
    fun k h => (hi idle).asked_subset k (List.mem_append_left _ h),fun hf t hc hasks hn => ?_⟩
  have hs := hc.skips_eq_false hasks hk ha
  rcases visiting_cases (hm (· ∈ keys) fun _ => id) (hr _ fun _ => id) hc hs hn with
    ⟨hl,heq⟩ | ⟨hl,x,u,he,hu,hnu,heq⟩
  · rw [heq,Context.unlessLeftOut,if_pos hl]
    exact .refl _
  · rw [heq,Context.unlessLeftOut,hl]
    cases he with
    | idle hsyn =>
      obtain ⟨ho,ha',hrec⟩ := hidle hsyn
      have hx := hi idle
      rw [ha',List.append_nil,hrec] at hx
      rw [ho]
      exact hx.tables hf _ hu hasks hnu
    | done hsyn hrun =>
      obtain ⟨hnotes,hrec⟩ := hdone hsyn _ _ _ hrun
      have hx := (hi x).tables hf u hu (hasks.of_asked rfl hnotes.asked) hnu
      rw [hrec] at hx
      exact hnotes.tables.trans hx

theorem visiting (hm : ∀ visited, (∀ k ∈ key :: keys, visited k) →
      Action.Acting ctx key (Within visited) action)
    (hi : ∀ x, Collects ctx chain (asks x) keys (inside x) (records x))
    (hidle : key.isSynthetic = true → own = ∅ ∧ asks idle = [] ∧ records idle = rest)
    (hdone : key.isSynthetic = false → ∀ t x u, action.run.run t = (.ok x,u) →
      Notes (asks x) own t u ∧ records x = rest) :
    Collects ctx chain [] (key :: keys) (Walk.visiting ctx key name action idle inside)
      (ctx.unlessLeftOut key.span name (own ++ rest)) :=
  visiting_asked asks records (Or.inr List.mem_cons_self) List.not_mem_nil hm
    (fun x => (hi x).of_count_le fun _ => List.count_le_count_cons) hidle hdone

/-- A visit that asks for nothing, with the same walk inside whatever the action gives. -/
theorem visiting_plain (hm : ∀ visited, Action.Acting ctx key (Within visited) action)
    (hi : ∀ x, Collects ctx chain [] keys (inside x) rest) (hidle : key.isSynthetic = true → own = ∅)
    (hdone : key.isSynthetic = false → ∀ t x u, action.run.run t = (.ok x,u) → Notes [] own t u) :
    Collects ctx chain [] (key :: keys) (Walk.visiting ctx key name action idle inside)
      (ctx.unlessLeftOut key.span name (own ++ rest)) :=
  visiting (fun _ => []) (fun _ => rest) (fun visited _ => hm visited) hi
    (fun hk => ⟨hidle hk,rfl,rfl⟩) fun hk t x u h => ⟨hdone hk t x u h,rfl⟩

theorem visiting_pure {x : α} (hi : ∀ x, Collects ctx chain [] keys (inside x) r) :
    Collects ctx chain [] (key :: keys) (Walk.visiting ctx key name (Pure.pure x) idle inside)
      (ctx.unlessLeftOut key.span name r) := by
  have h : Collects ctx chain [] (key :: keys) (Walk.visiting ctx key name (Pure.pure x) idle inside)
      (ctx.unlessLeftOut key.span name (∅ ++ r)) := by
    refine visiting_plain (fun _ => .pure x) hi (fun _ => rfl) fun _ t y u hr => ?_
    cases hr
    exact .refl _
  exact h

theorem passing_within {w : Walk β} (hk : Within (· ∈ keys) key) (ha : key ∉ asked)
    (h : Collects ctx chain asked keys w r) :
    Collects ctx chain asked keys (Walk.passing ctx key w) (ctx.unlessLeftOut key.span none r) :=
  visiting_asked (fun _ => []) (fun _ => r) hk ha (fun _ _ => .pure ())
    (fun _ => by rw [List.append_nil]; exact h) (fun _ => ⟨rfl,rfl,rfl⟩) fun _ t x u hr => by
      cases hr
      exact ⟨.refl _,rfl⟩

theorem passing {w : Walk β} (h : Collects ctx chain asked keys w r) (ha : key ∉ asked) :
    Collects ctx chain asked (key :: keys) (Walk.passing ctx key w)
      (ctx.unlessLeftOut key.span none r) :=
  passing_within (Or.inr List.mem_cons_self) ha (h.of_count_le fun _ => List.count_le_count_cons)

theorem passing_dummy {w : Walk β} {kind : Kind} (h : Collects ctx chain [] keys w r) :
    Collects ctx chain [] keys (Walk.passing ctx ⟨kind,.dummy⟩ w) r :=
  passing_within (Or.inl rfl) List.not_mem_nil h

end Visits

theorem withChain {w : Walk α} (inside : Bool) (h : Collects ctx inside asked keys w r) :
    Collects ctx chain asked keys (Walk.withChain inside w) r :=
  ⟨fun visited hk => .withChain inside (h.runs visited hk),h.asked_subset,fun hf t hc ha hn =>
    h.tables hf { t with inChain := inside } ⟨hc.anchor,rfl,hc.synthetic⟩ ha hn⟩

theorem takeHoist : Collects ctx chain [] [] Walk.takeHoist ∅ :=
  ⟨fun _ _ => .takeHoist,nofun,fun _ _ _ _ _ => .refl _⟩

variable {walk : Walk Node}

theorem asItem (declares : Bool) (h : Collects ctx chain asked keys walk r) :
    Collects ctx chain asked keys (Walk.asItem declares walk) r :=
  ⟨fun visited hk => .asItem declares (h.runs visited hk),h.asked_subset,fun hf t hc ha hn =>
    h.tables hf { t with frames := [] :: t.frames, hoist := declares }
      ⟨hc.anchor,hc.inChain,hc.synthetic⟩ ha hn⟩

theorem behind? (c : Option Counter) (h : Collects ctx chain [] keys walk r) :
    Collects ctx chain [] keys (Walk.behind? ctx c walk) r := by
  cases c with
  | none => exact h
  | some c => exact passing_dummy (h.map _)

theorem inParens (wanted : Bool) (heritage : Node) (h : Collects ctx chain [] keys walk r) :
    Collects ctx chain [] keys (Walk.inParens ctx wanted heritage walk) r := by
  unfold Walk.inParens
  split
  · exact passing_dummy (h.map _)
  · exact h

/-- An operand that is part of the chain is walked as such; any other starts anew. -/
theorem operand {n : Node} {counters : List (Option Counter)}
    {walk : List (Option Counter) → Walk Node}
    (h : ∀ c, Collects ctx n.isChain [] keys (walk c) r) :
    Collects ctx true [] keys (Walk.operand ctx n counters walk) r := by
  unfold Walk.operand
  cases hn : n.isChain with
  | true =>
    rw [hn] at h
    exact h counters
  | false =>
    rw [hn] at h
    exact withChain false ((h []).behind? _)

/-- Nothing is recorded of a counter that is put in. -/
theorem counterItem (c : Option Counter) : Collects ctx chain [] [] (Walk.counterItem ctx c) ∅ := by
  refine ⟨fun _ _ => .counterItem c,nofun,fun _ t _ _ _ => ?_⟩
  cases c with
  | none => exact .refl _
  | some c =>
    rw [run_counterItem]
    exact .refl _

theorem afterCounter {α : Type} {f : List (List Node × Node) → Walk α} (c : Option Counter)
    (h : ∀ first, Collects ctx chain asked keys (f first) r) :
    Collects ctx chain asked keys (Walk.counterItem ctx c >>= f) r :=
  (counterItem c).bind h

theorem inBlock (c : Option Counter) (body : Node) {walk : List (Option Counter) → Walk Node}
    (h : ∀ given, Collects ctx chain [] keys (walk given) r) :
    Collects ctx chain [] (body.blockKeys ++ keys) (Walk.inBlock ctx c body walk)
      (ctx.bodyRecords true body r) := by
  unfold Walk.inBlock
  rw [Node.blockKeys,Context.bodyRecords]
  cases hb : body.isBlock with
  | true => exact h [c]
  | false => exact passing (.afterCounter c fun _ => ((h []).asItem _).map _) List.not_mem_nil

theorem asBody (counted : Bool) (body : Node) {walk : List (Option Counter) → Walk Node}
    (h : ∀ given, Collects ctx chain [] keys (walk given) r) :
    Collects ctx chain [] (body.blockKeys ++ keys) (Walk.asBody ctx counted body walk)
      (ctx.bodyRecords counted body r) := by
  cases counted with
  | true => exact .inBlock none body h
  | false => exact (h []).of_count_le fun _ => (List.sublist_append_right _ _).count_le _

theorem asReturn (c : Counter) (s : Span) (h : Collects ctx chain [] keys walk r) :
    Collects ctx chain [] (⟨.block,s⟩ :: ⟨.return,s⟩ :: keys) (Walk.asReturn ctx c s walk)
      (ctx.unlessLeftOut s none (ctx.unlessLeftOut s none (ctx.statementRecords s ++ r))) := by
  refine passing (.afterCounter _ fun _ => Collects.map ?_ _) List.not_mem_nil
  refine (visiting_plain (fun _ => .coverStatement _ s) (fun _ => h.map _) (fun hk => ?_)
    fun _ _ _ _ => Action.coverStatement_notes).asItem false
  exact ctx.statementRecords_of_isDummy hk

end Collects

/-- A walk that adds nothing where its node is asked to be left out. -/
def Skips (key : Key) (w : Walk α) : Prop :=
  ∀ t : Traversal, t.anchor = none → t.marks.skips key = true → (w.run t).2.coverage = t.coverage

namespace Skips

variable {key : Key}

theorem visiting {name : Option String} {action : Action α} {idle : α} {inside : α → Walk β}
    (hm : Action.Acting ctx key (Within fun _ => True) action)
    (hi : ∀ a, Runs ctx (fun _ => True) (inside a)) :
    Skips key (visiting ctx key name action idle inside) := by
  intro t ha hs
  have hst : t.startsSuppression ctx key name = true := by
    rw [startsSuppression,isSuppressed,ha,hs,Bool.or_true]
    rfl
  refine coverage_visiting_of_starts hm hi (fun a h => ?_) hst
  rw [ha] at h
  cases h

theorem passing {w : Walk β} (h : Runs ctx (fun _ => True) w) : Skips key (passing ctx key w) :=
  visiting (.pure ()) fun _ => h

theorem inBlock {c : Option Counter} {body : Node} {walk : List (Option Counter) → Walk Node}
    (hb : body.isBlock = true → ∀ given, Skips ⟨.block,body.span⟩ (walk given))
    (hw : ∀ given, Runs ctx (fun _ => True) (walk given)) :
    Skips ⟨.block,body.span⟩ (inBlock ctx c body walk) := by
  unfold Walk.inBlock
  split
  · rename_i h
    exact hb h [c]
  · exact passing ((Runs.counterItem c).bind fun _ => (Runs.asItem _ (hw [])).bind fun _ => .pure _)

end Skips

/-- A node that may be asked to be left out, under its key. -/
theorem Collects.asking (asked : Bool) {key : Key} {keys : List Key} {w : Walk α} {r : Records}
    (h : Collects ctx chain [] keys w r) (hs : Skips key w) (hk : key ∈ keys) :
    Collects ctx chain (if asked then [key] else []) keys w (.unlessAsked asked key.span r) := by
  cases asked with
  | false => exact h
  | true =>
    refine ⟨h.runs,fun k ha => ?_,fun hf t hc ha hn => ?_⟩
    · rw [List.mem_singleton.mp ha]
      exact hk
    · have hd : key.span.isDummy = key.isSynthetic := rfl
      rw [Records.unlessAsked,hd]
      cases hsyn : key.isSynthetic with
      | true =>
        refine h.tables hf t hc (fun k hkey hreal => ?_) hn
        have hne : k ≠ key := fun he => by rw [he,hsyn] at hreal; cases hreal
        rw [ha k hkey hreal]
        simp [hne]
      | false =>
        have hskip : t.marks.skips key = true := by
          rw [ha key hk hsyn]
          simp
        rw [hs t hc.anchor hskip]
        exact .refl _

end Walk
end CoverageCounters
