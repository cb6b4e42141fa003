import CoverageCounters.Proofs.Laying
import CoverageCounters.Proofs.LoopInits
import CoverageCounters.Proofs.Safety
import CoverageCounters.Proofs.SnapshotAgreement
import CoverageCounters.Proofs.Standing

/-!
What a visit puts back. Marks are the part that is put back by others: a construct marks only constructs
that are visited inside it, and each forgets its mark when it is left. So a walk leaves no mark under the
keys it visits, and touches none under others. Depth, suppression, the queues and the notes follow from
its being a run.
-/

namespace CoverageCounters

open Traversal

/-- The keys under which constructs are visited, in the order they are entered. -/
def keysOf (visits : List Visit) : List Key := (visitOrder visits).map Visit.key

theorem keysOf_append (visits rest : List Visit) :
    keysOf (visits ++ rest) = keysOf visits ++ keysOf rest := by
  rw [keysOf,visitOrder_append,List.map_append,keysOf,keysOf]

theorem keysOf_singleton (v : Visit) : keysOf [v] = v.key :: keysOf v.inside := by
  rw [keysOf,visitOrder_cons,visitOrder,List.append_nil]
  rfl

section Keys

variable {α β : Type} {w : Traced α} {f : α → Traced β} {t : Traversal} {k : Key}

theorem mem_keysOf_bind_left (h : k ∈ keysOf (w t).2) : k ∈ keysOf ((w >>= f) t).2 := by
  change k ∈ keysOf ((w t).2 ++ _)
  rw [keysOf_append]
  exact List.mem_append_left _ h

theorem mem_keysOf_bind_right (h : k ∈ keysOf (f (w t).1.1 (w t).1.2).2) :
    k ∈ keysOf ((w >>= f) t).2 := by
  change k ∈ keysOf ((w t).2 ++ _)
  rw [keysOf_append]
  exact List.mem_append_right _ h

end Keys

theorem Nested.key_mem {visits around : List Visit} {v : Visit} (h : Nested visits v around) :
    v.key ∈ keysOf visits :=
  List.mem_map_of_mem h.mem_visitOrder

namespace Marks

variable {m m' : Marks}

theorem get?_update_same {k k' : Key} {f : Mark → Mark} (hk : k.isSynthetic = true) :
    (m.update k' f).get? k = m.get? k := by
  by_cases he : k = k'
  · rw [update_of_isSynthetic m f (he ▸ hk)]
  · exact get?_update_of_ne m f he

theorem eq_empty (h : ∀ k, m.get? k = none) : m = .empty := by
  obtain ⟨entries⟩ := m
  cases entries with
  | nil => rfl
  | cons e rest => exact absurd (h e.1) (by simp [get?])

/-- The marks of all constructs that were visited are gone, and no others have changed. -/
structure Forgets (visited : List Key) (m m' : Marks) : Prop where
  cleared : ∀ k ∈ visited, m'.get? k = none
  others : ∀ k, k ∉ visited → m'.get? k = m.get? k

theorem Forgets.append {keys keys' : List Key} {m'' : Marks} (h : Forgets keys m m')
    (h' : Forgets keys' m' m'') : Forgets (keys ++ keys') m m'' := by
  refine ⟨fun k hk => ?_,fun k hk => ?_⟩
  · by_cases hl : k ∈ keys'
    · exact h'.cleared k hl
    · exact (h'.others k hl).trans (h.cleared k ((List.mem_append.mp hk).resolve_right hl))
  · rw [List.mem_append,not_or] at hk
    exact (h'.others k hk.2).trans (h.others k hk.1)

/-- A construct that is left forgets its own mark too, and so all that was marked when it was entered. -/
theorem Forgets.leave {key : Key} {keys : List Key} {entered : Marks} (h : Forgets keys m m')
    (hm : ∀ k, k ∉ key :: keys → m.get? k = entered.get? k) :
    Forgets (key :: keys) entered (m'.clear key) := by
  refine ⟨fun k hk => ?_,fun k hk => ?_⟩
  · by_cases he : k = key
    · subst he
      exact get?_clear_self _ _
    · exact (get?_clear_of_ne _ he).trans (h.cleared k ((List.mem_cons.mp hk).resolve_left he))
  · obtain ⟨he,hl⟩ := not_or.mp (List.mem_cons.not.mp hk)
    exact (get?_clear_of_ne _ he).trans ((h.others k hl).trans (hm k hk))

end Marks

namespace Traversal

variable {ctx : Context} {visited marked : Key → Prop} {key k : Key} {t u start : Traversal}

/-- A state in which suppression can be ended and records can be added. -/
structure Workable (t : Traversal) : Prop where
  anchorBelow : t.AnchorBelow
  opened : t.coverage.frozen = false

namespace Workable

theorem run (ht : t.Workable) (h : Run ctx visited t u) : u.Workable :=
  ⟨(h.samePlace ht.anchorBelow).anchorBelow ht.anchorBelow,h.grows.frozen ht.opened⟩

theorem enter (ht : t.Workable) (key : Key) (name : Option String) : (t.enter ctx key name).Workable :=
  ⟨ht.anchorBelow.enter key name,ht.opened⟩

theorem attempts (ht : t.Workable) (h : Attempts ctx visited key t u) : u.Workable :=
  ⟨h.samePlace.anchorBelow ht.anchorBelow,h.grows.frozen ht.opened⟩

end Workable

/-- The states that a pass can come to from a first one: those that walks end in, those inside a construct
that is entered and acted on, and those at an item of a list or an operand of a chain. -/
inductive InPass (ctx : Context) (start : Traversal) : Traversal → Prop where
  | refl : InPass ctx start start
  | walked {t u : Traversal} (h : InPass ctx start t) (hr : Run ctx (fun _ => True) t u) :
      InPass ctx start u
  | inside {t u : Traversal} {key : Key} {name : Option String} (h : InPass ctx start t)
      (hu : Attempts ctx (fun _ => True) key (t.enter ctx key name) u) : InPass ctx start u
  | item {t : Traversal} (h : InPass ctx start t) (declares : Bool) :
      InPass ctx start { t with frames := [] :: t.frames, hoist := declares }
  | operand {t : Traversal} (h : InPass ctx start t) (inChain : Bool) :
      InPass ctx start { t with inChain }

namespace InPass

theorem trans (h₁ : InPass ctx start t) (h₂ : InPass ctx t u) : InPass ctx start u := by
  induction h₂ with
  | refl => exact h₁
  | walked _ hr ih => exact ih.walked hr
  | inside _ hu ih => exact ih.inside hu
  | item _ declares ih => exact ih.item declares
  | operand _ inChain ih => exact ih.operand inChain

theorem workable (h : InPass ctx start t) (hs : start.Workable) : t.Workable := by
  induction h with
  | refl => exact hs
  | walked _ hr ih => exact ih.run hr
  | @inside t u key name _ hu ih => exact (ih.enter key name).attempts hu
  | item _ _ ih | operand _ _ ih => exact ⟨ih.anchorBelow,ih.opened⟩

end InPass

/-- A state is restored by a walk that has visited the given keys: the place is the same, the open list has
at most more statements queued, all lists around it have what they had, and of the marks just those of what
was visited are gone. -/
structure Restored (visited : List Key) (t u : Traversal) : Prop
    extends Marks.Forgets visited t.marks u.marks where
  depth : u.depth = t.depth
  anchor : u.anchor = t.anchor
  inChain : u.inChain = t.inChain
  height : u.frames.length = t.frames.length
  below : u.frames.tail = t.frames.tail
  top : t.frames.headD [] <+: u.frames.headD []

theorem Queues.frames (h : Queues ctx t u) : u.frames.length = t.frames.length ∧
    u.frames.tail = t.frames.tail ∧ t.frames.headD [] <+: u.frames.headD [] := by
  obtain ⟨new,hu,-⟩ := h
  rw [hu]
  cases t.frames with
  | nil => exact ⟨rfl,rfl,List.prefix_rfl⟩
  | cons top rest => exact ⟨rfl,rfl,List.prefix_append top new⟩

theorem Restored.of_run {keys : List Key} (hr : Run ctx visited t u) (ht : t.Workable)
    (hm : Marks.Forgets keys t.marks u.marks) : Restored keys t u := by
  obtain ⟨hdepth,hanchor,hchain⟩ := hr.samePlace ht.anchorBelow
  obtain ⟨hheight,hbelow,htop⟩ := hr.queues.frames
  exact ⟨hm,hdepth,hanchor,hchain,hheight,hbelow,htop⟩

theorem Acts.mono {marked' : Key → Prop} (h : Acts ctx key marked t u) (hm : ∀ k, marked k → marked' k) :
    Acts ctx key marked' t u := by
  induction h with
  | refl => exact .refl
  | register _ hr ih => exact ih.register hr
  | skip _ hk ih => exact ih.skip (hm _ hk)
  | branch _ hb ih => exact ih.branch hb
  | queue _ hf ih => exact ih.queue hf

/-- An action leaves alone the marks of constructs that it does not mark. -/
theorem Acts.get?_marks_same (h : Acts ctx key marked t u)
    (hk : k.isSynthetic = true ∨ k ≠ key ∧ ¬ marked k) : u.marks.get? k = t.marks.get? k := by
  rcases hk with hk | hk
  · induction h with
    | refl => rfl
    | register _ _ ih | queue _ _ ih => exact ih
    | skip _ _ ih | branch _ _ ih => exact (Marks.get?_update_same hk).trans ih
  · exact h.get?_marks hk.1 hk.2

end Traversal

namespace Action

open Traversal

variable {ctx : Context} {n : Nat}

/-- An open map with so many branches at least. -/
def Registered (n : Nat) (t : Traversal) : Prop := t.coverage.frozen = false ∧ n ≤ t.coverage.branchCount

theorem Registered.register {t : Traversal} {m : CoverageMap} (ht : Registered n t)
    (h : t.coverage.Registers m) : Registered n { t with coverage := m } :=
  ⟨h.kept.1,Nat.le_trans ht.2 h.kept.2⟩

theorem coverSide_succeeds (b : Nat) (loc : Location) (ignored : Bool) {side : Node}
    (h : side.isBlock = true) :
    Succeeds (Registered (b + 1)) (coverSide b loc ignored side) fun _ => Registered (b + 1) := by
  obtain ⟨s,statements,rfl⟩ := Node.exists_block_of_isBlock h
  intro t ht
  simp only [coverSide]
  split
  · exact ⟨none,_,rfl,ht⟩
  · have hb : b < t.coverage.branchCount := ht.2
    obtain ⟨i,m,hp⟩ : ∃ i m, t.coverage.addBranchPath b loc = (.ok i,m) := by
      rw [CoverageMap.addBranchPath,CoverageMap.ifOpen,ht.1,if_pos hb]
      exact ⟨_,_,rfl⟩
    refine ⟨some (.branch b i),{ t with coverage := m },?_,ht.register (.path hp)⟩
    simp only [addPath,run_bind,run_register,hp,run_pure]

/-- Nothing can go wrong in counting the sides of an `if` while the map is open. -/
theorem exists_run_coverIf (ctx : Context) (s : Span) (consequent : Node) (alternate : Option Node)
    {t : Traversal} (ht : t.coverage.frozen = false) :
    ∃ counters u, (coverIf ctx s consequent alternate).run.run t = (.ok (some counters),u) := by
  unfold coverIf
  split
  · exact ⟨_,_,rfl⟩
  next loc _ =>
    obtain ⟨b,m,hb⟩ : ∃ b m, t.coverage.newBranch .ifElse loc = (.ok b,m) := by
      rw [CoverageMap.newBranch,CoverageMap.ifOpen,ht]
      exact ⟨_,_,rfl⟩
    have hm : Registered (b + 1) { t with coverage := m } :=
      ⟨(CoverageMap.Registers.branch hb).kept.1,CoverageMap.lt_branchCount_of_newBranch hb⟩
    obtain ⟨c,u,hc,hu⟩ := coverSide_succeeds b loc
      (ctx.directives.hintFor? s = some .consequent) consequent.isBlock_asBlock _ hm
    obtain ⟨a,v,ha,-⟩ := coverSide_succeeds b loc
      (ctx.directives.hintFor? s = some .alternate) (Node.isBlock_elseBlock alternate) _ hu
    exact ⟨(c,a),v,by simp only [run_bind,run_register,hb,hc,ha,run_pure]⟩

end Action

namespace Traced

open Walk

variable {α β : Type} {ctx : Context} {declares : Bool}

/-- What an action leaves alone has the mark it had before the construct was entered. -/
theorem get?_attempt {key k : Key} {name : Option String} {action : Action α} {marked : Key → Prop}
    {idle x : α} {t u : Traversal} (ha : Action.Acting ctx key marked action)
    (hr : (attempt key action idle).run (t.enter ctx key name) = (x,u))
    (hk : k.isSynthetic = true ∨ k ≠ key ∧ ¬ marked k) : u.marks.get? k = t.marks.get? k := by
  rw [run_attempt] at hr
  split at hr
  · have h := (ha (t.enter ctx key name)).get?_marks_same hk
    split at hr
    all_goals
      rename_i he
      cases hr
      rw [he] at h
      exact h
  · cases hr
    rfl

/-- A walk that restores the state, and so does every visit in it. If it starts with the note that
variables are declared only when it takes the note, no walk and no visit ends with it. -/
structure Restores (ctx : Context) (declares : Bool) (w : Traced α) : Prop where
  runs : Runs ctx (fun _ => True) w.erase
  hoist : ∀ t : Traversal, (t.hoist = true → declares = true) → (w t).1.2.hoist = false
  forgets : ∀ t : Traversal, t.Workable → Marks.Forgets (keysOf (w t).2) t.marks (w t).1.2.marks
  visits : ∀ t : Traversal, t.Workable → (t.hoist = true → declares = true) →
    ∀ v ∈ visitOrder (w t).2,
      InPass ctx t v.before ∧ Restored (keysOf [v]) v.before v.after ∧ v.after.hoist = false

namespace Restores

theorem restored {w : Traced α} (h : Restores ctx declares w) {t : Traversal} (ht : t.Workable) :
    Restored (keysOf (w t).2) t (w t).1.2 :=
  .of_run (h.runs t) ht (h.forgets t ht)

/-- A walk that takes the note may start without it. -/
theorem plain {w : Traced α} (h : Restores ctx declares w) : Restores ctx false w :=
  ⟨h.runs,fun t hh => h.hoist t fun ht => absurd (hh ht) nofun,h.forgets,
    fun t ht hh => h.visits t ht fun hn => absurd (hh hn) nofun⟩

theorem of_eq {w : Traced α} (hr : Runs ctx (fun _ => True) w.erase)
    (he : ∀ t : Traversal, ∃ w' : Traced α, w t = w' t ∧ Restores ctx declares w') :
    Restores ctx declares w := by
  refine ⟨hr,fun t => ?_,fun t => ?_,fun t => ?_⟩
  all_goals
    obtain ⟨w',hw,h⟩ := he t
    rw [hw]
  · exact h.hoist t
  · exact h.forgets t
  · exact h.visits t

theorem pure (a : α) : Restores ctx false (Pure.pure a : Traced α) := by
  refine ⟨.pure a,fun t hh => ?_,fun _ _ => ⟨nofun,fun _ _ => rfl⟩,
    fun _ _ _ _ hv => absurd hv List.not_mem_nil⟩
  exact Bool.eq_false_iff.mpr fun h => absurd (hh h) nofun

theorem bind {w : Traced α} {f : α → Traced β} (hw : Restores ctx declares w)
    (hf : ∀ a, Restores ctx false (f a)) : Restores ctx declares (w >>= f) := by
  have hnote : ∀ t : Traversal, (t.hoist = true → declares = true) →
      (w t).1.2.hoist = true → false = true := fun t hh h => by rw [hw.hoist t hh] at h; exact h
  refine ⟨hw.runs.bind fun a => (hf a).runs,fun t hh => ?_,fun t ht => ?_,fun t ht hh v hv => ?_⟩
  · exact (hf _).hoist _ (hnote t hh)
  · have hkeys : keysOf ((w >>= f) t).2 = keysOf (w t).2 ++ keysOf (f (w t).1.1 (w t).1.2).2 :=
      keysOf_append _ _
    rw [hkeys]
    exact (hw.forgets t ht).append ((hf _).forgets _ (ht.run (hw.runs t)))
  · change v ∈ visitOrder ((w t).2 ++ _) at hv
    rw [visitOrder_append,List.mem_append] at hv
    rcases hv with hv | hv
    · exact hw.visits t ht hh v hv
    · obtain ⟨hp,hr⟩ := (hf _).visits _ (ht.run (hw.runs t)) (hnote t hh) v hv
      exact ⟨(InPass.refl.walked (hw.runs t)).trans hp,hr⟩

theorem map {w : Traced α} (h : Restores ctx declares w) (f : α → β) :
    Restores ctx declares (w >>= fun a => Pure.pure (f a)) :=
  h.bind fun a => .pure (f a)

/-- To take the note settles what the walk may start with. -/
theorem takeHoist_bind {f : Bool → Traced β} (hf : ∀ hoistable, Restores ctx false (f hoistable)) :
    Restores ctx declares (ofWalk takeHoist >>= f) := by
  have hrun : ∀ t : Traversal, Run ctx (fun _ => True) t { t with hoist := false } := fun t => .hoist t
  refine ⟨Runs.takeHoist.bind fun a => (hf a).runs,fun t _ => ?_,fun t ht => ?_,fun t ht _ v hv => ?_⟩
  · exact (hf t.hoist).hoist { t with hoist := false } nofun
  · exact (hf t.hoist).forgets { t with hoist := false } (ht.run (hrun t))
  · obtain ⟨hp,hr⟩ := (hf t.hoist).visits { t with hoist := false } (ht.run (hrun t)) nofun v hv
    exact ⟨(InPass.refl.walked (hrun t)).trans hp,hr⟩

/-- What a visit does: the construct is entered and acted on, walked inside and left. -/
theorem visiting_at (construct : β → Construct) (found : β) (key : Key) (name : Option String)
    (action : Action α) (idle : α) (inside : α → Traced β) (t : Traversal) :
    ∃ x u v, (attempt key action idle).run (t.enter ctx key name) = (x,u) ∧
      Traced.visiting ctx construct found key name action idle inside t =
        (((inside x u).1.1,(inside x u).1.2.leave key (t.depth + 1)),[v]) ∧
      v.key = key ∧ v.before = t ∧ v.after = (inside x u).1.2.leave key (t.depth + 1) ∧
      v.inside = (inside x u).2 :=
  ⟨_,_,_,rfl,rfl,rfl,rfl,rfl,rfl⟩

/-- A visit restores the state if all that its action may mark is visited inside. -/
theorem visiting_of {construct : β → Construct} {found : β} {key : Key} {name : Option String}
    {action : Action α} {idle : α} {inside : α → Traced β}
    (ha : Action.Acting ctx key (Within fun _ => True) action) (hi : ∀ x, Restores ctx false (inside x))
    (hm : ∀ (t : Traversal) x u, t.Workable →
      (attempt key action idle).run (t.enter ctx key name) = (x,u) →
      ∀ k, k ∉ key :: keysOf (inside x u).2 → u.marks.get? k = t.marks.get? k) :
    Restores ctx false (Traced.visiting ctx construct found key name action idle inside) := by
  have hruns : Runs ctx (fun _ => True)
      (Traced.visiting ctx construct found key name action idle inside).erase :=
    .visiting (Or.inr trivial) ha fun x => (hi x).runs
  have hatt : ∀ t : Traversal, Attempts ctx (fun _ => True) key (t.enter ctx key name)
      ((attempt key action idle).run (t.enter ctx key name)).2 := fun t => Runs.attempts ha idle _
  have hnote : ∀ t u : Traversal, (t.hoist = true → false = true) →
      Attempts ctx (fun _ => True) key (t.enter ctx key name) u → u.hoist = true → false = true :=
    fun t u hh hu h => hh (hu.hoist_eq ▸ h)
  have hhoist : ∀ t : Traversal, (t.hoist = true → false = true) →
      (Traced.visiting ctx construct found key name action idle inside t).1.2.hoist = false :=
    fun t hh => (hi _).hoist _ (hnote t _ hh (hatt t))
  have hmarks : ∀ t : Traversal, t.Workable →
      Marks.Forgets (keysOf (Traced.visiting ctx construct found key name action idle inside t).2) t.marks
        (Traced.visiting ctx construct found key name action idle inside t).1.2.marks := by
    intro t ht
    have hu := hatt t
    obtain ⟨x,u,v,hr,heq,hkey,-,-,hin⟩ :=
      visiting_at construct found key name action idle inside t
    rw [hr] at hu
    rw [heq,keysOf_singleton,hkey,hin]
    exact ((hi x).forgets u ((ht.enter key name).attempts hu)).leave (hm t x u ht hr)
  refine ⟨hruns,hhoist,hmarks,fun t ht hh w hw => ?_⟩
  have hwhole : Restored _ t (Traced.visiting ctx construct found key name action idle inside t).1.2 :=
    .of_run (hruns t) ht (hmarks t ht)
  have hclear := hhoist t hh
  have hu := hatt t
  obtain ⟨x,u,v,hr,heq,hkey,hbefore,hafter,hin⟩ :=
    visiting_at construct found key name action idle inside t
  rw [hr] at hu
  rw [heq] at hwhole hclear hw
  rw [visitOrder_cons,visitOrder,List.append_nil,hin] at hw
  rcases List.mem_cons.mp hw with rfl | hw
  · rw [hbefore,hafter]
    exact ⟨.refl,hwhole,hclear⟩
  · obtain ⟨hp,hres⟩ := (hi x).visits u ((ht.enter key name).attempts hu) (hnote t u hh hu) w hw
    exact ⟨(InPass.refl.inside hu).trans hp,hres⟩

theorem visiting_marked {construct : β → Construct} {found : β} {key : Key} {name : Option String}
    {action : Action α} {idle : α} {inside : α → Traced β} {marked : Key → Prop}
    (ha : Action.Acting ctx key marked action) (hi : ∀ x, Restores ctx false (inside x))
    (hm : ∀ t : Traversal, t.Workable → ∀ k, marked k →
      k ∈ keysOf (Traced.visiting ctx construct found key name action idle inside t).2) :
    Restores ctx false (Traced.visiting ctx construct found key name action idle inside) := by
  refine visiting_of (fun t => (ha t).mono fun _ _ => .inr trivial) hi fun t x u ht hr k hk => ?_
  refine get?_attempt ha hr (.inr ⟨fun he => hk (he ▸ List.mem_cons_self),fun hmarked => hk ?_⟩)
  have hv := hm t ht k hmarked
  obtain ⟨x',u',v,hr',heq,hkey,-,-,hin⟩ := visiting_at construct found key name action idle inside t
  cases hr.symm.trans hr'
  rwa [heq,keysOf_singleton,hkey,hin] at hv

theorem visiting {construct : β → Construct} {found : β} {key : Key} {name : Option String}
    {action : Action α} {idle : α} {inside : α → Traced β}
    (ha : Action.Acting ctx key (fun _ => False) action) (hi : ∀ x, Restores ctx false (inside x)) :
    Restores ctx false (Traced.visiting ctx construct found key name action idle inside) :=
  visiting_marked ha hi fun _ _ _ hf => hf.elim

theorem passing {construct : β → Construct} {found : β} {key : Key} {inside : Traced β}
    (h : Restores ctx false inside) : Restores ctx false (Traced.passing ctx construct found key inside) :=
  visiting (.pure ()) fun _ => h

theorem withChain {w : Traced α} (inChain : Bool) (h : Restores ctx false w) :
    Restores ctx false (Traced.withChain inChain w) :=
  ⟨.withChain inChain h.runs,fun t hh => h.hoist { t with inChain } hh,
    fun t ht => h.forgets { t with inChain } ⟨ht.anchorBelow,ht.opened⟩,
    fun t ht hh v hv => (h.visits { t with inChain } ⟨ht.anchorBelow,ht.opened⟩ hh v hv).imp_left
      (InPass.refl.operand inChain).trans⟩

/-- An item is walked with the note that it declares variables just if it does. -/
theorem asItem {w : Traced Node} (h : Restores ctx declares w) :
    Restores ctx true (Traced.asItem declares w) :=
  ⟨.asItem declares h.runs,fun _ _ => rfl,
    fun t ht => h.forgets { t with frames := [] :: t.frames, hoist := declares }
      ⟨ht.anchorBelow,ht.opened⟩,
    fun t ht _ v hv => (h.visits { t with frames := [] :: t.frames, hoist := declares }
      ⟨ht.anchorBelow,ht.opened⟩ id v hv).imp_left (InPass.refl.item declares).trans⟩

theorem behind? {n : Node} {w : Traced Node} (c : Option Counter) (h : Restores ctx false w) :
    Restores ctx false (Traced.behind? ctx c n w) := by
  cases c with
  | none => exact h
  | some c => exact passing (h.map _)

theorem operand {n : Node} {counters : List (Option Counter)} {w : List (Option Counter) → Traced Node}
    (h : ∀ c, Restores ctx false (w c)) : Restores ctx false (Traced.operand ctx n counters w) := by
  unfold Traced.operand
  split
  · exact h counters
  · exact withChain false ((h []).behind? _)

theorem counterItem (c : Option Counter) : Restores ctx false (Traced.counterItem ctx c) := by
  cases c with
  | none => exact pure []
  | some c =>
    have h : Restores ctx (c.statementNode ctx.identifier).declaresVariables
        (Traced.visiting ctx .node (c.statementNode ctx.identifier)
          ⟨.expressionStatement,(c.statementNode ctx.identifier).span⟩ none
          (Action.coverStatement ctx .expressionStatement (c.statementNode ctx.identifier).span) ()
          fun _ => Pure.pure (c.statementNode ctx.identifier)) :=
      visiting (.coverStatement _ _) fun _ => pure _
    exact (asItem h).plain.map _

theorem inBlock {body : Node} {w : List (Option Counter) → Traced Node} (c : Option Counter)
    (h : ∀ given, Restores ctx body.declaresVariables (w given)) :
    Restores ctx false (Traced.inBlock ctx c body w) := by
  unfold Traced.inBlock
  split
  · exact (h [c]).plain
  · exact passing ((counterItem c).bind fun _ => (asItem (h [])).plain.map _)

theorem asBody {body : Node} {w : List (Option Counter) → Traced Node} (counted : Bool)
    (h : ∀ given, Restores ctx body.declaresVariables (w given)) :
    Restores ctx false (Traced.asBody ctx counted body w) := by
  cases counted with
  | false => exact (h []).plain
  | true => exact .inBlock none h

theorem asReturn {e : Node} {w : Traced Node} (c : Counter) (h : Restores ctx false w) :
    Restores ctx false (Traced.asReturn ctx c e w) :=
  passing ((counterItem (some c)).bind fun _ =>
    (asItem (visiting (.coverStatement _ _) fun _ => h.map _)).plain.map _)

theorem inParens {heritage : Node} {w : Traced Node} (wanted : Bool) (h : Restores ctx false w) :
    Restores ctx false (Traced.inParens ctx wanted heritage w) := by
  unfold Traced.inParens
  split
  · exact passing (h.map _)
  · exact h

end Restores
end Traced

open Traced

/-- The walk of a node restores the state; one that declares variables takes the note of it. -/
def Node.Restoring (ctx : Context) (n : Node) : Prop :=
  ∀ given, Restores ctx n.declaresVariables (n.traced ctx given)

section Lists

variable {ctx : Context}

theorem tracedNodes_restores {nodes : List Node} (h : ∀ n ∈ nodes, n.Restoring ctx) :
    Restores ctx false (tracedNodes ctx nodes) := by
  induction nodes with
  | nil => exact .pure []
  | cons n rest ih =>
    rw [tracedNodes]
    exact (h n List.mem_cons_self []).plain.bind fun _ =>
      (ih fun m hm => h m (List.mem_cons_of_mem _ hm)).map _

theorem tracedParts_restores {parts : List Part}
    (h : ∀ n ∈ parts.flatMap Part.nodes, n.Restoring ctx) :
    Restores ctx false (tracedParts ctx parts) := by
  induction parts with
  | nil => exact .pure []
  | cons p rest ih =>
    rw [List.flatMap_cons] at h
    have hp : Restores ctx false (tracedPart ctx p) := by
      cases p with
      | child field n => exact (h n (by simp [Part.nodes]) []).plain.map _
      | children field nodes =>
        exact (tracedNodes_restores fun n hn => h n (List.mem_append_left _ hn)).map _
    rw [tracedParts]
    exact hp.bind fun _ => (ih fun n hn => h n (List.mem_append_right _ hn)).map _

theorem tracedOption_restores (counter : Option Counter) {o : Option Node}
    (h : ∀ n ∈ o.toList, n.Restoring ctx) : Restores ctx false (tracedOption ctx counter o) := by
  cases o with
  | none => exact .pure none
  | some n => exact ((h n (List.mem_singleton_self n) []).plain.behind? counter).map _

theorem tracedElse_restores (counter : Option Counter) {o : Option Node}
    (h : ∀ n ∈ o.toList, n.Restoring ctx) : Restores ctx false (tracedElse ctx counter o) := by
  cases o with
  | none =>
    rw [tracedElse]
    exact .passing ((Restores.counterItem counter).map _)
  | some n =>
    rw [tracedElse]
    exact .inBlock counter (h n (List.mem_singleton_self n))

theorem tracedHeritage_restores (counted : Bool) {o : Option Node}
    (h : ∀ n ∈ o.toList, n.Restoring ctx) : Restores ctx false (tracedHeritage ctx counted o) := by
  cases o with
  | none => exact .pure none
  | some n => exact ((h n (List.mem_singleton_self n) []).plain.inParens counted).map _

theorem tracedItems_restores {items : List Node} (h : ∀ n ∈ items, n.Restoring ctx) :
    Restores ctx false (tracedItems ctx items) := by
  induction items with
  | nil => exact .pure []
  | cons n rest ih =>
    rw [tracedItems]
    exact (Restores.asItem (h n List.mem_cons_self [])).plain.bind fun _ =>
      (ih fun m hm => h m (List.mem_cons_of_mem _ hm)).map _

theorem tracedStatements_restores (counter : Option Counter) {statements : List Node}
    (h : ∀ n ∈ statements, n.Restoring ctx) :
    Restores ctx false (tracedStatements ctx counter statements) := by
  rw [tracedStatements_eq]
  exact (tracedItems_restores fun n hn => h n ((List.takeWhile_sublist _).mem hn)).bind fun _ =>
    (Restores.counterItem counter).bind fun _ =>
      (tracedItems_restores fun n hn => h n ((List.dropWhile_sublist _).mem hn)).map _

theorem tracedBody_restores (counter : Option Counter) {body : Body}
    (h : ∀ n ∈ body.nodes, n.Restoring ctx) : Restores ctx false (tracedBody ctx counter body) := by
  cases body with
  | absent => exact .pure _
  | block s statements => exact .passing ((tracedStatements_restores counter h).map _)
  | value e =>
    have he := (h e (List.mem_singleton_self e) []).plain
    cases counter with
    | none => exact he.map _
    | some c => exact he.asReturn c

theorem tracedCases_restores (switch : Key) {cases : List Case}
    (h : ∀ n ∈ cases.flatMap Case.nodes, n.Restoring ctx) :
    Restores ctx false (tracedCases ctx switch cases) := by
  induction cases with
  | nil => exact .pure []
  | cons c rest ih =>
    obtain ⟨s,test,consequent⟩ := c
    simp only [List.flatMap_cons,Case.nodes,List.mem_append] at h
    rw [tracedCases,tracedCase]
    refine (Restores.visiting (.coverCase s switch) fun counter => ?_).bind fun _ =>
      (ih fun n hn => h n (.inr hn)).map _
    exact (tracedOption_restores none fun n hn => h n (.inl (.inl hn))).bind fun _ =>
      (Restores.counterItem counter).bind fun _ =>
        (tracedItems_restores fun n hn => h n (.inl (.inr hn))).map _

theorem tracedDeclarators_restores (hoistable : Bool) {declarators : List Declarator}
    (h : ∀ n ∈ declarators.flatMap Declarator.nodes, n.Restoring ctx) :
    Restores ctx false (tracedDeclarators ctx hoistable declarators) := by
  induction declarators with
  | nil => exact .pure []
  | cons d rest ih =>
    obtain ⟨s,data,target,init⟩ := d
    simp only [List.flatMap_cons,Declarator.nodes,List.mem_append,List.mem_cons] at h
    rw [tracedDeclarators,tracedDeclarator]
    refine (Restores.visiting (.coverInitializer hoistable init) fun counter => ?_).bind fun _ =>
      (ih fun n hn => h n (.inr hn)).map _
    exact (h target (.inl (.inl rfl)) []).plain.bind fun _ =>
      (tracedOption_restores counter fun n hn => h n (.inl (.inr hn))).map _

end Lists

namespace Node

variable {ctx : Context}

theorem key_mem_keysOf (n : Node) (given : List (Option Counter)) {t : Traversal} (ht : t.AnchorBelow)
    {e : Site} (he : e ∈ n.sites) : e.1 ∈ keysOf (n.traced ctx given t).2 := by
  obtain ⟨v,around,hn,rfl⟩ := (n.traced_bracketed ctx t.inChain given).meets t rfl ht e he
  exact hn.key_mem

theorem site_of_ownSites {n : Node} {e : Site} (h : e ∈ n.ownSites) : e ∈ n.sites := by
  rw [sites_eq]
  exact List.mem_append_left _ h

theorem site_of_mem_children {n c : Node} {e : Site} (hc : c ∈ n.children) (h : e ∈ c.sites) :
    e ∈ n.sites := by
  rw [sites_eq]
  exact List.mem_append_right _ (List.mem_flatMap.mpr ⟨c,hc,h⟩)

theorem site_of_isDirective {n : Node} (h : n.isDirective = true) :
    (⟨.expressionStatement,n.span⟩,none) ∈ n.sites := by
  cases n with
  | expression s inner => exact site_of_ownSites (List.mem_singleton_self _)
  | _ => cases h

theorem exists_site_of_initKey? {n : Node} {k : Key} (h : Action.initKey? n = some k) :
    ∃ name, (k,name) ∈ n.sites := by
  have hown : ∃ name, (k,name) ∈ n.ownSites := by
    unfold Action.initKey? at h
    split at h
    · cases h
      exact ⟨none,List.mem_cons_self⟩
    · unfold expressionKey? at h
      split at h
      · split at h
        · cases h
          exact ⟨_,List.mem_cons_self⟩
        · cases h
      all_goals
        cases h
        try exact ⟨none,List.mem_cons_self⟩
  obtain ⟨name,hn⟩ := hown
  exact ⟨name,site_of_ownSites hn⟩

/-- A side of an `if` that is counted is visited as a block. -/
theorem block_mem_keysOf (c : Option Counter) (n : Node) (t : Traversal) :
    ⟨.block,n.span⟩ ∈ keysOf (inBlock ctx c n (fun given => n.traced ctx given) t).2 := by
  unfold Traced.inBlock
  split
  next hb =>
    cases n with
    | block s statements => exact List.mem_map_of_mem (mem_visitOrder_of_mem List.mem_cons_self)
    | _ => cases hb
  next => exact List.mem_map_of_mem (mem_visitOrder_of_mem List.mem_cons_self)

theorem block_mem_keysOf_else (c : Option Counter) (o : Option Node) (t : Traversal) {k : Key}
    (hk : k = ⟨.block,(o.map span).getD .dummy⟩) (hs : k.isSynthetic = false) :
    k ∈ keysOf (tracedElse ctx c o t).2 := by
  subst hk
  cases o with
  | none => cases hs
  | some n =>
    rw [tracedElse]
    exact n.block_mem_keysOf c t

theorem mem_nodes_of_bodyContent? {b : Body} {c : Span × List Node} (hc : c ∈ Action.bodyContent? b)
    {n : Node} (hn : n ∈ c.2) : n ∈ b.nodes := by
  cases b with
  | absent => cases hc
  | block s statements => cases hc; exact hn
  | value e => cases hc; cases hn

section Constructs

variable {s : Span} {given : List (Option Counter)}

theorem traced_function_restores {head : FunctionHead} {key : Option Node} {before after : List Part}
    {body : Body} (h : ∀ n ∈ (function head key before body after).children, n.Restoring ctx) :
    Restores ctx false ((function head key before body after).traced ctx given) := by
  have hmet : ∀ t : Traversal, t.Workable → ∀ k, (∃ c ∈ Action.bodyContent? body,
      ∃ n ∈ c.2.takeWhile isDirective, k = ⟨.expressionStatement,n.span⟩) →
      k ∈ keysOf ((function head key before body after).traced ctx given t).2 := by
    rintro t ht - ⟨c,hc,n,hn,rfl⟩
    have hb : n ∈ body.nodes := mem_nodes_of_bodyContent? hc ((List.takeWhile_sublist _).mem hn)
    have hm : n ∈ (function head key before body after).children := by
      simp only [children,List.mem_append]
      exact .inl (.inr hb)
    have hd : n.isDirective = true := List.all_eq_true.mp List.all_takeWhile n hn
    exact key_mem_keysOf _ given ht.anchorBelow (site_of_mem_children hm (site_of_isDirective hd))
  simp only [children,List.mem_append] at h
  rw [traced] at hmet ⊢
  refine .visiting_marked (.coverFunction head key body fun c hc n hn => ⟨c,hc,n,hn,rfl⟩)
    (fun counter => ?_) hmet
  exact (tracedOption_restores none fun n hn => h n (.inl (.inl (.inl hn)))).bind fun _ =>
    (tracedParts_restores fun n hn => h n (.inl (.inl (.inr hn)))).bind fun _ =>
      (tracedBody_restores counter fun n hn => h n (.inl (.inr hn))).bind fun _ =>
        (tracedParts_restores fun n hn => h n (.inr hn)).map _

theorem traced_compound_restores {form : CompoundForm} {data : Attributes} {init : Option Node}
    {head : List Part} {body : Node}
    (h : ∀ n ∈ (compound form s data init head body).children, n.Restoring ctx) :
    Restores ctx false ((compound form s data init head body).traced ctx given) := by
  have hmet : ∀ t : Traversal, t.Workable → ∀ k, k ∈ init.bind Action.initKey? →
      k ∈ keysOf ((compound form s data init head body).traced ctx given t).2 := by
    intro t ht k hk
    obtain ⟨n,hn,hk⟩ := Option.bind_eq_some_iff.mp hk
    have hm : n ∈ (compound form s data init head body).children := by
      simp only [children,List.mem_append]
      exact .inl (.inl (Option.mem_toList.mpr hn))
    obtain ⟨name,hs⟩ := exists_site_of_initKey? hk
    exact key_mem_keysOf _ given ht.anchorBelow (site_of_mem_children hm hs)
  simp only [children,List.mem_append,List.mem_singleton] at h
  rw [traced] at hmet ⊢
  refine .visiting_marked (.coverCompound form s fun k hk => hk) (fun counted => ?_) hmet
  exact (tracedOption_restores none fun n hn => h n (.inl (.inl hn))).bind fun _ =>
    (tracedParts_restores fun n hn => h n (.inl (.inr hn))).bind fun _ =>
      (Restores.asBody counted (h body (.inr rfl))).map _

/-- A side that is left out is marked only when both sides are walked as blocks, since nothing can fail
behind it. -/
theorem traced_ifElse_restores {test consequent : Node} {alternate : Option Node}
    (h : ∀ n ∈ (ifElse s test consequent alternate).children, n.Restoring ctx) :
    Restores ctx false ((ifElse s test consequent alternate).traced ctx given) := by
  simp only [children,List.mem_cons] at h
  rw [traced]
  refine .visiting_of (.coverIf s (.inr trivial) (.inr trivial)) (fun counters => ?_)
    fun t x u ht hr k hk => ?_
  · refine (h test (.inl rfl) []).plain.bind fun _ => ?_
    cases counters with
    | none =>
      exact (h consequent (.inr (.inl rfl)) []).plain.bind fun _ =>
        (tracedOption_restores none fun n hn => h n (.inr (.inr hn))).map _
    | some counters =>
      exact (Restores.inBlock _ (h consequent (.inr (.inl rfl)))).bind fun _ =>
        (tracedElse_restores counters.2 fun n hn => h n (.inr (.inr hn))).map _
  · cases hc : (t.enter ctx ⟨.if,s⟩ none).counts ⟨.if,s⟩ with
    | false =>
      rw [Walk.run_attempt,hc] at hr
      cases hr
      rfl
    | true =>
      have ha : Action.Acting ctx ⟨.if,s⟩ (fun k => k = ⟨.block,consequent.span⟩ ∨
          k = ⟨.block,(alternate.map span).getD .dummy⟩) (Action.coverIf ctx s consequent alternate) :=
        .coverIf s (.inl rfl) (.inr rfl)
      have hkept := get?_attempt ha hr (k := k)
      cases hs : k.isSynthetic with
      | true => exact hkept (.inl hs)
      | false =>
        obtain ⟨counters,u',hrun⟩ := Action.exists_run_coverIf ctx s consequent alternate
          (t := t.enter ctx ⟨.if,s⟩ none) ht.opened
        rw [Walk.run_attempt,hc,if_pos rfl,hrun] at hr
        cases hr
        refine hkept (.inr ⟨fun he => hk (he ▸ List.mem_cons_self),
          fun hm => hk (List.mem_cons_of_mem _ ?_)⟩)
        refine mem_keysOf_bind_right ?_
        rcases hm with rfl | hm
        · exact mem_keysOf_bind_left (consequent.block_mem_keysOf _ _)
        · exact mem_keysOf_bind_right (mem_keysOf_bind_left (block_mem_keysOf_else _ _ _ hm hs))

end Constructs

theorem traced_restores (ctx : Context) (n : Node) : n.Restoring ctx := by
  induction n using induction_children with
  | step n hc =>
    intro given
    cases n with
    | plain head parts => exact (tracedParts_restores hc).map _
    | paren s inner =>
      refine .of_eq (erase_traced_runs ctx _ given) fun t => ⟨_,traced_paren,?_⟩
      exact .passing ((hc inner List.mem_cons_self given).plain.map _)
    | logical s operator left right =>
      refine .of_eq (erase_traced_runs ctx _ given) fun t => ⟨_,traced_logical,?_⟩
      refine .visiting ?_ fun own => .withChain true ?_
      · cases t.inChain
        · exact .coverChain s left right
        · exact .pure []
      · have hl := fun given => (hc left (by simp [children]) given).plain
        have hr := fun given => (hc right (by simp [children]) given).plain
        exact (Restores.operand hl).bind fun _ => (Restores.operand hr).map _
    | conditional s test consequent alternate =>
      rw [traced]
      refine .visiting (.coverConditional s _ _) fun counters => ?_
      exact (hc test (by simp [children]) []).plain.bind fun _ =>
        ((hc consequent (by simp [children]) []).plain.behind? _).bind fun _ =>
          ((hc alternate (by simp [children]) []).plain.behind? _).map _
    | function head key before body after => exact traced_function_restores hc
    | defaulted form s target value =>
      rw [traced]
      refine .visiting (.coverDefault s value) fun counter => ?_
      exact (hc target List.mem_cons_self []).plain.bind fun _ =>
        (tracedOption_restores counter fun n hn => hc n (List.mem_cons_of_mem _ hn)).map _
    | classDeclaration s data name before heritage after =>
      simp only [children,List.mem_append,List.mem_cons] at hc
      rw [traced]
      refine .visiting (.pure true) fun counted => ?_
      exact (hc name (.inl (.inl (.inl rfl))) []).plain.bind fun _ =>
        (tracedParts_restores fun n hn => hc n (.inl (.inl (.inr hn)))).bind fun _ =>
          (tracedHeritage_restores counted fun n hn => hc n (.inl (.inr hn))).bind fun _ =>
            (tracedParts_restores fun n hn => hc n (.inr hn)).map _
    | expression s inner =>
      rw [traced]
      exact .visiting (.coverStatement _ s) fun _ => (hc inner List.mem_cons_self []).plain.map _
    | simple form s parts =>
      rw [traced]
      exact .visiting (.coverStatement _ s) fun _ => (tracedParts_restores hc).map _
    | compound form s data init head body => exact traced_compound_restores hc
    | ifElse s test consequent alternate => exact traced_ifElse_restores hc
    | switch s discriminant cases =>
      simp only [children,List.mem_cons] at hc
      rw [traced]
      refine .visiting (.coverSwitch s) fun _ => ?_
      exact (hc discriminant (.inl rfl) []).plain.bind fun _ =>
        (tracedCases_restores _ fun n hn => hc n (.inr hn)).map _
    | bindings s data declarators =>
      exact .takeHoist_bind fun hoistable => .passing ((tracedDeclarators_restores hoistable hc).map _)
    | block s statements =>
      rw [traced]
      exact .passing ((Restores.counterItem _).bind fun _ => (tracedItems_restores hc).map _)
    | exported s declaration =>
      have hd := hc declaration List.mem_cons_self []
      cases declaration with
      | bindings s data declarators => exact hd.map _
      | _ => exact hd.plain.map _
    | namespaceBlock s items => exact (tracedItems_restores hc).map _

end Node

namespace Program

/-- The state in which the walk of a program starts. -/
def startState (p : Program) (coverage : CoverageMap) : Traversal :=
  { Traversal.start coverage with marks := p.prologueMarks }

theorem workable_startState (p : Program) {coverage : CoverageMap} (h : coverage.frozen = false) :
    (p.startState coverage).Workable := by
  refine ⟨fun anchor ha => ?_,h⟩
  cases ha

/-- Only the directives at the head of a program are marked when its walk starts. -/
theorem get?_prologueMarks {p : Program} {k : Key}
    (h : ∀ n ∈ p.prologue, k ≠ ⟨.expressionStatement,n.span⟩) : p.prologueMarks.get? k = none := by
  have hfold : ∀ (nodes : List Node) (m : Marks), (∀ n ∈ nodes, k ≠ ⟨.expressionStatement,n.span⟩) →
      (nodes.foldl (fun marks n => marks.markSkip ⟨.expressionStatement,n.span⟩) m).get? k =
        m.get? k := by
    intro nodes
    induction nodes with
    | nil => exact fun _ _ => rfl
    | cons n rest ih =>
      intro m h
      rw [List.foldl_cons,ih _ fun x hx => h x (List.mem_cons_of_mem _ hx)]
      exact Marks.get?_update_of_ne m _ (h n List.mem_cons_self)
  exact hfold p.prologue .empty h

/-- The directives at the head of a program are visited. -/
theorem prologue_visited {ctx : Context} {coverage : CoverageMap} {p : Program} {n : Node}
    (h : n ∈ p.prologue) : ⟨.expressionStatement,n.span⟩ ∈ keysOf (p.traced ctx coverage).2 := by
  have hd : n.isDirective = true := List.all_eq_true.mp List.all_takeWhile n h
  have hs : (⟨.expressionStatement,n.span⟩,none) ∈ p.body.flatMap Node.sites :=
    List.mem_flatMap.mpr ⟨n,(List.takeWhile_sublist _).mem h,Node.site_of_isDirective hd⟩
  obtain ⟨v,around,hn,hk⟩ := (p.traced_brackets ctx coverage).2 _ hs
  have hkey : v.key = ⟨.expressionStatement,n.span⟩ := congrArg Prod.fst hk
  exact hkey ▸ hn.key_mem

theorem traced_items_restore (ctx : Context) (p : Program) :
    Restores ctx false (tracedItems ctx p.body) :=
  tracedItems_restores fun n _ => n.traced_restores ctx

end Program

/-- Every visit restores the state. A node that is walked in a state of a pass leaves the place, the lists
around and all but the queue of the open list as they were, and no mark under the keys of its constructs,
all of which are visited; the note that variables are declared is gone if it was set at most for the node
to take it. Every visit of a pass starts in such a state and ends without the note; and the pass ends,
failed or not, at the outermost level with counting on, no list open and no marks. -/
theorem visits_restore (program : Program) (file : SourceFile) (options : Options) :
    (∀ (n : Node) (given : List (Option Counter)) (t : Traversal),
      InPass (file.context options) (program.startState (startMap file.path options)) t →
      Restored (keysOf (n.traced (file.context options) given t).2) t
        ((n.walk (file.context options) given).run t).2 ∧
      (∀ e ∈ n.sites, e.1 ∈ keysOf (n.traced (file.context options) given t).2) ∧
      ((t.hoist = true → n.declaresVariables = true) →
        ((n.walk (file.context options) given).run t).2.hoist = false)) ∧
    (∀ v ∈ visitOrder (program.traced (file.context options) (startMap file.path options)).2,
      InPass (file.context options) (program.startState (startMap file.path options)) v.before ∧
      Restored (keysOf [v]) v.before v.after ∧ v.after.hoist = false) ∧
    ∃ u, (program.walk (file.context options) (startMap file.path options)).2 = u ∧
      u.depth = 0 ∧ u.isSuppressed = false ∧ u.frames = [] ∧ u.inChain = false ∧ u.hoist = false ∧
      u.marks = .empty := by
  have hs : (program.startState (startMap file.path options)).Workable :=
    program.workable_startState (frozen_startMap file.path options)
  have hbody := program.traced_items_restore (file.context options)
  refine ⟨fun n given t ht => ?_,hbody.visits _ hs nofun,?_⟩
  · have hn := n.traced_restores (file.context options) given
    rw [← n.erase_traced]
    exact ⟨hn.restored (ht.workable hs),
      fun e he => n.key_mem_keysOf given (ht.workable hs).anchorBelow he,hn.hoist t⟩
  · have hr := hbody.restored hs
    refine ⟨_,(congrArg Prod.snd (program.fst_traced _ _)).symm,hr.depth,?_,?_,hr.inChain,
      hbody.hoist _ nofun,?_⟩
    · exact congrArg Option.isSome hr.anchor
    · exact List.length_eq_zero_iff.mp hr.height
    · refine Marks.eq_empty fun k => ?_
      by_cases hk : k ∈ keysOf (program.traced (file.context options) (startMap file.path options)).2
      · exact hr.cleared k hk
      · refine (hr.others k hk).trans (Program.get?_prologueMarks fun n hn he => hk ?_)
        exact he ▸ Program.prologue_visited hn

end CoverageCounters
