import CoverageCounters.Proofs.Chains
import CoverageCounters.Proofs.SnapshotAgreement

/-!
Where counters stand. A statement is counted in front of the list item it belongs to, or in place if it
is the initializer of a variable; a function in its body; a path of a branch first in the block or the
case that is taken, or right before the value that is chosen. What is counted is found again by its
location in the tables.

A counter is in the tables from the moment it is registered. Until it stands in the tree it is queued in
front of the innermost list item, or in the hands of the construct that asked for it.
-/

namespace CoverageCounters

open Walk Traversal

namespace FileCoverage

/-- What a counter counts is at the given place: a statement, the body of a function, or a path. -/
def CountsAt (d : FileCoverage) (ctx : Context) (s : Span) : Counter → Prop
  | .statement i => ∃ loc, ctx.location? s = some loc ∧ d.statementMap[i]? = some loc
  | .function i => ∃ r, ctx.location? s = some r.loc ∧ d.fnMap[i]? = some r
  | .branch b j => ∃ loc r, ctx.location? s = some loc ∧ d.branchMap[b]? = some r ∧
      r.locations[j]? = some loc

/-- A branch is that of the construct at the given place. -/
def BranchAt (d : FileCoverage) (ctx : Context) (s : Span) (b : Nat) : Prop :=
  ∃ r, ctx.location? s = some r.loc ∧ d.branchMap[b]? = some r

end FileCoverage

namespace Case

def test : Case → Option Node
  | mk _ test _ => test

def consequent : Case → List Node
  | mk _ _ consequent => consequent

end Case

namespace Node

/-- The statements that are counted in front of their list item. -/
def isCounted : Node → Bool
  | expression _ _ | simple _ _ _ | compound _ _ _ _ _ _ | switch _ _ _ => true
  | _ => false

/-- The declarators of a list item that declares variables. -/
def declared : Node → List Declarator
  | bindings _ _ declarators | exported _ (bindings _ _ declarators) => declarators
  | _ => []

/-- The places that are counted in front of a node: its own, that of a statement behind its labels, and,
for a list item that declares variables, those of the initializers that take their names. -/
inductive InFront : Bool → Node → Span → Prop where
  | own {hoist : Bool} {n : Node} (h : n.isCounted = true) : InFront hoist n n.span
  | labeled {hoist : Bool} {s r : Span} {parts : List Part} {body : Node}
      (hb : .child "body" body ∈ parts) (h : InFront false body r) :
      InFront hoist (simple .labeled s parts) r
  | initializer {n target e : Node} {s : Span} {data : Attributes}
      (hd : .mk s data target (some e) ∈ n.declared) (he : e.takesName = true) : InFront true n e.span

/-- The lists of statements directly in a node. -/
def lists : Node → List (List Node)
  | block _ statements | function _ _ _ (.block _ statements) _ => [statements]
  | switch _ _ cases => cases.map Case.consequent
  | namespaceBlock _ items => [items]
  | _ => []

end Node

/-- The counter of a statement stands in a list in front of an item, with only counters between, and
what it counts is in front of that item. -/
def Leads (ctx : Context) (d : FileCoverage) (items : List Node) (i : Nat) : Prop :=
  ∃ before between item after s,
    items = before ++ (Counter.statement i).statementNode ctx.identifier :: (between ++ item :: after) ∧
    (∀ k ∈ between, k.isCounter ctx.identifier = true) ∧
    item.InFront true s ∧ d.CountsAt ctx s (.statement i)

/-- A counter stands in a node, at the construct that it counts. -/
inductive StandsIn (ctx : Context) (d : FileCoverage) : Node → Counter → Prop where
  | item {n : Node} {items : List Node} {i : Nat} (hn : items ∈ n.lists) (h : Leads ctx d items i) :
      StandsIn ctx d n (.statement i)
  | initializer {s place : Span} {data attributes : Attributes} {declarators : List Declarator}
      {target e : Node} {i : Nat}
      (hm : .mk place attributes target
        (some (Build.after ((Counter.statement i).node ctx.identifier) e)) ∈ declarators)
      (h : d.CountsAt ctx e.span (.statement i)) :
      StandsIn ctx d (.bindings s data declarators) (.statement i)
  | function {head : FunctionHead} {key : Option Node} {before after : List Part} {s : Span}
      {statements : List Node} {i : Nat}
      (hm : (Counter.function i).statementNode ctx.identifier ∈ statements)
      (h : d.CountsAt ctx s (.function i)) :
      StandsIn ctx d (.function head key before (.block s statements) after) (.function i)
  | consequent {s place : Span} {test : Node} {rest : List Node} {alternate : Option Node} {b j : Nat}
      (h : d.BranchAt ctx s b) :
      StandsIn ctx d (.ifElse s test
        (.block place ((Counter.branch b j).statementNode ctx.identifier :: rest)) alternate) (.branch b j)
  | alternate {s place : Span} {test consequent : Node} {rest : List Node} {b j : Nat}
      (h : d.BranchAt ctx s b) :
      StandsIn ctx d (.ifElse s test consequent (some
        (.block place ((Counter.branch b j).statementNode ctx.identifier :: rest)))) (.branch b j)
  | case {s place : Span} {discriminant : Node} {cases : List Case} {test : Option Node}
      {rest : List Node} {b j : Nat}
      (hm : .mk place test ((Counter.branch b j).statementNode ctx.identifier :: rest) ∈ cases)
      (h : d.BranchAt ctx s b) :
      StandsIn ctx d (.switch s discriminant cases) (.branch b j)
  | value {e : Node} {b j : Nat} (h : d.CountsAt ctx e.span (.branch b j)) :
      StandsIn ctx d (Build.after ((Counter.branch b j).node ctx.identifier) e) (.branch b j)

/-- A counter stands in one of the nodes or inside them. -/
def Held (ctx : Context) (d : FileCoverage) (nodes : List Node) (c : Counter) : Prop :=
  ∃ n ∈ nodes.flatMap Node.subnodes, StandsIn ctx d n c

namespace CoverageMap

variable {ctx : Context} {m m' : CoverageMap} {b i j : Nat} {s : Span} {loc : Location} {c : Counter}

theorem Keeps.countsAt (h : m.Keeps m') (hc : m.data.CountsAt ctx s c) : m'.data.CountsAt ctx s c := by
  cases c with
  | statement i =>
    obtain ⟨loc,hl,hi⟩ := hc
    exact ⟨loc,hl,getElem?_mono h.statements hi⟩
  | function i =>
    obtain ⟨r,hl,hi⟩ := hc
    exact ⟨r,hl,getElem?_mono h.functions hi⟩
  | branch b j =>
    obtain ⟨loc,r,hl,hb,hj⟩ := hc
    obtain ⟨paths,hp⟩ := h.branches b r hb
    exact ⟨loc,_,hl,hp,getElem?_mono (List.prefix_append _ _) hj⟩

theorem Keeps.branchAt (h : m.Keeps m') (hb : m.data.BranchAt ctx s b) : m'.data.BranchAt ctx s b := by
  obtain ⟨r,hl,hr⟩ := hb
  obtain ⟨paths,hp⟩ := h.branches b r hr
  exact ⟨{ r with locations := r.locations ++ paths },hl,hp⟩

theorem Grows.keeps (h : m.Grows m') : m.Keeps m' := by
  obtain ⟨calls,-,rfl⟩ := h
  exact keeps_after m calls

/-- What is in the tables after a registration was there before, or is what was registered. -/
theorem Adds.has {new : Option Counter} (h : Adds c new m m') (hp : m.Parallel)
    (hc : m'.data.has c = true) : m.data.has c = true ∨ new = some c := by
  have he := h.entries hp
  rw [CoverageMap.entries,CoverageMap.entries,hc] at he
  by_cases hn : new = some c
  · exact .inr hn
  · rw [List.count_singleton,beq_eq_false_iff_ne.mpr hn] at he
    cases hm : m.data.has c with
    | true => exact .inl rfl
    | false =>
      rw [hm] at he
      cases he

theorem newStatement_countsAt (hl : ctx.location? s = some loc)
    (h : m.newStatement loc = (.ok i,m')) : m'.data.CountsAt ctx s (.statement i) := by
  unfold newStatement ifOpen at h
  split at h
  · cases h
  · cases h
    exact ⟨loc,hl,by simp [statementCount]⟩

theorem newFunction_countsAt {name : Option String} {decl : Location}
    (hl : ctx.location? s = some loc) (h : m.newFunction name decl loc = (.ok i,m')) :
    m'.data.CountsAt ctx s (.function i) := by
  unfold newFunction ifOpen at h
  split at h
  · cases h
  · cases h
    exact ⟨⟨functionName name m.functionCount,decl,loc,loc.start.line⟩,hl,by simp [functionCount]⟩

theorem newBranch_branchAt {kind : BranchKind} (hl : ctx.location? s = some loc)
    (h : m.newBranch kind loc = (.ok b,m')) : m'.data.BranchAt ctx s b := by
  unfold newBranch ifOpen at h
  split at h
  · cases h
  · cases h
    exact ⟨⟨loc,kind,[],loc.start.line⟩,hl,by simp [branchCount]⟩

theorem addBranchPath_countsAt (hp : m.Parallel) (hl : ctx.location? s = some loc)
    (h : m.addBranchPath b loc = (.ok j,m')) : m'.data.CountsAt ctx s (.branch b j) := by
  unfold addBranchPath ifOpen at h
  split at h
  · cases h
  · split at h
    · rename_i hb
      cases h
      refine ⟨loc,_,hl,by rw [List.getElem?_modify_eq,List.getElem?_eq_getElem hb]; rfl,?_⟩
      rw [hp.length_eq,List.getElem?_eq_getElem hb]
      simp
    · cases h

end CoverageMap

/-- Frames with statements queued in the innermost one. -/
def queuedTop (new : List Node) : List (List Node) → List (List Node)
  | [] => []
  | top :: rest => (top ++ new) :: rest

@[simp] theorem queuedTop_nil (frames : List (List Node)) : queuedTop [] frames = frames := by
  cases frames with
  | nil => rfl
  | cons top rest => rw [queuedTop,List.append_nil]

@[simp] theorem queuedTop_queuedTop (new more : List Node) (frames : List (List Node)) :
    queuedTop more (queuedTop new frames) = queuedTop (new ++ more) frames := by
  cases frames with
  | nil => rfl
  | cons top rest => simp [queuedTop]

/-- A queued statement is the counter of what is at one of the places. -/
def QueuedAt (ctx : Context) (d : FileCoverage) (places : Span → Prop) (k : Node) : Prop :=
  ∃ i s, k = (Counter.statement i).statementNode ctx.identifier ∧ places s ∧
    d.CountsAt ctx s (.statement i)

namespace Traversal

/-- The branches that are noted for constructs are theirs. -/
structure Noted (ctx : Context) (m : CoverageMap) (t : Traversal) : Prop where
  parallel : t.coverage.Parallel
  branches : ∀ key b, t.marks.branch? key = some b → m.data.BranchAt ctx key.span b

/-- Between two states every new counter is queued, for one of the places, or held. -/
structure Accounts (ctx : Context) (m : CoverageMap) (t u : Traversal) (held : Counter → Prop)
    (places : Span → Prop) : Prop where
  noted : u.Noted ctx m
  counters : ∃ new, u.frames = queuedTop new t.frames ∧ (∀ k ∈ new, QueuedAt ctx m.data places k) ∧
    ∀ c, u.coverage.data.has c = true → t.coverage.data.has c = true ∨
      c.statementNode ctx.identifier ∈ new ∨ held c

namespace Accounts

variable {ctx : Context} {m : CoverageMap} {t u v : Traversal} {held held' : Counter → Prop}
  {places places' : Span → Prop}

theorem of_eq (hn : u.Noted ctx m) (hc : u.coverage = t.coverage) (hf : u.frames = t.frames) :
    Accounts ctx m t u held places := by
  refine ⟨hn,[],?_,List.forall_mem_nil _,fun c h => .inl (hc ▸ h)⟩
  rw [queuedTop_nil,hf]

theorem refl (hn : t.Noted ctx m) : Accounts ctx m t t held places := of_eq hn rfl rfl

theorem trans (h₁ : Accounts ctx m t u held places) (h₂ : Accounts ctx m u v held places) :
    Accounts ctx m t v held places := by
  obtain ⟨new,hf,hn,hc⟩ := h₁.counters
  obtain ⟨more,hf',hn',hc'⟩ := h₂.counters
  refine ⟨h₂.noted,new ++ more,?_,fun k hk => ?_,fun c h => ?_⟩
  · rw [hf',hf,queuedTop_queuedTop]
  · exact (List.mem_append.mp hk).elim (hn k) (hn' k)
  · rcases hc' c h with h | h | h
    · exact (hc c h).imp id (Or.imp (List.mem_append_left _) id)
    · exact .inr (.inl (List.mem_append_right _ h))
    · exact .inr (.inr h)

theorem mono (h : Accounts ctx m t u held places) (hh : ∀ c, held c → held' c)
    (hp : ∀ s, places s → places' s) : Accounts ctx m t u held' places' := by
  obtain ⟨new,hf,hn,hc⟩ := h.counters
  refine ⟨h.noted,new,hf,fun k hk => ?_,fun c h => (hc c h).imp id (Or.imp id (hh c))⟩
  obtain ⟨i,s,he,hs,hi⟩ := hn k hk
  exact ⟨i,s,he,hp s hs,hi⟩

end Accounts
end Traversal

namespace Action

variable {ctx : Context} {m : CoverageMap} {t u : Traversal} {i b j : Nat} {s : Span} {loc : Location}
  {held : Counter → Prop} {places : Span → Prop}

theorem keeps_of_run {α : Type} {action : Action α} {r : Except InstrumentError α} (ctx : Context)
    (ha : Acting ctx ⟨.block,.dummy⟩ (fun _ => True) action) (h : action.run.run t = (r,u)) :
    t.coverage.Keeps u.coverage := by
  have hacts := ha t
  rw [h] at hacts
  exact hacts.grows.keeps

theorem register_accounts {add : CoverageMap → Except InstrumentError Nat × CoverageMap}
    {new : Option Counter} (hn : t.Noted ctx m)
    (ha : ∀ c m', add t.coverage = (.ok i,m') → CoverageMap.Adds c new t.coverage m')
    (h : (register add).run.run t = (.ok i,u)) :
    Accounts ctx m t u (fun c => new = some c) places := by
  rw [run_register] at h
  obtain ⟨hi,rfl⟩ := Prod.mk.inj h
  have hadds := fun c => ha c _ (Prod.ext hi rfl)
  refine ⟨⟨(hadds (.statement 0)).parallel hn.parallel,hn.branches⟩,[],(queuedTop_nil _).symm,
    List.forall_mem_nil _,fun c hc => ?_⟩
  exact ((hadds c).has hn.parallel hc).imp id .inr

theorem markSkip_accounts {key : Key} {x : Unit} (hn : t.Noted ctx m)
    (h : (markSkip key).run.run t = (.ok x,u)) : Accounts ctx m t u held places := by
  cases h
  refine .of_eq ⟨hn.parallel,fun k b hb => hn.branches k b ?_⟩ rfl rfl
  rwa [← Marks.branch?_markSkip t.marks key k]

theorem queue_accounts {v : Traversal} {kind : Kind} {x : Unit}
    (hv : Accounts ctx m t v (fun c => c = .statement i ∨ held c) places)
    (hc : m.data.CountsAt ctx s (.statement i)) (hs : places s)
    (h : (queue ctx kind s (.statement i)).run.run v = (.ok x,u)) :
    Accounts ctx m t u held places := by
  obtain ⟨new,hf,hn,hcount⟩ := hv.counters
  rw [run_queue] at h
  split at h
  · rename_i frame rest hframes
    cases h
    refine ⟨⟨hv.noted.parallel,hv.noted.branches⟩,new ++ [(Counter.statement i).statementNode ctx.identifier],
      ?_,fun k hk => ?_,fun c hcov => ?_⟩
    · rw [← queuedTop_queuedTop,← hf,hframes]
      rfl
    · rcases List.mem_append.mp hk with hk | hk
      · exact hn k hk
      · exact ⟨i,s,List.mem_singleton.mp hk,hs,hc⟩
    · rcases hcount c hcov with hold | hnew | rfl | hheld
      · exact .inl hold
      · exact .inr (.inl (List.mem_append_left _ hnew))
      · exact .inr (.inl (List.mem_append_right _ (List.mem_singleton_self _)))
      · exact .inr (.inr hheld)
  · cases h

theorem newStatement_accounts (hn : t.Noted ctx m)
    (h : (register (·.newStatement loc)).run.run t = (.ok i,u)) :
    Accounts ctx m t u (fun c => c = .statement i ∨ held c) places :=
  (register_accounts hn (fun c _ => CoverageMap.newStatement_adds c) h).mono
    (fun _ hc => .inl (Option.some.inj hc).symm) fun _ => id

theorem coverStatement_accounts {kind : Kind} {x : Unit} (hn : t.Noted ctx m)
    (h : (coverStatement ctx kind s).run.run t = (.ok x,u)) (hk : u.coverage.Keeps m) :
    Accounts ctx m t u held (· = s) := by
  unfold coverStatement at h
  split at h
  · cases h
    exact .refl hn
  · rename_i loc hl
    obtain ⟨i,v,hi,hq⟩ := exists_of_run_bind h
    rw [(run_queue_eq_ok hq).1] at hk
    have hc := hk.countsAt (CoverageMap.newStatement_countsAt hl (run_register_eq_ok hi).1)
    exact queue_accounts (newStatement_accounts hn hi) hc rfl hq

/-- The counter of an initializer that takes its name may be queued; any other is in hand. -/
theorem coverInitializer_accounts {hoistable : Bool} {init : Option Node} {x : Option Counter}
    (hn : t.Noted ctx m) (h : (coverInitializer ctx hoistable init).run.run t = (.ok x,u))
    (hk : u.coverage.Keeps m) :
    Accounts ctx m t u
      (fun c => x = some c ∧ ∃ i, ∃ e ∈ init, c = .statement i ∧ m.data.CountsAt ctx e.span c)
      fun s => x = none ∧ hoistable = true ∧ ∃ e ∈ init, e.takesName = true ∧ s = e.span := by
  cases init with
  | none =>
    cases h
    exact .refl hn
  | some e =>
    simp only [coverInitializer] at h
    split at h
    · cases h
      exact .refl hn
    · rename_i loc hl
      obtain ⟨i,v,hi,hq⟩ := exists_of_run_bind h
      have hat := CoverageMap.newStatement_countsAt hl (run_register_eq_ok hi).1
      rw [run_get_bind] at hq
      split at hq
      · rename_i hhoist
        simp only [Bool.and_eq_true] at hhoist
        obtain ⟨y,w,hy,hw⟩ := exists_of_run_bind hq
        cases hw
        rw [(run_queue_eq_ok hy).1] at hk
        exact queue_accounts (newStatement_accounts hn hi) (hk.countsAt hat)
          ⟨rfl,hhoist.1.1,e,rfl,hhoist.1.2,rfl⟩ hy
      · cases hq
        refine (register_accounts hn (fun c _ => CoverageMap.newStatement_adds c) hi).mono
          (fun c hc => ?_) fun _ => id
        rw [← Option.some.inj hc]
        exact ⟨rfl,i,e,rfl,rfl,hk.countsAt hat⟩

theorem forM_markSkip_accounts {nodes : List Node} {f : Node → Key} {x : Unit} (hn : t.Noted ctx m)
    (h : (nodes.forM fun n => markSkip (f n)).run.run t = (.ok x,u)) :
    Accounts ctx m t u held places := by
  induction nodes generalizing t with
  | nil =>
    cases h
    exact .refl hn
  | cons n rest ih =>
    change (markSkip (f n) >>= fun _ => rest.forM _).run.run t = _ at h
    obtain ⟨y,v,hy,hv⟩ := exists_of_run_bind h
    have hfirst : Accounts ctx m t v held places := markSkip_accounts hn hy
    exact hfirst.trans (ih hfirst.noted hv)

/-- The counter of a function with a body is in hand. -/
theorem coverFunction_accounts {head : FunctionHead} {key : Option Node} {body : Body}
    {x : Option Counter} (hb : ∀ p ∈ bodyContent? body, p.1.isDummy = false) (hn : t.Noted ctx m)
    (h : (coverFunction ctx head key body).run.run t = (.ok x,u)) (hk : u.coverage.Keeps m) :
    Accounts ctx m t u
      (fun c => x = some c ∧ ∃ i, ∃ p ∈ bodyContent? body, c = .function i ∧ m.data.CountsAt ctx p.1 c)
      places := by
  unfold coverFunction at h
  split at h
  · rename_i loc bodySpan statements hloc hbody
    obtain ⟨bodyLoc,hl⟩ := ctx.exists_location (hb _ hbody)
    obtain ⟨i,v,hi,hv⟩ := exists_of_run_bind h
    obtain ⟨y,w,hy,hw⟩ := exists_of_run_bind hv
    cases hw
    rw [hl] at hi
    have hfirst : Accounts ctx m t v _ places :=
      register_accounts hn (fun c _ => CoverageMap.newFunction_adds c) hi
    have hkv := (keeps_of_run ctx (.forM_markSkip fun _ _ => trivial) hy).trans hk
    have hat := hkv.countsAt (CoverageMap.newFunction_countsAt hl (run_register_eq_ok hi).1)
    refine (hfirst.mono (fun c hc => ?_) fun _ => id).trans (forM_markSkip_accounts hfirst.noted hy)
    rw [← Option.some.inj hc]
    exact ⟨rfl,i,_,hbody,rfl,hat⟩
  · cases h
    exact .refl hn

theorem newBranch_accounts {kind : BranchKind} (hn : t.Noted ctx m)
    (h : (register (·.newBranch kind loc)).run.run t = (.ok b,u)) :
    Accounts ctx m t u held places :=
  (register_accounts hn (fun c _ => CoverageMap.newBranch_adds c) h).mono (fun _ hc => by cases hc)
    fun _ => id

theorem addPath_accounts {x : Counter} (hn : t.Noted ctx m)
    (h : (addPath b loc).run.run t = (.ok x,u)) :
    Accounts ctx m t u (fun c => x = c) places ∧
      ∃ j, x = .branch b j ∧ ∀ s, ctx.location? s = some loc → u.coverage.data.CountsAt ctx s x := by
  obtain ⟨j,v,hj,hv⟩ := exists_of_run_bind h
  cases hv
  refine ⟨(register_accounts hn (fun c _ => CoverageMap.addBranchPath_adds c) hj).mono
    (fun _ hc => Option.some.inj hc) fun _ => id,j,rfl,fun s hl => ?_⟩
  exact CoverageMap.addBranchPath_countsAt hn.parallel hl (run_register_eq_ok hj).1

theorem coverSide_accounts {side : Node} {ignored : Bool} {x : Option Counter} (hn : t.Noted ctx m)
    (h : (coverSide b loc ignored side).run.run t = (.ok x,u)) :
    Accounts ctx m t u (fun c => x = some c ∧ ∃ j, c = .branch b j) places := by
  unfold coverSide at h
  split at h
  · split at h
    · obtain ⟨y,v,hy,hv⟩ := exists_of_run_bind h
      cases hv
      exact markSkip_accounts hn hy
    · obtain ⟨c,v,hc,hv⟩ := exists_of_run_bind h
      cases hv
      obtain ⟨hacc,j,hj,-⟩ := addPath_accounts hn hc
      exact hacc.mono (fun c' hc' => hc' ▸ ⟨rfl,j,hj⟩) fun _ => id
  · cases h

theorem coverIf_accounts {consequent : Node} {alternate : Option Node}
    {x : Option (Option Counter × Option Counter)} (hn : t.Noted ctx m)
    (h : (coverIf ctx s consequent alternate).run.run t = (.ok x,u)) (hk : u.coverage.Keeps m) :
    ∃ sides, x = some sides ∧
      Accounts ctx m t u (fun c => (sides.1 = some c ∨ sides.2 = some c) ∧
        ∃ b j, c = .branch b j ∧ m.data.BranchAt ctx s b) places := by
  unfold coverIf at h
  split at h
  · cases h
    exact ⟨_,rfl,.refl hn⟩
  · rename_i loc hl
    obtain ⟨b,v,hb,hv⟩ := exists_of_run_bind h
    obtain ⟨y,w,hy,hw⟩ := exists_of_run_bind hv
    obtain ⟨z,w',hz,hw'⟩ := exists_of_run_bind hw
    cases hw'
    have hkv := ((keeps_of_run ctx (.coverSide _ _ trivial) hy).trans
      (keeps_of_run ctx (.coverSide _ _ trivial) hz)).trans hk
    have hat := hkv.branchAt (CoverageMap.newBranch_branchAt hl (run_register_eq_ok hb).1)
    refine ⟨_,rfl,?_⟩
    have h₁ : ∀ held, Accounts ctx m t v held places := fun _ => newBranch_accounts hn hb
    have h₂ : Accounts ctx m v w _ places := coverSide_accounts (h₁ fun _ => False).noted hy
    have h₃ : Accounts ctx m w u _ places := coverSide_accounts h₂.noted hz
    refine ((h₁ _).trans (h₂.mono (fun c hc => ?_) fun _ => id)).trans (h₃.mono (fun c hc => ?_) fun _ => id)
    · exact ⟨.inl hc.1,b,hc.2.choose,hc.2.choose_spec,hat⟩
    · exact ⟨.inr hc.1,b,hc.2.choose,hc.2.choose_spec,hat⟩

theorem coverCompound_accounts {form : CompoundForm} {init : Option Node} {x : Bool}
    (hn : t.Noted ctx m) (h : (coverCompound ctx form s init).run.run t = (.ok x,u))
    (hk : u.coverage.Keeps m) : x = true ∧ Accounts ctx m t u held (· = s) := by
  unfold coverCompound at h
  split at h
  · rename_i key hkey
    obtain ⟨y,v,hy,hv⟩ := exists_of_run_bind h
    obtain ⟨z,w,hz,hw⟩ := exists_of_run_bind hv
    cases hw
    have h₁ : Accounts ctx m t v held (· = s) := markSkip_accounts hn hy
    exact ⟨rfl,h₁.trans (coverStatement_accounts h₁.noted hz hk)⟩
  · obtain ⟨z,w,hz,hw⟩ := exists_of_run_bind h
    cases hw
    exact ⟨rfl,coverStatement_accounts hn hz hk⟩

/-- A switch notes its own branch. -/
theorem coverSwitch_accounts {x : Unit} (hn : t.Noted ctx m)
    (h : (coverSwitch ctx s).run.run t = (.ok x,u)) (hk : u.coverage.Keeps m) :
    Accounts ctx m t u held (· = s) := by
  unfold coverSwitch at h
  split at h
  · exact coverStatement_accounts hn h hk
  · rename_i loc hl
    obtain ⟨b,v,hb,hv⟩ := exists_of_run_bind h
    obtain ⟨y,w,hy,hw⟩ := exists_of_run_bind hv
    cases hy
    have hkv := (keeps_of_run ctx (.coverStatement _ _) hw).trans hk
    have hat := hkv.branchAt (CoverageMap.newBranch_branchAt hl (run_register_eq_ok hb).1)
    have h₁ : Accounts ctx m t v held (· = s) := newBranch_accounts hn hb
    have h₂ : Accounts ctx m v { v with marks := v.marks.setBranch ⟨.switch,s⟩ b } held (· = s) := by
      refine .of_eq ⟨h₁.noted.parallel,fun key b' hb' => ?_⟩ rfl rfl
      by_cases hkey : key = ⟨.switch,s⟩
      · subst hkey
        rcases Marks.branch?_eq_some_of_setBranch hb' with rfl | hold
        · exact hat
        · exact h₁.noted.branches _ _ hold
      · refine h₁.noted.branches key b' ?_
        rw [← hb',Marks.branch?,Marks.branch?,Marks.setBranch,Marks.get?_update_of_ne _ _ hkey]
    exact (h₁.trans h₂).trans (coverStatement_accounts h₂.noted hw hk)

/-- The counter of a case is in hand, and counts for the branch of its switch. -/
theorem coverCase_accounts {switch : Key} {x : Option Counter} (hn : t.Noted ctx m)
    (h : (coverCase ctx s switch).run.run t = (.ok x,u)) :
    Accounts ctx m t u
      (fun c => x = some c ∧ ∃ b j, c = .branch b j ∧ m.data.BranchAt ctx switch.span b) places := by
  unfold coverCase at h
  rw [run_get_bind] at h
  split at h
  · cases h
  · rename_i b hb
    split at h
    · cases h
      exact .refl hn
    · obtain ⟨c,v,hc,hv⟩ := exists_of_run_bind h
      cases hv
      obtain ⟨hacc,j,hj,-⟩ := addPath_accounts hn hc
      exact hacc.mono (fun c' hc' => hc' ▸ ⟨rfl,b,j,hj,hn.branches switch b hb⟩) fun _ => id

theorem coverOperand_accounts {n : Node} {x : Option Counter} (hn : t.Noted ctx m)
    (h : (coverOperand ctx b n).run.run t = (.ok x,u)) (hk : u.coverage.Keeps m) :
    Accounts ctx m t u
      (fun c => x = some c ∧ ∃ j, c = .branch b j ∧ m.data.CountsAt ctx n.span c) places := by
  unfold coverOperand at h
  split at h
  · cases h
    exact .refl hn
  · split at h
    · cases h
      exact .refl hn
    · rename_i loc hl
      obtain ⟨c,v,hc,hv⟩ := exists_of_run_bind h
      cases hv
      obtain ⟨hacc,j,hj,hat⟩ := addPath_accounts hn hc
      exact hacc.mono (fun c' hc' => hc' ▸ ⟨rfl,j,hj,hk.countsAt (hat _ hl)⟩) fun _ => id

theorem coverConditional_accounts {consequent alternate : Node} {x : Option Counter × Option Counter}
    (hn : t.Noted ctx m) (h : (coverConditional ctx s consequent alternate).run.run t = (.ok x,u))
    (hk : u.coverage.Keeps m) :
    Accounts ctx m t u
      (fun c => ∃ b j, c = .branch b j ∧ (x.1 = some c ∧ m.data.CountsAt ctx consequent.span c ∨
        x.2 = some c ∧ m.data.CountsAt ctx alternate.span c)) places := by
  unfold coverConditional at h
  split at h
  · cases h
    exact .refl hn
  · obtain ⟨b,v,hb,hv⟩ := exists_of_run_bind h
    obtain ⟨y,w,hy,hw⟩ := exists_of_run_bind hv
    obtain ⟨z,w',hz,hw'⟩ := exists_of_run_bind hw
    cases hw'
    have h₁ : ∀ held, Accounts ctx m t v held places := fun _ => newBranch_accounts hn hb
    have h₂ : Accounts ctx m v w _ places :=
      coverOperand_accounts (h₁ fun _ => False).noted hy ((keeps_of_run ctx (.coverOperand _ _) hz).trans hk)
    have h₃ : Accounts ctx m w u _ places := coverOperand_accounts h₂.noted hz hk
    refine ((h₁ _).trans (h₂.mono (fun c hc => ?_) fun _ => id)).trans (h₃.mono (fun c hc => ?_) fun _ => id)
    · obtain ⟨hc,j,hj,hat⟩ := hc
      exact ⟨b,j,hj,.inl ⟨hc,hat⟩⟩
    · obtain ⟨hc,j,hj,hat⟩ := hc
      exact ⟨b,j,hj,.inr ⟨hc,hat⟩⟩

theorem coverDefault_accounts {value : Option Node} {x : Option Counter} (hn : t.Noted ctx m)
    (h : (coverDefault ctx s value).run.run t = (.ok x,u)) (hk : u.coverage.Keeps m) :
    Accounts ctx m t u
      (fun c => x = some c ∧ ∃ b j, ∃ v ∈ value, c = .branch b j ∧ m.data.CountsAt ctx v.span c)
      places := by
  cases value with
  | none =>
    cases h
    exact .refl hn
  | some value =>
    simp only [coverDefault] at h
    split at h
    · cases h
      exact .refl hn
    · obtain ⟨b,v,hb,hv⟩ := exists_of_run_bind h
      have h₁ : ∀ held, Accounts ctx m t v held places := fun _ => newBranch_accounts hn hb
      split at hv
      · cases hv
        exact h₁ _
      · rename_i loc hl
        obtain ⟨c,w,hc,hw⟩ := exists_of_run_bind hv
        cases hw
        obtain ⟨hacc,j,hj,hat⟩ := addPath_accounts (h₁ fun _ => False).noted hc
        refine (h₁ _).trans (hacc.mono (fun c' hc' => ?_) fun _ => id)
        exact hc' ▸ ⟨rfl,b,j,value,rfl,hj,hk.countsAt (hat _ hl)⟩

theorem mapM_coverOperand_accounts {nodes : List Node} {xs : List (Option Counter)}
    (hs : ∀ n ∈ nodes, n.span.isDummy = false) (hn : t.Noted ctx m)
    (h : (nodes.mapM (coverOperand ctx b)).run.run t = (.ok xs,u)) (hk : u.coverage.Keeps m) :
    Accounts ctx m t u
      (fun c => ∃ j n, (ctx.countedOperands nodes)[j]? = some n ∧
        c = .branch b (t.coverage.pathCount b + j) ∧ m.data.CountsAt ctx n.span c) places := by
  induction nodes generalizing t xs with
  | nil =>
    cases h
    exact .refl hn
  | cons n rest ih =>
    rw [List.mapM_cons] at h
    obtain ⟨x,v,hx,hv⟩ := exists_of_run_bind h
    obtain ⟨ys,w,hy,hw⟩ := exists_of_run_bind hv
    cases hw
    have hkv := (keeps_of_run ctx (.mapM (fun _ => .coverOperand _ _) _) hy).trans hk
    have h₁ : Accounts ctx m t v _ places := coverOperand_accounts hn hx hkv
    obtain ⟨⟨-,hcount⟩,hnumber⟩ := coverOperand_numbers hn.parallel (hs n List.mem_cons_self) hx
    have h₂ : Accounts ctx m v u _ places :=
      ih (fun n hn => hs n (List.mem_cons_of_mem _ hn)) h₁.noted hy
    refine (h₁.mono (fun c hc => ?_) fun _ => id).trans (h₂.mono (fun c hc => ?_) fun _ => id)
    · obtain ⟨hc,-,-,hat⟩ := hc
      rw [hnumber] at hc
      split at hc
      · cases hc
      · rename_i hskip
        refine ⟨0,n,?_,(Option.some.inj hc).symm,hat⟩
        simp [Context.countedOperands,hskip]
    · obtain ⟨j,o,ho,rfl,hat⟩ := hc
      refine ⟨(ctx.countedOperands [n]).length + j,o,?_,?_,hat⟩
      · have happ : ctx.countedOperands ([n] ++ rest) = ctx.countedOperands [n] ++ ctx.countedOperands rest :=
          Context.countedOperands_append
        rw [List.singleton_append] at happ
        rw [happ,List.getElem?_append_right (Nat.le_add_right _ _),Nat.add_sub_cancel_left]
        exact ho
      · rw [hcount,Nat.add_assoc]

/-- The counters of a chain are in hand, one for each operand that is counted. -/
theorem coverChain_accounts {left right : Node} {xs : List (Option Counter)}
    (hs : ∀ n ∈ ctx.directives.operands left ++ ctx.directives.operands right, n.span.isDummy = false)
    (hn : t.Noted ctx m) (h : (coverChain ctx s left right).run.run t = (.ok xs,u))
    (hk : u.coverage.Keeps m) :
    Accounts ctx m t u
      (fun c => ∃ j n, (ctx.countedOperands
          (ctx.directives.operands left ++ ctx.directives.operands right))[j]? = some n ∧
        c = .branch t.coverage.branchCount j ∧ m.data.CountsAt ctx n.span c) places := by
  unfold coverChain at h
  split at h
  · cases h
    exact .refl hn
  · obtain ⟨b,v,hb,hv⟩ := exists_of_run_bind h
    obtain ⟨rfl,-⟩ := newBranch_notes hb
    have h₁ : ∀ held, Accounts ctx m t v held places := fun _ => newBranch_accounts hn hb
    have h₂ : Accounts ctx m v u _ places :=
      mapM_coverOperand_accounts hs (h₁ fun _ => False).noted hv hk
    rw [CoverageMap.pathCount_newBranch hn.parallel (run_register_eq_ok hb).1] at h₂
    simp only [Nat.zero_add] at h₂
    exact (h₁ _).trans h₂

end Action
end CoverageCounters
