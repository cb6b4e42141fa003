import CoverageCounters.Proofs.RunInvariants
import CoverageCounters.Proofs.TreeCounters

/-!
Counters and tables are kept in step. Every record that is registered puts one counter in hand; a
counter in hand is queued or given to the node it belongs to, and ends up in the tree. So at every
moment of a pass without an error, the counters in hand, those queued and those that the finished part
of the tree has beyond what it was made from are those of the tables, each once, and all of them count
on the object with the file's name.
-/

namespace CoverageCounters

def FileCoverage.has (f : FileCoverage) : Counter → Bool
  | .statement i => i < f.statementMap.length
  | .function i => i < f.fnMap.length
  | .branch i path => f.branchMap[i]?.any fun r => path < r.locations.length

namespace CoverageMap

variable {m m' : CoverageMap} {i : Nat}

/-- How often the tables have a counter. -/
def entries (m : CoverageMap) (c : Counter) : Nat := (m.data.has c).toNat

/-- The counts of the paths stand beside their locations. -/
def Parallel (m : CoverageMap) : Prop :=
  m.data.b.map List.length = m.data.branchMap.map fun r => r.locations.length

/-- A registration adds one counter, or none, to the tables. -/
structure Adds (c : Counter) (new : Option Counter) (m m' : CoverageMap) : Prop where
  parallel : m.Parallel → m'.Parallel
  entries : m.Parallel → m'.entries c = m.entries c + [new].count (some c)

theorem newStatement_adds {loc : Location} (c : Counter) (h : m.newStatement loc = (.ok i,m')) :
    Adds c (some (.statement i)) m m' := by
  unfold newStatement ifOpen at h
  split at h
  · cases h
  · cases h
    refine ⟨id,fun _ => ?_⟩
    cases c with
    | statement j =>
      by_cases hj : j = m.data.statementMap.length
      · simp [CoverageMap.entries,FileCoverage.has,statementCount,hj]
      · have hs : j < m.data.statementMap.length + 1 ↔ j < m.data.statementMap.length := by omega
        simp [CoverageMap.entries,FileCoverage.has,statementCount,hs,Ne.symm hj]
    | function j => simp [CoverageMap.entries,FileCoverage.has]
    | branch b path => simp [CoverageMap.entries,FileCoverage.has]

theorem newFunction_adds {name : Option String} {decl loc : Location} (c : Counter)
    (h : m.newFunction name decl loc = (.ok i,m')) : Adds c (some (.function i)) m m' := by
  unfold newFunction ifOpen at h
  split at h
  · cases h
  · cases h
    refine ⟨id,fun _ => ?_⟩
    cases c with
    | statement j => simp [CoverageMap.entries,FileCoverage.has]
    | function j =>
      by_cases hj : j = m.data.fnMap.length
      · simp [CoverageMap.entries,FileCoverage.has,functionCount,hj]
      · have hs : j < m.data.fnMap.length + 1 ↔ j < m.data.fnMap.length := by omega
        simp [CoverageMap.entries,FileCoverage.has,functionCount,hs,Ne.symm hj]
    | branch b path => simp [CoverageMap.entries,FileCoverage.has]

theorem newBranch_adds {kind : BranchKind} {loc : Location} (c : Counter)
    (h : m.newBranch kind loc = (.ok i,m')) : Adds c none m m' := by
  unfold newBranch ifOpen at h
  split at h
  · cases h
  · cases h
    refine ⟨fun hp => ?_,fun _ => ?_⟩
    · simp only [Parallel,List.map_append] at hp ⊢
      rw [hp]
      rfl
    · cases c with
      | statement j => simp [CoverageMap.entries,FileCoverage.has]
      | function j => simp [CoverageMap.entries,FileCoverage.has]
      | branch b path =>
        by_cases hb : b < m.data.branchMap.length
        · simp [CoverageMap.entries,FileCoverage.has,List.getElem?_append_left hb]
        · have hn : m.data.branchMap[b]? = none := List.getElem?_eq_none (by omega)
          have ha : ((m.data.branchMap ++ [⟨loc,kind,[],loc.start.line⟩])[b]?).any
              (fun r => decide (path < r.locations.length)) = false := by
            rw [List.getElem?_append_right (by omega)]
            cases b - m.data.branchMap.length <;> simp
          simp [CoverageMap.entries,FileCoverage.has,hn,ha]

theorem Parallel.length_eq (hp : m.Parallel) (b : Nat) :
    (m.data.b.getD b []).length = ((m.data.branchMap[b]?).map fun r => r.locations.length).getD 0 := by
  have h : (m.data.b.map List.length)[b]? =
      (m.data.branchMap.map fun r => r.locations.length)[b]? := by rw [hp]
  rw [List.getElem?_map,List.getElem?_map] at h
  rw [← h,List.getD_eq_getElem?_getD]
  cases m.data.b[b]? <;> rfl

theorem addBranchPath_adds {b : Nat} {loc : Location} (c : Counter)
    (h : m.addBranchPath b loc = (.ok i,m')) : Adds c (some (.branch b i)) m m' := by
  unfold addBranchPath ifOpen at h
  split at h
  · cases h
  · split at h
    · rename_i hb
      cases h
      refine ⟨fun hp => ?_,fun hp => ?_⟩
      · apply List.ext_getElem?
        intro j
        have hj : (m.data.b.map List.length)[j]? =
            (m.data.branchMap.map fun r => r.locations.length)[j]? := by rw [hp]
        simp only [List.getElem?_map,List.getElem?_modify] at hj ⊢
        by_cases hbj : b = j
        · cases hx : m.data.b[j]? <;> cases hy : m.data.branchMap[j]? <;> simp_all
        · simp [hbj,hj]
      · obtain ⟨r,hr⟩ : ∃ r, m.data.branchMap[b]? = some r :=
          ⟨_,List.getElem?_eq_getElem hb⟩
        have hl : (m.data.b.getD b []).length = r.locations.length := by
          rw [hp.length_eq b,hr]
          rfl
        rw [hl]
        cases c with
        | statement j => simp [CoverageMap.entries,FileCoverage.has]
        | function j => simp [CoverageMap.entries,FileCoverage.has]
        | branch b' path =>
          by_cases hbb : b' = b
          · subst hbb
            by_cases hpath : path = r.locations.length
            · simp [CoverageMap.entries,FileCoverage.has,hr,hpath]
            · have hs : path < r.locations.length + 1 ↔ path < r.locations.length := by omega
              simp [CoverageMap.entries,FileCoverage.has,hr,hs,Ne.symm hpath]
          · simp [CoverageMap.entries,FileCoverage.has,List.getElem?_modify_ne _ _ (Ne.symm hbb),
              Ne.symm hbb]
    · cases h

end CoverageMap

/-- How often a counter stands in some nodes. -/
def tally (name : String) (c : Counter) (nodes : List Node) : Nat :=
  (nodes.flatMap (Node.counters name)).count c

/-- How many more times a counter stands in some nodes than in those they were made from. -/
def gain (name : String) (c : Counter) (new old : List Node) : Int :=
  tally name c new - tally name c old

/-- How often a counter of the object with this name is among some counters of the file. -/
def share (ctx : Context) (name : String) (c : Counter) : List (Option Counter) → Int
  | [] => 0
  | none :: os => share ctx name c os
  | some c' :: os => (if name = ctx.identifier ∧ c' = c then 1 else 0) + share ctx name c os

section Tally

variable {ctx : Context} {name : String} {c : Counter}

@[simp] theorem tally_nil : tally name c [] = 0 := rfl

@[simp] theorem tally_append (nodes rest : List Node) :
    tally name c (nodes ++ rest) = tally name c nodes + tally name c rest := by
  rw [tally,List.flatMap_append,List.count_append]
  rfl

theorem tally_children {n : Node} (h : Counter.ofNode? name n = none) :
    tally name c [n] = tally name c n.children := by
  rw [tally,List.flatMap_singleton,Node.counters_eq,h]
  rfl

theorem tally_of_mentions {nodes : List Node} (h : ∀ n ∈ nodes, n.mentions name = false) :
    tally name c nodes = 0 := by
  rw [tally,List.flatMap_eq_nil_iff.mpr fun n hn => Node.counters_of_mentions (h n hn)]
  rfl

@[simp] theorem gain_self (nodes : List Node) : gain name c nodes nodes = 0 := Int.sub_self _

theorem gain_append (new new' old old' : List Node) :
    gain name c (new ++ new') (old ++ old') = gain name c new old + gain name c new' old' := by
  simp only [gain,tally_append]
  omega

theorem gain_cons (n m : Node) (new old : List Node) :
    gain name c (n :: new) (m :: old) = gain name c [n] [m] + gain name c new old :=
  gain_append [n] new [m] old

/-- Two nodes that are the same counter or none differ in the counters of their children. -/
theorem gain_children_of_eq {n m : Node} (h : Counter.ofNode? name n = Counter.ofNode? name m) :
    gain name c [n] [m] = gain name c n.children m.children := by
  simp only [gain,tally,List.flatMap_singleton,Node.counters_eq n,Node.counters_eq m,h,
    List.count_append]
  omega

theorem gain_children {n m : Node} (hn : Counter.ofNode? name n = none)
    (hm : Counter.ofNode? name m = none) :
    gain name c [n] [m] = gain name c n.children m.children :=
  gain_children_of_eq (hn.trans hm.symm)

theorem share_append (os os' : List (Option Counter)) :
    share ctx name c (os ++ os') = share ctx name c os + share ctx name c os' := by
  induction os with
  | nil => exact (Int.zero_add _).symm
  | cons o os ih =>
    cases o with
    | none => exact ih
    | some c' => rw [List.cons_append,share,share,ih,Int.add_assoc]

theorem share_cons (o : Option Counter) (os : List (Option Counter)) :
    share ctx name c (o :: os) = share ctx name c [o] + share ctx name c os :=
  share_append [o] os

theorem share_singleton (c' : Counter) :
    share ctx name c [some c'] = ((c'.node ctx.identifier).counters name).count c := by
  rw [share,share,Int.add_zero]
  by_cases hn : name = ctx.identifier
  · rw [hn,Node.counters_node]
    by_cases hc : c' = c <;> simp [hc]
  · rw [Node.counters_node_of_ne (Ne.symm hn) c',if_neg fun h => hn h.1]
    rfl

theorem gain_after (c' : Counter) (n m : Node) :
    gain name c [Build.after (c'.node ctx.identifier) n] [m] =
      share ctx name c [some c'] + gain name c [n] [m] := by
  simp only [gain,tally,List.flatMap_singleton,Node.counters_after,List.count_append,share_singleton]
  omega

@[simp] theorem tally_statementNode (c' : Counter) :
    (tally name c [c'.statementNode ctx.identifier] : Int) = share ctx name c [some c'] := by
  rw [tally,List.flatMap_singleton,Node.counters_statementNode,share_singleton]

@[simp] theorem tally_counterStatements (o : Option Counter) :
    (tally name c (Walk.counterStatements ctx o) : Int) = share ctx name c [o] := by
  cases o with
  | none => rfl
  | some c' => exact tally_statementNode c'

end Tally

/-- How often the tables have a counter of the object with this name. -/
def CoverageMap.due (ctx : Context) (name : String) (c : Counter) (m : CoverageMap) : Int :=
  if name = ctx.identifier then m.entries c else 0

theorem CoverageMap.Adds.due {c : Counter} {new : Option Counter} {m m' : CoverageMap}
    (h : Adds c new m m') (ctx : Context) (name : String) (hp : m.Parallel) :
    m'.due ctx name c = m.due ctx name c + share ctx name c [new] := by
  have he := h.entries hp
  unfold CoverageMap.due
  cases new with
  | none => simp [share,he]
  | some c' =>
    by_cases hc : c' = c <;> by_cases hn : name = ctx.identifier <;> simp [share,he,hc,hn]

/-- The counters in hand and those queued are those of the tables. -/
structure Traversal.Balanced (ctx : Context) (name : String) (c : Counter) (hand : Int)
    (t : Traversal) : Prop where
  parallel : t.coverage.Parallel
  total : hand + tally name c t.frames.flatten = t.coverage.due ctx name c

namespace Action

variable {α β : Type} {ctx : Context} {name : String} {c : Counter} {g : Int}

/-- An action that starts with `g` counters in hand and gives a result ends with those of its
result. -/
def Earns (ctx : Context) (name : String) (c : Counter) (g : Int) (a : Action α) (earned : α → Int) :
    Prop :=
  ∀ k t x u, a.run.run t = (.ok x,u) → t.Balanced ctx name c (k + g) →
    u.Balanced ctx name c (k + earned x)

namespace Earns

variable {earned : α → Int} {result : β → Int}

theorem pure {x : α} (h : earned x = g) : Earns ctx name c g (Pure.pure x) earned := by
  intro k t y u hr ht
  cases hr
  rw [h]
  exact ht

theorem throw (e : InstrumentError) : Earns ctx name c g (MonadExcept.throw e : Action α) earned := by
  intro k t y u hr
  cases hr

theorem bind {a : Action α} {f : α → Action β} (ha : Earns ctx name c g a earned)
    (hf : ∀ x, Earns ctx name c (earned x) (f x) result) : Earns ctx name c g (a >>= f) result := by
  intro k t y v hr ht
  obtain ⟨x,u,hx,hy⟩ := exists_of_run_bind hr
  exact hf x k u y v hy (ha k t x u hx ht)

/-- Counters that an action does not touch stay in hand. -/
theorem frame {a : Action α} (ha : Earns ctx name c 0 a earned) (kept : Int) :
    Earns ctx name c kept a fun x => kept + earned x := by
  intro k t x u hr ht
  have h := ha (k + kept) t x u hr (by rw [Int.add_zero]; exact ht)
  rw [Int.add_assoc] at h
  exact h

theorem register {add : CoverageMap → Except InstrumentError Nat × CoverageMap}
    {new : Nat → Option Counter}
    (h : ∀ m i m', add m = (.ok i,m') → CoverageMap.Adds c (new i) m m') :
    Earns ctx name c 0 (register add) fun i => share ctx name c [new i] := by
  intro k t i u hr ht
  rw [run_register] at hr
  obtain ⟨ha,rfl⟩ := Prod.mk.inj hr
  have hadd := h _ _ _ (Prod.ext ha rfl)
  refine ⟨hadd.parallel ht.parallel,?_⟩
  have htotal := ht.total
  have hdue := hadd.due ctx name ht.parallel
  have hsum : k + share ctx name c [new i] + tally name c t.frames.flatten =
      t.coverage.due ctx name c + share ctx name c [new i] := by omega
  exact hsum.trans hdue.symm

theorem newBranch (kind : BranchKind) (loc : Location) :
    Earns ctx name c 0 (Action.register (·.newBranch kind loc)) fun _ => 0 := by
  have h : ∀ m i m', CoverageMap.newBranch m kind loc = (.ok i,m') →
      CoverageMap.Adds c none m m' := fun _ _ _ => CoverageMap.newBranch_adds c
  intro k t i u hr ht
  exact register h k t i u hr ht

theorem addPath (b : Nat) (loc : Location) :
    Earns ctx name c 0 (addPath b loc) fun c' => share ctx name c [some c'] :=
  (register fun _ _ _ => CoverageMap.addBranchPath_adds c).bind fun _ => .pure rfl

theorem markSkip (key : Key) : Earns ctx name c g (markSkip key) fun _ => g := by
  intro k t x u hr ht
  cases hr
  exact ⟨ht.parallel,ht.total⟩

theorem setBranch (key : Key) (b : Nat) :
    Earns ctx name c g (modify fun t => { t with marks := t.marks.setBranch key b }) fun _ => g := by
  intro k t x u hr ht
  cases hr
  exact ⟨ht.parallel,ht.total⟩

theorem queue (kind : Kind) (s : Span) (c' : Counter) :
    Earns ctx name c (share ctx name c [some c']) (queue ctx kind s c') fun _ => 0 := by
  intro k t x u hr ht
  rw [run_queue] at hr
  split at hr
  · rename_i frame rest hf
    cases hr
    refine ⟨ht.parallel,?_⟩
    have htotal := ht.total
    rw [hf] at htotal
    have hstatement := @tally_statementNode ctx name c c'
    simp only [List.flatten_cons,tally_append] at htotal ⊢
    omega
  · cases hr

theorem coverStatement (kind : Kind) (s : Span) :
    Earns ctx name c 0 (coverStatement ctx kind s) fun _ => 0 := by
  unfold Action.coverStatement
  split
  · exact .pure rfl
  · exact (register fun _ _ _ => CoverageMap.newStatement_adds c).bind fun _ => queue kind s _

theorem coverInitializer (hoistable : Bool) (init : Option Node) :
    Earns ctx name c 0 (coverInitializer ctx hoistable init) fun o => share ctx name c [o] := by
  cases init with
  | none => exact .pure rfl
  | some init =>
    simp only [Action.coverInitializer]
    split
    · exact .pure rfl
    · refine (register fun _ _ _ => CoverageMap.newStatement_adds c).bind fun i => ?_
      intro k t x u hr ht
      rw [run_get_bind] at hr
      split at hr
      · have hq : Earns ctx name c _ (Action.queue ctx .variableDeclarator init.span (.statement i) >>=
            fun _ => Pure.pure none) fun o => share ctx name c [o] :=
          (queue _ _ _).bind fun _ => .pure rfl
        exact hq k t x u hr ht
      · cases hr
        exact ht

theorem forM_markSkip (nodes : List Node) (f : Node → Key) :
    Earns ctx name c g (nodes.forM fun n => Action.markSkip (f n)) fun _ => g := by
  induction nodes with
  | nil => exact .pure rfl
  | cons n rest ih =>
    change Earns ctx name c g (Action.markSkip (f n) >>= fun _ => rest.forM _) _
    exact (markSkip (f n)).bind fun _ => ih

theorem coverFunction (head : FunctionHead) (key : Option Node) (body : Body) :
    Earns ctx name c 0 (coverFunction ctx head key body) fun o => share ctx name c [o] := by
  unfold Action.coverFunction
  split
  · exact (register fun _ _ _ => CoverageMap.newFunction_adds c).bind fun i =>
      (forM_markSkip _ _).bind fun _ => .pure rfl
  · exact .pure rfl

theorem coverSide (b : Nat) (loc : Location) (ignored : Bool) (side : Node) :
    Earns ctx name c 0 (coverSide b loc ignored side) fun o => share ctx name c [o] := by
  unfold Action.coverSide
  split
  · split
    · exact (markSkip _).bind fun _ => .pure rfl
    · exact (addPath b loc).bind fun _ => .pure rfl
  · exact .throw _

/-- The counters that an `if` hands to its sides. -/
def sides (ctx : Context) (name : String) (c : Counter) : Option (Option Counter × Option Counter) → Int
  | none => 0
  | some (first,second) => share ctx name c [first] + share ctx name c [second]

theorem coverIf (s : Span) (consequent : Node) (alternate : Option Node) :
    Earns ctx name c 0 (coverIf ctx s consequent alternate) (sides ctx name c) := by
  unfold Action.coverIf
  split
  · exact .pure rfl
  · exact (newBranch _ _).bind fun b => (coverSide b _ _ _).bind fun first =>
      ((coverSide b _ _ _).frame _).bind fun second => .pure rfl

theorem coverCompound (form : CompoundForm) (s : Span) (init : Option Node) :
    Earns ctx name c 0 (coverCompound ctx form s init) fun _ => 0 := by
  unfold Action.coverCompound
  split
  · exact (markSkip _).bind fun _ => (coverStatement _ s).bind fun _ => .pure rfl
  · exact (coverStatement _ s).bind fun _ => .pure rfl

theorem coverSwitch (s : Span) : Earns ctx name c 0 (coverSwitch ctx s) fun _ => 0 := by
  unfold Action.coverSwitch
  split
  · exact coverStatement _ s
  · exact (newBranch _ _).bind fun b => (setBranch _ b).bind fun _ => coverStatement _ s

theorem coverCase (s : Span) (switch : Key) :
    Earns ctx name c 0 (coverCase ctx s switch) fun o => share ctx name c [o] := by
  unfold Action.coverCase
  intro k t x u hr ht
  rw [run_get_bind] at hr
  split at hr
  · cases hr
  · split at hr
    · cases hr
      exact ht
    · rename_i b _ _ loc _
      have hp : Earns ctx name c 0 (Action.addPath b loc >>= fun c' => Pure.pure (some c'))
          fun o => share ctx name c [o] := (addPath b loc).bind fun _ => .pure rfl
      exact hp k t x u hr ht

theorem coverOperand (b : Nat) (n : Node) :
    Earns ctx name c 0 (coverOperand ctx b n) fun o => share ctx name c [o] := by
  unfold Action.coverOperand
  split
  · exact .pure rfl
  · split
    · exact .pure rfl
    · exact (addPath b _).bind fun _ => .pure rfl

theorem coverConditional (s : Span) (consequent alternate : Node) :
    Earns ctx name c 0 (coverConditional ctx s consequent alternate) fun os =>
      share ctx name c [os.1] + share ctx name c [os.2] := by
  unfold Action.coverConditional
  split
  · exact .pure rfl
  · exact (newBranch _ _).bind fun b => (coverOperand b _).bind fun _ =>
      ((coverOperand b _).frame _).bind fun _ => .pure rfl

theorem mapM_coverOperand (b : Nat) (nodes : List Node) :
    Earns ctx name c 0 (nodes.mapM (Action.coverOperand ctx b)) fun os => share ctx name c os := by
  induction nodes with
  | nil => exact .pure rfl
  | cons n rest ih =>
    rw [List.mapM_cons]
    exact (coverOperand b n).bind fun o => (ih.frame _).bind fun os => .pure (share_cons o os)

theorem coverChain (s : Span) (left right : Node) :
    Earns ctx name c 0 (coverChain ctx s left right) fun os => share ctx name c os := by
  unfold Action.coverChain
  split
  · exact .pure rfl
  · exact (newBranch _ _).bind fun b => mapM_coverOperand b _

theorem coverDefault (s : Span) (value : Option Node) :
    Earns ctx name c 0 (coverDefault ctx s value) fun o => share ctx name c [o] := by
  cases value with
  | none => exact .pure rfl
  | some value =>
    simp only [Action.coverDefault]
    split
    · exact .pure rfl
    · refine (newBranch _ _).bind fun b => ?_
      split
      · exact .pure rfl
      · exact (addPath b _).bind fun _ => .pure rfl

end Earns
end Action
end CoverageCounters
