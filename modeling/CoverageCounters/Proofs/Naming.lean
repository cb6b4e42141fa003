import CoverageCounters.Proofs.HintedExpressions
import CoverageCounters.Proofs.Standing
import CoverageCounters.Proofs.StatementRecords

/-!
Initializers that take the name of their variable. A function or a class that is bound by a declaration in
a list stays right behind the variable, under the parentheses that it had, and its counter goes in front of
the declaration. Any other initializer that is counted goes behind its counter in place, and so does a
function that is bound anywhere else: the note that variables are declared is set for the items of a list
only, and the first declaration that is met takes it away.
-/

namespace CoverageCounters

open Walk Traversal

/-- The same function or class, under the same parentheses. -/
inductive Node.KeepsName : Node → Node → Prop where
  | function {head : FunctionHead} {key key' : Option Node} {before before' after after' : List Part}
      {body body' : Body} (hk : head.kind = .expression ∨ head.kind = .arrow) :
      KeepsName (function head key before body after) (function head key' before' body' after')
  | classExpression {head : Head} {parts parts' : List Part} (hc : head.form = .classExpression) :
      KeepsName (plain head parts) (plain head parts')
  | paren {s : Span} {inner inner' : Node} (h : KeepsName inner inner') :
      KeepsName (paren s inner) (paren s inner')

/-- What becomes of an initializer that is counted. The second alternative is all there is for a
declaration that is no item of a list. -/
inductive Node.Initialized (ctx : Context) (coverage : FileCoverage) (listed : Bool) (front : List Node)
    (e : Node) : Node → Prop where
  /-- It keeps its name, and its counter is in front. -/
  | named {i : Nat} {x : Node} (hn : (listed && e.takesName) = true) (hk : e.KeepsName x)
      (hx : e.Instruments ctx x) (hc : coverage.CountsAt ctx e.span (.statement i))
      (hf : (Counter.statement i).statementNode ctx.identifier ∈ front) :
      Initialized ctx coverage listed front e x
  | wrapped {i : Nat} {x : Node} (hn : (listed && e.takesName) = false) (hx : e.Instruments ctx x)
      (hc : coverage.CountsAt ctx e.span (.statement i)) :
      Initialized ctx coverage listed front e (Build.after ((Counter.statement i).node ctx.identifier) x)

/-- What becomes of a declarator. -/
inductive Declarator.Rewritten (ctx : Context) (coverage : FileCoverage) (listed : Bool)
    (front : List Node) : Declarator → Declarator → Prop where
  | leftOut {d : Declarator} (h : ctx.leavesOut d.span none = true) : Rewritten ctx coverage listed front d d
  | counted {s : Span} {data : Attributes} {target target' : Node} {init init' : Option Node}
      (h : ctx.leavesOut s none = false) (ht : target.Instruments ctx target')
      (hi : Option.Rel (Node.Initialized ctx coverage listed front) init init') :
      Rewritten ctx coverage listed front (.mk s data target init) (.mk s data target' init')

def Declarator.places : Declarator → List Span
  | .mk s _ _ init => s :: init.toList.map Node.span

namespace Node

/-- The declaration that an export holds; any other node is its own. -/
def declaration : Node → Node
  | exported _ declaration => declaration
  | n => n

/-- A list item that declares variables, with other declarators. -/
def withDeclared (declarators : List Declarator) : Node → Node
  | bindings s data _ => bindings s data declarators
  | exported s (bindings r data _) => exported s (bindings r data declarators)
  | n => n

variable {ctx : Context}

theorem keepsName_walk {n : Node} (h : n.takesName = true) (given : List (Option Counter))
    (t : Traversal) : n.KeepsName ((n.walk ctx given).run t).1 := by
  induction n using induction_children generalizing given t with
  | step n ih =>
    cases n with
    | function head key before body after => exact .function (by simpa [takesName] using h)
    | plain head parts => exact .classExpression (of_decide_eq_true h)
    | paren s inner => exact .paren (ih inner List.mem_cons_self h given _)
    | _ => cases h

end Node

section Declarators

variable {ctx : Context} {m : CoverageMap} {chain listed : Bool} {t u : Traversal} {front : List Node}

/-- The counter of an initializer that takes its name is queued where there is a queue; any other is in
hand. -/
theorem Action.coverInitializer_places {e : Node} {x : Option Counter} (hs : e.span.isDummy = false)
    (hf : listed = true → t.frames ≠ [])
    (h : (coverInitializer ctx listed (some e)).run.run t = (.ok x,u)) :
    ∃ i, u.coverage.data.CountsAt ctx e.span (.statement i) ∧
      ((listed && e.takesName) = true ∧ x = none ∧
          (Counter.statement i).statementNode ctx.identifier ∈ u.frames.headD [] ∨
        (listed && e.takesName) = false ∧ x = some (.statement i)) := by
  obtain ⟨loc,hloc⟩ := ctx.exists_location hs
  simp only [coverInitializer,hloc] at h
  obtain ⟨i,v,hi,hq⟩ := exists_of_run_bind h
  have hat := CoverageMap.newStatement_countsAt hloc (run_register_eq_ok hi).1
  rw [run_register] at hi
  obtain ⟨-,rfl⟩ := Prod.mk.inj hi
  rw [run_get_bind] at hq
  cases hh : listed && e.takesName with
  | false =>
    rw [hh,if_neg (by simp)] at hq
    cases hq
    exact ⟨i,hat,.inr ⟨rfl,rfl⟩⟩
  | true =>
    have hframes := hf (Bool.and_eq_true_iff.mp hh).1
    obtain ⟨frame,rest,hframes⟩ := List.exists_cons_of_ne_nil hframes
    rw [hh,if_pos (by simp [hframes])] at hq
    obtain ⟨y,w,hy,hw⟩ := exists_of_run_bind hq
    cases hw
    rw [run_queue,hframes] at hy
    cases hy
    exact ⟨i,hat,.inl ⟨rfl,rfl,by simp⟩⟩

/-- What is queued stays queued. -/
theorem Traversal.Queues.subset (h : Queues ctx t u) : t.frames.headD [] ⊆ u.frames.headD [] := by
  obtain ⟨new,hu,-⟩ := h
  rw [hu]
  cases t.frames with
  | nil => exact List.Subset.refl _
  | cons frame rest => exact List.subset_append_left _ _

/-- A declarator that is left out stays as it is. -/
theorem walkDeclarator_of_leavesOut {d : Declarator} (hl : ctx.leavesOut d.span none = true)
    (ht : t.AnchorBelow) (listed : Bool) : ((walkDeclarator ctx listed d).run t).1 = d := by
  obtain ⟨s,data,target,init⟩ := d
  let e := t.enter ctx ⟨.variableDeclarator,s⟩ none
  have hq : e.Quiet := quiet_enter (by rw [Bool.or_eq_true]; exact .inl hl)
  have ha : e.AnchorBelow := AnchorBelow.enter ht _ _
  have hr : Run ctx (fun _ => True) e ((target.walk ctx []).run e).2 := target.walk_runs_true [] e
  have hinit : ((walkOption ctx none init).run ((target.walk ctx []).run e).2).1 = init := by
    cases init with
    | none => rfl
    | some n =>
      exact congrArg some (n.walk_of_quiet ctx ((hr.samePlace ha).anchorBelow ha) (hr.quiet ha hq))
  rw [walkDeclarator,run_visiting,run_attempt_of_quiet hq]
  change Declarator.mk s data ((target.walk ctx []).run e).1
    ((walkOption ctx none init).run ((target.walk ctx []).run e).2).1 = _
  rw [target.walk_of_quiet ctx ha hq,hinit]

/-- The walk of a declarator, in front of whose declaration is at least what is queued in the end. -/
theorem walkDeclarator_rewrites {d : Declarator} (hs : ∀ s ∈ d.places, s.isDummy = false)
    (hready : t.Ready ctx chain [] (⟨.variableDeclarator,d.span⟩ :: d.nodes.flatMap Node.keys))
    (hf : ((walkDeclarator ctx listed d).run t).2.failure = none)
    (hk : ((walkDeclarator ctx listed d).run t).2.coverage.Keeps m)
    (hframes : listed = true → t.frames ≠ [])
    (hfront : listed = true → ((walkDeclarator ctx listed d).run t).2.frames.headD [] ⊆ front) :
    d.Rewritten ctx m.data listed front ((walkDeclarator ctx listed d).run t).1 := by
  cases hl : ctx.leavesOut d.span none with
  | true =>
    rw [walkDeclarator_of_leavesOut hl hready.counting.anchorBelow]
    exact .leftOut hl
  | false =>
    obtain ⟨s,data,target,init⟩ := d
    have hr (counter : Option Counter) : Runs ctx (fun _ => True) (do
        let target ← target.walk ctx []
        let init ← walkOption ctx counter init
        return Declarator.mk s data target init) :=
      (target.walk_runs_true []).bind fun _ =>
        (walkOption_runs counter fun n _ => n.walk_runs_true).bind fun _ => .pure _
    have hkey : (⟨.variableDeclarator,s⟩ : Key).isSynthetic = false := hs s List.mem_cons_self
    obtain ⟨x,u,hrun,hu,-,heq⟩ := Shows.exists_acted (.coverInitializer listed init) hr hkey
      (fun t x u h => (Action.coverInitializer_notes h).asked) hready hf hl
    have hwalk : (walkDeclarator ctx listed (.mk s data target init)).run t = _ := heq
    rw [hwalk] at hk hfront ⊢
    have hg : Gives ctx (target.walk ctx []) (target.Instruments ctx) := target.walk_instruments []
    obtain ⟨hq,htarget⟩ := hg u hu.queues
    refine .counted hl htarget ?_
    cases init with
    | none => exact .none
    | some e =>
      have hspan : e.span.isDummy = false := hs e.span (List.mem_cons_of_mem _ List.mem_cons_self)
      have hentered : listed = true → (t.enter ctx ⟨.variableDeclarator,s⟩ none).frames ≠ [] := hframes
      obtain ⟨i,hat,hplace⟩ := Action.coverInitializer_places hspan hentered hrun
      have hcounts := ((hr x u).grows.keeps.trans hk).countsAt hat
      rcases hplace with ⟨hn,rfl,hmem⟩ | ⟨hn,rfl⟩
      · refine .some (.named hn (Node.keepsName_walk (Bool.and_eq_true_iff.mp hn).2 [] _)
          (e.walk_instruments [] _ hq).2 hcounts ?_)
        exact hfront (Bool.and_eq_true_iff.mp hn).1 ((hr none u).queues.subset hmem)
      · have hw : Gives ctx (behind ctx (.statement i) (e.walk ctx []))
            (e.Initialized ctx m.data listed front) :=
          .passing ((e.walk_instruments []).bind fun _ hx => .pure (.wrapped hn hx hcounts))
        exact .some (hw _ hq).2

/-- Later declarators of a declaration only add to what is queued in front of it. -/
theorem walkDeclarators_rewrites {declarators : List Declarator}
    (hs : ∀ d ∈ declarators, ∀ s ∈ d.places, s.isDummy = false)
    (hready : t.Ready ctx chain []
      (declarators.flatMap fun d => ⟨.variableDeclarator,d.span⟩ :: d.nodes.flatMap Node.keys))
    (hf : ((walkDeclarators ctx listed declarators).run t).2.failure = none)
    (hk : ((walkDeclarators ctx listed declarators).run t).2.coverage.Keeps m)
    (hframes : listed = true → t.frames ≠ [])
    (hfront : listed = true → ((walkDeclarators ctx listed declarators).run t).2.frames.headD [] ⊆ front) :
    List.Forall₂ (Declarator.Rewritten ctx m.data listed front) declarators
      ((walkDeclarators ctx listed declarators).run t).1 := by
  induction declarators generalizing t with
  | nil => exact .nil
  | cons d rest ih =>
    let u := ((walkDeclarator ctx listed d).run t).2
    let v := ((walkDeclarators ctx listed rest).run u).2
    have hfirst : Run ctx (· ∈ ⟨.variableDeclarator,d.span⟩ :: d.nodes.flatMap Node.keys) t u :=
      walkDeclarator_runs listed List.mem_cons_self (fun n hn => n.walk_runs fun k hk =>
        List.mem_cons_of_mem _ (List.mem_flatMap.mpr ⟨n,hn,hk⟩)) t
    have hrest : Run ctx (fun _ => True) u v :=
      walkDeclarators_runs listed (fun _ _ => trivial) (fun n _ => n.walk_runs_true) u
    obtain ⟨ht,hu⟩ : t.Ready ctx chain [] (⟨.variableDeclarator,d.span⟩ :: d.nodes.flatMap Node.keys) ∧
        u.Ready ctx chain []
          (rest.flatMap fun d => ⟨.variableDeclarator,d.span⟩ :: d.nodes.flatMap Node.keys) :=
      hready.split hfirst nofun nofun
    have hkeeps : u.coverage.Keeps m := hrest.grows.keeps.trans hk
    refine .cons (walkDeclarator_rewrites (hs d List.mem_cons_self) ht
      (hrest.failure_eq_none hu.counting.anchorBelow hf) hkeeps hframes fun hl => ?_)
      (ih ?_ hu hf hk ?_ hfront)
    · exact List.Subset.trans hrest.queues.subset (hfront hl)
    · exact fun e he => hs e (List.mem_cons_of_mem _ he)
    · intro hl hnil
      have hnil : u.frames = [] := hnil
      have hlength := hfirst.length_frames
      rw [hnil] at hlength
      exact hframes hl (List.length_eq_zero_iff.mp hlength.symm)

end Declarators

namespace Node

variable {ctx : Context} {m : CoverageMap} {chain listed : Bool} {given : List (Option Counter)}
  {t : Traversal} {front : List Node}

/-- A declaration takes the note away before its declarators are walked. -/
theorem bindings_rewrites {s : Span} {data : Attributes} {declarators : List Declarator}
    (hp : (bindings s data declarators).hasPlaces = true)
    (hready : t.Ready ctx chain [] (bindings s data declarators).keys)
    (hl : ctx.leavesOut s none = false)
    (hf : (((bindings s data declarators).walk ctx given).run t).2.failure = none)
    (hk : (((bindings s data declarators).walk ctx given).run t).2.coverage.Keeps m)
    (hframes : t.hoist = true → t.frames ≠ [])
    (hfront : t.hoist = true →
      (((bindings s data declarators).walk ctx given).run t).2.frames.headD [] ⊆ front) :
    ∃ out, (((bindings s data declarators).walk ctx given).run t).1 = bindings s data out ∧
      List.Forall₂ (Declarator.Rewritten ctx m.data t.hoist front) declarators out := by
  have hwalk : ((bindings s data declarators).walk ctx given).run t =
      (passing ctx ⟨.variableDeclaration,s⟩ do
        return .bindings s data (← walkDeclarators ctx t.hoist declarators)).run { t with hoist := false } :=
    rfl
  rw [hwalk,passing,run_visiting_pure] at hf hk hfront ⊢
  have hready := (hready.withHoist false).of_count_le (count_keys_bindings s data declarators)
  have hready := Shows.ready_enter (Or.inr List.mem_cons_self) List.not_mem_nil hready hl
  have hs : ∀ d ∈ declarators, ∀ r ∈ d.places, r.isDummy = false := by
    intro d hd r hr
    refine isDummy_eq_false hp (List.mem_cons_of_mem _ (List.mem_flatMap.mpr ⟨d,hd,?_⟩))
    obtain ⟨place,data,target,init⟩ := d
    exact hr
  exact ⟨_,rfl,walkDeclarators_rewrites hs hready.tail hf hk hframes hfront⟩

theorem Walks.declares {n : Node} (h : n.Walks ctx m listed chain given t) (hp : n.hasPlaces = true)
    (hd : n.declaresVariables = true) (hl : n.declaration.leftOut ctx = false)
    (hframes : listed = true → t.frames ≠ [])
    (hfront : listed = true → ((n.walk ctx given).run t).2.frames.headD [] ⊆ front) :
    ∃ declarators, ((n.walk ctx given).run t).1 = n.withDeclared declarators ∧
      List.Forall₂ (Declarator.Rewritten ctx m.data listed front) n.declared declarators := by
  have hh : t.hoist = listed := by rw [h.hoist,hd,Bool.and_true]
  subst hh
  cases n with
  | bindings s data declarators =>
    exact bindings_rewrites hp h.ready hl h.failure h.keeps hframes hfront
  | exported s declaration =>
    cases declaration with
    | bindings r data declarators =>
      have hready : t.Ready ctx chain [] (bindings r data declarators).keys := by
        refine h.ready.of_count_le fun k => ?_
        simp [keys_eq (exported s (bindings r data declarators)),ownKeys,children]
      obtain ⟨out,hout,hr⟩ : ∃ out,
          (((bindings r data declarators).walk ctx []).run t).1 = bindings r data out ∧
          List.Forall₂ (Declarator.Rewritten ctx m.data t.hoist front) declarators out :=
        bindings_rewrites (hasPlaces_of_mem_children hp List.mem_cons_self) hready hl h.failure h.keeps
          hframes hfront
      exact ⟨out,congrArg (exported s) hout,hr⟩
    | _ => cases hd
  | _ => cases hd

end Node

/-- Functions and classes that are bound to a variable keep its name. In a list, each declarator at which
counting is on has the initializer that it had, under the same parentheses, if that takes the name, and its
counter is in front of the declaration; any other initializer stands behind its counter. Outside of lists
all of them do. No other initializers are counted: the recorded statements are those of the constructs at
which counting is on. -/
theorem naming_instrument {program : Program} {file : SourceFile} {options : Options} {batch : Batch}
    {o : Outcome} (hp : program.hasPlaces = true) (hd : program.hasDistinctPlaces = true)
    (h : (instrument program file options batch).outcome = .ok o) (hs : o.status = .instrumented) :
    (∀ n, (true,n) ∈ program.located (file.context options) → n.declaresVariables = true →
      n.declaration.leftOut (file.context options) = false →
      ∃ items ∈ (instrument program file options batch).program.lists, ∃ before front declarators after,
        items = before ++ front ++ n.withDeclared declarators :: after ∧
        (∀ k ∈ front, k.isCounter (file.context options).identifier = true) ∧
        List.Forall₂ (Declarator.Rewritten (file.context options) o.coverage true front) n.declared
          declarators) ∧
    (∀ n, (false,n) ∈ program.located (file.context options) → n.declaresVariables = true →
      n.declaration.leftOut (file.context options) = false →
      ∃ declarators, n.withDeclared declarators ∈ (instrument program file options batch).program.nodes ∧
        List.Forall₂ (Declarator.Rewritten (file.context options) o.coverage false []) n.declared
          declarators) ∧
    o.coverage.statementMap.Perm
      (statementsOf (file.context options) (program.located (file.context options))) := by
  obtain ⟨hf,ho,-⟩ := instrument_of_instrumented h hs
  obtain ⟨m,hm,hstands⟩ := standing_instrument hp hd h hs
  rw [← hm]
  refine ⟨fun n hsite hn hl => ?_,fun n hsite hn hl => ?_,?_⟩
  · have hplaces : n.hasPlaces = true := Program.hasPlaces_of_mem_located hp hsite
    obtain ⟨items,hitems,t,rest,hw,hframes,before,after,he⟩ := (hstands _ hsite).exists_follows
    obtain ⟨declarators,hout,hr⟩ := hw.declares hplaces hn hl
      (fun _ => hframes ▸ List.cons_ne_nil _ _) fun _ => List.Subset.refl _
    refine ⟨items,hitems,before,_,declarators,after,?_,fun k hk => hw.queued hk,hr⟩
    rw [← he,hout]
    simp
  · have hplaces : n.hasPlaces = true := Program.hasPlaces_of_mem_located hp hsite
    obtain ⟨chain,given,t,hw,hmem⟩ := (hstands _ hsite).exists_walks
    obtain ⟨declarators,hout,hr⟩ := hw.declares hplaces hn hl nofun nofun
    exact ⟨declarators,hout ▸ hmem,hr⟩
  · rw [hm,ho]
    exact Program.statementMap_walk hp hd hf

section Sample

def sampleArrow (i lo : Nat) : Node :=
  .function ⟨.arrow,.ofBounds lo (lo + 7),[],none⟩ none [] (.value (sampleLiteral i (lo + 6))) []

/-- The declaration `var f = (() => 1), n = 2;` of `bindingFile`, in an export. -/
def exportedBindings : Node :=
  .exported (.ofBounds 1 33) <| .bindings (.ofBounds 8 33) []
    [.mk (.ofBounds 12 25) [] (sampleName "f" 12) (some (.paren (.ofBounds 16 25) (sampleArrow 1 17))),
      .mk (.ofBounds 27 32) [] (sampleName "n" 27) (some (sampleLiteral 2 31))]

/-- The declaration `var g = () => 3;` of `bindingFile`, behind a label. -/
def labeledBindings : Node :=
  .bindings (.ofBounds 37 53) [] [.mk (.ofBounds 41 52) [] (sampleName "g" 41) (some (sampleArrow 3 45))]

def bindingProgram : Program :=
  let labeled : Node := .simple .labeled (.ofBounds 34 53)
    [.child "label" (sampleName "a" 34),.child "body" labeledBindings]
  ⟨.module,.ofBounds 1 53,[],[exportedBindings,labeled]⟩

def bindingFile : SourceFile :=
  ⟨"a.js",.ofString "export var f = (() => 1), n = 2; a: var g = () => 3;",.empty⟩

theorem exportedBindings_located :
    (true,exportedBindings) ∈ bindingProgram.located (bindingFile.context {}) :=
  List.mem_flatMap.mpr ⟨exportedBindings,List.mem_cons_self,Node.mem_located_self rfl rfl⟩

theorem labeledBindings_located :
    (false,labeledBindings) ∈ bindingProgram.located (bindingFile.context {}) := by
  refine List.mem_flatMap.mpr ⟨_,List.mem_cons_of_mem _ List.mem_cons_self,?_⟩
  exact Node.mem_located_of_mem_roles (r := (false,labeledBindings)) (by decide +kernel)
    (List.mem_cons_of_mem _ List.mem_cons_self) (Node.mem_located_self (by decide +kernel) rfl)

end Sample

theorem naming_instrument_sample :
    bindingProgram.hasPlaces = true ∧ bindingProgram.hasDistinctPlaces = true ∧
    ∃ o, (instrument bindingProgram bindingFile {} (.new none)).outcome = .ok o ∧
      o.status = .instrumented ∧
      (∃ items ∈ (instrument bindingProgram bindingFile {} (.new none)).program.lists,
        ∃ before front declarators after,
          items = before ++ front ++ exportedBindings.withDeclared declarators :: after ∧
          List.Forall₂ (Declarator.Rewritten (bindingFile.context {}) o.coverage true front)
            exportedBindings.declared declarators) ∧
      ∃ declarators, labeledBindings.withDeclared declarators ∈
          (instrument bindingProgram bindingFile {} (.new none)).program.nodes ∧
        List.Forall₂ (Declarator.Rewritten (bindingFile.context {}) o.coverage false [])
          labeledBindings.declared declarators := by
  have hp : bindingProgram.hasPlaces = true := by decide +kernel
  have hd : bindingProgram.hasDistinctPlaces = true := by decide +kernel
  have ho : ∃ o, (instrument bindingProgram bindingFile {} (.new none)).outcome = .ok o ∧
      o.status = .instrumented :=
    exists_instrumented (by decide +kernel) (by decide +kernel) (by decide +kernel)
  obtain ⟨o,h,hs⟩ := ho
  obtain ⟨hlisted,hother,-⟩ := naming_instrument hp hd h hs
  obtain ⟨items,hitems,before,front,declarators,after,he,-,hr⟩ :=
    hlisted _ exportedBindings_located rfl (by decide +kernel)
  obtain ⟨others,hmem,hlabeled⟩ := hother _ labeledBindings_located rfl (by decide +kernel)
  exact ⟨hp,hd,o,h,hs,⟨items,hitems,before,front,declarators,after,he,hr⟩,others,hmem,hlabeled⟩

end CoverageCounters
