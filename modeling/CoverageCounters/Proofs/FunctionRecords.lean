import Mathlib.Data.List.Forall2
import CoverageCounters.Proofs.Instrumented
import CoverageCounters.Proofs.TreeVisits

/-!
What the table of functions says. Each record of an instrumented program stands for one function of it,
in the order of the program, and gives the place of the function's name and that of its body. The line
of a record is the one where the body starts, also where the name stands on an earlier line.
-/

namespace CoverageCounters

/-- What the record under a number says of a function. -/
structure Context.DescribesFunction (ctx : Context) (head : FunctionHead) (key : Option Node)
    (body : Body) (i : Nat) (r : FunctionRecord) : Prop where
  name : r.name = CoverageMap.functionName (head.recordedName? key) i
  named : head.kind ≠ .arrow → ∀ k, key = some k → k.span.isDummy = false →
    ctx.location? k.span = some r.decl
  /-- Without a name or key that has a place, the first column of the function stands for it. -/
  unnamed : (head.kind = .arrow ∨ ∀ k, key = some k → k.span.isDummy = true) →
    ∃ whole, ctx.location? head.span = some whole ∧ r.decl = whole.firstColumn
  /-- A body without a place is recorded where the function is. -/
  body : ∃ s statements, Action.bodyContent? body = some (s,statements) ∧
    ctx.location? (if s.isDummy then head.recordedSpan key else s) = some r.loc
  line : r.line = r.loc.start.line

def Node.RecordedAs (ctx : Context) : Node → FunctionRecord × Nat → Prop
  | function head key _ body _, (r,i) => ctx.DescribesFunction head key body i r
  | _, _ => False

theorem Context.getD_location? {ctx : Context} {s : Span} (hs : s.isDummy = false) (l : Location) :
    ctx.location? s = some ((ctx.location? s).getD l) := by
  obtain ⟨loc,hl⟩ := ctx.exists_location hs
  rw [hl,Option.getD_some]

namespace FunctionHead

variable {head : FunctionHead} {key : Option Node}

theorem recordedSpan_of_unnamed
    (h : head.kind = .arrow ∨ ∀ k, key = some k → k.span.isDummy = true) :
    head.recordedSpan key = head.span := by
  unfold recordedSpan
  split
  · rename_i k hk
    rcases h with h | h
    · rw [hk] at h
      cases h
    · rw [if_pos (h k rfl)]
  · rfl

theorem nameSpan?_of_some (hk : head.kind ≠ .arrow) (k : Node) :
    head.nameSpan? (some k) = some k.span := by
  unfold nameSpan?
  split
  · contradiction
  · rfl

theorem nameSpan?_of_unnamed (ctx : Context)
    (h : head.kind = .arrow ∨ ∀ k, key = some k → k.span.isDummy = true) :
    (head.nameSpan? key).bind ctx.location? = none := by
  unfold nameSpan?
  split
  · rfl
  · rename_i hk
    cases key with
    | none => rfl
    | some k => exact ctx.location?_eq_none_iff.mpr (h.resolve_left hk k rfl)

end FunctionHead

/-- The entry of a function describes it under every number. -/
theorem Node.recordedAs_of_recordedFunction? {ctx : Context} {n : Node} {e : FunctionEntry}
    (h : n.recordedFunction? ctx = some e) (i : Nat) : n.RecordedAs ctx (e.record i,i) := by
  cases n with
  | function head key before body after =>
    rw [recordedFunction?,Context.functionRecords] at h
    split at h
    · rename_i whole s statements hw hb
      cases h
      refine ⟨rfl,fun hk k hkey hs => ?_,fun hn => ⟨whole,?_,?_⟩,⟨s,statements,hb,?_⟩,rfl⟩
      · subst hkey
        rw [head.nameSpan?_of_some hk]
        exact Context.getD_location? hs _
      · rwa [FunctionHead.recordedSpan_of_unnamed hn] at hw
      · exact congrArg (Option.getD · whole.firstColumn) (FunctionHead.nameSpan?_of_unnamed ctx hn)
      · change _ = some ((ctx.location? s).getD whole)
        cases hs : s.isDummy with
        | true => rwa [ctx.location?_eq_none_iff.mpr hs]
        | false => exact Context.getD_location? hs whole
    · cases h
  | _ => cases h

/-- What is left of the results of a partial function are the results at what is left of its inputs. -/
theorem exists_sublist_of_sublist_filterMap {α β : Type} {f : α → Option β} {xs : List α} {ys : List β}
    (h : ys.Sublist (xs.filterMap f)) :
    ∃ zs : List α, zs.Sublist xs ∧ List.Forall₂ (fun z y => f z = some y) zs ys := by
  induction xs generalizing ys with
  | nil =>
    cases h
    exact ⟨[],.slnil,.nil⟩
  | cons x rest ih =>
    cases hx : f x with
    | none =>
      rw [List.filterMap_cons_none hx] at h
      obtain ⟨zs,hs,hz⟩ := ih h
      exact ⟨zs,hs.cons x,hz⟩
    | some y =>
      rw [List.filterMap_cons_some hx] at h
      cases h with
      | cons _ h =>
        obtain ⟨zs,hs,hz⟩ := ih h
        exact ⟨zs,hs.cons x,hz⟩
      | cons_cons _ h =>
        obtain ⟨zs,hs,hz⟩ := ih h
        exact ⟨x :: zs,hs.cons_cons x,.cons hx hz⟩

/-- The functions added since the start of a pass are numbered from zero, and closing the map keeps
them. -/
theorem CoverageMap.Gains.zipIdx_of_startMap {path : String} {options : Options} {m : CoverageMap}
    {es : List FunctionEntry} (h : (startMap path options).Gains es m) :
    m.freeze.2.data.fnMap.zipIdx = es.zipIdx.map fun e => (e.1.record e.2,e.2) := by
  have hm : m.freeze.2.data.fnMap = m.data.fnMap := by
    unfold freeze
    split <;> rfl
  have hs : (startMap path options).data.fnMap = [] := by
    unfold startMap
    split <;> rfl
  rw [hm,h,functionCount,hs,List.nil_append]
  refine List.ext_getElem? fun i => ?_
  cases hi : es[i]? <;> simp [hi]

/-- Each record of an instrumented program describes a function of the program, one function each and
in their order. -/
theorem function_records {program : Program} {file : SourceFile} {options : Options} {batch : Batch}
    {o : Outcome} (h : (instrument program file options batch).outcome = .ok o)
    (hs : o.status = .instrumented) :
    ∃ functions : List Node, functions.Sublist program.nodes ∧
      List.Forall₂ (Node.RecordedAs (file.context options)) functions o.coverage.fnMap.zipIdx := by
  obtain ⟨-,ho,-⟩ := instrument_of_instrumented h hs
  obtain ⟨added,hadded,hgains⟩ := (program.traced_sweeps (file.context options)).functions
    { Traversal.start (startMap file.path options) with marks := program.prologueMarks }
  change (startMap file.path options).Gains added
    (program.traced (file.context options) (startMap file.path options)).1.2.coverage at hgains
  rw [program.fst_traced] at hgains
  obtain ⟨functions,hsub,hentries⟩ := exists_sublist_of_sublist_filterMap hadded
  refine ⟨functions,hsub,?_⟩
  rw [ho,hgains.zipIdx_of_startMap,List.forall₂_map_right_iff]
  rw [← List.zipIdx_map_fst 0 added,List.forall₂_map_right_iff] at hentries
  exact hentries.imp fun n e he => Node.recordedAs_of_recordedFunction? he e.2

theorem function_records_sample :
    ∃ o, (instrument sampleProgram sampleFile {} (.new none)).outcome = .ok o ∧
      o.status = .instrumented ∧ o.coverage.fnMap.map (·.name) = ["(anonymous_0)"] ∧
      ∃ functions : List Node, functions.Sublist sampleProgram.nodes ∧
        List.Forall₂ (Node.RecordedAs (sampleFile.context {})) functions o.coverage.fnMap.zipIdx := by
  obtain ⟨o,h,hs⟩ := exists_instrumented_sample
  refine ⟨o,h,hs,?_,function_records h hs⟩
  rw [(instrument_of_instrumented h hs).2.1]
  decide +kernel

section Sample

/-- The program `function f() { }` with its block on a line of its own. -/
def splitProgram : Program :=
  let name : Node := .leaf .identifier (.ofBounds 10 11) [("value",.string "f")]
  ⟨.script,.ofBounds 1 17,[],[.function ⟨.declaration,.ofBounds 1 17,[],none⟩ (some name) []
    (.block (.ofBounds 14 17) []) []]⟩

def splitFile : SourceFile := ⟨"a.js",.ofString "function f()\n\x7b \x7d",.empty⟩

end Sample

/-- The line of a record is not the one of its declaration. -/
theorem split_function_line :
    ∃ o, (instrument splitProgram splitFile {} (.new none)).outcome = .ok o ∧
      o.status = .instrumented ∧
      o.coverage.fnMap.map (fun r => (r.name,r.decl.start.line,r.line)) = [("f",1,2)] := by
  obtain ⟨o,h,hs⟩ : ∃ o, (instrument splitProgram splitFile {} (.new none)).outcome = .ok o ∧
      o.status = .instrumented :=
    exists_instrumented (by decide +kernel) (by decide +kernel) (by decide +kernel)
  refine ⟨o,h,hs,?_⟩
  rw [(instrument_of_instrumented h hs).2.1]
  decide +kernel

end CoverageCounters
