import CoverageCounters.Proofs.HintedItems

/-!
Hints inside expressions. A hint in front of an operand takes the operand's path away, whatever the
operand is; what is inside is silenced only if the hint is met again on the walk, at the parentheses
around the operand or at an expression that is entered itself. The hint of an object method is looked up
where its key starts, so one in front of `async` or of the star is missed.
-/

namespace CoverageCounters

open Walk Traversal

namespace Directives

/-- Whether a hint that leaves an expression out is met on the walk, at the parentheses around it or at
the expression itself. -/
def silences (d : Directives) : Node → Bool
  | .paren s inner => d.skips s || d.silences inner
  | n => n.hintSpan?.any d.skips

end Directives

namespace Node

variable {ctx : Context} {t : Traversal} {n : Node}

theorem walk_of_quiet (ctx : Context) (n : Node) (ha : t.AnchorBelow) (hq : t.Quiet) :
    ((n.walk ctx []).run t).1 = n := by
  rw [← n.erase_traced ctx []]
  exact ((n.traced_bracketed ctx).alone t.inChain).kept t ha rfl hq

theorem untouched_walk (ctx : Context) (n : Node) (ht : t.anchor = none)
    (h : ((n.walk ctx []).run t).2.coverage = t.coverage ∧
      ((n.walk ctx []).run t).2.failure = t.failure ∧ ((n.walk ctx []).run t).2.frames = t.frames) :
    Untouched n.keys t ((n.walk ctx []).run t).2 := by
  have hrun : Run ctx (· ∈ n.keys) t ((n.walk ctx []).run t).2 :=
    n.walk_runs (fun _ hk => hk) [] t
  have ha : t.AnchorBelow := fun a h => by rw [ht] at h; cases h
  exact ⟨hrun.samePlace ha,h.1,h.2.1,h.2.2,fun k hk => hrun.get?_marks hk⟩

/-- An expression in parentheses is left as it is if what is inside is, or if the parentheses are left
out themselves. -/
theorem walk_paren_of_inner {s : Span} {inner : Node} {e : Traversal} (ht : t.anchor = none)
    (he : t.enter ctx ⟨.parenthesized,s⟩ none = e)
    (hin : e.anchor = none → ((inner.walk ctx []).run e).1 = inner ∧
      Untouched inner.keys e ((inner.walk ctx []).run e).2) :
    (((paren s inner).walk ctx []).run t).1 = paren s inner ∧
      Untouched (paren s inner).keys t (((paren s inner).walk ctx []).run t).2 := by
  have ha : e.AnchorBelow := by
    rw [← he]
    exact AnchorBelow.enter (fun a h => by rw [ht] at h; cases h) _ _
  have hr : ((paren s inner).walk ctx []).run t =
      (paren s ((inner.walk ctx []).run e).1,
        ((inner.walk ctx []).run e).2.leave ⟨.parenthesized,s⟩ (t.depth + 1)) := by
    rw [walk,passing,run_visiting_pure,he]
    rfl
  have hinner : ((inner.walk ctx []).run e).1 = inner ∧
      ((inner.walk ctx []).run e).2.coverage = e.coverage ∧
      ((inner.walk ctx []).run e).2.failure = e.failure ∧
      ((inner.walk ctx []).run e).2.frames = e.frames := by
    cases hs : e.anchor with
    | none =>
      obtain ⟨hn,hu⟩ := hin hs
      exact ⟨hn,hu.coverage,hu.failure,hu.frames⟩
    | some a =>
      have hq : e.Quiet := Or.inr (by rw [isSuppressed,hs]; rfl)
      have hrun : Run ctx (fun _ => True) e ((inner.walk ctx []).run e).2 :=
        inner.walk_runs (fun _ _ => trivial) [] e
      exact ⟨walk_of_quiet ctx inner ha hq,hrun.eq_of_quiet ha hq⟩
  refine ⟨?_,untouched_walk ctx _ ht ?_⟩
  · rw [hr,hinner.1]
  · rw [hr]
    subst he
    exact hinner.2

/-- An expression whose hint is met on the walk is left as it is, and so is the state. -/
theorem walk_of_silences (hn : ctx.directives.silences n = true) (ht : t.anchor = none) :
    ((n.walk ctx []).run t).1 = n ∧ Untouched n.keys t ((n.walk ctx []).run t).2 := by
  induction n using induction_children generalizing t with
  | step n ih =>
    cases n with
    | paren s inner =>
      cases hs : ctx.directives.skips s with
      | true => exact walk_of_hint rfl hs ht
      | false =>
        rw [Directives.silences,hs,Bool.false_or] at hn
        exact walk_paren_of_inner ht rfl fun he => ih inner List.mem_cons_self hn he
    | plain head parts => cases hn
    | namespaceBlock span items => cases hn
    | exported span declaration =>
      have hd : (exported span declaration).hintSpan?.any ctx.directives.skips = true := hn
      cases hs : (exported span declaration).hintSpan? with
      | none =>
        rw [hs] at hd
        cases hd
      | some s =>
        rw [hs] at hd
        exact walk_of_hint hs hd ht
    | _ => exact walk_of_hint rfl hn ht

end Node

/-- What a hint in front of an operand of a conditional or of a chain does. It takes the operand's path
away and the branch gets none for it. If the hint is met again as the operand is walked, the operand is
left as it is and nothing in it is counted. -/
theorem hinted_operand {ctx : Context} {n : Node} (hn : ctx.directives.skipsOperand n = true)
    (t : Traversal) :
    (∀ branch, (Action.coverOperand ctx branch n).run.run t = (.ok none,t)) ∧
    (ctx.directives.silences n = true → t.anchor = none →
      ((n.walk ctx []).run t).1 = n ∧ Untouched n.keys t ((n.walk ctx []).run t).2) := by
  refine ⟨fun branch => ?_,fun hs ht => Node.walk_of_silences hs ht⟩
  rw [Action.coverOperand,if_pos hn]
  rfl

section Sample

def operandFile : SourceFile :=
  ⟨"a.js",.ofString "0 || /* istanbul ignore next */ (1 ? 2 : 3);",
    ⟨⟨[(33,[⟨" istanbul ignore next ",.ofBounds 6 32⟩])]⟩,.empty⟩⟩

def hintedOperand : Node :=
  .paren (.ofBounds 33 44) <|
    .conditional (.ofBounds 34 43) (sampleLiteral 1 34) (sampleLiteral 2 38) (sampleLiteral 3 42)

def calledFile : SourceFile :=
  ⟨"a.js",.ofString "x = a || /* istanbul ignore next */ f(b || c);",
    ⟨⟨[(37,[⟨" istanbul ignore next ",.ofBounds 10 36⟩])]⟩,.empty⟩⟩

def sampleName (name : String) (lo : Nat) : Node :=
  .leaf .identifier (.ofBounds lo (lo + 1)) [("value",.string name)]

def calledOperand : Node :=
  .plain ⟨.callExpression,.ofBounds 37 46,[]⟩
    [.child "callee" (sampleName "f" 37),
      .children "arguments" [.plain ⟨.argument,.dummy,[]⟩
        [.child "expression"
          (.logical (.ofBounds 39 45) .or (sampleName "b" 39) (sampleName "c" 44))]]]

def calledProgram : Program :=
  let chain : Node := .logical (.ofBounds 5 46) .or (sampleName "a" 5) calledOperand
  let assignment : Node :=
    .plain ⟨.assignmentExpression,.ofBounds 1 46,[("operator",.string "=")]⟩
      [.child "left" (sampleName "x" 1),.child "right" chain]
  ⟨.script,.ofBounds 1 47,[],[.expression (.ofBounds 1 47) assignment]⟩

end Sample

theorem hinted_operand_in_parens :
    (operandFile.context {}).directives.skipsOperand hintedOperand = true ∧
    ((hintedOperand.walk (operandFile.context {}) []).run (.start (.new "a.js"))).1 = hintedOperand ∧
    ((hintedOperand.walk (operandFile.context {}) []).run
      (.start (.new "a.js"))).2.coverage = .new "a.js" := by
  have hn : (operandFile.context {}).directives.skipsOperand hintedOperand = true := by
    decide +kernel
  have hs : (operandFile.context {}).directives.silences hintedOperand = true := by decide +kernel
  obtain ⟨-,hw⟩ := hinted_operand hn (.start (.new "a.js"))
  obtain ⟨he,hu⟩ := hw hs rfl
  exact ⟨hn,he,hu.coverage⟩

/-- A hint in front of a call is not met on the walk: the call has no path, but the chain among its
arguments is a branch with two. -/
theorem called_operand_counted :
    (calledFile.context {}).directives.skipsOperand calledOperand = true ∧
    (Program.walk (calledFile.context {}) (.new "a.js")
      calledProgram).2.coverage.data.branchMap.map (·.locations.length) = [1,2] := by
  decide +kernel

/-- The recorded place of a function is where it stands, unless it is an object method whose key starts
behind its modifiers. -/
theorem FunctionHead.recordedSpan_eq {head : FunctionHead} {key : Option Node}
    (hk : head.kind = .objectMethod → ∀ k ∈ key, k.span.isDummy = true ∨ k.span.lo = head.span.lo) :
    head.recordedSpan key = head.span := by
  unfold recordedSpan
  split
  · rename_i k hm
    obtain hd | hl := hk hm k rfl
    · exact if_pos hd
    · rw [hl,Span.ofBounds_lo_hi,ite_self]
  · rfl

/-- A function is left as it is, and nothing in it is counted, if a hint leads the place where it starts.
The key of an object method has to start there too, as it does without modifiers. -/
theorem hinted_function {ctx : Context} {head : FunctionHead} {key : Option Node}
    {before after : List Part} {body : Body} {t : Traversal}
    (hk : head.kind = .objectMethod → ∀ k ∈ key, k.span.isDummy = true ∨ k.span.lo = head.span.lo)
    (hh : ctx.directives.skips head.span = true) (ht : t.anchor = none) :
    (((Node.function head key before body after).walk ctx []).run t).1 =
        .function head key before body after ∧
      Untouched (Node.function head key before body after).keys t
        (((Node.function head key before body after).walk ctx []).run t).2 := by
  have hs : (Node.function head key before body after).hintSpan? = some (head.recordedSpan key) := rfl
  rw [FunctionHead.recordedSpan_eq hk] at hs
  exact Node.walk_of_hint hs hh ht

section Sample

def sampleCall (name : String) (lo : Nat) : Node :=
  .expression (.ofBounds lo (lo + 4)) <|
    .plain ⟨.callExpression,.ofBounds lo (lo + 3),[]⟩ [.child "callee" (sampleName name lo)]

def sampleMethod (name : String) (lo key hi : Nat) (statements : List Node) : Node :=
  .function ⟨.objectMethod,.ofBounds lo hi,[],none⟩ (some (sampleName name key)) []
    (.block (.ofBounds (key + 4) hi) statements) []

def methodFile : SourceFile :=
  ⟨"a.js",.ofString "x = \x7b /* istanbul ignore next */ m() \x7b a(); \x7d \x7d;",
    ⟨.empty,⟨[(6,[⟨" istanbul ignore next ",.ofBounds 7 33⟩])]⟩⟩⟩

def methodsFile : SourceFile :=
  ⟨"a.js",.ofString ("x = \x7b async /* istanbul ignore next */ m() \x7b a(); \x7d, " ++
      "/* istanbul ignore next */ async n() \x7b b(); \x7d, " ++
      "* /* istanbul ignore next */ g() \x7b\x7d \x7d;"),
    ⟨⟨[(81,[⟨" istanbul ignore next ",.ofBounds 54 80⟩]),
        (130,[⟨" istanbul ignore next ",.ofBounds 103 129⟩])]⟩,
      ⟨[(12,[⟨" istanbul ignore next ",.ofBounds 13 39⟩])]⟩⟩⟩

def methodsProgram : Program :=
  let object : Node :=
    .plain ⟨.objectExpression,.ofBounds 5 138,[]⟩
      [.children "properties" [sampleMethod "m" 7 40 52 [sampleCall "a" 46],
        sampleMethod "n" 81 87 99 [sampleCall "b" 93],sampleMethod "g" 101 130 136 []]]
  let assignment : Node :=
    .plain ⟨.assignmentExpression,.ofBounds 1 138,[("operator",.string "=")]⟩
      [.child "left" (sampleName "x" 1),.child "right" object]
  ⟨.script,.ofBounds 1 139,[],[.expression (.ofBounds 1 139) assignment]⟩

end Sample

theorem hinted_function_plain_method :
    (methodFile.context {}).directives.skips (.ofBounds 34 46) = true ∧
    (((sampleMethod "m" 34 34 46 [sampleCall "a" 40]).walk (methodFile.context {}) []).run
      (.start (.new "a.js"))).2.coverage = .new "a.js" := by
  have hh : (methodFile.context {}).directives.skips (.ofBounds 34 46) = true := by decide +kernel
  exact ⟨hh,(hinted_function (fun _ k hk => Or.inr (by cases hk; rfl)) hh rfl).2.coverage⟩

/-- A hint in front of `async` is missed: the method and its statement are counted, while the hints in
front of the keys of its neighbours silence them. -/
theorem modified_method_counted :
    (methodsFile.context {}).directives.skips (.ofBounds 81 99) = true ∧
    (Program.walk (methodsFile.context {}) (.new "a.js")
      methodsProgram).2.coverage.data.fnMap.map (·.name) = ["n"] ∧
    (Program.walk (methodsFile.context {}) (.new "a.js")
      methodsProgram).2.coverage.data.statementMap.length = 2 := by
  decide +kernel

end CoverageCounters
