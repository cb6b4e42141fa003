import CoverageCounters.Proofs.BuiltWalks
import CoverageCounters.Proofs.CoverageCodec
import CoverageCounters.Proofs.HintedExpressions
import CoverageCounters.Proofs.Instrumented
import CoverageCounters.Proofs.TreeVisits

/-!
The source map that a program refers to. References are met where the walk enters a construct, among the
comments that lead its start and those that trail its end, and the one met last counts; a reference
behind the program goes before all of them.
-/

namespace CoverageCounters

/-- The references among some comments, each with the place its comment starts at. -/
def references (comments : List Comment) : List (Nat × String) :=
  comments.filterMap fun c => (SourceMapReference.ofText? c.text).map fun url => (c.span.lo,url)

/-- The reference that stands last in a list. -/
def lastUrl (found : List (Nat × String)) : Option String := found.getLast?.map (·.2)

theorem lastUrl_append (found others : List (Nat × String)) :
    lastUrl (found ++ others) = (lastUrl others).or (lastUrl found) := by
  rw [lastUrl,lastUrl,lastUrl,List.getLast?_append,Option.map_or]

theorem lastUrl_eq_none {found : List (Nat × String)} : lastUrl found = none ↔ found = [] := by
  rw [lastUrl,Option.map_eq_none_iff,List.getLast?_eq_none_iff]

theorem exists_of_lastUrl {found : List (Nat × String)} {url : String} (h : lastUrl found = some url) :
    ∃ r ∈ found, r.2 = url := by
  obtain ⟨r,hr,hu⟩ := Option.map_eq_some_iff.mp h
  exact ⟨r,List.mem_of_getLast? hr,hu⟩

namespace Directives

variable (d : Directives)

/-- The references stored as leading the start of a span. -/
def leadingReferences (s : Span) : List (Nat × String) :=
  if s.isDummy then [] else references (d.comments.leading.attachedAt s.lo)

/-- The references stored as trailing the end of a span. -/
def trailingReferences (s : Span) : List (Nat × String) :=
  if s.isDummy then [] else references (d.comments.trailing.attachedAt s.hi)

/-- The references attached at a position or later. -/
def laterReferences (pos : Nat) : List (Nat × String) :=
  references (d.comments.leading.since pos ++ d.comments.trailing.since pos)

/-- The references at the constructs of some visits, in the order the constructs are entered. -/
def referencesOf (visits : List Visit) : List (Nat × String) :=
  (visitOrder visits).flatMap fun v => d.leadingReferences v.key.span ++ d.trailingReferences v.key.span

theorem sourceMapUrl?_eq (s : Span) :
    d.sourceMapUrl? s = lastUrl (d.leadingReferences s ++ d.trailingReferences s) := by
  unfold sourceMapUrl? leadingReferences trailingReferences
  split
  · rfl
  · rw [references,references,← List.filterMap_append,lastUrl,← List.getLast?_map,List.map_filterMap]
    congr 2
    funext c
    rw [Option.map_map]
    exact Option.map_id'.symm

theorem referencesOf_append (visits rest : List Visit) :
    d.referencesOf (visits ++ rest) = d.referencesOf visits ++ d.referencesOf rest := by
  rw [referencesOf,visitOrder_append,List.flatMap_append]
  rfl

theorem referencesOf_singleton (v : Visit) : d.referencesOf [v] =
    d.leadingReferences v.key.span ++ d.trailingReferences v.key.span ++ d.referencesOf v.inside := by
  rw [referencesOf,visitOrder_cons,visitOrder,List.append_nil,List.flatMap_cons]
  rfl

theorem trailerUrl?_eq (pos : Nat) :
    d.trailerUrl? pos = lastUrl (Decode.inOrder (d.laterReferences pos)) := rfl

theorem trailerUrl?_eq_none (pos : Nat) : d.trailerUrl? pos = none ↔ d.laterReferences pos = [] := by
  rw [trailerUrl?_eq,lastUrl_eq_none,List.eq_nil_iff_forall_not_mem,List.eq_nil_iff_forall_not_mem]
  exact forall_congr' fun r => not_congr Decode.mem_inOrder

/-- Of the references attached behind a position the one is taken whose comment starts last. -/
theorem exists_trailer (pos : Nat) (h : d.laterReferences pos ≠ []) :
    ∃ r ∈ d.laterReferences pos, d.trailerUrl? pos = some r.2 ∧
      ∀ r' ∈ d.laterReferences pos, r'.1 ≤ r.1 := by
  have hne : Decode.inOrder (d.laterReferences pos) ≠ [] := fun he =>
    h ((d.trailerUrl?_eq_none pos).mp (by rw [trailerUrl?_eq,he]; rfl))
  have hlast := List.getLast?_eq_some_getLast hne
  have hmem := List.getLast_mem hne
  generalize (Decode.inOrder (d.laterReferences pos)).getLast hne = r at hlast hmem
  refine ⟨r,Decode.mem_inOrder.mp hmem,by rw [trailerUrl?_eq,lastUrl,hlast,Option.map_some],fun r' hr' => ?_⟩
  have hs := List.pairwise_map.mp (Decode.pairwise_inOrder (d.laterReferences pos))
  obtain ⟨front,hf⟩ := List.getLast?_eq_some_iff.mp hlast
  have hin := Decode.mem_inOrder.mpr hr'
  rw [hf] at hs hin
  rcases List.mem_append.mp hin with hin | hin
  · exact (List.pairwise_append.mp hs).2.2 r' hin r (List.mem_singleton_self r)
  · exact (List.mem_singleton.mp hin) ▸ Nat.le_refl _

end Directives

namespace Traversal

variable {ctx : Context} {key : Key} {name : Option String} {t u : Traversal}

theorem url_enter : (t.enter ctx key name).url =
    (lastUrl (ctx.directives.leadingReferences key.span ++ ctx.directives.trailingReferences key.span)).or
      t.url := by
  rw [← Directives.sourceMapUrl?_eq]
  rfl

theorem Acts.url {marked : Key → Prop} (h : Acts ctx key marked t u) : u.url = t.url := by
  induction h with
  | refl => rfl
  | register _ _ ih | skip _ _ ih | branch _ _ ih | queue _ _ ih => exact ih

theorem Attempts.url {visited : Key → Prop} (h : Attempts ctx visited key t u) : u.url = t.url := by
  cases h with
  | idle => rfl
  | done _ h => exact h.url
  | failed _ h e => exact h.url

end Traversal

/-- A walk hands on the last reference at the constructs it enters. -/
theorem Traced.Built.url {α : Type} {ctx : Context} {w : Traced α} (h : Built ctx w) (t : Traversal) :
    (w t).1.2.url = (lastUrl (ctx.directives.referencesOf (w t).2)).or t.url := by
  induction h generalizing t with
  | pure a => rfl
  | @bind _ _ w f hw hf ihw ihf =>
    change (f (w t).1.1 (w t).1.2).1.2.url =
      (lastUrl (ctx.directives.referencesOf ((w t).2 ++ (f (w t).1.1 (w t).1.2).2))).or t.url
    rw [ihf,ihw,Directives.referencesOf_append,lastUrl_append,Option.or_assoc]
  | @note _ w hn =>
    obtain ⟨hoist,hu⟩ := hn t
    change (w t).2.url = _
    rw [hu]
    rfl
  | @visiting _ _ construct found key name action idle inside ha hi ih =>
    have hu := (Walk.Runs.attempts ha idle (t.enter ctx key name)).url
    refine (ih _ _).trans ?_
    rw [hu,Traversal.url_enter,← Option.or_assoc,← lastUrl_append]
    obtain ⟨v,hv,hk,hin⟩ : ∃ v, (Traced.visiting ctx construct found key name action idle inside t).2 = [v] ∧
        v.key = key ∧ v.inside = (inside _ _).2 := ⟨_,rfl,rfl,rfl⟩
    have hr := ctx.directives.referencesOf_singleton v
    rw [hk,hin,← hv] at hr
    exact congrArg (fun found => (lastUrl found).or t.url) hr.symm
  | asItem declares h ih => exact ih _
  | withChain inChain h ih => exact ih _

/-! ### The reference of a program -/

/-- The references where the walk of a file enters a construct, in the order it does. -/
def SourceFile.metReferences (file : SourceFile) (program : Program) (options : Options) :
    List (Nat × String) :=
  file.directives.referencesOf
    (program.traced (file.context options) (startMap file.path options)).2

section Outcome

variable {program : Program} {file : SourceFile} {options : Options} {batch : Batch} {o : Outcome}

theorem url_walk (ctx : Context) (coverage : CoverageMap) (p : Program) :
    (p.walk ctx coverage).2.url = lastUrl (ctx.directives.referencesOf (p.traced ctx coverage).2) := by
  rw [← Program.fst_traced]
  refine ((p.traced_built ctx).url _).trans ?_
  exact Option.or_none

/-- A pass reports the last reference at the program, or else the trailer that starts last, or else the
last reference met on the walk. -/
theorem url_of_instrumented (h : (instrument program file options batch).outcome = .ok o)
    (hs : o.status = .instrumented) : o.url =
      ((lastUrl (file.directives.leadingReferences program.span ++
        file.directives.trailingReferences program.span)).or
          (file.directives.trailerUrl? program.span.hi)).or (lastUrl (file.metReferences program options)) := by
  rw [← Directives.sourceMapUrl?_eq]
  unfold instrument at h
  split at h
  · rw [returnIgnored_eq] at h
    cases h
    cases hs
  · split at h
    · rw [returnDeclared_eq] at h
      cases h
      cases hs
    · cases hf : (program.walk (file.context options) (startMap file.path options)).2.failure with
      | some e =>
        rw [instrumentOpen_of_failure hf] at h
        cases h
      | none =>
        rw [instrumentOpen_of_walked hf] at h
        cases h
        dsimp only
        rw [url_walk]
        rfl

/-- Which of the references a pass reports: of those that trail the program the one stored last, or else,
if none leads the program either, of those attached behind it the one that starts last, or else the one
met last. -/
structure Reported (leading trailing later met : List (Nat × String)) (url : Option String) : Prop where
  none_iff : url = none ↔ leading = [] ∧ trailing = [] ∧ later = [] ∧ met = []
  found : ∀ u, url = some u → ∃ r ∈ leading ++ trailing ++ later ++ met, r.2 = u
  of_trailing : trailing ≠ [] → url = lastUrl trailing
  of_later : leading = [] → trailing = [] → later ≠ [] →
    ∃ r ∈ later, url = some r.2 ∧ ∀ r' ∈ later, r'.1 ≤ r.1
  of_met : leading = [] → trailing = [] → later = [] → url = lastUrl met
  of_leading : trailing = [] → later = [] → (∀ r ∈ met, r ∈ leading) → url = lastUrl leading

/-- What is taken from the program's own comments, or else from those behind it, or else from those met
on the way. -/
theorem reported_of_or {leading trailing later met : List (Nat × String)} {trailer url : Option String}
    (hu : url = ((lastUrl (leading ++ trailing)).or trailer).or (lastUrl met))
    (hlater : trailer = none ↔ later = [])
    (hlast : later ≠ [] → ∃ r ∈ later, trailer = some r.2 ∧ ∀ r' ∈ later, r'.1 ≤ r.1) :
    Reported leading trailing later met url := by
  rw [lastUrl_append] at hu
  have hnone : url = none ↔ leading = [] ∧ trailing = [] ∧ later = [] ∧ met = [] := by
    rw [hu,Option.or_eq_none_iff,Option.or_eq_none_iff,Option.or_eq_none_iff,lastUrl_eq_none,
      lastUrl_eq_none,lastUrl_eq_none,hlater,and_assoc,and_assoc,and_left_comm]
  refine ⟨hnone,fun u h => ?_,fun ht => ?_,fun hl ht hn => ?_,fun hl ht hn => ?_,fun ht hn hm => ?_⟩
  · rw [hu,Option.or_eq_some_iff,Option.or_eq_some_iff,Option.or_eq_some_iff] at h
    rcases h with ((h | ⟨-,h⟩) | ⟨-,h⟩) | ⟨-,h⟩
    · exact (exists_of_lastUrl h).imp fun r hr => ⟨by simp [hr.1],hr.2⟩
    · exact (exists_of_lastUrl h).imp fun r hr => ⟨by simp [hr.1],hr.2⟩
    · obtain ⟨r,hr,ht,-⟩ := hlast fun hn => Option.some_ne_none u (h ▸ hlater.mpr hn)
      exact ⟨r,by simp [hr],Option.some.inj (ht.symm.trans h)⟩
    · exact (exists_of_lastUrl h).imp fun r hr => ⟨by simp [hr.1],hr.2⟩
  · obtain ⟨u,hr⟩ := Option.ne_none_iff_exists'.mp (mt lastUrl_eq_none.mp ht)
    rw [hu,hr]
    rfl
  · obtain ⟨r,hr,ht',hmax⟩ := hlast hn
    refine ⟨r,hr,?_,hmax⟩
    rw [hu,hl,ht,ht']
    rfl
  · rw [hu,hl,ht,hlater.mpr hn]
    rfl
  · rw [hu,ht,hlater.mpr hn]
    cases hl : lastUrl leading with
    | some u => rfl
    | none =>
      have hnil := lastUrl_eq_none.mp hl
      have hmet : met = [] :=
        List.eq_nil_iff_forall_not_mem.mpr fun r hr => List.not_mem_nil (hnil ▸ hm r hr)
      rw [hmet]
      rfl

/-- A pass reports no source map exactly if no comment refers to one, and otherwise one of those that are
referred to. -/
theorem url_of_references (h : (instrument program file options batch).outcome = .ok o)
    (hs : o.status = .instrumented) :
    Reported (file.directives.leadingReferences program.span)
      (file.directives.trailingReferences program.span)
      (file.directives.laterReferences program.span.hi) (file.metReferences program options) o.url := by
  have hu := url_of_instrumented h hs
  have hlater := file.directives.trailerUrl?_eq_none program.span.hi
  have hlast := file.directives.exists_trailer program.span.hi
  exact reported_of_or hu hlater hlast

end Outcome

/-- Of the references that are given, the one whose comment starts last. -/
def StartsLast (found : List (Nat × String)) (url : Option String) : Prop :=
  (url = none ↔ found = []) ∧
    ∀ u, url = some u → ∃ r ∈ found, r.2 = u ∧ ∀ r' ∈ found, r'.1 ≤ r.1

section Sample

/-- A block with a reference inside, another one behind the block and a statement after that. -/
def nestedProgram : Program :=
  ⟨.script,.ofBounds 1 82,[],[.block (.ofBounds 1 43) [sampleCall "b" 37],sampleCall "c" 78]⟩

def nestedFile : SourceFile :=
  ⟨"a.js",.ofString ("\x7b\n/*# sourceMappingURL=inner.map */\nb();\n\x7d " ++
      "/*# sourceMappingURL=outer.map */ c();"),
    ⟨⟨[(37,[⟨"# sourceMappingURL=inner.map ",.ofBounds 3 36⟩])]⟩,
      ⟨[(43,[⟨"# sourceMappingURL=outer.map ",.ofBounds 44 77⟩])]⟩⟩⟩

theorem nested_references :
    nestedFile.directives.leadingReferences nestedProgram.span = [] ∧
    nestedFile.directives.trailingReferences nestedProgram.span = [] ∧
    nestedFile.directives.laterReferences nestedProgram.span.hi = [] ∧
    nestedFile.metReferences nestedProgram {} = [(44,"outer.map"),(3,"inner.map")] := by
  decide +kernel

theorem exists_instrumented_nested :
    ∃ o, (instrument nestedProgram nestedFile {} (.new none)).outcome = .ok o ∧
      o.status = .instrumented :=
  exists_instrumented (by decide +kernel) (by decide +kernel) (by decide +kernel)

theorem url_of_references_nested :
    ∃ o, (instrument nestedProgram nestedFile {} (.new none)).outcome = .ok o ∧
      o.status = .instrumented ∧ Reported [] [] [] [(44,"outer.map"),(3,"inner.map")] o.url := by
  obtain ⟨o,h,hs⟩ := exists_instrumented_nested
  obtain ⟨hlead,htrail,hlater,hmet⟩ := nested_references
  have hr := url_of_references h hs
  rw [hlead,htrail,hlater,hmet] at hr
  exact ⟨o,h,hs,hr⟩

/-- The comment behind a block is met when the block is entered, before those inside it. So a reference
inside counts, though the one behind the block starts later. -/
theorem nested_reference_counts :
    ∃ o, (instrument nestedProgram nestedFile {} (.new none)).outcome = .ok o ∧
      o.status = .instrumented ∧ o.url = some "inner.map" ∧
      ¬StartsLast (nestedFile.directives.leadingReferences nestedProgram.span ++
        nestedFile.directives.trailingReferences nestedProgram.span ++
        nestedFile.directives.laterReferences nestedProgram.span.hi ++
        nestedFile.metReferences nestedProgram {}) o.url := by
  obtain ⟨o,h,hs⟩ := exists_instrumented_nested
  obtain ⟨hlead,htrail,hlater,hmet⟩ := nested_references
  have hu := url_of_instrumented h hs
  rw [(nestedFile.directives.trailerUrl?_eq_none _).mpr hlater,hlead,htrail,hmet] at hu
  have hinner : o.url = some "inner.map" := hu
  refine ⟨o,h,hs,hinner,fun hlast => ?_⟩
  obtain ⟨r,hr,hname,hmax⟩ := hlast.2 _ hinner
  rw [hlead,htrail,hlater,hmet] at hr hmax
  have houter := hmax (44,"outer.map") (by simp)
  simp only [List.nil_append,List.mem_cons,List.not_mem_nil,or_false] at hr
  rcases hr with rfl | rfl
  · exact absurd hname (by decide)
  · exact absurd houter (by decide)

end Sample
end CoverageCounters
