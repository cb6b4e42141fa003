import Mathlib.Data.List.DropRight
import CoverageCounters.Proofs.PathRecording
import CoverageCounters.Proofs.TreeRuns

/-!
The prefix that a style reports, against the paths that it records. A prefix that does not end in a
slash stands in front of every recorded path, with one slash between them. The slashes at the end of a
prefix are reported, but they are in no recorded path.
-/

namespace CoverageCounters

theorem dropTail_eq_rdropWhile {α : Type} (p : α → Bool) (xs : List α) :
    dropTail p xs = xs.rdropWhile p := rfl

theorem head?_dropWhile_slash (cs : List Char) : (cs.dropWhile (· = '/')).head? ≠ some '/' := by
  intro h
  have hn := List.head?_dropWhile_not (fun c : Char => decide (c = '/')) cs
  simp [h] at hn

/-- A text that does not start with a slash starts with no run of slashes. -/
theorem not_slashes_prefix {run cs : List Char} (hr : ∀ c ∈ run, c = '/') (h : cs.head? ≠ some '/') :
    ¬ (run ++ ['/']) <+: cs := by
  rintro ⟨tail,rfl⟩
  refine h ?_
  cases run with
  | nil => rfl
  | cons c run => rw [hr c List.mem_cons_self]; rfl

namespace PathStyle

variable {style : PathStyle} {lead : String} {file root rel : OsText}

theorem lead?_eq_some_iff : style.lead? = some lead ↔ style = .relative lead ∧ lead ≠ "" := by
  cases style with
  | absolute => simp [lead?]
  | relative text =>
    rw [lead?,relative.injEq]
    by_cases ht : text = ""
    · subst ht
      exact ⟨nofun,fun h => absurd h.1.symm h.2⟩
    · simpa [ht] using fun h => h ▸ ht

theorem lead?_eq_none_iff : style.lead? = none ↔ style = .absolute ∨ style = .relative "" := by
  cases style with
  | absolute => simp [lead?]
  | relative text => simp [lead?]

/-- A prefix without a slash at its end is in front of every recorded path. -/
theorem record_of_lead (hl : style.lead? = some lead) (he : lead.toList.getLast? ≠ some '/') :
    style.record file root =
      lead ++ "/" ++ String.ofList ((Path.relativeTo file root).toList.dropWhile (· = '/')) := by
  obtain ⟨rfl,hne⟩ := lead?_eq_some_iff.mp hl
  have hself : dropTail (· = '/') lead.toList = lead.toList := by
    rw [dropTail_eq_rdropWhile,List.rdropWhile_eq_self_iff]
    intro hcs hlast
    refine he ?_
    rw [List.getLast?_eq_some_getLast hcs]
    simpa using hlast
  rw [String.ext_iff,toList_record_relative,hself,if_neg (by simpa using hne)]
  simp

/-- Paths are recorded as behind the prefix without the slashes at its end. -/
theorem record_dropTail (lead : String) (file root : OsText) :
    (relative (String.ofList (dropTail (· = '/') lead.toList))).record file root =
      (relative lead).record file root := by
  have hfix : dropTail (· = '/') (dropTail (· = '/') lead.toList) =
      dropTail (· = '/') lead.toList := List.rdropWhile_idempotent _ _
  rw [String.ext_iff,toList_record_relative,toList_record_relative,String.toList_ofList,hfix]

/-- A prefix with a slash at its end is not in front of a recorded path. -/
theorem not_lead_prefix (hl : style.lead? = some lead) (he : lead.toList.getLast? = some '/')
    (hr : (Path.relativeTo file root).toList.head? ≠ some '/') :
    ¬ (lead ++ "/").toList <+: (style.record file root).toList := by
  obtain ⟨rfl,-⟩ := lead?_eq_some_iff.mp hl
  obtain ⟨run,hsplit,hrun⟩ : ∃ run, lead.toList = dropTail (· = '/') lead.toList ++ run ∧
      ∀ c ∈ run, c = '/' :=
    ⟨_,List.rdropWhile_append_rtakeWhile.symm,fun c hc => by simpa using List.mem_rtakeWhile_imp hc⟩
  have hlead : (lead ++ "/").toList = dropTail (· = '/') lead.toList ++ (run ++ ['/']) := by
    rw [String.toList_append,← List.append_assoc,← hsplit]
    rfl
  rw [toList_record_relative,hlead]
  by_cases hfront : dropTail (· = '/') lead.toList = []
  · rw [if_pos hfront,hfront,List.nil_append]
    exact not_slashes_prefix hrun hr
  · rw [if_neg hfront,List.prefix_append_right_inj]
    cases run with
    | nil =>
      -- what is left of the prefix does not end in a slash
      rw [hsplit,List.append_nil,List.getLast?_eq_some_getLast hfront] at he
      exact absurd (decide_eq_true (Option.some.inj he)) (List.rdropWhile_last_not _ _ hfront)
    | cons c run =>
      rw [hrun c List.mem_cons_self,List.cons_append,List.cons_prefix_cons]
      exact fun h => not_slashes_prefix (fun c hc => hrun c (List.mem_cons_of_mem _ hc))
        (head?_dropWhile_slash _) h.2

/-- Behind a prefix without a slash at its end, the paths of a run do not start with a slash. -/
theorem exists_rest_of_run {w : World} {parse : SourceParser} {top : OsText}
    {key : String} {settings : Settings} {options : Options} {batch after : Batch} {tree : TreeCoverage}
    (hl : style.lead? = some lead) (he : lead.toList.getLast? ≠ some '/')
    (h : w.instrumentTree parse top settings options style batch = .ok (tree,after))
    (hk : key ∈ tree.files.keys) :
    ∃ rest, key = lead ++ "/" ++ rest ∧ rest.toList.head? ≠ some '/' := by
  obtain ⟨file,rfl⟩ := World.exists_record_of_mem_keys h hk
  refine ⟨_,record_of_lead hl he,?_⟩
  rw [String.toList_ofList]
  exact head?_dropWhile_slash _

/-- What a style says of its prefix, and where the prefix stands. Without a prefix a file is recorded
by its path as found, or by its path from the root. A prefix that does not end in a slash stands with
one slash in front of the path from the root, and so it does in all paths of a run. A prefix that ends
in slashes counts as if it had none of them, and it is not itself in front of a path with one more. -/
theorem reported_lead (location : PathLocation) (template : Option String) (git : Option GitInfo)
    (hb : Path.below? file root = some rel) (hr : rel ≠ .empty) :
    let style := resolve location template git
    (location = .absolute → style.lead? = none ∧ style.record file root = Path.normalize file) ∧
    (location = .relative → style.lead? = none →
      style.record file root = Path.normalize rel) ∧
    ∀ lead, style.lead? = some lead →
      (lead.toList.getLast? ≠ some '/' →
        style.record file root = lead ++ "/" ++
          String.ofList ((Path.normalize rel).toList.dropWhile (· = '/')) ∧
        ((Path.normalize rel).toList.head? ≠ some '/' →
          style.record file root = lead ++ "/" ++ Path.normalize rel) ∧
        ∀ (w : World) (parse : SourceParser) (top : OsText) (settings : Settings)
          (options : Options) (batch after : Batch) (tree : TreeCoverage),
          w.instrumentTree parse top settings options style batch = .ok (tree,after) →
          ∀ key ∈ tree.files.keys,
            ∃ rest, key = lead ++ "/" ++ rest ∧ rest.toList.head? ≠ some '/') ∧
      (lead.toList.getLast? = some '/' →
        style.record file root =
          (relative (String.ofList (dropTail (· = '/') lead.toList))).record file root ∧
        ((Path.normalize rel).toList.head? ≠ some '/' →
          ¬ (lead ++ "/").toList <+: (style.record file root).toList)) := by
  have hrel := Path.relativeTo_of_below hb hr
  refine ⟨?_,?_,fun lead hl => ⟨fun he => ⟨?_,fun hh => ?_,?_⟩,fun he => ⟨?_,fun hh => ?_⟩⟩⟩
  · rintro rfl
    exact ⟨rfl,rfl⟩
  · rintro rfl hn
    rcases lead?_eq_none_iff.mp hn with h | h
    · cases h
    · rw [h,← hrel]
      rfl
  · rw [record_of_lead hl he,hrel]
  · rw [record_of_lead hl he,hrel,Path.dropWhile_slash_eq_self hh,String.ofList_toList]
  · intro w parse top settings options batch after tree h key hk
    exact exists_rest_of_run hl he h hk
  · rw [record_dropTail,(lead?_eq_some_iff.mp hl).1]
  · exact not_lead_prefix hl he (hrel ▸ hh)

/-- A project and a branch in front of a file. -/
theorem reported_lead_project :
    let style := resolve .relative (some "$\x7bproject_name\x7d/$\x7bbranch\x7d")
      (some { projectName := "p", branch := "main" })
    Path.below? "/r/a.js" "/r" = some "a.js" ∧ style.lead? = some "p/main" ∧
      style.record "/r/a.js" "/r" = "p/main/a.js" := by
  have hl : (resolve .relative (some "$\x7bproject_name\x7d/$\x7bbranch\x7d")
      (some { projectName := "p", branch := "main" })).lead? = some "p/main" := by decide +kernel
  have hb : Path.below? "/r/a.js" "/r" = some "a.js" := by decide +kernel
  refine ⟨hb,hl,?_⟩
  obtain ⟨-,-,hlead⟩ := reported_lead .relative (some "$\x7bproject_name\x7d/$\x7bbranch\x7d")
    (some { projectName := "p", branch := "main" }) hb (by decide)
  exact ((hlead "p/main" hl).1 (by decide)).2.1 (by decide +kernel)

/-- The slash at the end of a template is reported, but it is in no recorded path. -/
theorem reported_slash_dropped :
    let style := resolve .relative (some "cov/") none
    style.lead? = some "cov/" ∧ style.record "/r/a.js" "/r" = "cov/a.js" ∧
      style.record "/r/a.js" "/r" ≠ "cov/" ++ "/" ++ Path.relativeTo "/r/a.js" "/r" := by
  decide +kernel

end PathStyle
end CoverageCounters
