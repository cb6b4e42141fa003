import Mathlib.Data.List.TakeWhile
import CoverageCounters.Path.Style
import CoverageCounters.Proofs.OsTexts
import CoverageCounters.Proofs.PathComponents

/-!
The paths recorded for files. A path below a root is recorded as the names that lead to it, behind what
the style puts in front; where the names are texts without backslashes, different files are recorded
under different paths.
-/

namespace CoverageCounters

namespace Path

variable {path root rel : OsText} {text : String} {names names' : List OsText}

/-- A way that is recorded as it is: a text without backslashes. -/
def Plain (path : OsText) : Prop := ∃ text : String, path = text ∧ '\\' ∉ text.toList

theorem toList_normalize (path : OsText) :
    (normalize path).toList = path.lossy.toList.map fun c => if c = '\\' then '/' else c :=
  String.toList_ofList

theorem map_slash_eq_self {cs : List Char} (h : '\\' ∉ cs) :
    (cs.map fun c => if c = '\\' then '/' else c) = cs := by
  refine (List.map_congr_left fun c hc => if_neg ?_).trans (List.map_id' _)
  rintro rfl
  exact h hc

theorem normalize_ofString (h : '\\' ∉ text.toList) : normalize text = text := by
  rw [String.ext_iff,toList_normalize,OsText.lossy_ofString,map_slash_eq_self h]

/-- A path is recorded as what stands before a slash and what stands behind it. -/
theorem toList_normalize_append (front back : List UInt8) :
    (normalize ⟨front ++ slash :: back⟩).toList =
      (normalize ⟨front⟩).toList ++ '/' :: (normalize ⟨back⟩).toList := by
  have hs : slash.toNat < 0x80 := by decide
  rw [toList_normalize,OsText.toList_lossy_append hs,List.map_append,List.map_cons,
    toList_normalize,toList_normalize]
  rfl

/-- A path strictly below a root is seen from there. -/
theorem relativeTo_of_below (h : below? path root = some rel) (hr : rel ≠ .empty) :
    relativeTo path root = normalize rel := by
  rw [relativeTo,h]
  exact if_neg (Bool.eq_false_iff.mp (OsText.isEmpty_eq_false_iff.mpr hr))

/-- What lies below a directory by some names, as it is seen from the directory. -/
theorem relativeTo_joined (hr : root ≠ .empty) (hn : names ≠ []) (h : ∀ name ∈ names, IsName name) :
    relativeTo (joined root names) root = normalize ⟨joinSlash (names.map OsText.bytes)⟩ :=
  relativeTo_of_below (below?_joined hr hn h) fun he =>
    joinSlash_ne_nil hn h (congrArg OsText.bytes he)

theorem dropWhile_slash_eq_self {cs : List Char} (h : cs.head? ≠ some '/') :
    cs.dropWhile (· = '/') = cs := by
  cases cs with
  | nil => rfl
  | cons c cs => exact List.dropWhile_cons_of_neg (by simpa using h)

/-- A text whose encoding does not start with a slash does not start with one. -/
theorem head?_of_bytes {bytes : List UInt8} (he : (⟨bytes⟩ : OsText) = text)
    (h : bytes.head? ≠ some slash) : text.toList.head? ≠ some '/' := by
  intro ht
  obtain ⟨cs,hcs⟩ : ∃ cs, text.toList = '/' :: cs := List.head?_eq_some_iff.mp ht
  have hb : bytes = text.toList.flatMap String.utf8EncodeChar := congrArg OsText.bytes he
  rw [hcs,List.flatMap_cons] at hb
  exact h (congrArg List.head? hb)

theorem dropWhile_plain (hn : names ≠ []) (h : ∀ name ∈ names, IsName name)
    (ht : (⟨joinSlash (names.map OsText.bytes)⟩ : OsText) = text) :
    text.toList.dropWhile (· = '/') = text.toList :=
  dropWhile_slash_eq_self (head?_of_bytes ht (head?_joinSlash hn h))

end Path

namespace PathStyle

open CoverageCounters.Path (slash joinSlash)

variable {root : OsText} {names names' : List OsText}

theorem record_absolute (file root : OsText) : record .absolute file root = Path.normalize file := rfl

/-- What stands behind the lead of a recorded path. -/
theorem toList_record_relative (lead : String) (file root : OsText) :
    (record (.relative lead) file root).toList =
      if dropTail (· = '/') lead.toList = [] then (Path.relativeTo file root).toList
      else dropTail (· = '/') lead.toList ++
        '/' :: (Path.relativeTo file root).toList.dropWhile (· = '/') := by
  unfold record
  dsimp only
  by_cases hl : dropTail (· = '/') lead.toList = [] <;> simp [hl]

/-- Files below a root are recorded under different paths if the ways to them are texts and no backslash
is on them. -/
theorem record_inj (style : PathStyle) (hr : root ≠ .empty) (hn : names ≠ []) (hn' : names' ≠ [])
    (h : ∀ name ∈ names, Path.IsName name) (h' : ∀ name ∈ names', Path.IsName name)
    (hb : Path.Plain ⟨joinSlash (names.map OsText.bytes)⟩)
    (hb' : Path.Plain ⟨joinSlash (names'.map OsText.bytes)⟩)
    (he : style.record (Path.joined root names) root = style.record (Path.joined root names') root) :
    names = names' := by
  obtain ⟨text,ht,hb⟩ := hb
  obtain ⟨text',ht',hb'⟩ := hb'
  have htext : text = text' := by
    have hlist := congrArg String.toList he
    rw [String.ext_iff]
    cases style with
    | absolute =>
      have hj : Path.joined root names = ⟨Path.stem root ++ slash :: joinSlash (names.map OsText.bytes)⟩ :=
        OsText.ext (Path.bytes_joined hr hn h)
      have hj' : Path.joined root names' =
          ⟨Path.stem root ++ slash :: joinSlash (names'.map OsText.bytes)⟩ :=
        OsText.ext (Path.bytes_joined hr hn' h')
      rw [record_absolute,record_absolute,hj,hj',Path.toList_normalize_append,
        Path.toList_normalize_append,ht,ht',Path.normalize_ofString hb,Path.normalize_ofString hb',
        List.append_cancel_left_eq] at hlist
      exact (List.cons.inj hlist).2
    | relative lead =>
      rw [toList_record_relative,toList_record_relative,Path.relativeTo_joined hr hn h,
        Path.relativeTo_joined hr hn' h',ht,ht',Path.normalize_ofString hb,
        Path.normalize_ofString hb',Path.dropWhile_plain hn h ht,
        Path.dropWhile_plain hn' h' ht'] at hlist
      split at hlist
      · exact hlist
      · rw [List.append_cancel_left_eq] at hlist
        exact (List.cons.inj hlist).2
  have hjoin : joinSlash (names.map OsText.bytes) = joinSlash (names'.map OsText.bytes) := by
    rw [← htext,← ht] at ht'
    exact (OsText.mk.inj ht').symm
  have hinj := Path.joinSlash_inj (by simpa using hn) (by simpa using hn')
    (by simpa using fun name hm => (h name hm).2.2.2)
    (by simpa using fun name hm => (h' name hm).2.2.2) hjoin
  exact List.map_injective_iff.mpr (fun _ _ => OsText.ext) hinj

end PathStyle
end CoverageCounters
