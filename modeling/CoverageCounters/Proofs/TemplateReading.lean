import Mathlib.Data.List.Infix
import CoverageCounters.Path.Template

/-!
How a template is read. There is one way to cut a template, from left to right, into literal
characters and placeholders, and all that is asked of a template is answered from those pieces.
-/

namespace CoverageCounters

namespace Template

/-- A piece of a template. -/
inductive Piece where
  | literal (c : Char)
  | placeholder (name : List Char)
  deriving DecidableEq, Repr

namespace Piece

/-- The text a piece was cut from. -/
def text : Piece → List Char
  | literal c => [c]
  | placeholder name => '$' :: '\x7b' :: (name ++ ['\x7d'])

/-- The name in a piece. -/
def name? : Piece → Option String
  | literal _ => none
  | placeholder name => some (String.ofList name)

/-- What stands for a piece once it is filled: the field of the name, as repository metadata is
written, or nothing if there is no such field. -/
def filled (git : GitInfo) : Piece → List Char
  | literal c => [c]
  | placeholder name => ((git.fields.lookup (String.ofList name)).getD "").toList

@[simp] theorem text_literal (c : Char) : (literal c).text = [c] := rfl
@[simp] theorem text_placeholder (name : List Char) :
    (placeholder name).text = '$' :: '\x7b' :: (name ++ ['\x7d']) := rfl
@[simp] theorem name?_literal (c : Char) : (literal c).name? = none := rfl
@[simp] theorem name?_placeholder (name : List Char) :
    (placeholder name).name? = some (String.ofList name) := rfl

theorem name?_eq_some_iff {p : Piece} {name : String} :
    p.name? = some name ↔ p = placeholder name.toList := by
  cases p with
  | literal c => simp
  | placeholder n => simp [String.ext_iff]

end Piece

/-- A text starts with a placeholder, closed by the first closing brace. -/
def Opens (cs : List Char) : Prop :=
  ∃ name rest, '\x7d' ∉ name ∧ cs = '$' :: '\x7b' :: (name ++ '\x7d' :: rest)

/-- The pieces of a text, from left to right: where a placeholder starts it is read whole, and only
where none starts is a character literal. -/
inductive Reads : List Piece → List Char → Prop where
  | nil : Reads [] []
  | literal {c : Char} {ps : List Piece} {cs : List Char} (h : ¬Opens (c :: cs)) (hr : Reads ps cs) :
      Reads (.literal c :: ps) (c :: cs)
  | placeholder {name : List Char} {ps : List Piece} {cs : List Char} (h : '\x7d' ∉ name)
      (hr : Reads ps cs) :
      Reads (.placeholder name :: ps) ('$' :: '\x7b' :: (name ++ '\x7d' :: cs))

variable {name cs : List Char} {ps : List Piece} {git : GitInfo}

/-- What stands before the first closing brace is settled by the text. -/
theorem append_brace_inj {a b r s : List Char} (ha : '\x7d' ∉ a) (hb : '\x7d' ∉ b)
    (h : a ++ '\x7d' :: r = b ++ '\x7d' :: s) : a = b ∧ r = s := by
  induction a generalizing b with
  | nil =>
    cases b with
    | nil => exact ⟨rfl,(List.cons.inj h).2⟩
    | cons c b => exact absurd (List.cons.inj h).1 (fun hc => hb (hc ▸ List.mem_cons_self))
  | cons c a ih =>
    cases b with
    | nil => exact absurd (List.cons.inj h).1.symm (fun hc => ha (hc ▸ List.mem_cons_self))
    | cons d b =>
      obtain ⟨rfl,ht⟩ := List.cons.inj h
      obtain ⟨rfl,hs⟩ := ih (fun hm => ha (List.mem_cons_of_mem _ hm))
        (fun hm => hb (List.mem_cons_of_mem _ hm)) ht
      exact ⟨rfl,hs⟩

theorem takeWhile_name (hn : '\x7d' ∉ name) (rest : List Char) :
    (name ++ '\x7d' :: rest).takeWhile (· ≠ '\x7d') = name := by
  induction name with
  | nil => simp
  | cons c name ih =>
    have hc : c ≠ '\x7d' := fun h => hn (h ▸ List.mem_cons_self)
    simpa [hc] using ih (fun hm => hn (List.mem_cons_of_mem _ hm))

/-- The pattern of a placeholder at the start of a text. -/
theorem nameAt?_placeholder (hn : '\x7d' ∉ name) (rest : List Char) :
    nameAt? ('$' :: '\x7b' :: (name ++ '\x7d' :: rest)) = some name := by
  rw [nameAt?,if_pos (by simp),takeWhile_name hn]

theorem nameAt?_eq_none_iff : nameAt? cs = none ↔ ¬Opens cs := by
  constructor
  · rintro h ⟨name,rest,hn,rfl⟩
    rw [nameAt?_placeholder hn] at h
    cases h
  · intro h
    unfold nameAt?
    split
    · rename_i rest
      refine if_neg fun hm => h ?_
      obtain ⟨name,tail,rfl,hn⟩ := List.eq_append_cons_of_mem hm
      exact ⟨name,tail,hn,rfl⟩
    · rfl

namespace Reads

/-- A template has one reading at most. -/
theorem unique {qs : List Piece} (h : Reads ps cs) (h' : Reads qs cs) : qs = ps := by
  induction h generalizing qs with
  | nil => cases h'; rfl
  | literal hc hr ih =>
    generalize hcs : _ :: _ = cs at h'
    cases h' with
    | nil => cases hcs
    | literal hc' hr' =>
      obtain ⟨rfl,rfl⟩ := List.cons.inj hcs
      rw [ih hr']
    | placeholder hn hr' => exact absurd ⟨_,_,hn,hcs⟩ hc
  | placeholder hn hr ih =>
    generalize hcs : '$' :: _ = cs at h'
    cases h' with
    | nil => cases hcs
    | literal hc' hr' => exact absurd ⟨_,_,hn,hcs.symm⟩ hc'
    | placeholder hn' hr' =>
      obtain ⟨rfl,rfl⟩ := append_brace_inj hn hn' (List.cons.inj (List.cons.inj hcs).2).2
      rw [ih hr']

/-- Every text has a reading. -/
theorem exists_pieces (cs : List Char) : ∃ ps, Reads ps cs := by
  induction hl : cs.length using Nat.strong_induction_on generalizing cs with
  | _ n ih =>
    by_cases ho : Opens cs
    · obtain ⟨name,rest,hn,rfl⟩ := ho
      obtain ⟨ps,hr⟩ := ih rest.length (by rw [← hl]; simp; omega) rest rfl
      exact ⟨_,.placeholder hn hr⟩
    · cases cs with
      | nil => exact ⟨_,.nil⟩
      | cons c cs =>
        obtain ⟨ps,hr⟩ := ih cs.length (by rw [← hl]; simp) cs rfl
        exact ⟨_,.literal ho hr⟩

/-- Nothing is lost or changed by the cutting. -/
theorem flatMap_text (h : Reads ps cs) : ps.flatMap Piece.text = cs := by
  induction h with
  | nil => rfl
  | literal hc hr ih => rw [List.flatMap_cons,ih]; rfl
  | placeholder hn hr ih => rw [List.flatMap_cons,ih]; simp

/-- What is behind some of the pieces is read as it is on its own. -/
theorem of_append (front back : List Piece) (h : Reads (front ++ back) cs) :
    Reads back (back.flatMap Piece.text) := by
  induction front generalizing cs with
  | nil => exact h.flatMap_text.symm ▸ h
  | cons p front ih =>
    cases h with
    | literal _ hr => exact ih hr
    | placeholder _ hr => exact ih hr

/-- No placeholder stands inside literal characters that follow each other. -/
theorem no_placeholder_infix {front back : List Piece} {run : List Char}
    (h : Reads (front ++ (run.map Piece.literal ++ back)) cs) (hn : '\x7d' ∉ name) :
    ¬(Piece.placeholder name).text <:+: run := by
  rintro ⟨before,after,rfl⟩
  -- the first character of the placeholder would be a literal at which one starts
  have hr := of_append (front ++ before.map Piece.literal)
    (((Piece.placeholder name).text ++ after).map Piece.literal ++ back) (by simpa using h)
  simp only [Piece.text_placeholder,List.cons_append,List.map_cons] at hr
  generalize hcs : List.flatMap Piece.text _ = cs at hr
  cases hr with
  | literal hc hr' =>
    refine hc ⟨name,after ++ back.flatMap Piece.text,hn,?_⟩
    rw [← hr'.flatMap_text]
    simp [List.flatMap_map]

theorem isFound_iff (h : Reads ps cs) :
    isFound cs = true ↔ ∃ name, Piece.placeholder name ∈ ps := by
  induction h with
  | nil => simp [isFound]
  | literal hc hr ih =>
    rw [isFound,nameAt?_eq_none_iff.mpr hc]
    simpa using ih
  | placeholder hn hr ih => simp [isFound,nameAt?_placeholder hn]

end Reads

theorem namesFrom_append (read cs : List Char) :
    namesFrom read.length (read ++ cs) = namesFrom 0 cs := by
  induction read with
  | nil => rfl
  | cons c read ih => exact ih

theorem fillFrom_append (git : GitInfo) (read cs : List Char) :
    fillFrom git read.length (read ++ cs) = fillFrom git 0 cs := by
  induction read with
  | nil => rfl
  | cons c read ih => exact ih

/-- A placeholder at the start is named, and the names go on behind it. -/
theorem namesFrom_placeholder (hn : '\x7d' ∉ name) (cs : List Char) :
    namesFrom 0 ('$' :: '\x7b' :: (name ++ '\x7d' :: cs)) = name :: namesFrom 0 cs := by
  have hr := namesFrom_append (name ++ ['\x7d']) cs
  rw [List.append_assoc,List.length_append] at hr
  rw [namesFrom,nameAt?_placeholder hn]
  exact congrArg (name :: ·) hr

/-- A placeholder at the start is filled, and the filling goes on behind it. -/
theorem fillFrom_placeholder (git : GitInfo) (hn : '\x7d' ∉ name) (cs : List Char) :
    fillFrom git 0 ('$' :: '\x7b' :: (name ++ '\x7d' :: cs)) =
      (valueOf git (String.ofList name)).toList ++ fillFrom git 0 cs := by
  have hr := fillFrom_append git (name ++ ['\x7d']) cs
  rw [List.append_assoc,List.length_append] at hr
  rw [fillFrom,nameAt?_placeholder hn]
  exact congrArg (_ ++ ·) hr

/-- The names that are filled are those of the metadata, with the same values. -/
theorem valueOf_eq_lookup (git : GitInfo) (name : String) :
    valueOf git name = (git.fields.lookup name).getD "" := by
  unfold valueOf
  split <;> simp_all [GitInfo.fields,List.lookup_cons,beq_false_of_ne]

theorem knownNames_eq_fields (git : GitInfo) : knownNames = git.fields.map Prod.fst := rfl

namespace Reads

theorem namesFrom_eq (h : Reads ps cs) :
    (namesFrom 0 cs).map String.ofList = ps.filterMap Piece.name? := by
  induction h with
  | nil => rfl
  | literal hc hr ih =>
    rw [namesFrom,nameAt?_eq_none_iff.mpr hc]
    exact ih
  | placeholder hn hr ih =>
    rw [namesFrom_placeholder hn,List.map_cons,ih]
    rfl

theorem fillFrom_eq (h : Reads ps cs) (git : GitInfo) :
    fillFrom git 0 cs = ps.flatMap (Piece.filled git) := by
  induction h with
  | nil => rfl
  | literal hc hr ih =>
    rw [fillFrom,nameAt?_eq_none_iff.mpr hc]
    exact congrArg (_ :: ·) ih
  | placeholder hn hr ih =>
    rw [fillFrom_placeholder git hn,ih,valueOf_eq_lookup]
    rfl

end Reads

/-- The first name that is not among the known ones, and where it stands. -/
theorem find?_names_eq_some_iff {known : List String} {name : String} :
    (ps.filterMap Piece.name?).find? (!known.contains ·) = some name ↔
      ∃ front back, ps = front ++ Piece.placeholder name.toList :: back ∧ name ∉ known ∧
        ∀ n, Piece.placeholder n ∈ front → String.ofList n ∈ known := by
  rw [List.find?_filterMap,Option.bind_eq_some_iff]
  constructor
  · rintro ⟨p,hp,hname⟩
    obtain ⟨hu,front,back,hs,hf⟩ := List.find?_eq_some_iff_append.mp hp
    rw [hname] at hu
    refine ⟨front,back,Piece.name?_eq_some_iff.mp hname ▸ hs,by simpa using hu,fun n hn => ?_⟩
    simpa using hf _ hn
  · rintro ⟨front,back,hs,hu,hf⟩
    refine ⟨.placeholder name.toList,List.find?_eq_some_iff_append.mpr ⟨?_,front,back,hs,?_⟩,?_⟩
    · simpa using hu
    · intro p hp
      cases p with
      | literal c => rfl
      | placeholder n => simpa using hf n hp
    · simp

/-- A template has one reading, in which nothing is lost or changed and no placeholder is hidden among
literal characters. It has a placeholder if the reading has one; it is in order if all names in the
reading are fields of the metadata, and else the first that is not is the one that is reported; and it
expands to its literal characters and the fields that are named, which are not read again. -/
theorem template_reading (template : String) (git : GitInfo) :
    ∃ ps, Reads ps template.toList ∧ (∀ qs, Reads qs template.toList → qs = ps) ∧
      ps.flatMap Piece.text = template.toList ∧
      (∀ front run back, ps = front ++ (run.map Piece.literal ++ back) →
        ∀ name, '\x7d' ∉ name → ¬(Piece.placeholder name).text <:+: run) ∧
      (hasPlaceholders template = true ↔ ∃ name, Piece.placeholder name ∈ ps) ∧
      (unknown? template = none ↔
        ∀ name, Piece.placeholder name ∈ ps → String.ofList name ∈ git.fields.map Prod.fst) ∧
      (∀ name, unknown? template = some name ↔ ∃ front back,
        ps = front ++ Piece.placeholder name.toList :: back ∧ name ∉ git.fields.map Prod.fst ∧
        ∀ n, Piece.placeholder n ∈ front → String.ofList n ∈ git.fields.map Prod.fst) ∧
      (expand template git).toList = ps.flatMap (Piece.filled git) := by
  obtain ⟨ps,hr⟩ := Reads.exists_pieces template.toList
  refine ⟨ps,hr,fun qs hq => hr.unique hq,hr.flatMap_text,?_,hr.isFound_iff,?_,?_,?_⟩
  · rintro front run back rfl name hn
    exact hr.no_placeholder_infix hn
  · rw [unknown?,hr.namesFrom_eq,knownNames_eq_fields git,List.find?_eq_none]
    simp only [List.mem_filterMap,Piece.name?_eq_some_iff]
    exact ⟨fun h name hn => by simpa using h _ ⟨_,hn,by simp⟩,
      fun h n ⟨p,hp,hn⟩ => by simpa using h n.toList (hn ▸ hp)⟩
  · intro name
    rw [unknown?,hr.namesFrom_eq,knownNames_eq_fields git,find?_names_eq_some_iff]
  · rw [expand,String.toList_ofList,hr.fillFrom_eq]

/-- Metadata that looks like a placeholder is not filled again, and a placeholder is named up to the
first closing brace. -/
example :
    let git : GitInfo := { branch := "$\x7bversion\x7d", version := "1" }
    expand "$$\x7bbranch\x7d$\x7ba$\x7bbranch\x7d/" git = "$$\x7bversion\x7d/" := by decide

end Template
end CoverageCounters
