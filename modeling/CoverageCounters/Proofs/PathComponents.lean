import Mathlib.Data.List.Basic
import CoverageCounters.World.Basic

/-!
The components of paths that are put together name by name, and what is left of such a path below the
directory it was started from.
-/

namespace CoverageCounters

section Cutting

variable {α : Type} {p : α → Bool} {c : α} {cs : List α} {segments : List (List α)}

theorem cutAt_ne_nil (p : α → Bool) (cs : List α) : cutAt p cs ≠ [] := by
  cases cs with
  | nil => simp [cutAt]
  | cons c cs =>
    rw [cutAt]
    split
    · simp
    · split <;> simp

theorem cutAt_cons_of_pos (hc : p c = true) (cs : List α) : cutAt p (c :: cs) = [] :: cutAt p cs := by
  rw [cutAt,if_pos hc]

theorem cutAt_cons_of_neg (hc : p c = false) {segment : List α}
    (h : cutAt p cs = segment :: segments) : cutAt p (c :: cs) = (c :: segment) :: segments := by
  rw [cutAt,if_neg (by simp [hc]),h]

/-- A list without a place to cut is one segment. -/
theorem cutAt_of_forall (h : ∀ c ∈ cs, p c = false) : cutAt p cs = [cs] := by
  induction cs with
  | nil => rfl
  | cons c cs ih =>
    exact cutAt_cons_of_neg (h c List.mem_cons_self)
      (ih fun d hd => h d (List.mem_cons_of_mem _ hd))

/-- What stands before a place to cut is cut on its own, and so is what stands behind it. -/
theorem cutAt_append_cons (hc : p c = true) (front back : List α) :
    cutAt p (front ++ c :: back) = cutAt p front ++ cutAt p back := by
  induction front with
  | nil => exact cutAt_cons_of_pos hc back
  | cons d front ih =>
    cases hd : p d with
    | true => rw [List.cons_append,cutAt_cons_of_pos hd,cutAt_cons_of_pos hd,ih]; rfl
    | false =>
      cases hf : cutAt p front with
      | nil => exact absurd hf (cutAt_ne_nil p front)
      | cons segment rest =>
        rw [List.cons_append,cutAt_cons_of_neg hd hf]
        exact cutAt_cons_of_neg hd (by rw [ih,hf]; rfl)

end Cutting

namespace Path

/-- Segments that are joined are found again by cutting. -/
theorem cutAt_joinSlash {segments : List (List UInt8)} (hs : segments ≠ []) (h : ∀ segment ∈ segments, slash ∉ segment) :
    cutAt (· = slash) (joinSlash segments) = segments := by
  have hone {segment : List UInt8} (hm : segment ∈ segments) :
      cutAt (· = slash) segment = [segment] :=
    cutAt_of_forall fun c hc => decide_eq_false fun he => h segment hm (he ▸ hc)
  induction segments with
  | nil => exact absurd rfl hs
  | cons segment rest ih =>
    cases rest with
    | nil => exact hone List.mem_cons_self
    | cons next rest =>
      rw [joinSlash,cutAt_append_cons (by simp),hone List.mem_cons_self,
        ih (by simp) (fun s hm => h s (List.mem_cons_of_mem _ hm))
          (fun hm => hone (List.mem_cons_of_mem _ hm))]
      · rfl
      · simp

theorem joinSlash_inj {segments segments' : List (List UInt8)} (hs : segments ≠ []) (hs' : segments' ≠ [])
    (h : ∀ segment ∈ segments, slash ∉ segment) (h' : ∀ segment ∈ segments', slash ∉ segment)
    (he : joinSlash segments = joinSlash segments') : segments = segments' := by
  rw [← cutAt_joinSlash hs h,he,cutAt_joinSlash hs' h']

/-- What a directory may call an entry: bytes without a slash that are neither none nor a dot or two of
them. -/
def IsName (name : OsText) : Prop :=
  name.bytes ≠ [] ∧ name.bytes ≠ [dot] ∧ name.bytes ≠ [dot,dot] ∧ slash ∉ name.bytes

instance (name : OsText) : Decidable (IsName name) :=
  inferInstanceAs (Decidable (_ ∧ _ ∧ _ ∧ _))

variable {directory name path root : OsText} {names : List OsText}

theorem isIdle_iff {segment : List UInt8} : isIdle segment = true ↔ segment = [] ∨ segment = [dot] := by
  simp [isIdle]

theorem IsName.not_isIdle (h : IsName name) : isIdle name.bytes = false := by
  simp [isIdle,h.1,h.2.1]

theorem IsName.ne_empty (h : IsName name) : name ≠ .empty := fun he => h.1 (congrArg OsText.bytes he)

theorem IsName.not_isAbsolute (h : IsName name) : isAbsolute name = false := by
  cases hc : name.bytes with
  | nil => exact absurd hc h.1
  | cons c cs =>
    have hs : c ≠ slash := fun he => h.2.2.2 (hc ▸ he ▸ List.mem_cons_self)
    simpa [isAbsolute,hc] using hs

theorem IsName.componentOf (h : IsName name) : componentOf name.bytes = .name name := by
  simp [Path.componentOf,h.2.2.1]

theorem IsName.segments (h : IsName name) : segments name = [name.bytes] :=
  cutAt_of_forall fun _ hc => decide_eq_false fun he => h.2.2.2 (he ▸ hc)

theorem joinSlash_ne_nil (hn : names ≠ []) (h : ∀ name ∈ names, IsName name) :
    joinSlash (names.map OsText.bytes) ≠ [] := by
  obtain ⟨name,rest,rfl⟩ := List.exists_cons_of_ne_nil hn
  have hname := (h name List.mem_cons_self).1
  cases rest <;> simp [joinSlash,hname]

theorem head?_joinSlash (hn : names ≠ []) (h : ∀ name ∈ names, IsName name) :
    (joinSlash (names.map OsText.bytes)).head? ≠ some slash := by
  obtain ⟨name,rest,rfl⟩ := List.exists_cons_of_ne_nil hn
  obtain ⟨hne,-,-,hs⟩ := h name List.mem_cons_self
  obtain ⟨c,cs,hc⟩ := List.exists_cons_of_ne_nil hne
  have hhead : c ≠ slash := fun he => hs (hc ▸ he ▸ List.mem_cons_self)
  cases rest <;> simp [joinSlash,hc,hhead]

/-- The components that segments name. -/
def named (body : List (List UInt8)) : List Component := (body.filter (!isIdle ·)).map componentOf

@[simp] theorem named_nil : named [] = [] := rfl

@[simp] theorem named_append (front back : List (List UInt8)) :
    named (front ++ back) = named front ++ named back := by
  simp [named]

theorem named_names (h : ∀ name ∈ names, IsName name) :
    named (names.map OsText.bytes) = names.map .name := by
  induction names with
  | nil => rfl
  | cons name names ih =>
    have hn := h name List.mem_cons_self
    have hr := ih fun n hm => h n (List.mem_cons_of_mem _ hm)
    simp only [named,List.map_cons] at hr ⊢
    rw [List.filter_cons_of_pos (by simp [hn.not_isIdle]),List.map_cons,hr,hn.componentOf]

theorem named_of_idle {body : List (List UInt8)} (h : ∀ s ∈ body, isIdle s = true) :
    named body = [] := by
  simpa [named,List.filter_eq_nil_iff] using h

theorem components_eq (path : OsText) :
    components path = (split path).1.toList ++ named (split path).2 := rfl

theorem splitSegments_cons {segment : List UInt8} (h : isIdle segment = false)
    (body : List (List UInt8)) : splitSegments (segment :: body) = (none,segment :: body) := by
  rw [← Bool.not_eq_true,isIdle_iff,not_or] at h
  cases segment with
  | nil => exact absurd rfl h.1
  | cons b segment => exact if_neg h.2

theorem splitSegments_append {front : List (List UInt8)} (h : front ≠ []) (h' : front ≠ [[]])
    (back : List (List UInt8)) :
    splitSegments (front ++ back) =
      ((splitSegments front).1,(splitSegments front).2 ++ back) := by
  obtain ⟨segment,body,rfl⟩ := List.exists_cons_of_ne_nil h
  cases hi : isIdle segment with
  | false => rw [List.cons_append,splitSegments_cons hi,splitSegments_cons hi]; rfl
  | true =>
    rcases isIdle_iff.mp hi with rfl | rfl
    · cases body with
      | nil => exact absurd rfl h'
      | cons s body => rfl
    · rfl

theorem eq_empty_of_segments (h : segments path = [[]]) : path = .empty := by
  cases hp : path.bytes with
  | nil => exact OsText.ext hp
  | cons c cs =>
    unfold segments at h
    rw [hp] at h
    obtain ⟨segment,body,hb⟩ := List.exists_cons_of_ne_nil (cutAt_ne_nil (· = slash) cs)
    by_cases hc : c = slash
    · rw [cutAt_cons_of_pos (by simpa using hc),hb] at h
      cases h
    · rw [cutAt_cons_of_neg (by simpa using hc) hb] at h
      cases h

/-- Only the empty path has no components. -/
theorem components_ne_nil (h : path ≠ .empty) : components path ≠ [] := by
  rw [components_eq,split]
  have hs : segments path ≠ [[]] := fun he => h (eq_empty_of_segments he)
  obtain ⟨segment,body,hp⟩ : ∃ segment body, segments path = segment :: body :=
    List.exists_cons_of_ne_nil (cutAt_ne_nil _ _)
  rw [hp] at hs ⊢
  cases hi : isIdle segment with
  | false =>
    rw [splitSegments_cons hi]
    simp [named,hi]
  | true =>
    rcases isIdle_iff.mp hi with rfl | rfl
    · cases body with
      | nil => exact absurd rfl hs
      | cons s body => simp [splitSegments]
    · simp [splitSegments]

/-- A path followed by names, one below the other. -/
def joined (root : OsText) (names : List OsText) : OsText := names.foldl join root

@[simp] theorem joined_nil (root : OsText) : joined root [] = root := rfl

@[simp] theorem joined_cons (root name : OsText) (names : List OsText) :
    joined root (name :: names) = joined (join root name) names := rfl

/-- A path without a slash at its end. -/
def stem (root : OsText) : List UInt8 :=
  if root.bytes.getLast? = some slash then root.bytes.dropLast else root.bytes

theorem bytes_join (hd : directory ≠ .empty) (hn : IsName name) :
    (join directory name).bytes = stem directory ++ slash :: name.bytes := by
  have he : directory.isEmpty = false := OsText.isEmpty_eq_false_iff.mpr hd
  unfold join stem
  rw [hn.not_isAbsolute,he]
  by_cases hl : directory.bytes.getLast? = some slash
  · obtain ⟨front,hf⟩ := List.getLast?_eq_some_iff.mp hl
    simp [hf]
  · simp [hl]

theorem join_ne_empty (hd : directory ≠ .empty) (hn : IsName name) : join directory name ≠ .empty := by
  intro h
  have ht := bytes_join hd hn
  rw [h] at ht
  exact absurd ht.symm (List.append_ne_nil_of_right_ne_nil _ (List.cons_ne_nil _ _))

theorem stem_join (hd : directory ≠ .empty) (hn : IsName name) :
    stem (join directory name) = (join directory name).bytes := by
  rw [stem,if_neg]
  rw [bytes_join hd hn]
  intro hl
  rw [List.getLast?_append_cons] at hl
  obtain ⟨front,hf⟩ := List.getLast?_eq_some_iff.mp hl
  cases front with
  | nil => exact hn.1 (List.cons.inj hf).2
  | cons c front =>
    exact hn.2.2.2 ((List.cons.inj hf).2 ▸ List.mem_append_right _ (List.mem_singleton_self _))

theorem bytes_joined (hr : root ≠ .empty) (hn : names ≠ []) (h : ∀ name ∈ names, IsName name) :
    (joined root names).bytes = stem root ++ slash :: joinSlash (names.map OsText.bytes) := by
  induction names generalizing root with
  | nil => exact absurd rfl hn
  | cons name names ih =>
    have hname := h name List.mem_cons_self
    cases names with
    | nil => exact bytes_join hr hname
    | cons next names =>
      rw [joined_cons,ih (join_ne_empty hr hname) (by simp)
        (fun n hm => h n (List.mem_cons_of_mem _ hm)),stem_join hr hname,bytes_join hr hname]
      simp [joinSlash]

theorem IsName.stem (h : IsName name) : stem name = name.bytes := by
  rw [Path.stem,if_neg]
  intro hl
  obtain ⟨front,hf⟩ := List.getLast?_eq_some_iff.mp hl
  exact h.2.2.2 (hf ▸ List.mem_append_right _ (List.mem_singleton_self _))

theorem bytes_joined_name (h : ∀ n ∈ name :: names, IsName n) :
    (joined name names).bytes = joinSlash ((name :: names).map OsText.bytes) := by
  have hname := h name List.mem_cons_self
  cases names with
  | nil => rfl
  | cons next names =>
    rw [bytes_joined hname.ne_empty (List.cons_ne_nil _ _) fun n hn => h n (List.mem_cons_of_mem _ hn),
      hname.stem]
    rfl

theorem segments_joined_name (h : ∀ n ∈ name :: names, IsName n) :
    segments (joined name names) = (name :: names).map OsText.bytes := by
  rw [segments,bytes_joined_name h,cutAt_joinSlash (by simp)]
  intro segment hs
  obtain ⟨n,hn,rfl⟩ := List.mem_map.mp hs
  exact (h n hn).2.2.2

theorem segments_joined (hr : root ≠ .empty) (hn : names ≠ []) (h : ∀ name ∈ names, IsName name) :
    segments (joined root names) = cutAt (· = slash) (stem root) ++ names.map OsText.bytes := by
  rw [segments,bytes_joined hr hn h,cutAt_append_cons (by simp),cutAt_joinSlash (by simpa)]
  simpa using fun name hm => (h name hm).2.2.2

/-- The segments of a path are those without the slash at its end, and an empty one for the slash. -/
theorem segments_stem (root : OsText) :
    segments root = cutAt (· = slash) (stem root) ∨
      segments root = cutAt (· = slash) (stem root) ++ [[]] := by
  unfold segments stem
  split
  · rename_i hl
    obtain ⟨front,hf⟩ := List.getLast?_eq_some_iff.mp hl
    right
    rw [hf,List.dropLast_concat,cutAt_append_cons (by simp)]
    rfl
  · exact .inl rfl

/-- A path below a directory has its head, and a body that names what the directory names and what
follows it. -/
theorem exists_split_joined (hr : root ≠ .empty) (hn : names ≠ []) (h : ∀ name ∈ names, IsName name) :
    ∃ body, split (joined root names) = ((split root).1,body ++ names.map OsText.bytes) ∧
      named body = named (split root).2 := by
  rw [split,split,segments_joined hr hn h]
  generalize hf : cutAt (· = slash) (stem root) = front
  have hne : front ≠ [] := hf ▸ cutAt_ne_nil _ _
  have hs := hf ▸ segments_stem root
  by_cases hroot : front = [[]]
  · subst hroot
    have hs : segments root = [[],[]] :=
      hs.resolve_left fun he => hr (eq_empty_of_segments he)
    obtain ⟨name,rest,rfl⟩ := List.exists_cons_of_ne_nil hn
    exact ⟨[],by rw [hs]; rfl,by rw [hs]; rfl⟩
  · refine ⟨(splitSegments front).2,?_,?_⟩
    · rw [splitSegments_append hne hroot]
      rcases hs with hs | hs
      · rw [hs]
      · rw [hs,splitSegments_append hne hroot]
    · rcases hs with hs | hs
      · rw [hs]
      · have hidle : named [[]] = [] := named_of_idle (by simp [isIdle])
        rw [hs,splitSegments_append hne hroot,named_append,hidle,List.append_nil]

/-- The components of a path below a directory are those of the directory and the names. -/
theorem components_joined (hr : root ≠ .empty) (h : ∀ name ∈ names, IsName name) :
    components (joined root names) = components root ++ names.map .name := by
  by_cases hn : names = []
  · simp [hn]
  · obtain ⟨body,hs,hb⟩ := exists_split_joined hr hn h
    rw [components_eq,components_eq,hs,named_append,hb,named_names h,List.append_assoc]

/-- Behind the components that are dropped, nothing but idle segments is left of what names them. -/
theorem exists_dropComponents (front back : List (List UInt8)) :
    ∃ idle, (∀ s ∈ idle, isIdle s = true) ∧
      dropComponents (named front).length (front ++ back) = idle ++ back := by
  induction front with
  | nil => exact ⟨[],by simp,by simp [dropComponents]⟩
  | cons segment front ih =>
    obtain ⟨idle,hi,he⟩ := ih
    cases hs : isIdle segment with
    | true =>
      have hnamed : named (segment :: front) = named front := by simp [named,hs]
      rw [hnamed]
      cases hl : (named front).length with
      | zero =>
        have hall : ∀ s ∈ segment :: front, isIdle s = true := by
          have hnil := List.length_eq_zero_iff.mp (hnamed ▸ hl)
          simpa [named,List.filter_eq_nil_iff] using hnil
        exact ⟨segment :: front,hall,rfl⟩
      | succ n =>
        rw [hl] at he
        exact ⟨idle,hi,by rw [List.cons_append,dropComponents,if_pos hs,he]⟩
    | false =>
      have hnamed : (named (segment :: front)).length = (named front).length + 1 := by
        simp [named,hs]
      rw [hnamed]
      exact ⟨idle,hi,by rw [List.cons_append,dropComponents,if_neg (by simp [hs]),he]⟩

theorem trimIdle_append {idle : List (List UInt8)} (hi : ∀ s ∈ idle, isIdle s = true)
    (hn : names ≠ []) (h : ∀ name ∈ names, IsName name) :
    trimIdle (idle ++ names.map OsText.bytes) = names.map OsText.bytes := by
  have hfront : (idle ++ names.map OsText.bytes).dropWhile isIdle = names.map OsText.bytes := by
    rw [List.dropWhile_append_of_pos hi]
    obtain ⟨name,rest,rfl⟩ := List.exists_cons_of_ne_nil hn
    simp [(h name List.mem_cons_self).not_isIdle]
  rw [trimIdle,hfront,dropTail]
  obtain ⟨front,last,rfl⟩ : ∃ front last, names = front ++ [last] :=
    ⟨_,_,(List.dropLast_append_getLast hn).symm⟩
  have hl : isIdle last.bytes = false := (h last (by simp)).not_isIdle
  simp [hl]

/-- What is left of a path below a directory is the names with slashes between them. -/
theorem below?_joined (hr : root ≠ .empty) (hn : names ≠ []) (h : ∀ name ∈ names, IsName name) :
    below? (joined root names) root =
      some ⟨joinSlash (names.map OsText.bytes)⟩ := by
  obtain ⟨body,hs,hb⟩ := exists_split_joined hr hn h
  have hp : (components root).isPrefixOf (components (joined root names)) = true := by
    rw [components_joined hr h]
    simp
  obtain ⟨idle,hi,he⟩ := exists_dropComponents body (names.map OsText.bytes)
  have ht := trimIdle_append hi hn h
  have hne := components_ne_nil hr
  rw [below?,if_pos hp,rest,hs]
  rw [components_eq,← hb] at hne ⊢
  congr 1
  generalize (split root).1 = head at hne ⊢
  cases head with
  | none =>
    cases hk : (named body).length with
    | zero => exact absurd (List.length_eq_zero_iff.mp hk) hne
    | succ k =>
      rw [hk] at he
      simp [hk,he,ht]
  | some head =>
    simp [he,ht]

theorem names_inj {names' : List OsText} (hr : root ≠ .empty) (h : ∀ name ∈ names, IsName name)
    (h' : ∀ name ∈ names', IsName name)
    (he : components (joined root names) = components (joined root names')) : names = names' := by
  rw [components_joined hr h,components_joined hr h',List.append_cancel_left_eq] at he
  exact List.map_injective_iff.mpr (fun _ _ => Component.name.inj) he

namespace Component

variable {a b c : Component}

theorem before_irrefl (a : Component) : a.before a = false := by
  cases a <;> simp [before]

theorem before_name {s t : OsText} :
    (Component.name s).before (.name t) = true ↔ s.bytes < t.bytes :=
  decide_eq_true_iff

theorem before_trans (h : a.before b = true) (h' : b.before c = true) : a.before c = true := by
  cases a <;> cases b <;> cases c
  case name.name.name =>
    exact before_name.mpr (List.lt_trans (before_name.mp h) (before_name.mp h'))
  all_goals simp_all [before,rank]

theorem before_total (h : a ≠ b) : a.before b = true ∨ b.before a = true := by
  cases a <;> cases b
  case name.name s t =>
    rw [before_name,before_name]
    by_contra hn
    rw [not_or,List.not_lt,List.not_lt] at hn
    exact h (congrArg Component.name (OsText.ext (List.le_antisymm hn.2 hn.1)))
  all_goals simp_all [before,rank]

end Component

theorem componentsLe_total (as bs : List Component) :
    componentsLe as bs = true ∨ componentsLe bs as = true := by
  induction as generalizing bs with
  | nil => exact .inl rfl
  | cons a as ih =>
    cases bs with
    | nil => exact .inr rfl
    | cons b bs =>
      by_cases hab : a = b
      · subst hab
        simpa [componentsLe] using ih bs
      · simpa [componentsLe,hab,Ne.symm hab] using Component.before_total hab

theorem componentsLe_trans {as bs cs : List Component} (h : componentsLe as bs = true)
    (h' : componentsLe bs cs = true) : componentsLe as cs = true := by
  induction as generalizing bs cs with
  | nil => rfl
  | cons a as ih =>
    cases bs with
    | nil => cases h
    | cons b bs =>
      cases cs with
      | nil => cases h'
      | cons c cs =>
        by_cases hab : a = b
        · subst hab
          by_cases hac : a = c
          · subst hac
            simp only [componentsLe,if_true] at h h' ⊢
            exact ih h h'
          · simpa [componentsLe,hac] using h'
        · by_cases hbc : b = c
          · subst hbc
            simpa [componentsLe,hab] using h
          · simp only [componentsLe,hab,hbc,if_false] at h h'
            have hac : a ≠ c := by
              rintro rfl
              have hirr := Component.before_trans h h'
              rw [Component.before_irrefl] at hirr
              cases hirr
            simpa [componentsLe,hac] using Component.before_trans h h'

theorem le_total (a b : OsText) : (le a b || le b a) = true :=
  Bool.or_eq_true_iff.mpr (componentsLe_total (components a) (components b))

theorem le_trans {a b c : OsText} (h : le a b = true) (h' : le b c = true) : le a c = true :=
  componentsLe_trans h h'

theorem pairwise_mergeSort (paths : List OsText) :
    (paths.mergeSort le).Pairwise fun a b => le a b = true :=
  @List.pairwise_mergeSort OsText le (fun _ _ _ h h' => le_trans h h') le_total paths

end Path
end CoverageCounters
