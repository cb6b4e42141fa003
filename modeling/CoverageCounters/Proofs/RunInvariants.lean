import CoverageCounters.Proofs.WalkRun

/-!
What runs keep. Depth, suppression and the note about chains are put back, no list loses its frame,
marks change only under keys that are visited, and nothing is recorded while counting is off.
-/

namespace CoverageCounters

namespace Traversal

variable {ctx : Context} {visited marked : Key → Prop} {key k : Key} {t u : Traversal}

/-- Two states at one place of the tree. -/
structure SamePlace (t u : Traversal) : Prop where
  depth : u.depth = t.depth
  anchor : u.anchor = t.anchor
  inChain : u.inChain = t.inChain

/-- The node that switched counting off is entered and not left. -/
def AnchorBelow (t : Traversal) : Prop := ∀ a, t.anchor = some a → a.depth ≤ t.depth

/-- Nothing is recorded any more, because of an error or because counting is off. -/
def Quiet (t : Traversal) : Prop := t.failure.isSome = true ∨ t.isSuppressed = true

namespace Quiet

theorem counts_eq_false (hq : t.Quiet) (key : Key) : t.counts key = false := by
  rcases hq with hq | hq
  · rw [← Option.not_isNone,Bool.not_eq_true'] at hq
    rw [counts,hq,Bool.false_and,Bool.false_and]
  · rw [counts,hq,Bool.not_true,Bool.and_false,Bool.false_and]

theorem enter (hq : t.Quiet) (key : Key) (name : Option String) : (t.enter ctx key name).Quiet := by
  refine hq.imp id fun hs => ?_
  have hn : t.startsSuppression ctx key name = false := by
    rw [startsSuppression,hs]
    rfl
  rw [isSuppressed] at hs ⊢
  simp only [Traversal.enter,hn]
  exact hs

end Quiet

section Steps

theorem Acts.samePlace (h : Acts ctx key marked t u) : SamePlace t u := by
  induction h with
  | refl => exact ⟨rfl,rfl,rfl⟩
  | register _ _ ih => exact ⟨ih.depth,ih.anchor,ih.inChain⟩
  | skip _ _ ih => exact ⟨ih.depth,ih.anchor,ih.inChain⟩
  | branch _ _ ih => exact ⟨ih.depth,ih.anchor,ih.inChain⟩
  | queue _ _ ih => exact ⟨ih.depth,ih.anchor,ih.inChain⟩

theorem Acts.failure_eq (h : Acts ctx key marked t u) : u.failure = t.failure := by
  induction h with
  | refl => rfl
  | register _ _ ih => exact ih
  | skip _ _ ih => exact ih
  | branch _ _ ih => exact ih
  | queue _ _ ih => exact ih

theorem Acts.hoist_eq (h : Acts ctx key marked t u) : u.hoist = t.hoist := by
  induction h with
  | refl => rfl
  | register _ _ ih => exact ih
  | skip _ _ ih => exact ih
  | branch _ _ ih => exact ih
  | queue _ _ ih => exact ih

theorem Acts.length_frames (h : Acts ctx key marked t u) : u.frames.length = t.frames.length := by
  induction h with
  | refl => rfl
  | register _ _ ih => exact ih
  | skip _ _ ih => exact ih
  | branch _ _ ih => exact ih
  | queue _ hf ih =>
    rw [hf] at ih
    exact ih

theorem Acts.get?_marks (h : Acts ctx key marked t u) (hk : k ≠ key) (hm : ¬marked k) :
    u.marks.get? k = t.marks.get? k := by
  induction h with
  | refl => rfl
  | register _ _ ih => exact ih
  | skip _ hs ih =>
    have hne : k ≠ _ := fun h => hm (h ▸ hs)
    exact (Marks.get?_update_of_ne _ _ hne).trans ih
  | branch _ _ ih => exact (Marks.get?_update_of_ne _ _ hk).trans ih
  | queue _ _ ih => exact ih

theorem Acts.get?_marks_of_isSynthetic (h : Acts ctx key marked t u) (hk : k.isSynthetic = true)
    (ht : t.marks.get? k = none) : u.marks.get? k = none := by
  induction h with
  | refl => exact ht
  | register _ _ ih => exact ih
  | skip _ _ ih => exact Marks.get?_update_of_isSynthetic hk ih
  | branch _ _ ih => exact Marks.get?_update_of_isSynthetic hk ih
  | queue _ _ ih => exact ih

variable (h : Attempts ctx visited key t u)
include h

theorem Attempts.samePlace : SamePlace t u := by
  cases h with
  | idle => exact ⟨rfl,rfl,rfl⟩
  | done _ h => exact h.samePlace
  | failed _ h e => exact ⟨h.samePlace.depth,h.samePlace.anchor,h.samePlace.inChain⟩

theorem Attempts.hoist_eq : u.hoist = t.hoist := by
  cases h with
  | idle => rfl
  | done _ h => exact h.hoist_eq
  | failed _ h e => exact h.hoist_eq

theorem Attempts.length_frames : u.frames.length = t.frames.length := by
  cases h with
  | idle => rfl
  | done _ h => exact h.length_frames
  | failed _ h e => exact h.length_frames

theorem Attempts.get?_marks (hk : Within visited key) (hn : ¬Within visited k) :
    u.marks.get? k = t.marks.get? k := by
  have hne : k ≠ key := fun h => hn (h ▸ hk)
  cases h with
  | idle => rfl
  | done _ h => exact h.get?_marks hne hn
  | failed _ h e => exact h.get?_marks hne hn

theorem Attempts.get?_marks_of_isSynthetic (hk : k.isSynthetic = true)
    (ht : t.marks.get? k = none) : u.marks.get? k = none := by
  cases h with
  | idle => exact ht
  | done _ h => exact h.get?_marks_of_isSynthetic hk ht
  | failed _ h e => exact h.get?_marks_of_isSynthetic hk ht

theorem Attempts.eq_of_quiet (hq : t.Quiet) : u = t := by
  have hc := hq.counts_eq_false key
  cases h with
  | idle => rfl
  | done hn _ => rw [hc] at hn; cases hn
  | failed hn _ e => rw [hc] at hn; cases hn

end Steps

theorem SamePlace.anchorBelow (h : SamePlace t u) (ht : t.AnchorBelow) : u.AnchorBelow := by
  intro a ha
  rw [h.depth]
  exact ht a (h.anchor ▸ ha)

theorem AnchorBelow.enter (ht : t.AnchorBelow) (key : Key) (name : Option String) :
    (t.enter ctx key name).AnchorBelow := by
  intro a ha
  simp only [Traversal.enter] at ha ⊢
  split at ha
  · cases ha
    exact Nat.le_refl _
  · exact Nat.le_succ_of_le (ht a ha)

/-- A node that is left puts the suppression back to what it was before it was entered. -/
theorem anchor_leave {name : Option String} (ht : t.AnchorBelow)
    (hu : u.anchor = (t.enter ctx key name).anchor) :
    (u.leave key (t.depth + 1)).anchor = t.anchor := by
  simp only [leave,hu,enter]
  by_cases hs : t.startsSuppression ctx key name = true
  · have hn : t.anchor = none := by
      simp only [startsSuppression,isSuppressed,Bool.and_eq_true,Bool.not_eq_true',
        Option.isSome_eq_false_iff,Option.isNone_iff_eq_none] at hs
      exact hs.1
    rw [if_pos hs,if_pos rfl,hn]
  · rw [if_neg hs]
    split
    · rename_i ha
      have hd := ht _ ha
      exact absurd hd (Nat.not_succ_le_self _)
    · rfl

namespace Run

theorem samePlace (h : Run ctx visited t u) (ht : t.AnchorBelow) : SamePlace t u := by
  induction h with
  | refl t => exact ⟨rfl,rfl,rfl⟩
  | trans _ _ ih₁ ih₂ =>
    have h₁ := ih₁ ht
    have h₂ := ih₂ (h₁.anchorBelow ht)
    exact ⟨h₂.depth.trans h₁.depth,h₂.anchor.trans h₁.anchor,h₂.inChain.trans h₁.inChain⟩
  | @visit t u v key name hk hu _ ih =>
    have h₁ := hu.samePlace
    have h₂ := ih (h₁.anchorBelow (ht.enter key name))
    refine ⟨?_,anchor_leave ht (h₂.anchor.trans h₁.anchor),h₂.inChain.trans h₁.inChain⟩
    change v.depth - 1 = t.depth
    rw [h₂.depth,h₁.depth]
    rfl
  | item _ ih => exact ⟨(ih ht).depth,(ih ht).anchor,(ih ht).inChain⟩
  | hoist t => exact ⟨rfl,rfl,rfl⟩
  | chain _ ih => exact ⟨(ih ht).depth,(ih ht).anchor,rfl⟩

/-- The note of a chain is put back, wherever the walk starts. -/
theorem inChain_eq (h : Run ctx visited t u) : u.inChain = t.inChain := by
  induction h with
  | refl t => rfl
  | trans _ _ ih₁ ih₂ => exact ih₂.trans ih₁
  | visit _ hu _ ih => exact ih.trans hu.samePlace.inChain
  | item _ ih => exact ih
  | hoist t => rfl
  | chain _ _ => rfl

theorem length_frames (h : Run ctx visited t u) : u.frames.length = t.frames.length := by
  induction h with
  | refl t => rfl
  | trans _ _ ih₁ ih₂ => exact ih₂.trans ih₁
  | visit _ hu _ ih => exact ih.trans hu.length_frames
  | item _ ih =>
    change (List.tail _).length = _
    rw [List.length_tail,ih]
    rfl
  | hoist t => rfl
  | chain _ ih => exact ih

/-- Marks change only under keys that are visited. -/
theorem get?_marks (h : Run ctx visited t u) (hk : ¬Within visited k) :
    u.marks.get? k = t.marks.get? k := by
  induction h with
  | refl t => rfl
  | trans _ _ ih₁ ih₂ => exact ih₂.trans ih₁
  | visit hv hu _ ih =>
    have hne : k ≠ _ := fun h => hk (h ▸ hv)
    exact (Marks.get?_clear_of_ne _ hne).trans (ih.trans (hu.get?_marks hv hk))
  | item _ ih => exact ih
  | hoist t => rfl
  | chain _ ih => exact ih

theorem get?_marks_of_isSynthetic (h : Run ctx visited t u) (hk : k.isSynthetic = true)
    (ht : t.marks.get? k = none) : u.marks.get? k = none := by
  induction h with
  | refl t => exact ht
  | trans _ _ ih₁ ih₂ => exact ih₂ (ih₁ ht)
  | @visit t u v key name _ hu _ ih =>
    have hv := ih (hu.get?_marks_of_isSynthetic hk ht)
    by_cases he : k = key
    · subst he
      exact Marks.get?_clear_self _ _
    · exact (Marks.get?_clear_of_ne _ he).trans hv
  | item _ ih => exact ih ht
  | hoist t => exact ht
  | chain _ ih => exact ih ht

/-- While nothing is recorded the records, the queues and the error stay. -/
theorem eq_of_quiet (h : Run ctx visited t u) (ht : t.AnchorBelow) (hq : t.Quiet) :
    u.coverage = t.coverage ∧ u.failure = t.failure ∧ u.frames = t.frames := by
  induction h with
  | refl t => exact ⟨rfl,rfl,rfl⟩
  | @trans t u v h₁ _ ih₁ ih₂ =>
    have hp := h₁.samePlace ht
    obtain ⟨hc,hf,hr⟩ := ih₁ ht hq
    have hu : u.Quiet := by rwa [Quiet,isSuppressed,hf,hp.anchor]
    obtain ⟨hc',hf',hr'⟩ := ih₂ (hp.anchorBelow ht) hu
    exact ⟨hc'.trans hc,hf'.trans hf,hr'.trans hr⟩
  | @visit t u v key name _ hu _ ih =>
    have he : (t.enter ctx key name).Quiet := hq.enter key name
    have heq := hu.eq_of_quiet he
    subst heq
    exact ih (ht.enter key name) he
  | @item t u declares _ ih =>
    obtain ⟨hc,hf,hr⟩ := ih ht hq
    exact ⟨hc,hf,congrArg List.tail hr⟩
  | hoist t => exact ⟨rfl,rfl,rfl⟩
  | chain _ ih => exact ih ht hq

theorem quiet (h : Run ctx visited t u) (ht : t.AnchorBelow) (hq : t.Quiet) : u.Quiet := by
  rwa [Quiet,isSuppressed,(h.eq_of_quiet ht hq).2.1,(h.samePlace ht).anchor]

theorem failure_eq_none (h : Run ctx visited t u) (ht : t.AnchorBelow) (hu : u.failure = none) :
    t.failure = none := by
  cases hf : t.failure with
  | none => rfl
  | some e =>
    have hq : t.Quiet := Or.inl (by rw [hf]; rfl)
    have he := (h.eq_of_quiet ht hq).2.1
    rw [hu,hf] at he
    cases he

end Run
end Traversal
end CoverageCounters
