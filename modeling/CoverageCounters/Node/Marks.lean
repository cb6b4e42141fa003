import CoverageCounters.Node.Kind

/-!
Marks that a construct leaves on constructs inside it, kept by key until the marked construct is
left. A synthetic construct takes no mark.
-/

namespace CoverageCounters

/-- What is noted about a construct: leave it out with all it holds, or the branch it counts
under. -/
structure Mark where
  skipAll : Bool := false
  branch : Option Nat := none
  deriving DecidableEq, Repr

/-- Marks by key, at most one a key. -/
structure Marks where
  entries : List (Key × Mark)
  deriving DecidableEq, Repr

namespace Marks

def empty : Marks := ⟨[]⟩

def get? (m : Marks) (k : Key) : Option Mark := (m.entries.find? (·.1 = k)).map (·.2)

def clear (m : Marks) (k : Key) : Marks := ⟨m.entries.filter (·.1 ≠ k)⟩

/-- Change what is noted about a construct, starting from nothing; a synthetic one is left alone. -/
def update (m : Marks) (k : Key) (f : Mark → Mark) : Marks :=
  if k.isSynthetic then m
  else ⟨(k,f ((m.get? k).getD {})) :: (m.clear k).entries⟩

def markSkip (m : Marks) (k : Key) : Marks := m.update k fun mark => { mark with skipAll := true }

def setBranch (m : Marks) (k : Key) (branch : Nat) : Marks :=
  m.update k fun mark => { mark with branch := some branch }

def skips (m : Marks) (k : Key) : Bool :=
  match m.get? k with
  | some mark => mark.skipAll
  | none => false

def branch? (m : Marks) (k : Key) : Option Nat := (m.get? k).bind (·.branch)

def isEmpty (m : Marks) : Bool := m.entries.isEmpty

@[simp] theorem get?_empty (k : Key) : empty.get? k = none := rfl

@[simp] theorem get?_clear_self (m : Marks) (k : Key) : (m.clear k).get? k = none := by
  simp [get?,clear,List.find?_eq_none]

theorem get?_clear_of_ne (m : Marks) {k k' : Key} (h : k' ≠ k) :
    (m.clear k).get? k' = m.get? k' := by
  rw [get?,get?,clear,List.find?_filter]
  congr 2
  funext e
  by_cases he : e.1 = k'
  · simp [he,h]
  · simp [he]

theorem get?_update_of_ne (m : Marks) {k k' : Key} (f : Mark → Mark) (h : k' ≠ k) :
    (m.update k f).get? k' = m.get? k' := by
  unfold update
  split
  · rfl
  · rw [← get?_clear_of_ne m h]
    simp [get?,h.symm]

theorem update_of_isSynthetic (m : Marks) {k : Key} (f : Mark → Mark) (h : k.isSynthetic = true) :
    m.update k f = m :=
  if_pos h

theorem get?_update_self (m : Marks) (k : Key) (f : Mark → Mark) (h : k.isSynthetic = false) :
    (m.update k f).get? k = some (f ((m.get? k).getD {})) := by
  simp [update,h,get?]

theorem get?_update_of_isSynthetic {m : Marks} {k k' : Key} {f : Mark → Mark}
    (hk : k.isSynthetic = true) (hm : m.get? k = none) : (m.update k' f).get? k = none := by
  by_cases he : k = k'
  · subst he
    rw [update_of_isSynthetic m f hk,hm]
  · rw [get?_update_of_ne m f he,hm]

theorem branch?_markSkip (m : Marks) (k k' : Key) : (m.markSkip k).branch? k' = m.branch? k' := by
  by_cases hs : k.isSynthetic = true
  · rw [markSkip,update_of_isSynthetic m _ hs]
  · rw [Bool.not_eq_true] at hs
    by_cases hk : k' = k
    · subst hk
      rw [branch?,markSkip,get?_update_self m k' _ hs,branch?]
      cases m.get? k' <;> rfl
    · rw [branch?,markSkip,get?_update_of_ne m _ hk,branch?]

theorem branch?_setBranch (m : Marks) (k : Key) (b : Nat) (hs : k.isSynthetic = false) :
    (m.setBranch k b).branch? k = some b := by
  rw [branch?,setBranch,get?_update_self m k _ hs]
  rfl

theorem branch?_eq_some_of_setBranch {m : Marks} {k k' : Key} {b b' : Nat}
    (h : (m.setBranch k b).branch? k' = some b') : b' = b ∨ m.branch? k' = some b' := by
  by_cases hs : k.isSynthetic = true
  · rw [setBranch,update_of_isSynthetic m _ hs] at h
    exact Or.inr h
  · rw [Bool.not_eq_true] at hs
    by_cases hk : k' = k
    · subst hk
      rw [branch?_setBranch m k' b hs] at h
      exact Or.inl (Option.some.inj h).symm
    · rw [branch?,setBranch,get?_update_of_ne m _ hk] at h
      exact Or.inr h

theorem branch?_eq_some_of_clear {m : Marks} {k k' : Key} {b : Nat}
    (h : (m.clear k).branch? k' = some b) : m.branch? k' = some b := by
  by_cases hk : k' = k
  · subst hk
    rw [branch?,get?_clear_self] at h
    cases h
  · rw [branch?,get?_clear_of_ne m hk] at h
    exact h

theorem skips_markSkip (m : Marks) {k : Key} (k' : Key) (hk : k.isSynthetic = false) :
    (m.markSkip k').skips k = (m.skips k || decide (k = k')) := by
  by_cases h : k = k'
  · subst h
    rw [skips,markSkip,get?_update_self m k _ hk]
    simp
  · rw [skips,markSkip,get?_update_of_ne m _ h,skips]
    simp [h]

theorem skips_setBranch (m : Marks) (k k' : Key) (b : Nat) : (m.setBranch k' b).skips k = m.skips k := by
  by_cases hs : k'.isSynthetic = true
  · rw [setBranch,update_of_isSynthetic m _ hs]
  · rw [Bool.not_eq_true] at hs
    by_cases h : k = k'
    · subst h
      rw [skips,setBranch,get?_update_self m k _ hs,skips]
      cases m.get? k <;> rfl
    · rw [skips,setBranch,get?_update_of_ne m _ h,skips]

end Marks
end CoverageCounters
