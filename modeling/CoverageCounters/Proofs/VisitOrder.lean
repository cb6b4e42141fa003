import CoverageCounters.Proofs.Visits

/-!
The order in which constructs are entered. The error and the records go from each visit to the next one
entered, and once there is an error they stay as they are: so an error at the end came from one visit,
and no visit entered after that one has done anything.
-/

namespace CoverageCounters

mutual

/-- A visit and those inside it, in the order they are entered. -/
def Visit.order : Visit → List Visit
  | v@⟨_,_,_,_,_,_,inside⟩ => v :: visitOrder inside

def visitOrder : List Visit → List Visit
  | [] => []
  | v :: rest => v.order ++ visitOrder rest

end

theorem visitOrder_cons (v : Visit) (rest : List Visit) :
    visitOrder (v :: rest) = v :: (visitOrder v.inside ++ visitOrder rest) := by
  obtain ⟨key,name,before,after,found,left,inside⟩ := v
  rw [visitOrder,Visit.order]
  rfl

theorem mem_visitOrder_of_mem {visits : List Visit} {v : Visit} (h : v ∈ visits) :
    v ∈ visitOrder visits := by
  induction visits with
  | nil => cases h
  | cons u rest ih =>
    rw [visitOrder_cons]
    rcases List.mem_cons.mp h with rfl | h
    · exact List.mem_cons_self
    · exact List.mem_cons_of_mem _ (List.mem_append_right _ (ih h))

/-- What is entered inside a visit is entered after it. -/
theorem visitOrder_inside_subset {visits : List Visit} {v : Visit} (h : v ∈ visitOrder visits) :
    visitOrder v.inside ⊆ visitOrder visits := by
  match visits with
  | [] => cases h
  | u :: rest =>
    rw [visitOrder_cons,List.mem_cons,List.mem_append] at h
    rw [visitOrder_cons]
    intro w hw
    refine List.mem_cons_of_mem _ (List.mem_append.mpr ?_)
    rcases h with rfl | h | h
    · exact .inl hw
    · exact .inl (visitOrder_inside_subset h hw)
    · exact .inr (visitOrder_inside_subset h hw)
termination_by sizeOf visits
decreasing_by
  · obtain ⟨key,name,before,after,found,left,inside⟩ := u
    simp only [List.cons.sizeOf_spec,Visit.mk.sizeOf_spec]
    omega
  · simp only [List.cons.sizeOf_spec]
    omega

/-- The part of a state that an error holds on to. -/
structure Standing where
  failure : Option InstrumentError
  coverage : CoverageMap

def Traversal.standing (t : Traversal) : Standing := ⟨t.failure,t.coverage⟩

namespace Visit

/-- A visit that leaves the standing and the queues as they were and the construct as it was found. -/
structure Idle (standing : Standing) (v : Visit) : Prop where
  before : v.before.standing = standing
  after : v.after.standing = standing
  frames : v.after.frames = v.before.frames
  left : v.left = v.found

end Visit

/-- Visits that take the standing over from one another in the order they are entered. With an error in
hand a construct is not acted on. -/
inductive Threads : Standing → List Visit → Standing → Prop where
  | nil (p : Standing) : Threads p [] p
  | cons {p acted q : Standing} {v : Visit} {rest : List Visit} (before : v.before.standing = p)
      (stuck : p.failure.isSome = true →
        acted = p ∧ v.after.frames = v.before.frames ∧ v.left = v.found)
      (inside : Threads acted v.inside v.after.standing)
      (following : Threads v.after.standing rest q) : Threads p (v :: rest) q

namespace Threads

variable {p q r : Standing} {visits visits' : List Visit}

theorem append (h : Threads p visits q) (h' : Threads q visits' r) :
    Threads p (visits ++ visits') r := by
  induction visits generalizing p with
  | nil => cases h; exact h'
  | cons v rest ih =>
    cases h with
    | cons before stuck inside following => exact .cons before stuck inside (ih following)

/-- After an error nothing is done any more. -/
theorem idle (h : Threads p visits q) (hp : p.failure.isSome = true) :
    q = p ∧ ∀ v ∈ visitOrder visits, v.Idle p := by
  induction h with
  | nil p => exact ⟨rfl,nofun⟩
  | @cons p acted q v rest before stuck _ _ ihi ihr =>
    obtain ⟨rfl,hframes,hleft⟩ := stuck hp
    obtain ⟨hafter,hin⟩ := ihi hp
    rw [hafter] at ihr
    obtain ⟨rfl,hrest⟩ := ihr hp
    refine ⟨rfl,fun w hw => ?_⟩
    rw [visitOrder_cons,List.mem_cons,List.mem_append] at hw
    rcases hw with rfl | hw | hw
    · exact ⟨before,hafter,hframes,hleft⟩
    · exact hin w hw
    · exact hrest w hw

/-- Where there is no error at the end there was none at any visit. -/
theorem calm (h : Threads p visits q) (hq : q.failure = none) :
    p.failure = none ∧ ∀ v ∈ visitOrder visits, v.before.failure = none := by
  induction h with
  | nil p => exact ⟨hq,nofun⟩
  | @cons p acted q v rest before stuck inside following ihi ihr =>
    have hp : p.failure = none := by
      rw [← Option.not_isSome_iff_eq_none]
      intro hs
      rw [((Threads.cons before stuck inside following).idle hs).1] at hq
      rw [hq] at hs
      cases hs
    obtain ⟨hafter,hrest⟩ := ihr hq
    refine ⟨hp,fun w hw => ?_⟩
    rw [visitOrder_cons,List.mem_cons,List.mem_append] at hw
    rcases hw with rfl | hw | hw
    · exact (congrArg Standing.failure before).trans hp
    · exact (ihi hafter).2 w hw
    · exact hrest w hw

/-- An error at the end comes from one visit: there was none before it, and nothing is done after. -/
theorem first_failure (h : Threads p visits q) (hp : p.failure = none) (hq : q.failure.isSome = true) :
    ∃ earlier v later, visitOrder visits = earlier ++ v :: later ∧
      (∀ w ∈ earlier ++ [v], w.before.failure = none) ∧ ∀ w ∈ later, w.Idle q := by
  induction h with
  | nil p => rw [hp] at hq; cases hq
  | @cons p acted q v rest before _ inside following ihi ihr =>
    have hv : v.before.failure = none := (congrArg Standing.failure before).trans hp
    rw [visitOrder_cons]
    cases ha : acted.failure with
    | some e =>
      -- the construct itself fails, so what is inside it and what follows is idle
      obtain ⟨hafter,hin⟩ := inside.idle (by rw [ha]; rfl)
      rw [hafter] at following
      obtain ⟨rfl,hidle⟩ := following.idle (by rw [ha]; rfl)
      refine ⟨[],v,_,rfl,fun w hw => ?_,fun w hw => ?_⟩
      · exact List.mem_singleton.mp hw ▸ hv
      · exact (List.mem_append.mp hw).elim (hin w) (hidle w)
    | none =>
      cases hf : v.after.standing.failure with
      | some e =>
        obtain ⟨rfl,hidle⟩ := following.idle (by rw [hf]; rfl)
        obtain ⟨earlier,u,later,he,hnone,hlater⟩ := ihi ha hq
        refine ⟨v :: earlier,u,later ++ visitOrder rest,?_,fun w hw => ?_,fun w hw => ?_⟩
        · rw [he,List.append_assoc]
          rfl
        · rcases List.mem_cons.mp hw with rfl | hw
          · exact hv
          · exact hnone w hw
        · exact (List.mem_append.mp hw).elim (hlater w) (hidle w)
      | none =>
        obtain ⟨earlier,u,later,he,hnone,hlater⟩ := ihr hf hq
        have hin := (inside.calm hf).2
        refine ⟨v :: (visitOrder v.inside ++ earlier),u,later,?_,fun w hw => ?_,hlater⟩
        · rw [he,List.cons_append,List.append_assoc]
        · rw [List.cons_append,List.append_assoc,List.mem_cons,List.mem_append] at hw
          rcases hw with rfl | hw | hw
          · exact hv
          · exact hin w hw
          · exact hnone w hw

end Threads
end CoverageCounters
