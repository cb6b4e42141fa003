import CoverageCounters.Proofs.MapHistory

/-!
The fingerprint of a frozen map. Freezing fixes it together with all records; only the source map can
still be set, and the fingerprint does not follow it. So a frozen map has the fingerprint of its content
with the source map it was frozen with.
-/

namespace CoverageCounters

namespace CoverageMap

variable {m m' : CoverageMap} {c : Call} {answer : Except InstrumentError (Option Nat)}

/-- The content of a map as it would be with another source map. -/
def contentWith (m : CoverageMap) (map : Option Json) : FileCoverage :=
  { m.data with inputSourceMap := map }

@[simp] theorem contentWith_self (m : CoverageMap) : m.contentWith m.data.inputSourceMap = m.data := rfl

/-- A call changes nothing in a closed map but its source map. -/
theorem Effect.contentWith_eq (he : Effect m c answer m') (h : m.frozen = true) (map : Option Json) :
    m'.contentWith map = m.contentWith map := by
  cases he with
  | closed | sourceMap | unknown => rfl
  | freeze => rw [freeze_eq,if_pos h]
  | statement hf | function hf | branch hf | path hf => rw [hf] at h; cases h

theorem contentWith_after (h : m.frozen = true) (calls : List Call) (map : Option Json) :
    (m.after calls).contentWith map = m.contentWith map := by
  induction calls generalizing m with
  | nil => rfl
  | cons c calls ih =>
    have he := effect_perform m c
    exact (ih (he.frozen_iff.mpr (Or.inl h))).trans (he.contentWith_eq h map)

/-- Only a call for it sets the source map. -/
theorem Effect.inputSourceMap_eq (he : Effect m c answer m') (hc : ∀ map, .sourceMap map ≠ c) :
    m'.data.inputSourceMap = m.data.inputSourceMap := by
  cases he with
  | sourceMap map => exact absurd rfl (hc map)
  | freeze =>
    rw [freeze_eq]
    dsimp only
    split <;> rfl
  | _ => rfl

theorem inputSourceMap_after {calls : List Call} (h : ∀ map, .sourceMap map ∉ calls) :
    (m.after calls).data.inputSourceMap = m.data.inputSourceMap := by
  induction calls generalizing m with
  | nil => rfl
  | cons c calls ih =>
    have hc := (effect_perform m c).inputSourceMap_eq fun map he => h map (he ▸ List.mem_cons_self)
    exact (ih fun map hm => h map (List.mem_cons_of_mem _ hm)).trans hc

/-- A map that is open is frozen with the fingerprint of what it holds. -/
theorem freeze_of_not_frozen (h : m.frozen = false) :
    m.freeze.2 = ⟨{ m.data with hash := some m.data.fingerprint },true⟩ := by
  rw [freeze_eq,if_neg (Bool.eq_false_iff.mp h)]

/-- After freezing, the fingerprint is that of the content with the source map there was. -/
theorem hash?_freeze_after (h : m.frozen = false) (later : List Call) :
    (m.freeze.2.after later).hash? =
      some ((m.freeze.2.after later).contentWith m.data.inputSourceMap).fingerprint := by
  have hf : m.freeze.2.frozen = true := frozen_freeze m
  rw [hash?_after hf,contentWith_after hf,freeze_of_not_frozen h]
  rfl

/-- Whatever calls a new map has seen, once it is frozen it has the fingerprint of its content with the
source map it had when it was frozen first, and its own if no source map was set after that. -/
theorem hash_of_frozen (path : String) (calls : List Call)
    (h : ((new path).after calls).frozen = true) :
    ∃ earlier later, calls = earlier ++ .freeze :: later ∧ .freeze ∉ earlier ∧
      ((new path).after calls).hash? = some (((new path).after calls).contentWith
        ((new path).after earlier).data.inputSourceMap).fingerprint ∧
      ((∀ map, .sourceMap map ∉ later) →
        ((new path).after calls).hash? = some ((new path).after calls).data.fingerprint) := by
  have hm : .freeze ∈ calls := by simpa [frozen_after_iff,new] using h
  obtain ⟨earlier,later,rfl,hn⟩ := List.eq_append_cons_of_mem hm
  have ho : ((new path).after earlier).frozen = false := by
    rw [Bool.eq_false_iff,ne_eq,frozen_after_iff]
    exact fun hf => hn (hf.resolve_left Bool.false_ne_true)
  have hh := hash?_freeze_after ho later
  have ha : (new path).after (earlier ++ .freeze :: later) =
      ((new path).after earlier).freeze.2.after later := by
    rw [after_append,after_cons]
    rfl
  rw [← ha] at hh
  refine ⟨earlier,later,rfl,hn,hh,fun hl => ?_⟩
  have hs : ((new path).after (earlier ++ .freeze :: later)).data.inputSourceMap =
      ((new path).after earlier).data.inputSourceMap := by
    rw [ha,inputSourceMap_after hl,freeze_of_not_frozen ho]
  rwa [← hs,contentWith_self] at hh

section Sample

/-- A map that is frozen, and frozen again after its source map was set. -/
def lateCalls : List Call := [.freeze,.sourceMap (.object [("version",.nat 3)]),.freeze]

end Sample

theorem hash_of_frozen_late :
    ((new "a.js").after lateCalls).frozen = true ∧
    ((new "a.js").after lateCalls).hash? =
      some (((new "a.js").after lateCalls).contentWith none).fingerprint := by
  have hf : ((new "a.js").after lateCalls).frozen = true := rfl
  obtain ⟨earlier,later,hc,hn,hh,-⟩ := hash_of_frozen "a.js" lateCalls hf
  cases earlier with
  | nil => exact ⟨hf,hh⟩
  | cons c earlier =>
    obtain ⟨rfl,-⟩ := List.cons.inj hc
    exact absurd List.mem_cons_self hn

/-- The fingerprint does not follow a source map that is set late. -/
theorem late_source_map_unhashed :
    ((new "a.js").after lateCalls).frozen = true ∧
    ((new "a.js").after lateCalls).hash? ≠ some ((new "a.js").after lateCalls).data.fingerprint := by
  decide +kernel

end CoverageMap
end CoverageCounters
