import CoverageCounters.Json.Basic

/-!
Objects in canonical form. Sorting the entries of an object by key keeps the value under every key, and
keeps all entries if no key is repeated; so a canonical value can be read by key without regard to the
order its entries came in.
-/

namespace CoverageCounters.Json

variable {key k : String} {v : Json} {entries sorted : List (String × Json)}

/-- The keys increase, so that none is repeated. -/
def Ordered (entries : List (String × Json)) : Prop := (entries.map Prod.fst).Pairwise (· < ·)

theorem ordered_nil : Ordered [] := List.Pairwise.nil

theorem ordered_cons {e : String × Json} :
    Ordered (e :: entries) ↔ (∀ k ∈ entries.map Prod.fst, e.1 < k) ∧ Ordered entries := by
  rw [Ordered,List.map_cons,List.pairwise_cons]
  rfl

theorem lookup_cons (e : String × Json) (entries : List (String × Json)) :
    lookup key (e :: entries) = (lookup key entries).or (if e.1 = key then some e.2 else none) := rfl

theorem lookup_eq_none (h : key ∉ entries.map Prod.fst) : lookup key entries = none := by
  induction entries with
  | nil => rfl
  | cons e entries ih =>
    rw [List.map_cons,List.mem_cons,not_or] at h
    rw [lookup_cons,ih h.2,if_neg (Ne.symm h.1)]
    rfl

theorem lookup_of_mem (hn : (entries.map Prod.fst).Nodup) (h : (key,v) ∈ entries) :
    lookup key entries = some v := by
  induction entries with
  | nil => cases h
  | cons e entries ih =>
    rw [List.map_cons,List.nodup_cons] at hn
    rw [lookup_cons]
    rcases List.mem_cons.mp h with rfl | h
    · rw [lookup_eq_none hn.1,if_pos rfl]
      rfl
    · rw [ih hn.2 h]
      rfl

theorem mem_keys_insertEntry :
    k ∈ (insertEntry key v entries).map Prod.fst ↔ k = key ∨ k ∈ entries.map Prod.fst := by
  induction entries with
  | nil => simp [insertEntry]
  | cons e entries ih =>
    unfold insertEntry
    split
    · simp
    · split
      · rename_i he
        simp [← he]
      · rw [List.map_cons,List.mem_cons,ih,List.map_cons,List.mem_cons]
        exact or_left_comm

theorem Ordered.insertEntry (h : Ordered entries) (key : String) (v : Json) :
    Ordered (insertEntry key v entries) := by
  induction entries with
  | nil => simp [Json.insertEntry,Ordered]
  | cons e entries ih =>
    obtain ⟨hlt,ho⟩ := ordered_cons.mp h
    unfold Json.insertEntry
    split
    · rename_i hk
      refine ordered_cons.mpr ⟨fun k hm => ?_,h⟩
      rcases List.mem_cons.mp hm with rfl | hm
      · exact hk
      · exact String.lt_trans hk (hlt k hm)
    · rename_i hn
      split
      · rename_i he
        exact ordered_cons.mpr ⟨fun k hm => he ▸ hlt k hm,ho⟩
      · rename_i hne
        refine ordered_cons.mpr ⟨fun k hm => ?_,ih ho⟩
        rcases mem_keys_insertEntry.mp hm with rfl | hm
        · refine Classical.byContradiction fun hle => hne ?_
          exact String.le_antisymm (String.not_lt.mp hle) (String.not_lt.mp hn)
        · exact hlt k hm

theorem not_mem_keys_of_lt (h : ∀ k ∈ entries.map Prod.fst, key < k) :
    key ∉ entries.map Prod.fst := fun hm => String.lt_irrefl key (h key hm)

/-- An entry that is put in is found, and the others stay. -/
theorem lookup_insertEntry (h : Ordered entries) (key k : String) (v : Json) :
    lookup k (insertEntry key v entries) = if k = key then some v else lookup k entries := by
  induction entries with
  | nil => by_cases hk : k = key <;> simp [insertEntry,lookup,hk,Ne.symm]
  | cons e entries ih =>
    obtain ⟨hlt,ho⟩ := ordered_cons.mp h
    unfold insertEntry
    split
    · rename_i hlt'
      rw [lookup_cons]
      by_cases hk : k = key
      · -- the key is smaller than all others, so none of them is the same
        have hn : k ∉ (e :: entries).map Prod.fst := by
          refine not_mem_keys_of_lt fun k' hm => ?_
          rcases List.mem_cons.mp hm with rfl | hm
          · exact hk ▸ hlt'
          · exact hk ▸ String.lt_trans hlt' (hlt k' hm)
        rw [lookup_eq_none hn,if_pos hk.symm,if_pos hk]
        rfl
      · rw [if_neg (Ne.symm hk),if_neg hk,Option.or_none]
    · split
      · rename_i he
        rw [lookup_cons,lookup_cons]
        by_cases hk : k = key
        · rw [lookup_eq_none (hk ▸ he ▸ not_mem_keys_of_lt hlt),if_pos hk.symm,if_pos hk]
          rfl
        · rw [if_neg (Ne.symm hk),if_neg hk,if_neg (he ▸ Ne.symm hk)]
      · rename_i hne
        rw [lookup_cons,ih ho,lookup_cons]
        by_cases hk : k = key
        · rw [if_pos hk,if_pos hk]
          rfl
        · rw [if_neg hk,if_neg hk]

/-! ### Sorting the entries -/

theorem Ordered.insertAll (h : Ordered sorted) (entries : List (String × Json)) :
    Ordered (entries.foldl (fun sorted e => Json.insertEntry e.1 e.2 sorted) sorted) := by
  induction entries generalizing sorted with
  | nil => exact h
  | cons e entries ih => exact ih (h.insertEntry e.1 e.2)

theorem ordered_sortEntries (entries : List (String × Json)) : Ordered (sortEntries entries) :=
  ordered_nil.insertAll entries

theorem lookup_insertAll (h : Ordered sorted) (k : String) (entries : List (String × Json)) :
    lookup k (entries.foldl (fun sorted e => insertEntry e.1 e.2 sorted) sorted)
      = (lookup k entries).or (lookup k sorted) := by
  induction entries generalizing sorted with
  | nil => rfl
  | cons e entries ih =>
    rw [List.foldl_cons,ih (h.insertEntry e.1 e.2),lookup_insertEntry h,lookup_cons,Option.or_assoc]
    by_cases hk : k = e.1
    · rw [if_pos hk,if_pos hk.symm]
      rfl
    · rw [if_neg hk,if_neg (Ne.symm hk),Option.none_or]

@[simp] theorem lookup_sortEntries (k : String) (entries : List (String × Json)) :
    lookup k (sortEntries entries) = lookup k entries := by
  rw [sortEntries,lookup_insertAll ordered_nil,lookup_nil,Option.or_none]

theorem perm_insertEntry (h : key ∉ entries.map Prod.fst) :
    (insertEntry key v entries).Perm ((key,v) :: entries) := by
  induction entries with
  | nil => exact .refl _
  | cons e entries ih =>
    rw [List.map_cons,List.mem_cons,not_or] at h
    unfold insertEntry
    split
    · exact .refl _
    · rw [if_neg h.1]
      exact ((ih h.2).cons e).trans (.swap _ _ _)

theorem perm_insertAll (hn : ((sorted ++ entries).map Prod.fst).Nodup) :
    (entries.foldl (fun sorted e => insertEntry e.1 e.2 sorted) sorted).Perm (sorted ++ entries) := by
  induction entries generalizing sorted with
  | nil => rw [List.append_nil]; exact .refl _
  | cons e entries ih =>
    have hp : (sorted ++ e :: entries).Perm (e :: sorted ++ entries) := List.perm_middle
    have he : e.1 ∉ sorted.map Prod.fst := by
      have := (hp.map Prod.fst).nodup_iff.mp hn
      rw [List.cons_append,List.map_cons,List.nodup_cons,List.map_append,List.mem_append,not_or] at this
      exact this.1.1
    have hi := (perm_insertEntry (v := e.2) he).append_right entries
    refine (ih ?_).trans (hi.trans hp.symm)
    exact ((hi.trans hp.symm).map Prod.fst).nodup_iff.mpr hn

theorem perm_sortEntries (hn : (entries.map Prod.fst).Nodup) : (sortEntries entries).Perm entries :=
  perm_insertAll hn

/-! ### Canonical values -/

theorem canonicalItems_eq (items : List Json) : canonicalItems items = items.map canonical := by
  induction items with
  | nil => rfl
  | cons j items ih => rw [canonicalItems,ih,List.map_cons]

theorem canonicalEntries_eq (entries : List (String × Json)) :
    canonicalEntries entries = entries.map fun e => (e.1,e.2.canonical) := by
  induction entries with
  | nil => rfl
  | cons e entries ih => rw [canonicalEntries,ih,List.map_cons]

theorem lookup_canonicalEntries (k : String) (entries : List (String × Json)) :
    lookup k (canonicalEntries entries) = (lookup k entries).map canonical := by
  induction entries with
  | nil => rfl
  | cons e entries ih =>
    rw [canonicalEntries,lookup_cons,lookup_cons,ih,Option.map_or]
    split <;> rfl

theorem field?_canonical (k : String) (j : Json) :
    j.canonical.field? k = (j.field? k).map canonical := by
  cases j with
  | object entries =>
    rw [canonical,field?,field?,lookup_sortEntries,lookup_canonicalEntries]
  | null | bool | number | string | array => simp only [canonical,field?,Option.map_none]

end CoverageCounters.Json
