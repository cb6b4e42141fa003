import CoverageCounters.Coverage.Fingerprint
import CoverageCounters.Proofs.CanonicalJson

/-!
Reading back the JSON form of a file's coverage. A table is read exactly if its keys are the decimal
texts of the places of a list, in any order; what stands under the text of a place is then the item at
that place. Main statement: the canonical JSON of a coverage reads as that coverage, and an object that
reads as a coverage has six such tables.
-/

namespace CoverageCounters

/-! ### Indices as keys -/

theorem foldl_decimal (digits : List Char) :
    digits.foldl (fun n c => n * 10 + (c.toNat - '0'.toNat)) 0 = Nat.ofDigitChars 10 digits 0 := by
  rw [Nat.ofDigitChars_eq_foldl]
  exact congrArg (fun f => digits.foldl f 0) (funext fun n => funext fun c => by rw [Nat.mul_comm])

/-- A key spells an index of at most 64 bits if it is its decimal text. -/
theorem Decode.index?_eq_some_iff {key : String} {n : Nat} :
    index? key = some n ↔ key = indexText n ∧ n < Nat.pow 2 64 := by
  unfold index?
  constructor
  · intro h
    dsimp only at h
    split at h
    · cases h
    · rw [foldl_decimal] at h
      split at h
      · rename_i hd
        cases h
        exact ⟨by rw [indexText,hd.1,String.ofList_toList],hd.2⟩
      · cases h
  · rintro ⟨rfl,hn⟩
    have hne : ¬ ((indexText n).toList.isEmpty || !(indexText n).toList.all Char.isDigit) = true := by
      rw [indexText,String.toList_ofList,Bool.or_eq_true,Bool.not_eq_true',not_or]
      refine ⟨by simp [decimalDigits,Nat.toDigits_ne_nil],?_⟩
      rw [Bool.not_eq_false,List.all_eq_true]
      exact fun c hc => Nat.isDigit_of_mem_toDigits (by decide) (by decide) hc
    rw [if_neg hne,foldl_decimal,indexText,String.toList_ofList,decimalDigits,
      Nat.ofDigitChars_ten_toDigits]
    exact if_pos ⟨rfl,hn⟩

@[simp] theorem ofDigitChars_indexText (i : Nat) : Nat.ofDigitChars 10 (indexText i).toList 0 = i := by
  rw [indexText,String.toList_ofList,decimalDigits,Nat.ofDigitChars_ten_toDigits]

theorem indexText_inj {i j : Nat} : indexText i = indexText j ↔ i = j := by
  refine ⟨fun h => ?_,congrArg indexText⟩
  rw [← ofDigitChars_indexText i,h,ofDigitChars_indexText]

def placeTexts (n : Nat) : List String := (List.range n).map indexText

theorem nodup_placeTexts (n : Nat) : (placeTexts n).Nodup :=
  List.Pairwise.map indexText (fun _ _ h he => h (indexText_inj.mp he)) List.nodup_range

theorem mem_placeTexts {n i : Nat} : indexText i ∈ placeTexts n ↔ i < n := by
  rw [placeTexts,List.mem_map]
  constructor
  · rintro ⟨j,hj,h⟩
    exact indexText_inj.mp h ▸ List.mem_range.mp hj
  · exact fun h => ⟨i,List.mem_range.mpr h,rfl⟩

/-! ### Readings that succeed -/

theorem Except.bind_eq_ok {ε α β : Type} {x : Except ε α} {f : α → Except ε β} {b : β} :
    x >>= f = .ok b ↔ ∃ a, x = .ok a ∧ f a = .ok b := by
  cases x with
  | error e => exact ⟨nofun,nofun⟩
  | ok a => exact ⟨fun h => ⟨a,rfl,h⟩,fun ⟨_,ha,h⟩ => by cases ha; exact h⟩

theorem Except.map_eq_ok {ε α β : Type} {x : Except ε α} {f : α → β} {b : β} :
    x.map f = .ok b ↔ ∃ a, x = .ok a ∧ f a = b := by
  cases x with
  | error e => exact ⟨nofun,nofun⟩
  | ok a => exact ⟨fun h => ⟨a,rfl,Except.ok.inj h⟩,fun ⟨_,ha,h⟩ => by cases ha; exact congrArg _ h⟩

section Lists

variable {ε α β : Type} {f : α → Except ε β} {items : List α} {results : List β}

theorem mapM_cons_eq_ok {a : α} :
    (a :: items).mapM f = .ok results
      ↔ ∃ b rest, f a = .ok b ∧ items.mapM f = .ok rest ∧ results = b :: rest := by
  rw [List.mapM_cons]
  simp only [Except.bind_eq_ok]
  constructor
  · rintro ⟨b,hb,rest,hrest,h⟩
    exact ⟨b,rest,hb,hrest,(Except.ok.inj h).symm⟩
  · rintro ⟨b,rest,hb,hrest,rfl⟩
    exact ⟨b,hb,rest,hrest,rfl⟩

theorem exists_mapM_eq_ok (h : ∀ a ∈ items, ∃ b, f a = .ok b) :
    ∃ results, items.mapM f = .ok results := by
  induction items with
  | nil => exact ⟨[],rfl⟩
  | cons a items ih =>
    obtain ⟨b,hb⟩ := h a List.mem_cons_self
    obtain ⟨rest,hrest⟩ := ih fun a ha => h a (List.mem_cons_of_mem _ ha)
    exact ⟨b :: rest,mapM_cons_eq_ok.mpr ⟨b,rest,hb,hrest,rfl⟩⟩

theorem exists_of_mem_mapM (h : items.mapM f = .ok results) {b : β} (hb : b ∈ results) :
    ∃ a ∈ items, f a = .ok b := by
  induction items generalizing results with
  | nil => cases h; cases hb
  | cons a items ih =>
    obtain ⟨b',rest,hf,hrest,rfl⟩ := mapM_cons_eq_ok.mp h
    rcases List.mem_cons.mp hb with rfl | hb
    · exact ⟨a,List.mem_cons_self,hf⟩
    · obtain ⟨a',ha',h'⟩ := ih hrest hb
      exact ⟨a',List.mem_cons_of_mem _ ha',h'⟩

/-- What every result has in common with its item, the lists have in common. -/
theorem map_eq_of_mapM {γ : Type} {g : α → γ} {g' : β → γ} (h : items.mapM f = .ok results)
    (hg : ∀ a b, f a = .ok b → g a = g' b) : items.map g = results.map g' := by
  induction items generalizing results with
  | nil => cases h; rfl
  | cons a items ih =>
    obtain ⟨b,rest,hf,hrest,rfl⟩ := mapM_cons_eq_ok.mp h
    rw [List.map_cons,List.map_cons,hg a b hf,ih hrest]

theorem mapM_map_eq_ok {g : β → α} (h : ∀ b ∈ results, f (g b) = .ok b) :
    (results.map g).mapM f = .ok results := by
  induction results with
  | nil => rfl
  | cons b results ih =>
    exact mapM_cons_eq_ok.mpr ⟨b,results,h b List.mem_cons_self,
      ih fun b hb => h b (List.mem_cons_of_mem _ hb),rfl⟩

end Lists

namespace Decode

/-! ### Tables -/

theorem tableEntry_eq_ok {α : Type} {f : Json → Result α} {entry : String × Json} {p : Nat × α} :
    tableEntry f entry = .ok p ↔ entry.1 = indexText p.1 ∧ p.1 < Nat.pow 2 64 ∧ f entry.2 = .ok p.2 := by
  have hi : ∀ i, ofOption (index? entry.1) = .ok i ↔ entry.1 = indexText i ∧ i < Nat.pow 2 64 := by
    intro i
    rw [← index?_eq_some_iff]
    cases index? entry.1 with
    | none => exact ⟨nofun,nofun⟩
    | some j => exact ⟨fun h => congrArg some (Except.ok.inj h),fun h => congrArg _ (Option.some.inj h)⟩
  unfold tableEntry
  simp only [Except.bind_eq_ok,hi]
  constructor
  · rintro ⟨i,⟨hk,hn⟩,a,ha,h⟩
    cases h
    exact ⟨hk,hn,ha⟩
  · rintro ⟨hk,hn,ha⟩
    exact ⟨p.1,⟨hk,hn⟩,p.2,ha,rfl⟩

theorem misplaced?_eq_none {found : List Nat} {k : Nat} :
    misplaced? k found = none ↔ found = List.range' k found.length := by
  induction found generalizing k with
  | nil => exact ⟨fun _ => rfl,fun _ => rfl⟩
  | cons i found ih =>
    rw [misplaced?,List.length_cons,List.range'_succ,List.cons.injEq]
    split
    · rename_i hi
      rw [ih]
      exact ⟨fun h => ⟨hi,h⟩,fun h => h.2⟩
    · rename_i hi
      exact ⟨nofun,fun h => absurd h.1 hi⟩

/-- The keys are the decimal texts of the places of a list, in any order, and the text of each place
holds what reads as the item there. -/
structure Tabulates {α : Type} (f : Json → Result α) (entries : List (String × Json)) (items : List α) :
    Prop where
  keys : (entries.map Prod.fst).Perm (placeTexts items.length)
  values : ∀ i a, items[i]? = some a → ∃ j, Json.lookup (indexText i) entries = some j ∧ f j = .ok a

variable {α : Type} {f : Json → Result α} {entries : List (String × Json)} {items : List α}

theorem Tabulates.nodup (h : Tabulates f entries items) : (entries.map Prod.fst).Nodup :=
  h.keys.nodup_iff.mpr (nodup_placeTexts _)

/-- The entries of a table in the order of their indices. -/
def inOrder (pairs : List (Nat × α)) : List (Nat × α) := pairs.mergeSort fun a b => a.1 ≤ b.1

theorem mem_inOrder {pairs : List (Nat × α)} {p : Nat × α} : p ∈ inOrder pairs ↔ p ∈ pairs :=
  (List.mergeSort_perm _ _).mem_iff

theorem pairwise_inOrder (pairs : List (Nat × α)) :
    ((inOrder pairs).map Prod.fst).Pairwise (· ≤ ·) := by
  have h : (inOrder pairs).Pairwise fun a b => decide (a.1 ≤ b.1) = true := by
    refine List.pairwise_mergeSort (fun a b c hab hbc => ?_) (fun a b => ?_) pairs
    · exact decide_eq_true (Nat.le_trans (of_decide_eq_true hab) (of_decide_eq_true hbc))
    · simpa using Nat.le_total a.1 b.1
  exact List.pairwise_map.mpr (h.imp of_decide_eq_true)

theorem table_eq_ok :
    table f (.object entries) = .ok items ↔ ∃ pairs, entries.mapM (tableEntry f) = .ok pairs
      ∧ (inOrder pairs).map Prod.fst = List.range items.length
      ∧ (inOrder pairs).map Prod.snd = items := by
  rw [table,Except.bind_eq_ok]
  refine exists_congr fun pairs => and_congr_right fun _ => ?_
  have hm := @misplaced?_eq_none ((inOrder pairs).map Prod.fst) 0
  rw [List.length_map,← List.range_eq_range'] at hm
  unfold inOrder at hm ⊢
  dsimp only
  split
  · rename_i heq
    refine iff_of_false (fun h => by cases h) fun h => ?_
    have hf := h.1
    rw [← h.2,List.length_map,← hm,heq] at hf
    cases hf
  · rename_i heq
    rw [Except.ok.injEq]
    refine ⟨fun hs => ⟨?_,hs⟩,fun h => h.2⟩
    rw [← hs,List.length_map]
    exact hm.mp heq

theorem inOrder_getElem? {pairs : List (Nat × α)} {i : Nat} {a : α}
    (hf : (inOrder pairs).map Prod.fst = List.range items.length)
    (hs : (inOrder pairs).map Prod.snd = items) (ha : items[i]? = some a) : (i,a) ∈ pairs := by
  obtain ⟨hi,-⟩ := List.getElem?_eq_some_iff.mp ha
  rw [← hs,List.getElem?_map,Option.map_eq_some_iff] at ha
  obtain ⟨p,hp,rfl⟩ := ha
  have hp' : some p.1 = some i := by
    have := congrArg (fun l => l[i]?) hf
    rwa [List.getElem?_map,hp,List.getElem?_range hi] at this
  rw [← mem_inOrder,← Option.some.inj hp']
  exact List.mem_of_getElem? hp

theorem tabulates_of_table (h : table f (.object entries) = .ok items) :
    items.length ≤ Nat.pow 2 64 ∧ Tabulates f entries items := by
  obtain ⟨pairs,hm,hf,hs⟩ := table_eq_ok.mp h
  have hkeys : (entries.map Prod.fst).Perm (placeTexts items.length) := by
    rw [map_eq_of_mapM hm fun e p he => (tableEntry_eq_ok.mp he).1,placeTexts,← hf,List.map_map]
    exact ((List.mergeSort_perm _ _).map _).symm
  have hat : ∀ i a, items[i]? = some a →
      i < Nat.pow 2 64 ∧ ∃ j, Json.lookup (indexText i) entries = some j ∧ f j = .ok a := by
    intro i a ha
    obtain ⟨⟨key,j⟩,hmem,he⟩ := exists_of_mem_mapM hm (inOrder_getElem? hf hs ha)
    obtain ⟨rfl,hn,hj⟩ := tableEntry_eq_ok.mp he
    exact ⟨hn,j,Json.lookup_of_mem (hkeys.nodup_iff.mpr (nodup_placeTexts _)) hmem,hj⟩
  refine ⟨Nat.le_of_not_lt fun hlt => ?_,hkeys,fun i a ha => (hat i a ha).2⟩
  exact Nat.lt_irrefl _ (hat (Nat.pow 2 64) _ (List.getElem?_eq_getElem hlt)).1

theorem Tabulates.of_mem (h : Tabulates f entries items) {e : String × Json} (he : e ∈ entries) :
    ∃ i a, e.1 = indexText i ∧ items[i]? = some a ∧ f e.2 = .ok a := by
  have hk := h.keys.mem_iff.mp (List.mem_map_of_mem he)
  obtain ⟨i,hi,hk⟩ := List.mem_map.mp hk
  have ha := List.getElem?_eq_getElem (List.mem_range.mp hi)
  obtain ⟨j,hj,hf⟩ := h.values i _ ha
  rw [hk,Json.lookup_of_mem h.nodup he] at hj
  cases hj
  exact ⟨i,_,hk.symm,ha,hf⟩

theorem map_fst_of_keys {pairs : List (Nat × α)}
    (hm : entries.mapM (tableEntry f) = .ok pairs) (h : Tabulates f entries items) :
    (inOrder pairs).map Prod.fst = List.range items.length := by
  refine List.Perm.eq_of_pairwise (fun _ _ _ _ => Nat.le_antisymm) (pairwise_inOrder pairs)
    List.pairwise_le_range (((List.mergeSort_perm _ _).map _).trans ?_)
  -- reading the digits of all keys gives the indices on one side and the places on the other
  have hp := h.keys.map fun key => Nat.ofDigitChars 10 key.toList 0
  rw [map_eq_of_mapM hm fun e p he => (tableEntry_eq_ok.mp he).1,placeTexts,List.map_map,
    List.map_map] at hp
  simpa only [Function.comp_def,ofDigitChars_indexText,List.map_id'] using hp

theorem table_of_tabulates (hn : items.length ≤ Nat.pow 2 64) (h : Tabulates f entries items) :
    table f (.object entries) = .ok items := by
  have hentry : ∀ e ∈ entries, ∃ p, tableEntry f e = .ok p ∧ items[p.1]? = some p.2 := by
    intro e he
    obtain ⟨i,a,hk,ha,hf⟩ := h.of_mem he
    obtain ⟨hi,-⟩ := List.getElem?_eq_some_iff.mp ha
    exact ⟨(i,a),tableEntry_eq_ok.mpr ⟨hk,Nat.lt_of_lt_of_le hi hn,hf⟩,ha⟩
  obtain ⟨pairs,hm⟩ := exists_mapM_eq_ok fun e he => (hentry e he).imp fun _ h => h.1
  have hfst := map_fst_of_keys hm h
  have hitem : ∀ p ∈ pairs, items[p.1]? = some p.2 := by
    intro p hp
    obtain ⟨e,he,hok⟩ := exists_of_mem_mapM hm hp
    obtain ⟨p',hok',hp'⟩ := hentry e he
    rw [hok] at hok'
    cases hok'
    exact hp'
  refine table_eq_ok.mpr ⟨pairs,hm,hfst,List.ext_getElem? fun i => ?_⟩
  have hi := congrArg (fun l => l[i]?) hfst
  rw [List.getElem?_map] at hi ⊢
  cases hs : (inOrder pairs)[i]? with
  | none =>
    have hl := congrArg List.length hfst
    rw [List.length_map,List.length_range] at hl
    rw [Option.map_none,List.getElem?_eq_none (hl ▸ List.getElem?_eq_none_iff.mp hs)]
  | some p =>
    obtain ⟨hlt,hp⟩ := List.getElem?_eq_some_iff.mp (hi.symm.trans (congrArg _ hs))
    rw [List.getElem_range] at hp
    rw [Option.map_some,hp]
    exact (hitem p (mem_inOrder.mp (List.mem_of_getElem? hs))).symm

/-! ### The fields of a coverage -/

theorem ofOption_eq_ok {o : Option α} {a : α} : ofOption o = .ok a ↔ o = some a := by
  cases o with
  | none => exact ⟨nofun,nofun⟩
  | some b => exact ⟨fun h => congrArg some (Except.ok.inj h),fun h => congrArg _ (Option.some.inj h)⟩

/-- The value under a key is there and reads as `a`. -/
def Holds {α : Type} (f : Json → Result α) (key : String) (entries : List (String × Json)) (a : α) :
    Prop := ∃ j, Json.lookup key entries = some j ∧ f j = .ok a

theorem whenPresent_eq_ok {key : String} {a : α} :
    whenPresent f key entries = .ok (some a) ↔ Holds f key entries a := by
  unfold whenPresent Holds
  cases Json.lookup key entries with
  | none => exact ⟨nofun,nofun⟩
  | some j => simp [Except.map_eq_ok]

theorem field_eq_ok {i : Nat} {key : String} {a : α} :
    field f i key (.object entries) = .ok a ↔ Holds f key entries a := by
  have hb : (ofOption (Json.lookup key entries) >>= f) = .ok a ↔ Holds f key entries a := by
    simp only [Except.bind_eq_ok,ofOption_eq_ok,Holds]
  exact hb

/-- A coverage is read from an object exactly if each of its fields is. -/
theorem coverageObject_eq_ok {x : FileCoverage} :
    coverageObject entries = .ok x ↔
      Holds string "path" entries x.path
      ∧ Holds (table location) "statementMap" entries x.statementMap
      ∧ Holds (table functionRecord) "fnMap" entries x.fnMap
      ∧ Holds (table branchRecord) "branchMap" entries x.branchMap
      ∧ Holds (table (natural 64)) "s" entries x.s
      ∧ Holds (table (natural 64)) "f" entries x.f
      ∧ Holds (table (list (natural 64))) "b" entries x.b
      ∧ optional any 7 "inputSourceMap" (.object entries) = .ok x.inputSourceMap
      ∧ optional string 8 "hash" (.object entries) = .ok x.hash := by
  unfold coverageObject
  simp only [Except.bind_eq_ok,ofOption_eq_ok,← whenPresent_eq_ok]
  constructor
  · rintro ⟨_,hb,_,hbm,_,hf,_,hfm,_,hh,_,hsm,_,hp,_,hs,_,hst,_,rfl,_,rfl,_,rfl,_,rfl,_,rfl,_,rfl,_,rfl,h⟩
    cases h
    exact ⟨hp,hst,hfm,hbm,hs,hf,hb,hsm,hh⟩
  · rintro ⟨hp,hst,hfm,hbm,hs,hf,hb,hsm,hh⟩
    exact ⟨_,hb,_,hbm,_,hf,_,hfm,_,hh,_,hsm,_,hp,_,hs,_,hst,
      _,rfl,_,rfl,_,rfl,_,rfl,_,rfl,_,rfl,_,rfl,rfl⟩

theorem record_of_object {count : Nat} (f : Json → Result α) (entries : List (String × Json)) :
    record count f (.object entries) = f (.object entries) := by
  unfold record
  split
  · rename_i heq; cases heq
  · rfl

end Decode

/-! ### What can be written -/

def Position.Fits (p : Position) : Prop := p.line < Nat.pow 2 32 ∧ p.column < Nat.pow 2 32

def Location.Fits (l : Location) : Prop := l.start.Fits ∧ l.stop.Fits

def FunctionRecord.Fits (r : FunctionRecord) : Prop := r.decl.Fits ∧ r.loc.Fits ∧ r.line < Nat.pow 2 32

def BranchRecord.Fits (r : BranchRecord) : Prop :=
  r.loc.Fits ∧ (∀ l ∈ r.locations, l.Fits) ∧ r.line < Nat.pow 2 32

instance (p : Position) : Decidable p.Fits := inferInstanceAs (Decidable (_ ∧ _))

instance (l : Location) : Decidable l.Fits := inferInstanceAs (Decidable (_ ∧ _))

instance (r : FunctionRecord) : Decidable r.Fits := inferInstanceAs (Decidable (_ ∧ _ ∧ _))

instance (r : BranchRecord) : Decidable r.Fits := inferInstanceAs (Decidable (_ ∧ _ ∧ _))

namespace Json

theorem lookup_append (k : String) (entries others : List (String × Json)) :
    lookup k (entries ++ others) = (lookup k others).or (lookup k entries) := by
  induction entries with
  | nil => rw [List.nil_append,lookup_nil,Option.or_none]
  | cons e entries ih => rw [List.cons_append,lookup_cons,ih,lookup_cons,Option.or_assoc]

@[simp] theorem canonical_nat (n : Nat) : (nat n).canonical = nat n := by rw [nat,canonical]

@[simp] theorem asNat?_nat {bits n : Nat} (h : n < Nat.pow 2 bits) : (nat n).asNat? bits = some n := by
  have hn : (n : Int) < ((Nat.pow 2 bits : Nat) : Int) := Int.ofNat_lt.mpr h
  exact (if_pos ⟨Int.natCast_nonneg n,hn⟩).trans (by rw [Int.toNat_natCast])

end Json

namespace Decode

theorem natural_nat {bits n : Nat} (h : n < Nat.pow 2 bits) : natural bits (Json.nat n).canonical = .ok n := by
  rw [natural,Json.canonical_nat,Json.asNat?_nat h,ofOption]

theorem string_canonical (s : String) : string (Json.string s).canonical = .ok s := by
  rw [Json.canonical]; rfl

/-- A field of a written object reads as what was written there. -/
theorem holds_canonical {f : Json → Result α} {entries : List (String × Json)} {key : String} {j : Json}
    {a : α} (hj : Json.lookup key entries = some j) (ha : f j.canonical = .ok a) :
    Holds f key (Json.sortEntries (Json.canonicalEntries entries)) a :=
  ⟨j.canonical,by rw [Json.lookup_sortEntries,Json.lookup_canonicalEntries,hj,Option.map_some],ha⟩

theorem position_toJson {p : Position} (h : p.Fits) : position p.toJson.canonical = .ok p := by
  rw [Position.toJson,Json.canonical,position,record_of_object]
  simp only [Except.bind_eq_ok,field_eq_ok]
  exact ⟨_,holds_canonical rfl (natural_nat h.1),_,holds_canonical rfl (natural_nat h.2),rfl⟩

theorem location_toJson {l : Location} (h : l.Fits) : location l.toJson.canonical = .ok l := by
  rw [Location.toJson,Json.canonical,location,record_of_object]
  simp only [Except.bind_eq_ok,field_eq_ok]
  exact ⟨_,holds_canonical rfl (position_toJson h.1),_,holds_canonical rfl (position_toJson h.2),rfl⟩

theorem functionRecord_toJson {r : FunctionRecord} (h : r.Fits) :
    functionRecord r.toJson.canonical = .ok r := by
  rw [FunctionRecord.toJson,Json.canonical,functionRecord,record_of_object]
  simp only [Except.bind_eq_ok,field_eq_ok]
  exact ⟨_,holds_canonical rfl (string_canonical _),_,holds_canonical rfl (location_toJson h.1),
    _,holds_canonical rfl (location_toJson h.2.1),_,holds_canonical rfl (natural_nat h.2.2),rfl⟩

theorem branchKind_name (k : BranchKind) : branchKind (Json.string k.name).canonical = .ok k := by
  rw [Json.canonical,branchKind,BranchKind.ofName?_name,ofOption]

theorem list_canonical {f : Json → Result α} {g : α → Json} {items : List α}
    (h : ∀ a ∈ items, f (g a).canonical = .ok a) :
    list f (Json.array (items.map g)).canonical = .ok items := by
  rw [Json.canonical,Json.canonicalItems_eq,List.map_map,list]
  exact mapM_map_eq_ok h

theorem branchRecord_toJson {r : BranchRecord} (h : r.Fits) :
    branchRecord r.toJson.canonical = .ok r := by
  rw [BranchRecord.toJson,Json.canonical,branchRecord,record_of_object]
  simp only [Except.bind_eq_ok,field_eq_ok]
  exact ⟨_,holds_canonical rfl (location_toJson h.1),_,holds_canonical rfl (branchKind_name _),
    _,holds_canonical rfl (list_canonical fun l hl => location_toJson (h.2.1 l hl)),
    _,holds_canonical rfl (natural_nat h.2.2),rfl⟩

end Decode

theorem indexed_eq {α : Type} (f : α → Json) (k : Nat) (items : List α) :
    indexed f k items = (items.zipIdx k).map fun p => (indexText p.2,f p.1) := by
  induction items generalizing k with
  | nil => rfl
  | cons a items ih => rw [indexed,ih,List.zipIdx_cons,List.map_cons]

theorem keys_indexed {α : Type} (f : α → Json) (items : List α) :
    (indexed f 0 items).map Prod.fst = placeTexts items.length := by
  rw [indexed_eq,List.map_map,placeTexts,List.range_eq_range',← List.zipIdx_map_snd,List.map_map]
  rfl

/-- Under the text of a place stands the item there, and under that of any other number nothing. -/
theorem lookup_indexed {α : Type} (f : α → Json) (items : List α) (i : Nat) :
    Json.lookup (indexText i) (indexed f 0 items) = (items[i]?).map f := by
  cases ha : items[i]? with
  | none =>
    refine Json.lookup_eq_none ?_
    rw [keys_indexed,mem_placeTexts]
    exact Nat.not_lt.mpr (List.getElem?_eq_none_iff.mp ha)
  | some a =>
    refine Json.lookup_of_mem (keys_indexed f items ▸ nodup_placeTexts _) ?_
    rw [indexed_eq]
    exact List.mem_map.mpr ⟨(a,i),List.mk_mem_zipIdx_iff_getElem?.mpr ha,rfl⟩

namespace Decode

/-- The JSON of a table tabulates the list if the items can be read. -/
theorem tabulates_indexed {α : Type} {f : Json → Result α} {g : α → Json} {items : List α}
    (h : ∀ a ∈ items, f (g a).canonical = .ok a) :
    Tabulates f (Json.sortEntries (Json.canonicalEntries (indexed g 0 items))) items := by
  have hkeys : (Json.canonicalEntries (indexed g 0 items)).map Prod.fst = placeTexts items.length := by
    rw [Json.canonicalEntries_eq,List.map_map,← keys_indexed g]
    rfl
  refine ⟨?_,fun i a ha => ?_⟩
  · rw [← hkeys]
    exact (Json.perm_sortEntries (hkeys ▸ nodup_placeTexts _)).map _
  · refine holds_canonical ?_ (h a (List.mem_of_getElem? ha))
    rw [lookup_indexed,ha,Option.map_some]

theorem table_tableJson {α : Type} {f : Json → Result α} {g : α → Json} {items : List α}
    (hn : items.length ≤ Nat.pow 2 64) (h : ∀ a ∈ items, f (g a).canonical = .ok a) :
    table f (tableJson g items).canonical = .ok items := by
  rw [tableJson,Json.canonical]
  exact table_of_tabulates hn (tabulates_indexed h)

end Decode

namespace FileCoverage

/-- What the fields of a coverage can hold: numbers of 32 and 64 bits, tables with indices of 64 bits,
and as source map a value whose objects are sorted by key. -/
structure Representable (x : FileCoverage) : Prop where
  statementMap : x.statementMap.length ≤ Nat.pow 2 64 ∧ ∀ l ∈ x.statementMap, l.Fits
  fnMap : x.fnMap.length ≤ Nat.pow 2 64 ∧ ∀ r ∈ x.fnMap, r.Fits
  branchMap : x.branchMap.length ≤ Nat.pow 2 64 ∧ ∀ r ∈ x.branchMap, r.Fits
  s : x.s.length ≤ Nat.pow 2 64 ∧ ∀ n ∈ x.s, n < Nat.pow 2 64
  f : x.f.length ≤ Nat.pow 2 64 ∧ ∀ n ∈ x.f, n < Nat.pow 2 64
  b : x.b.length ≤ Nat.pow 2 64 ∧ ∀ counts ∈ x.b, ∀ n ∈ counts, n < Nat.pow 2 64
  inputSourceMap : ∀ j, x.inputSourceMap = some j → j.canonical = j

theorem lookup_optionalField {α : Type} (k key : String) (f : α → Json) (o : Option α) :
    Json.lookup k (optionalField key f o) = if key = k then o.map f else none := by
  cases o with
  | none => simp [optionalField]
  | some a => rfl

def fields (x : FileCoverage) : List (String × Json) :=
  [("path",.string x.path),("statementMap",tableJson Location.toJson x.statementMap),
    ("fnMap",tableJson FunctionRecord.toJson x.fnMap),
    ("branchMap",tableJson BranchRecord.toJson x.branchMap),("s",tableJson .nat x.s),
    ("f",tableJson .nat x.f),("b",tableJson countsJson x.b)]

def entries (x : FileCoverage) : List (String × Json) :=
  x.fields ++ optionalField "inputSourceMap" id x.inputSourceMap ++ optionalField "hash" .string x.hash

theorem toJson_eq (x : FileCoverage) : x.toJson = .object x.entries := rfl

theorem lookup_entries (x : FileCoverage) (k : String) :
    Json.lookup k x.entries = if "hash" = k then x.hash.map .string
      else if "inputSourceMap" = k then x.inputSourceMap else Json.lookup k x.fields := by
  have hf : k = "hash" ∨ k = "inputSourceMap" → Json.lookup k x.fields = none := by
    rintro (rfl | rfl) <;> rfl
  rw [entries,Json.lookup_append,Json.lookup_append,lookup_optionalField,lookup_optionalField,
    Option.map_id]
  by_cases hh : "hash" = k
  · subst hh
    rw [if_pos rfl,if_pos rfl,if_neg (by decide),hf (.inl rfl)]
    simp
  · by_cases hm : "inputSourceMap" = k
    · subst hm
      rw [if_neg (by decide),if_pos rfl,if_neg (by decide),if_pos rfl,hf (.inr rfl)]
      simp
    · simp [hh,hm]

theorem taggedPayload_eq (x : FileCoverage) (schema : String) : x.taggedPayload schema =
    .object (Json.insertEntry schemaKey (.string schema)
      (Json.sortEntries (Json.canonicalEntries { x with hash := none }.entries))) := by
  rw [taggedPayload,toJson_eq,Json.canonical,Json.setField]

/-- The tag, and every field but the fingerprint. -/
theorem field?_taggedPayload (x : FileCoverage) (schema key : String) :
    (x.taggedPayload schema).field? key =
      if key = schemaKey then some (.string schema)
      else (Json.lookup key { x with hash := none }.entries).map Json.canonical := by
  rw [taggedPayload_eq,Json.field?,Json.lookup_insertEntry (Json.ordered_sortEntries _),
    Json.lookup_sortEntries,Json.lookup_canonicalEntries]

end FileCoverage

namespace Decode

theorem optional_canonical {α : Type} {f : Json → Result α} {g : α → Json} {i : Nat} {key : String}
    {entries : List (String × Json)} {o : Option α} (hl : Json.lookup key entries = o.map g)
    (h : ∀ a, o = some a → (g a).canonical ≠ .null ∧ f (g a).canonical = .ok a) :
    optional f i key (.object (Json.sortEntries (Json.canonicalEntries entries))) = .ok o := by
  rw [optional,Json.lookup_sortEntries,Json.lookup_canonicalEntries,hl]
  cases o with
  | none => rfl
  | some a =>
    obtain ⟨hne,ha⟩ := h a rfl
    simp only [Option.map_some,ha]
    rfl

/-- The canonical JSON of a coverage reads as the coverage. -/
theorem coverage_toJson {x : FileCoverage} (h : x.Representable) (hm : x.inputSourceMap ≠ some .null) :
    coverage x.toJson.canonical = .ok x := by
  rw [FileCoverage.toJson_eq,Json.canonical,coverage,coverageObject_eq_ok]
  have hl := x.lookup_entries
  have hs : Json.lookup "inputSourceMap" x.entries = x.inputSourceMap.map id := by
    rw [Option.map_id]
    exact hl _
  refine ⟨holds_canonical (hl _) (string_canonical _),
    holds_canonical (hl _) (table_tableJson h.statementMap.1 fun l hl => ?_),
    holds_canonical (hl _) (table_tableJson h.fnMap.1 fun r hr => ?_),
    holds_canonical (hl _) (table_tableJson h.branchMap.1 fun r hr => ?_),
    holds_canonical (hl _) (table_tableJson h.s.1 fun n hn => natural_nat (h.s.2 n hn)),
    holds_canonical (hl _) (table_tableJson h.f.1 fun n hn => natural_nat (h.f.2 n hn)),
    holds_canonical (hl _) (table_tableJson h.b.1 fun c hc => list_canonical fun n hn => ?_),
    optional_canonical hs fun j hj => ?_,
    optional_canonical (hl _) fun s _ => ⟨by rw [Json.canonical]; exact Json.noConfusion,string_canonical s⟩⟩
  · exact location_toJson (h.statementMap.2 l hl)
  · exact functionRecord_toJson (h.fnMap.2 r hr)
  · exact branchRecord_toJson (h.branchMap.2 r hr)
  · exact natural_nat (h.b.2 c hc n hn)
  · have hc : (id j).canonical = j := h.inputSourceMap j hj
    exact ⟨fun hn => hm (hj.trans (congrArg some (hc.symm.trans hn))),congrArg Except.ok hc⟩

/-! ### What is read, and what is refused -/

/-- Under a key stands an object that tabulates the list. -/
def TableAt {α : Type} (f : Json → Result α) (key : String) (entries : List (String × Json))
    (items : List α) : Prop :=
  ∃ rows, Json.lookup key entries = some (.object rows) ∧ Tabulates f rows items

theorem tableAt_of_holds {α : Type} {f : Json → Result α} {key : String}
    {entries : List (String × Json)} {items : List α} (h : Holds (table f) key entries items) :
    TableAt f key entries items := by
  obtain ⟨j,hj,ht⟩ := h
  cases j with
  | object rows => exact ⟨rows,hj,(tabulates_of_table ht).2⟩
  | null | bool | number | string | array => cases ht

/-- The six tables of a coverage. -/
structure HasTables (entries : List (String × Json)) (x : FileCoverage) : Prop where
  statementMap : TableAt location "statementMap" entries x.statementMap
  fnMap : TableAt functionRecord "fnMap" entries x.fnMap
  branchMap : TableAt branchRecord "branchMap" entries x.branchMap
  s : TableAt (natural 64) "s" entries x.s
  f : TableAt (natural 64) "f" entries x.f
  b : TableAt (list (natural 64)) "b" entries x.b

theorem hasTables_of_coverage {entries : List (String × Json)} {x : FileCoverage}
    (h : coverage (.object entries) = .ok x) : HasTables entries x := by
  obtain ⟨-,hst,hfm,hbm,hs,hf,hb,-,-⟩ := coverageObject_eq_ok.mp h
  exact ⟨tableAt_of_holds hst,tableAt_of_holds hfm,tableAt_of_holds hbm,tableAt_of_holds hs,
    tableAt_of_holds hf,tableAt_of_holds hb⟩

def tableKeys : List String := ["statementMap","fnMap","branchMap","s","f","b"]

/-- A key is no decimal text of a number, or a number is left out below one that is there. -/
def Broken (keys : List String) : Prop :=
  (∃ key ∈ keys, ∀ i, key ≠ indexText i) ∨ ∃ i j, i < j ∧ indexText i ∉ keys ∧ indexText j ∈ keys

theorem not_broken {keys : List String} {n : Nat} (h : keys.Perm (placeTexts n)) : ¬ Broken keys := by
  rintro (⟨key,hk,hne⟩ | ⟨i,j,hij,hi,hj⟩)
  · obtain ⟨i,-,hi⟩ := List.mem_map.mp (h.mem_iff.mp hk)
    exact hne i hi.symm
  · rw [h.mem_iff,mem_placeTexts] at hi hj
    exact hi (Nat.lt_trans hij hj)

theorem HasTables.keys {entries : List (String × Json)} {x : FileCoverage} (h : HasTables entries x)
    {key : String} (hk : key ∈ tableKeys) :
    ∃ rows n, Json.lookup key entries = some (.object rows)
      ∧ (rows.map Prod.fst).Perm (placeTexts n) := by
  have hat : ∀ {α : Type} {f : Json → Result α} {items : List α}, TableAt f key entries items →
      ∃ rows n, Json.lookup key entries = some (.object rows)
        ∧ (rows.map Prod.fst).Perm (placeTexts n) :=
    fun ⟨rows,hl,ht⟩ => ⟨rows,_,hl,ht.keys⟩
  simp only [tableKeys,List.mem_cons,List.not_mem_nil,or_false] at hk
  rcases hk with rfl | rfl | rfl | rfl | rfl | rfl
  · exact hat h.statementMap
  · exact hat h.fnMap
  · exact hat h.branchMap
  · exact hat h.s
  · exact hat h.f
  · exact hat h.b

end Decode

/-- The JSON of a coverage reads as the coverage. An object reads as a coverage only with six tables
whose keys are the places of a list, each then read as the list of what stands under the text of each
place; one that has no such table under one of the six keys, be it for a stray key or a gap, is
refused. -/
theorem coverage_codec :
    (∀ x : FileCoverage, x.Representable → x.inputSourceMap ≠ some .null →
      Decode.coverage x.toJson.canonical = .ok x)
    ∧ (∀ entries x, Decode.coverage (.object entries) = .ok x → Decode.HasTables entries x)
    ∧ ∀ entries, ∀ key ∈ Decode.tableKeys,
        (∀ rows, Json.lookup key entries = some (.object rows) → Decode.Broken (rows.map Prod.fst)) →
        ∃ e, Decode.coverage (.object entries) = .error e := by
  refine ⟨fun x h hm => Decode.coverage_toJson h hm,fun entries x h => Decode.hasTables_of_coverage h,
    fun entries key hk hb => ?_⟩
  cases hc : Decode.coverage (.object entries) with
  | error e => exact ⟨e,rfl⟩
  | ok x =>
    obtain ⟨rows,n,hl,hp⟩ := (Decode.hasTables_of_coverage hc).keys hk
    exact absurd (hb rows hl) (Decode.not_broken hp)

/-- Twelve statements, so that the texts of their places are not in the order of the places. -/
def manyStatements : FileCoverage :=
  { FileCoverage.empty "a.js" with
    statementMap := (List.range 12).map fun i => ⟨⟨i + 1,0⟩,⟨i + 1,Nat.pow 2 32 - 1⟩⟩
    s := (List.range 12).map fun i => Nat.pow 2 64 - 1 - i
    inputSourceMap := some (.object [("mappings",.string ""),("version",.nat 3)])
    hash := some "0" }

theorem coverage_codec_many :
    manyStatements.Representable ∧ manyStatements.inputSourceMap ≠ some .null
    ∧ Decode.coverage manyStatements.toJson.canonical = .ok manyStatements
    ∧ ∃ e, Decode.coverage (.object [("s",.object [("0",.nat 0),("2",.nat 0)])]) = .error e := by
  have hr : manyStatements.Representable := by
    refine ⟨by decide,by decide,by decide,by decide,by decide,by decide,fun j hj => ?_⟩
    cases hj
    rfl
  refine ⟨hr,nofun,coverage_codec.1 _ hr nofun,?_⟩
  refine coverage_codec.2.2 _ "s" (by decide) fun rows hl => ?_
  cases hl
  exact .inr ⟨1,2,by decide,by decide,by decide⟩

end CoverageCounters
