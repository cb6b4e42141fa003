import Mathlib.Data.List.Basic
import CoverageCounters.Proofs.CoverageCodec
import CoverageCounters.Proofs.JsonText

/-!
What a fingerprint stands for. The canonical JSON of a coverage tells every field, the tagged payload
tells all of them but the fingerprint, and its text and the bytes of its text tell the payload. So two
coverages are hashed from the same bytes only if they differ in nothing but the fingerprint.
-/

namespace CoverageCounters

/-! ### JSON forms that tell the value -/

namespace Json

/-- The canonical JSON of a value tells the value. -/
def Faithful {α : Type} (f : α → Json) : Prop := Function.Injective fun a => (f a).canonical

theorem lookup_of_canonical {entries entries' : List (String × Json)}
    (h : (object entries).canonical = (object entries').canonical) (key : String) :
    (lookup key entries).map canonical = (lookup key entries').map canonical := by
  have hf := congrArg (field? key) h
  rwa [field?_canonical,field?_canonical] at hf

theorem faithful_nat : Faithful nat := by
  intro m n h
  dsimp only at h
  rw [canonical_nat,canonical_nat] at h
  injection h with h
  injection h with h
  exact Int.ofNat.inj h

theorem faithful_string : Faithful string := by
  intro s t h
  dsimp only at h
  rw [canonical,canonical] at h
  exact string.inj h

section Faithful

variable {α : Type} {f : α → Json}

theorem Faithful.array (hf : Faithful f) : Faithful fun items : List α => array (items.map f) := by
  intro items items' h
  dsimp only at h
  rw [canonical,canonical,canonicalItems_eq,canonicalItems_eq,List.map_map,List.map_map] at h
  exact List.map_injective_iff.mpr hf (array.inj h)

theorem Faithful.table (hf : Faithful f) : Faithful (tableJson f) := by
  intro items items' h
  refine List.ext_getElem? fun i => ?_
  have hi := lookup_of_canonical h (indexText i)
  rw [lookup_indexed,lookup_indexed,Option.map_map,Option.map_map] at hi
  exact Option.map_injective hf hi

/-- A field that is there in two objects with one canonical form holds one value. -/
theorem Faithful.field {entries entries' : List (String × Json)} {a b : α} (hf : Faithful f)
    (key : String) (h : (object entries).canonical = (object entries').canonical)
    (ha : lookup key entries = some (f a)) (hb : lookup key entries' = some (f b)) : a = b := by
  have hk := lookup_of_canonical h key
  rw [ha,hb] at hk
  exact hf (Option.some.inj hk)

end Faithful
end Json

open Json (Faithful)

theorem Position.faithful : Faithful Position.toJson := by
  intro p q h
  have hl := Json.faithful_nat.field "line" h rfl rfl
  have hc := Json.faithful_nat.field "column" h rfl rfl
  cases p
  cases q
  exact congrArg₂ Position.mk hl hc

theorem Location.faithful : Faithful Location.toJson := by
  intro l l' h
  have hs := Position.faithful.field "start" h rfl rfl
  have he := Position.faithful.field "end" h rfl rfl
  cases l
  cases l'
  exact congrArg₂ Location.mk hs he

theorem BranchKind.faithful : Faithful fun k : BranchKind => Json.string k.name := by
  intro k k' h
  have hn := congrArg ofName? (Json.faithful_string h)
  rw [ofName?_name,ofName?_name] at hn
  exact Option.some.inj hn

theorem FunctionRecord.faithful : Faithful FunctionRecord.toJson := by
  intro r r' h
  have hn := Json.faithful_string.field "name" h rfl rfl
  have hd := Location.faithful.field "decl" h rfl rfl
  have hl := Location.faithful.field "loc" h rfl rfl
  have hline := Json.faithful_nat.field "line" h rfl rfl
  cases r
  cases r'
  dsimp only at hn hd hl hline
  rw [hn,hd,hl,hline]

theorem BranchRecord.faithful : Faithful BranchRecord.toJson := by
  intro r r' h
  have hl := Location.faithful.field "loc" h rfl rfl
  have hk := BranchKind.faithful.field "type" h rfl rfl
  have hp := Location.faithful.array.field "locations" h rfl rfl
  have hline := Json.faithful_nat.field "line" h rfl rfl
  cases r
  cases r'
  dsimp only at hl hk hp hline
  rw [hl,hk,hp,hline]

/-! ### Proper numbers -/

namespace Json

theorem properEntries_iff {entries : List (String × Json)} :
    ProperEntries entries ↔ ∀ e ∈ entries, e.2.ProperNumbers := by
  induction entries with
  | nil => exact ⟨fun _ => nofun,fun _ => trivial⟩
  | cons e entries ih => rw [ProperEntries,ih,List.forall_mem_cons]

theorem properItems_iff {items : List Json} :
    ProperItems items ↔ ∀ j ∈ items, j.ProperNumbers := by
  induction items with
  | nil => exact ⟨fun _ => nofun,fun _ => trivial⟩
  | cons j items ih => rw [ProperItems,ih,List.forall_mem_cons]

theorem properEntries_insertEntry {entries : List (String × Json)} {key : String} {value : Json}
    (hv : value.ProperNumbers) (h : ProperEntries entries) :
    ProperEntries (insertEntry key value entries) := by
  induction entries with
  | nil => exact ⟨hv,trivial⟩
  | cons e entries ih =>
    unfold insertEntry
    split
    · exact ⟨hv,h⟩
    · split
      · exact ⟨hv,h.2⟩
      · exact ⟨h.1,ih h.2⟩

theorem properEntries_sortEntries {entries : List (String × Json)} (h : ProperEntries entries) :
    ProperEntries (sortEntries entries) := by
  suffices hs : ∀ sorted, ProperEntries sorted →
      ProperEntries (entries.foldl (fun sorted e => insertEntry e.1 e.2 sorted) sorted) from
    hs [] trivial
  induction entries with
  | nil => exact fun _ hs => hs
  | cons e entries ih => exact fun sorted hs => ih h.2 _ (properEntries_insertEntry h.1 hs)

mutual

theorem properNumbers_canonical : ∀ j : Json, j.ProperNumbers → j.canonical.ProperNumbers
  | .null, h => h
  | .bool _, h => h
  | .number _, h => h
  | .string _, h => h
  | .array items, h => properItems_canonical items h
  | .object entries, h => properEntries_sortEntries (properEntries_canonical entries h)

theorem properItems_canonical : ∀ items : List Json, ProperItems items → ProperItems (canonicalItems items)
  | [], h => h
  | j :: items, h => ⟨properNumbers_canonical j h.1,properItems_canonical items h.2⟩

theorem properEntries_canonical : ∀ entries : List (String × Json),
    ProperEntries entries → ProperEntries (canonicalEntries entries)
  | [], h => h
  | (_,j) :: entries, h => ⟨properNumbers_canonical j h.1,properEntries_canonical entries h.2⟩

end

theorem properNumbers_table {α : Type} {f : α → Json} (h : ∀ a, (f a).ProperNumbers) (items : List α) :
    (tableJson f items).ProperNumbers := by
  refine properEntries_iff.mpr fun e he => ?_
  rw [indexed_eq] at he
  obtain ⟨p,-,rfl⟩ := List.mem_map.mp he
  exact h p.1

theorem properNumbers_array {α : Type} {f : α → Json} (h : ∀ a, (f a).ProperNumbers) (items : List α) :
    (array (items.map f)).ProperNumbers := by
  refine properItems_iff.mpr fun j hj => ?_
  obtain ⟨a,-,rfl⟩ := List.mem_map.mp hj
  exact h a

/-- What a field of arbitrary JSON holds: objects sorted by key without repeated keys, and numbers with
the bits they can have. -/
structure Stored (j : Json) : Prop where
  canonical_eq : j.canonical = j
  properNumbers : j.ProperNumbers

end Json

theorem Json.properNumbers_nat (n : Nat) : (Json.nat n).ProperNumbers := trivial

theorem Location.properNumbers (l : Location) : l.toJson.ProperNumbers :=
  ⟨⟨trivial,trivial,trivial⟩,⟨trivial,trivial,trivial⟩,trivial⟩

theorem FunctionRecord.properNumbers (r : FunctionRecord) : r.toJson.ProperNumbers :=
  ⟨trivial,r.decl.properNumbers,r.loc.properNumbers,trivial,trivial⟩

theorem BranchRecord.properNumbers (r : BranchRecord) : r.toJson.ProperNumbers :=
  ⟨r.loc.properNumbers,trivial,Json.properNumbers_array Location.properNumbers r.locations,trivial,trivial⟩

namespace FileCoverage

variable {a b : FileCoverage} {s t : String}

/-! ### The payload -/

/-- The source map of a coverage, if it has one, is a value as JSON documents are held. -/
def StoresSourceMap (x : FileCoverage) : Prop := ∀ j, x.inputSourceMap = some j → j.Stored

theorem properNumbers_toJson (ha : a.StoresSourceMap) : a.toJson.ProperNumbers := by
  rw [toJson_eq,Json.ProperNumbers,Json.properEntries_iff]
  intro e he
  rcases List.mem_append.mp he with he | he
  · rcases List.mem_append.mp he with he | he
    · refine Json.properEntries_iff.mp ?_ e he
      exact ⟨trivial,Json.properNumbers_table Location.properNumbers _,
        Json.properNumbers_table FunctionRecord.properNumbers _,
        Json.properNumbers_table BranchRecord.properNumbers _,
        Json.properNumbers_table Json.properNumbers_nat _,Json.properNumbers_table Json.properNumbers_nat _,
        Json.properNumbers_table (Json.properNumbers_array Json.properNumbers_nat) _,trivial⟩
    · cases hm : a.inputSourceMap with
      | none =>
        rw [hm] at he
        cases he
      | some j =>
        rw [hm] at he
        rw [List.mem_singleton.mp he]
        exact (ha j hm).properNumbers
  · cases hh : a.hash with
    | none =>
      rw [hh] at he
      cases he
    | some h =>
      rw [hh] at he
      rw [List.mem_singleton.mp he]
      trivial

theorem properNumbers_taggedPayload (ha : a.StoresSourceMap) (schema : String) :
    (a.taggedPayload schema).ProperNumbers := by
  have hc := Json.properNumbers_canonical _ (properNumbers_toJson (a := { a with hash := none }) ha)
  rw [taggedPayload_eq]
  rw [toJson_eq,Json.canonical] at hc
  exact Json.properEntries_insertEntry trivial hc

section Payload

theorem schema_of_taggedPayload (h : a.taggedPayload s = b.taggedPayload t) : s = t := by
  have hf := congrArg (Json.field? schemaKey) h
  rw [field?_taggedPayload,field?_taggedPayload,if_pos rfl,if_pos rfl] at hf
  exact Json.string.inj (Option.some.inj hf)

/-- A field of the coverage is the same in two payloads that are the same. -/
theorem lookup_of_taggedPayload (h : a.taggedPayload s = b.taggedPayload t) (key : String)
    (hk : key ≠ schemaKey) :
    (Json.lookup key { a with hash := none }.entries).map Json.canonical =
      (Json.lookup key { b with hash := none }.entries).map Json.canonical := by
  have hf := congrArg (Json.field? key) h
  rwa [field?_taggedPayload,field?_taggedPayload,if_neg hk,if_neg hk] at hf

theorem field_of_taggedPayload {α : Type} {f : α → Json} (hf : Faithful f) (key : String) {x y : α}
    (h : a.taggedPayload s = b.taggedPayload t) (hk : key ≠ schemaKey)
    (hx : Json.lookup key { a with hash := none }.entries = some (f x))
    (hy : Json.lookup key { b with hash := none }.entries = some (f y)) : x = y := by
  have hl := lookup_of_taggedPayload h key hk
  rw [hx,hy] at hl
  exact hf (Option.some.inj hl)

theorem map_canonical_of_stored (ha : a.StoresSourceMap) :
    a.inputSourceMap.map Json.canonical = a.inputSourceMap := by
  cases hm : a.inputSourceMap with
  | none => rfl
  | some j => rw [Option.map_some,(ha j hm).canonical_eq]

theorem lookup_sourceMap (x : FileCoverage) :
    Json.lookup "inputSourceMap" { x with hash := none }.entries = x.inputSourceMap :=
  lookup_entries { x with hash := none } "inputSourceMap"

theorem lookup_field (x : FileCoverage) {key : String} (hh : "hash" ≠ key) (hm : "inputSourceMap" ≠ key) :
    Json.lookup key { x with hash := none }.entries = Json.lookup key x.fields := by
  rw [lookup_entries,if_neg hh,if_neg hm]
  rfl

/-- The payload tells the tag and the coverage but for its fingerprint. -/
theorem taggedPayload_inj (ha : a.StoresSourceMap) (hb : b.StoresSourceMap)
    (h : a.taggedPayload s = b.taggedPayload t) :
    s = t ∧ ({ a with hash := none } : FileCoverage) = { b with hash := none } := by
  have hcounts : Faithful countsJson := Json.faithful_nat.array
  have hpath := field_of_taggedPayload Json.faithful_string "path" h (by decide)
    (a.lookup_field (by decide) (by decide)) (b.lookup_field (by decide) (by decide))
  have hstatements := field_of_taggedPayload Location.faithful.table "statementMap" h (by decide)
    (a.lookup_field (by decide) (by decide)) (b.lookup_field (by decide) (by decide))
  have hfunctions := field_of_taggedPayload FunctionRecord.faithful.table "fnMap" h (by decide)
    (a.lookup_field (by decide) (by decide)) (b.lookup_field (by decide) (by decide))
  have hbranches := field_of_taggedPayload BranchRecord.faithful.table "branchMap" h (by decide)
    (a.lookup_field (by decide) (by decide)) (b.lookup_field (by decide) (by decide))
  have hs := field_of_taggedPayload Json.faithful_nat.table "s" h (by decide)
    (a.lookup_field (by decide) (by decide)) (b.lookup_field (by decide) (by decide))
  have hf := field_of_taggedPayload Json.faithful_nat.table "f" h (by decide)
    (a.lookup_field (by decide) (by decide)) (b.lookup_field (by decide) (by decide))
  have hcs := field_of_taggedPayload hcounts.table "b" h (by decide)
    (a.lookup_field (by decide) (by decide)) (b.lookup_field (by decide) (by decide))
  have hmap := lookup_of_taggedPayload h "inputSourceMap" (by decide)
  rw [lookup_sourceMap,lookup_sourceMap,map_canonical_of_stored ha,map_canonical_of_stored hb] at hmap
  refine ⟨schema_of_taggedPayload h,?_⟩
  rw [hpath,hstatements,hfunctions,hbranches,hs,hf,hcs,hmap]

end Payload
end FileCoverage

/-! ### The bytes and the digest -/

theorem toList_loop (bytes : ByteArray) (i : Nat) (before : List UInt8) :
    ByteArray.toList.loop bytes i before = before.reverse ++ bytes.data.toList.drop i := by
  unfold ByteArray.toList.loop
  split
  · rename_i h
    have hi : i < bytes.data.toList.length := h
    rw [toList_loop,List.drop_eq_getElem_cons hi,List.reverse_cons,List.append_assoc]
    congr 2
    simp [ByteArray.get!,h]
  · rename_i h
    rw [List.drop_eq_nil_of_le (Nat.not_lt.mp h),List.append_nil]
termination_by bytes.size - i

theorem toUTF8_toList_inj {s t : String} (h : s.toUTF8.toList = t.toUTF8.toList) : s = t := by
  rw [ByteArray.toList,ByteArray.toList,toList_loop,toList_loop] at h
  exact String.toByteArray_inj.mp (ByteArray.ext (Array.toList_inj.mp h))

namespace Sha256

theorem hexDigits_eq (byte : UInt8) :
    hexDigits byte = [Json.hexDigit (byte.toNat / 16),Json.hexDigit (byte.toNat % 16)] := by
  have hd : ∀ n < 16, Nat.toDigits 16 n = [Json.hexDigit n] := by decide
  have := byte.toNat_lt
  rw [hexDigits,hd _ (by omega),hd _ (by omega)]
  rfl

theorem hexDigits_inj {x y : UInt8} (h : hexDigits x = hexDigits y) : x = y := by
  rw [hexDigits_eq,hexDigits_eq] at h
  simp only [List.cons.injEq,and_true] at h
  have hd : ∀ m < 16, ∀ n < 16, Json.hexDigit m = Json.hexDigit n → m = n := by decide
  have hx := x.toNat_lt
  have hy := y.toNat_lt
  have hhigh := hd _ (by omega) _ (by omega) h.1
  have hlow := hd _ (by omega) _ (by omega) h.2
  exact UInt8.toNat_inj.mp (by omega)

theorem flatMap_hexDigits_inj {xs ys : List UInt8} (h : xs.flatMap hexDigits = ys.flatMap hexDigits) :
    xs = ys := by
  induction xs generalizing ys with
  | nil =>
    cases ys with
    | nil => rfl
    | cons y ys =>
      rw [List.flatMap_cons,hexDigits_eq] at h
      cases h
  | cons x xs ih =>
    cases ys with
    | nil =>
      rw [List.flatMap_cons,hexDigits_eq] at h
      cases h
    | cons y ys =>
      rw [List.flatMap_cons,List.flatMap_cons] at h
      obtain ⟨hxy,hrest⟩ := List.append_inj h (by rw [hexDigits_eq,hexDigits_eq]; rfl)
      rw [hexDigits_inj hxy,ih hrest]

theorem ofText_eq_of_hex {s t : String} (h : hex s = hex t) : ofText s = ofText t :=
  flatMap_hexDigits_inj (String.ofList_injective h)

end Sha256

namespace FileCoverage

variable {a b : FileCoverage} {s t : String}

/-- The bytes that are fed to the digest. -/
def hashedBytes (x : FileCoverage) (schema : String) : List UInt8 := (x.hashedText schema).toUTF8.toList

theorem hashedBytes_inj (ha : a.StoresSourceMap) (hb : b.StoresSourceMap)
    (h : a.hashedBytes s = b.hashedBytes t) :
    s = t ∧ ({ a with hash := none } : FileCoverage) = { b with hash := none } :=
  taggedPayload_inj ha hb (Json.compact_inj (properNumbers_taggedPayload ha s)
    (properNumbers_taggedPayload hb t) (toUTF8_toList_inj h))

/-- The bytes that are hashed determine the layout's tag and the coverage in all but its fingerprint,
which never goes into them. So coverages that differ in anything else have one fingerprint only where
two byte strings have one digest. -/
theorem hashedBytes_determine :
    (∀ (a b : FileCoverage) (s t : String), a.StoresSourceMap → b.StoresSourceMap →
      a.hashedBytes s = b.hashedBytes t →
        s = t ∧ ({ a with hash := none } : FileCoverage) = { b with hash := none })
    ∧ (∀ (a : FileCoverage) (h : Option String) (s : String),
      ({ a with hash := h } : FileCoverage).hashedBytes s = a.hashedBytes s)
    ∧ ∀ (a b : FileCoverage) (s t : String), a.StoresSourceMap → b.StoresSourceMap →
      a.fingerprintWith s = b.fingerprintWith t →
        (s = t ∧ ({ a with hash := none } : FileCoverage) = { b with hash := none })
        ∨ a.hashedBytes s ≠ b.hashedBytes t
          ∧ Sha256.digest (a.hashedBytes s) = Sha256.digest (b.hashedBytes t) := by
  refine ⟨fun a b s t ha hb h => hashedBytes_inj ha hb h,fun a h s => rfl,fun a b s t ha hb h => ?_⟩
  by_cases hbytes : a.hashedBytes s = b.hashedBytes t
  · exact .inl (hashedBytes_inj ha hb hbytes)
  · exact .inr ⟨hbytes,Sha256.ofText_eq_of_hex h⟩

/-- A source map with a number that is no integer. -/
def scaledMap : Json :=
  .object [("mappings",.string "AAAA"),("version",.nat 3),
    ("x_scale",.number (.binary { negative := false, mantissa := Nat.pow 2 52, exponent := -53 }))]

theorem stored_scaledMap : scaledMap.Stored := by
  refine ⟨rfl,trivial,trivial,?_,trivial⟩
  exact ⟨by decide,by decide,fun _ => by decide⟩

/-- A coverage hashed before and after it got its fingerprint. -/
theorem hashedBytes_determine_scaled :
    let x : FileCoverage := { manyStatements with inputSourceMap := some scaledMap, hash := none }
    let y : FileCoverage := { x with hash := some x.fingerprint }
    x.StoresSourceMap ∧ y.StoresSourceMap ∧ x.hashedBytes coverageSchema = y.hashedBytes coverageSchema
      ∧ ({ x with hash := none } : FileCoverage) = { y with hash := none } := by
  intro x y
  have hx : x.StoresSourceMap := fun j hj => Option.some.inj hj ▸ stored_scaledMap
  have hy : y.StoresSourceMap := fun j hj => Option.some.inj hj ▸ stored_scaledMap
  have hbytes : x.hashedBytes coverageSchema = y.hashedBytes coverageSchema :=
    (hashedBytes_determine.2.1 x (some x.fingerprint) coverageSchema).symm
  refine ⟨hx,hy,hbytes,(hashedBytes_determine.1 x y _ _ hx hy hbytes).2⟩

end FileCoverage
end CoverageCounters
