import Mathlib.Logic.Relation
import CoverageCounters.Proofs.LiteralMeaning

/-!
One evaluation of a prelude. It ends with the entry of its path: with the object that stands there, if
that has the fingerprint, and then no object that was there changes; otherwise, where the registry can be
had and set, with a new object for the initial coverage, which it puts into the registry. The registry is
made only where there is none.
-/

namespace CoverageCounters

open Eval

namespace Heap

def Holds (h : Heap) (a b : Nat) : Prop := ∃ key, h.read a key = .object b

/-- What can be reached from an object. -/
def Reaches (h : Heap) : Nat → Nat → Prop := Relation.ReflTransGen h.Holds

theorem slot_of_isPrefix {h h' : Heap} (hp : h <+: h') {a : Nat} (ha : a < h.length) (key : String) :
    h'.slot a key = h.slot a key := by
  obtain ⟨new,rfl⟩ := hp
  exact slot_append_left ha

theorem read_of_isPrefix {h h' : Heap} (hp : h <+: h') {a : Nat} (ha : a < h.length) (key : String) :
    h'.read a key = h.read a key := read_of_slot (slot_of_isPrefix hp ha key)

end Heap

namespace Denotes

variable {h : Heap} {first last a b : Nat} {j : Json}

/-- What an object that stands for JSON holds stands for a part of it. -/
theorem of_holds (hd : Denotes h first last (.object a) j) (hh : h.Holds a b) :
    ∃ part, Denotes h first last (.object b) part := by
  obtain ⟨key,hr⟩ := hh
  cases hd with
  | @composite _ _ _ o _ _ entries ha hl ho hj hk keys values =>
    rw [Heap.read_of_getElem? ho,Object.get] at hr
    cases hv : o.own key with
    | none => rw [hv] at hr; cases hr
    | some v =>
      rw [hv,Option.getD_some] at hr
      have hs : (Json.lookup key entries).isSome := by rw [← keys,hv]; rfl
      obtain ⟨part,hp⟩ := Option.isSome_iff_exists.mp hs
      exact ⟨part,(hr ▸ values key v part hv hp).widen (by omega) le_rfl⟩

theorem read_of_string {entries : List (String × Json)} {key text : String}
    (hd : Denotes h first last (.object a) (.object entries))
    (hk : Json.lookup key entries = some (.string text)) : h.read a key = .string text := by
  cases hd with
  | @composite _ _ _ o _ _ _ ha hl ho hj hi keys values =>
    cases hj
    obtain ⟨v,hv⟩ := Option.isSome_iff_exists.mp ((keys key).trans (by rw [hk]; rfl))
    rw [Heap.read_of_getElem? ho,Object.get,hv,Option.getD_some]
    cases values key v _ hv hk with
    | string => rfl
    | composite _ _ _ hp => cases hp

theorem bounds_of_reaches (hd : Denotes h first last (.object a) j) (hr : h.Reaches a b) :
    first ≤ b ∧ b < last := by
  have hb : ∃ part, Denotes h first last (.object b) part := by
    induction hr with
    | refl => exact ⟨j,hd⟩
    | tail _ hh ih =>
      obtain ⟨part,hp⟩ := ih
      exact hp.of_holds hh
  obtain ⟨part,hp⟩ := hb
  exact hp.bounds

/-- To set a text in an object adds an entry; the parts are behind the object, so they stay. -/
theorem set_string {entries : List (String × Json)}
    (hd : Denotes h first last (.object a) (.object entries)) (key text : String) :
    Denotes (h.write a key (.string text)) first last (.object a)
      (.object (entries ++ [(key,.string text)])) := by
  cases hd with
  | @composite _ _ _ o _ _ _ ha hl ho hj hk keys values =>
    cases hj
    have hw : (h.write a key (.string text))[a]? = some (o.set key (.string text)) := by
      rw [Heap.getElem?_write_self,ho]
      rfl
    refine .composite ha hl hw rfl hk (fun k => ?_) fun k v part hv hp => ?_
    · rw [Object.own_set,Json.lookup_append,Json.lookup,Json.lookup_nil,Option.none_or]
      by_cases hk : k = key
      · rw [if_pos hk,if_pos hk.symm]
        rfl
      · rw [if_neg hk,if_neg (Ne.symm hk),Option.none_or,keys]
    · rw [Object.own_set] at hv
      rw [Json.lookup_append,Json.lookup,Json.lookup_nil,Option.none_or] at hp
      by_cases hk : k = key
      · rw [if_pos hk] at hv
        rw [if_pos hk.symm,Option.some_or] at hp
        cases hv
        cases hp
        exact .string text
      · rw [if_neg hk] at hv
        rw [if_neg (Ne.symm hk),Option.none_or] at hp
        exact (values k v part hv hp).mono fun b hb _ => Heap.getElem?_write_of_ne (by omega)

end Denotes

namespace Bootstrap

open Build

/-! ### The statements -/

variable {S : Set Nat} {g : Nat} {strict : Bool} {h : Heap} {scope : Scope} {rest : List Scope}

theorem run_globalObject (hf : scope "Function" = some (.function .constructor)) :
    (globalObject.eval ⟨g,strict⟩).run ⟨h,scope :: rest⟩ = some (.object g,⟨h,scope :: rest⟩) := by
  simp [globalObject,call,paren,construct,argument,Node.eval,evalCall,evalParts,evalAll,Head.apply,
    run_lookup hf]

/-- Every object that is held is there. The global object inherits from some objects, which inherit only
from each other. -/
structure Grounded (S : Set Nat) (g : Nat) (h : Heap) : Prop where
  closed : h.Closed
  ancestral : h.Ancestral S
  global : g < h.length
  under : h.Under S g

theorem Grounded.grows {h' : Heap} (hs : Grounded S g h) (hg : h.Grows S h') (hc : h'.Closed) :
    Grounded S g h' :=
  ⟨hc,hg.ancestral hs.ancestral,hs.global.trans_le hg.length,hg.under hs.global hs.under⟩

/-- A registry can be had under a global name: an object stands there, or nothing that counts as true, and
an object can be put there. -/
inductive Openable (g : Nat) (v : String) (h : Heap) : Prop where
  | held {r : Nat} (hr : h.read g v = .object r)
  | empty {x : Value} (hs : h.slot g v = some (.data x true)) (hx : x.isTruthy = false)
  | absent (hb : h.Bare g v) {o : Object} (ho : h[g]? = some o) (he : o.extensible = true)

namespace Openable

variable {h' : Heap} {v : String}

theorem get? (ho : Openable g v h) : h.get? (.object g) v = some (h.read g v) := by
  cases ho with
  | held hr =>
    rw [hr]
    exact Heap.get?_of_read hr nofun
  | empty hs hx =>
    rw [Heap.read_eq_slot,hs]
    exact Heap.get?_of_slot hs
  | absent hb ho he =>
    rw [Heap.get?_object,Heap.lookup,hb,Heap.read_eq_slot,hb.slot]
    rfl

theorem allows? (ho : Openable g v h) (hf : (h.read g v).isTruthy = false) :
    h.allows? g v = some true := by
  cases ho with
  | held hr => rw [hr] at hf; cases hf
  | empty hs hx => exact Heap.allows?_of_slot hs
  | absent hb ho he => exact hb.allows? ho he

theorem eq_object (ho : Openable g v h) (ht : (h.read g v).isTruthy = true) :
    ∃ r, h.read g v = .object r := by
  cases ho with
  | held hr => exact ⟨_,hr⟩
  | empty hs hx =>
    rw [Heap.read_eq_slot,hs] at ht
    cases hx.symm.trans ht
  | absent hb ho he =>
    rw [Heap.read_eq_slot,hb.slot] at ht
    cases ht

theorem grows (ho : Openable g v h) (hs : Grounded S g h) (hg : h.Grows S h')
    (he : h'.slot g v = h.slot g v) : Openable g v h' := by
  cases ho with
  | held hr => exact .held ((Heap.read_of_slot he).trans hr)
  | empty he' hx => exact .empty (he.trans he') hx
  | absent hb ho hx =>
    obtain ⟨o',ho',-,hx'⟩ := hg.exists_old ho
    exact .absent (hg.bare hs.ancestral hs.under hb hs.global (he.trans hb.slot)) ho' (hx'.trans hx)

end Openable

/-- The registry is what stands under the name, or a new object that is put there. -/
theorem run_registry {v : String} (hg : scope "global" = some (.object g))
    (hv : scope "gcv" = some (.string v)) (hs : Grounded S g h) (ho : Openable g v h) :
    (registry.eval ⟨g,strict⟩).run ⟨h,scope :: rest⟩ =
      if (h.read g v).isTruthy then some (h.read g v,⟨h,scope :: rest⟩)
      else some (.object h.length,
        ⟨Heap.write (h ++ [.empty false]) g v (.object h.length),scope :: rest⟩) := by
  have hk : (Value.string v).key? = some v := rfl
  have hgrow := Heap.Grows.append_empty hs.ancestral false
  simp [registry,Node.eval,eval_element,eval_assign_element,eval_object,evalEntries,run_lookup hg,
    run_lookup hv,hk,ofOption,LogicalOperator.settles,run_getMember ho.get?]
  split
  · simp
  next hf =>
    have ha := (ho.grows hs hgrow Heap.slot_append_empty).allows?
      ((congrArg Value.isTruthy (Heap.read_append_empty false)).trans (by simpa using hf))
    simp [run_lookup hg,run_lookup hv,hk,run_setMember ha]

/-- How the registry is had: it is there, or nothing is there and it is made. -/
inductive Opens (g : Nat) (v : String) (h : Heap) : Nat → Heap → Prop where
  | found {r : Nat} (hr : h.read g v = .object r) : Opens g v h r h
  | made (hf : (h.read g v).isTruthy = false) :
      Opens g v h h.length (Heap.write (h ++ [.empty false]) g v (.object h.length))

theorem exists_opens {v : String} (hg : scope "global" = some (.object g))
    (hv : scope "gcv" = some (.string v)) (hs : Grounded S g h) (ho : Openable g v h) (strict : Bool)
    (rest : List Scope) :
    ∃ r h', (registry.eval ⟨g,strict⟩).run ⟨h,scope :: rest⟩ =
      some (.object r,⟨h',scope :: rest⟩) ∧ Opens g v h r h' := by
  rw [run_registry hg hv hs ho]
  by_cases ht : (h.read g v).isTruthy = true
  · obtain ⟨r,hr⟩ := ho.eq_object ht
    rw [if_pos ht,hr]
    exact ⟨_,_,rfl,.found hr⟩
  · rw [if_neg ht]
    exact ⟨_,_,rfl,.made (by simpa using ht)⟩

theorem exists_data {j : Json} {entries : List (String × Json)} (hj : j = .object entries)
    (hl : Json.Lacks "__proto__" j) (m : Realm) (h : Heap) (scopes : List Scope) :
    ∃ (d : Nat) (h' : Heap),
      ((Build.data j).eval m).run ⟨h,scopes⟩ = some (.object d,⟨h',scopes⟩) ∧
      h <+: h' ∧ Denotes h' h.length h'.length (.object d) j ∧ (h.Closed → h'.Closed) ∧
      (h.Ancestral S → h.Grows S h') := by
  obtain ⟨v,h',hr,hk,hd,hc,hn⟩ := literal_data m hl h scopes
  have hv : ∃ d, v = .object d := by
    subst hj
    cases hd with
    | composite => exact ⟨_,rfl⟩
  obtain ⟨d,rfl⟩ := hv
  exact ⟨d,h',hr,hk,hd,hc,fun hs => .of_isPrefix hk hs hn⟩

theorem hoisted_locals (p : Parameters) (name : String) :
    hoisted [locals p,reuse,stamp,publish] name =
      if name ∈ ["path","hash","Function","global","gcv","coverageData","coverage"] then
        some .undefined else none := by
  have hv : varNamesAll [locals p,reuse,stamp,publish] =
      ["path","hash","Function","global","gcv","coverageData","coverage"] := rfl
  rw [hoisted,hv]
  simp only [List.contains_eq_mem,decide_eq_true_eq]

/-- All names but the two for objects are set. -/
structure Prepared (g : Nat) (p : Parameters) (scope : Scope) : Prop where
  path : scope "path" = some (.string p.path)
  hash : scope "hash" = some (.string p.hash)
  global : scope "global" = some (.object g)
  gcv : scope "gcv" = some (.string p.coverageVariable)
  coverageData : (scope "coverageData").isSome
  coverage : (scope "coverage").isSome

theorem exists_prepared (g : Nat) (strict : Bool) (p : Parameters) (h : Heap) (rest : List Scope)
    (declarators : List Declarator) :
    ∃ scope, Prepared g p scope ∧
      (execDeclarators ⟨g,strict⟩ (declarator "path" (string p.path) ::
        declarator "hash" (string p.hash) ::
        declarator "Function" (member (paren (function [])) "constructor") ::
        declarator "global" globalObject :: declarator "gcv" (string p.coverageVariable) ::
        declarators)).run ⟨h,hoisted [locals p,reuse,stamp,publish] :: rest⟩ =
      (execDeclarators ⟨g,strict⟩ declarators).run ⟨h,scope :: rest⟩ := by
  have hs (text : String) (s : RunState) : ((string text).eval ⟨g,strict⟩).run s =
      some (.string text,s) := by
    rw [eval_string]
    rfl
  have hf (s : RunState) : ((member (paren (function [])) "constructor").eval ⟨g,strict⟩).run s =
      some (.function .constructor,s) := by
    rw [eval_member]
    rfl
  have hd : ∀ name ∈ ["path","hash","Function","global","gcv","coverageData","coverage"],
      hoisted [locals p,reuse,stamp,publish] name = some .undefined := by
    intro name hn
    rw [hoisted_locals,if_pos hn]
  generalize hoisted [locals p,reuse,stamp,publish] = scope at hd
  simp only [List.forall_mem_cons] at hd
  obtain ⟨h₁,h₂,h₃,h₄,h₅,h₆,h₇,-⟩ := hd
  rw [run_declarator _ (hs ..),run_declarator _ (hs ..),run_declarator _ (hf _),
    run_declarator _ (run_globalObject ?_),run_declarator _ (hs ..)]
  · exact ⟨_,by constructor <;> simp [h₆,h₇],rfl⟩
  all_goals simp [h₁,h₂,h₃,h₄,h₅]

/-- What the statements behind the declarations use: the registry and the new coverage are there. -/
structure Locals (p : Parameters) (r d : Nat) (scope : Scope) : Prop where
  path : scope "path" = some (.string p.path)
  hash : scope "hash" = some (.string p.hash)
  coverageData : scope "coverageData" = some (.object d)
  coverage : scope "coverage" = some (.object r)

/-- The declarations make the new coverage, then the registry is opened. -/
theorem run_locals {p : Parameters} {entries : List (String × Json)} (hp : p.data = .object entries)
    (hj : Json.Lacks "__proto__" p.data) (hs : Grounded S g h) (ho : Openable g p.coverageVariable h)
    (strict : Bool) (rest : List Scope) :
    ∃ (r d : Nat) (h₁ h₂ : Heap) (scope : Scope),
      ((locals p).exec ⟨g,strict⟩).run ⟨h,hoisted [locals p,reuse,stamp,publish] :: rest⟩ =
        some (none,⟨h₂,scope :: rest⟩) ∧
      Locals p r d scope ∧ h <+: h₁ ∧ Denotes h₁ h.length h₁.length (.object d) p.data ∧
      h.Grows S h₁ ∧ Grounded S g h₁ ∧ Opens g p.coverageVariable h₁ r h₂ := by
  obtain ⟨scope,hscope,hn⟩ := exists_prepared g strict p h rest
    [declarator "coverageData" (Build.data p.data),declarator "coverage" registry]
  obtain ⟨d,h₁,hrd,hk,hd,hc,hgrow⟩ := exists_data (S := S) hp hj ⟨g,strict⟩ h (scope :: rest)
  have hgrow := hgrow hs.ancestral
  have hs₁ := hs.grows hgrow (hc hs.closed)
  have ho := ho.grows hs hgrow (Heap.slot_of_isPrefix hk hs.global _)
  have hglobal : Function.update scope "coverageData" (some (.object d)) "global" =
      some (.object g) := by
    simp [hscope.global]
  have hgcv : Function.update scope "coverageData" (some (.object d)) "gcv" =
      some (.string p.coverageVariable) := by
    simp [hscope.gcv]
  obtain ⟨r,h₂,hrr,ho⟩ := exists_opens hglobal hgcv hs₁ ho strict rest
  have hrun := hn.trans (run_declarator _ hrd hscope.coverageData)
  rw [run_declarator _ hrr (by simp [hscope.coverage]),execDeclarators] at hrun
  have he : (locals p).exec ⟨g,strict⟩ = _ := exec_bindings _ _
  rw [he,run_bind_of hrun]
  exact ⟨r,d,h₁,h₂,_,rfl,by constructor <;> simp [hscope.path,hscope.hash],hk,hd,hgrow,hs₁,ho⟩

theorem strictlyEquals_string (v : Value) (s : String) :
    v.strictlyEquals (.string s) = decide (v = .string s) := by
  cases v <;> simp [Value.strictlyEquals]

/-- Whether a value is an object with the fingerprint. -/
def hasHash (h : Heap) (hash : String) : Value → Bool
  | .object e => h.read e "hash" = .string hash
  | _ => false

theorem hasHash_of_address? {hash : String} {x : Value} (hx : x.address? = none) :
    hasHash h hash x = false := by
  cases x <;> first | rfl | cases hx

/-- What a program finds under its path, and what it learns of the fingerprint. -/
structure Legible (h : Heap) (r : Nat) (p : Parameters) (x : Value) : Prop where
  entry : h.get? (.object r) p.path = some x
  hash : x.isTruthy = true → ∃ u, h.get? x "hash" = some u ∧
    (u = .string p.hash ↔ hasHash h p.hash x = true)

theorem legible_of_held {p : Parameters} {r e : Nat} (he : h.read r p.path = .object e)
    (hh : h.read e "hash" = .string p.hash) : Legible h r p (.object e) :=
  ⟨Heap.get?_of_read he nofun,fun _ =>
    ⟨_,Heap.get?_of_read hh nofun,by simp [hasHash,hh]⟩⟩

/-- An entry that can be asked for its fingerprint. -/
structure Asked (S : Set Nat) (h : Heap) (e : Nat) : Prop where
  tame : h.Tame S {"hash"} e
  slot : h.slot e "hash" ≠ some .special

/-- Where nothing but methods is inherited, what is found is what the registry holds, or a method. -/
theorem exists_legible {p : Parameters} {r : Nat} (hr : h.MildRoots {"hash"})
    (ho : h.Ordinary S {p.path} r) (he : ∀ e, h.read r p.path = .object e → Asked S h e) :
    ∃ x, Legible h r p x ∧ hasHash h p.hash x = hasHash h p.hash (h.read r p.path) := by
  obtain ⟨x,hx⟩ := ho.tame.exists_get? rfl (ho.not_special rfl)
  have hread := ho.tame.get? rfl hx
  refine ⟨x,⟨hx,fun ht => ?_⟩,?_⟩
  · cases ha : x.address? with
    | some e =>
      obtain rfl := Value.address?_eq_some.mp ha
      have hre : h.read r p.path = .object e := by
        obtain hre | ⟨-,f,hf⟩ := hread
        · exact hre.symm
        · cases hf
      obtain ⟨u,hu⟩ := (he e hre).tame.exists_get? rfl (he e hre).slot
      refine ⟨u,hu,?_⟩
      obtain rfl | ⟨hun,f,rfl⟩ := (he e hre).tame.get? rfl hu
      · simp [hasHash]
      · simp [hasHash,hun]
    | none =>
      obtain ⟨u,hu⟩ := hr.exists_get? rfl ht ha (by cases x <;> rfl)
      refine ⟨u,hu,?_⟩
      rw [hasHash_of_address? ha]
      obtain rfl | ⟨f,rfl⟩ := hr.get? rfl ha hu <;> simp
  · obtain rfl | ⟨hun,f,rfl⟩ := hread
    · rfl
    · rw [hun]
      rfl

namespace Locals

variable {p : Parameters} {r d : Nat} {x : Value}

theorem run_entry (hs : Locals p r d scope) (hl : Legible h r p x) :
    (entry.eval ⟨g,strict⟩).run ⟨h,scope :: rest⟩ = some (x,⟨h,scope :: rest⟩) := by
  have hk : (Value.string p.path).key? = some p.path := rfl
  simp [entry,eval_element,run_lookup hs.coverage,run_lookup hs.path,hk,ofOption,
    run_getMember hl.entry]

/-- The condition holds just if the entry is an object with the fingerprint. -/
theorem run_condition (hs : Locals p r d scope) (hl : Legible h r p x) (m : Realm)
    (rest : List Scope) :
    ∃ v, ((Node.logical .dummy .and entry (strictlyEqual (member entry "hash") (identifier "hash"))).eval
        m).run ⟨h,scope :: rest⟩ = some (v,⟨h,scope :: rest⟩) ∧
      v.isTruthy = hasHash h p.hash x := by
  simp only [Node.eval,LogicalOperator.settles,eval_strictlyEqual,eval_member,eval_identifier]
  rw [run_bind_of (hs.run_entry hl)]
  by_cases ht : x.isTruthy
  · obtain ⟨u,hu,hh⟩ := hl.hash ht
    refine ⟨.bool (u.strictlyEquals (.string p.hash)),?_,?_⟩
    · simp [ht,hs.run_entry hl,run_getMember hu,run_lookup hs.hash,require]
    · rw [Value.isTruthy,strictlyEquals_string,Bool.eq_iff_iff,decide_eq_true_iff]
      exact hh
  · refine ⟨x,by simp [ht],?_⟩
    cases x with
    | object e => exact absurd rfl ht
    | _ => simpa [hasHash] using ht

theorem run_reuse (hs : Locals p r d scope) (hl : Legible h r p x) :
    (reuse.exec ⟨g,strict⟩).run ⟨h,scope :: rest⟩ =
      some (if hasHash h p.hash x then some x else none,⟨h,scope :: rest⟩) := by
  obtain ⟨v,hr,hv⟩ := hs.run_condition hl ⟨g,strict⟩ rest
  rw [reuse,Node.exec,run_bind_of hr,hv]
  split
  · simp [Node.exec,execAll,hs.run_entry hl]
  · rfl

theorem run_stamp (hs : Locals p r d scope) (ha : h.allows? d "hash" = some true) :
    (stamp.exec ⟨g,strict⟩).run ⟨h,scope :: rest⟩ =
      some (none,⟨h.write d "hash" (.string p.hash),scope :: rest⟩) := by
  simp [stamp,eval_assign_member,run_lookup hs.coverageData,run_lookup hs.hash,run_setMember ha]

theorem run_publish (hs : Locals p r d scope) (ha : h.allows? r p.path = some true) :
    (publish.exec ⟨g,strict⟩).run ⟨h,scope :: rest⟩ =
      some (some (.object d),⟨h.write r p.path (.object d),scope :: rest⟩) := by
  have hk : (Value.string p.path).key? = some p.path := rfl
  simp [publish,entry,eval_assign_element,run_lookup hs.coverage,run_lookup hs.path,
    run_lookup hs.coverageData,hk,ofOption,run_setMember ha]

theorem run_rest_held (hs : Locals p r d scope) (hl : Legible h r p x)
    (hh : hasHash h p.hash x = true) :
    (execAll ⟨g,strict⟩ [reuse,stamp,publish]).run ⟨h,scope :: rest⟩ =
      some (some x,⟨h,scope :: rest⟩) := by
  rw [execAll,run_bind_of (hs.run_reuse hl),hh]
  rfl

/-- Otherwise the new coverage gets the fingerprint, is put into the registry and returned. -/
theorem run_rest_unheld (hs : Locals p r d scope) (hl : Legible h r p x)
    (hh : hasHash h p.hash x = false) (hd : h.allows? d "hash" = some true)
    (hr : (h.write d "hash" (.string p.hash)).allows? r p.path = some true) :
    (execAll ⟨g,strict⟩ [reuse,stamp,publish]).run ⟨h,scope :: rest⟩ =
      some (some (.object d),
        ⟨(h.write d "hash" (.string p.hash)).write r p.path (.object d),scope :: rest⟩) := by
  rw [execAll,run_bind_of (hs.run_reuse hl),hh]
  simp only [Bool.false_eq_true,if_false]
  rw [execAll,run_bind_of (hs.run_stamp hd),execAll,run_bind_of (hs.run_publish hr)]
  rfl

end Locals

/-! ### The two ways to end -/

section Ends

variable {p : Parameters} {entries : List (String × Json)} {h₁ h₂ h' : Heap} {r d e : Nat}

/-- The registry holds an object with the fingerprint for the path. -/
def Held (g : Nat) (p : Parameters) (h : Heap) (e : Nat) : Prop :=
  ∃ r, h.read g p.coverageVariable = .object r ∧ h.read r p.path = .object e ∧
    h.read e "hash" = .string p.hash

/-- A program can install its coverage. A registry can be had; it can take in an entry for the path, and
one that is there can be asked for its fingerprint. New objects, and values that are no objects, inherit
nothing but methods under the names of the entry and of the fingerprint, and what matters inherits neither
from the global object nor from the registry. -/
structure Receptive (S : Set Nat) (g : Nat) (p : Parameters) (h : Heap) : Prop where
  outside : g ∉ S
  roots : h.MildRoots {p.path, "hash"}
  opens : Openable g p.coverageVariable h
  registry : ∀ r, h.read g p.coverageVariable = .object r → h.Ordinary S {p.path} r ∧
    ∀ e, h.read r p.path = .object e → Asked S h e

/-- The entry that is held is taken, and every object that was there stays as it was. -/
structure Reuses (S : Set Nat) (g : Nat) (p : Parameters) (h : Heap) (e : Nat) (h' : Heap) : Prop where
  held : Held g p h e
  kept : h <+: h'
  grows : h.Grows S h'
  closed : h'.Closed

/-- Nothing that is held can be taken. The registry is the one that is there, or a new one where there is
none. Its entry for the path becomes a new object that stands for the entries and the fingerprint and
from which nothing that was there can be reached. Apart from this entry, and from the global name of a
new registry, the objects that were there and the registry have what they had. -/
structure Installs (S : Set Nat) (g : Nat) (p : Parameters) (entries : List (String × Json)) (h : Heap)
    (r e : Nat) (h' : Heap) : Prop where
  unheld : ∀ e', ¬ Held g p h e'
  registry : h.read g p.coverageVariable = .object r ∨
    ((h.read g p.coverageVariable).isTruthy = false ∧ h.length ≤ r ∧
      h'.read g p.coverageVariable = .object r)
  entry : h'.read r p.path = .object e
  payload : Denotes h' h.length h'.length (.object e) (.object (entries ++ [("hash",.string p.hash)]))
  apart : ∀ a, h'.Reaches e a → h.length ≤ a ∧ a ≠ r
  others : ∀ b key, b < h.length ∨ b = r → (b = r → key ≠ p.path) →
    (b = g → key = p.coverageVariable → h.read g p.coverageVariable = .object r) →
    h'.slot b key = h.slot b key
  grows : h.Grows S h'
  closed : h'.Closed

namespace Opens

variable {v : String}

theorem slot (ho : Opens g v h₁ r h₂) (hg : g < h₁.length) (b : Nat) (key : String) :
    h₂.slot b key = h₁.slot b key ∨ (b = g ∧ key = v ∧ (h₁.read g v).isTruthy = false) := by
  cases ho with
  | found hr => exact .inl rfl
  | made hf =>
    rw [Heap.slot_write (by simp; omega),Heap.slot_append_empty]
    split
    next hb => exact .inr ⟨hb.1,hb.2,hf⟩
    next => exact .inl rfl

theorem getElem? (ho : Opens g v h₁ r h₂) {b : Nat} (hb : b < h₁.length) (hg : b ≠ g) :
    h₂[b]? = h₁[b]? := by
  cases ho with
  | found hr => rfl
  | made hf => rw [Heap.getElem?_write_of_ne hg,List.getElem?_append_left hb]

theorem closed (ho : Opens g v h₁ r h₂) (hc : h₁.Closed) (hg : g < h₁.length) : h₂.Closed := by
  cases ho with
  | found hr => exact hc
  | made hf =>
    refine (hc.append_empty false).write (by simp; omega) fun b hb => ?_
    cases hb
    simp

theorem grows (ho : Opens g v h₁ r h₂) (hs : h₁.Ancestral S) (hg : g ∉ S) : h₁.Grows S h₂ := by
  cases ho with
  | found => exact .refl hs
  | made => exact (Heap.Grows.append_empty hs false).trans (.write hg)

theorem lt (ho : Opens g v h₁ r h₂) (hc : h₁.Closed) : r < h₂.length := by
  cases ho with
  | found hr => exact hc hr
  | made hf => simp

/-- The registry is an old object, or a new one that is made behind the coverage. -/
theorem registry (hg : g < h.length) (hc : h.Closed) (hk : h <+: h₁) (ho : Opens g v h₁ r h₂) :
    (h.read g v = .object r ∧ r < h.length ∧ h₂ = h₁) ∨
      ((h.read g v).isTruthy = false ∧ r = h₁.length ∧ h₂.read g v = .object r) := by
  cases ho with
  | found hr =>
    rw [Heap.read_of_isPrefix hk hg] at hr
    exact .inl ⟨hr,hc hr,rfl⟩
  | made hf =>
    have hl := hk.length_le
    rw [Heap.read_of_isPrefix hk hg] at hf
    refine .inr ⟨hf,rfl,?_⟩
    rw [Heap.read_write (by simp; omega),if_pos ⟨rfl,rfl⟩]

/-- A new registry holds nothing yet. -/
theorem slot_made (ho : Opens g v h₁ r h₂) (hg : g < h₁.length) (hr : r = h₁.length) (key : String) :
    h₂.slot r key = none := by
  obtain hs | ⟨rfl,-⟩ := ho.slot hg r key
  · rw [hs,Heap.slot_of_le hr.ge]
  · omega

end Opens

/-- The statement is run for a program of its own, whose variables are those of a function or a module; the
answer is what its variable holds then, with the heap. -/
def boot (m : Realm) (p : Parameters) (h : Heap) : Option (Value × Heap) :=
  (StateT.run (do let _ ← (coverage p).exec m; lookup p.identifier) ⟨h,[hoisted [coverage p]]⟩).map
    fun r => (r.1,r.2.heap)

theorem boot_of_run {m : Realm} {v : Value} {scope' : Scope}
    (hr : (execAll m [locals p,reuse,stamp,publish]).run
      ⟨h,hoisted [locals p,reuse,stamp,publish] :: [hoisted [coverage p]]⟩ =
        some (some v,⟨h',[scope',hoisted [coverage p]]⟩)) :
    boot m p h = some (v,h') := by
  have hcall : ((call (paren (function [locals p,reuse,stamp,publish])) []).eval m).run
      ⟨h,[hoisted [coverage p]]⟩ = some (v,⟨h',[hoisted [coverage p]]⟩) := by
    rw [eval_call_function]
    exact run_inScope (run_bind_of hr)
  have hn : (hoisted [coverage p] p.identifier).isSome := by
    have hv : varNamesAll [coverage p] = [p.identifier] := rfl
    simp [hoisted,hv]
  have he : (coverage p).exec m = _ := exec_bindings m _
  rw [boot,he,bind_assoc,StateT.run_bind,run_declarator m hcall hn]
  simp [execDeclarators]

/-- An entry that is held is what an evaluation ends with. -/
theorem boot_of_held (hp : p.data = .object entries) (hj : Json.Lacks "__proto__" p.data)
    (hs : Grounded S g h) (he : Held g p h e) :
    ∃ h', boot ⟨g,strict⟩ p h = some (.object e,h') ∧ Reuses S g p h e h' := by
  obtain ⟨r,hgr,hre,hh⟩ := he
  obtain ⟨r',d,h₁,h₂,scope,hrun,hl,hk,hd,hgrow,hs₁,ho⟩ :=
    run_locals hp hj hs (.held hgr) strict [hoisted [coverage p]]
  obtain ⟨hr',-,rfl⟩ | ⟨hf,-⟩ := ho.registry hs.global hs.closed hk
  · obtain rfl : r = r' := Value.object.inj (hgr.symm.trans hr')
    have hre₁ := (Heap.read_of_isPrefix hk (hs.closed hgr) p.path).trans hre
    have hh₁ := (Heap.read_of_isPrefix hk (hs.closed hre) "hash").trans hh
    have hhash : hasHash h₂ p.hash (.object e) = true := decide_eq_true hh₁
    exact ⟨h₂,boot_of_run ((run_bind_of hrun).trans
      (hl.run_rest_held (legible_of_held hre₁ hh₁) hhash)),⟨r,hgr,hre,hh⟩,hk,hgrow,hs₁.closed⟩
  · rw [hgr] at hf
    cases hf

/-- Where nothing is held, the last statements install the new coverage. -/
theorem installs_of_unheld (hs : Grounded S g h) (hk : h <+: h₁) (hgrow : h.Grows S h₁)
    (hs₁ : Grounded S g h₁) (hrec : Receptive S g p h)
    (hd : Denotes h₁ h.length h₁.length (.object d) (.object entries))
    (ho : Opens g p.coverageVariable h₁ r h₂) (hu : ∀ e, ¬ Held g p h e) :
    Installs S g p entries h r d
      ((h₂.write d "hash" (.string p.hash)).write r p.path (.object d)) := by
  have hl := hk.length_le
  have hgrow₂ := ho.grows hs₁.ancestral hrec.outside
  have hl₂ := hgrow₂.length
  have hrl := ho.lt hs₁.closed
  have hdl := hd.bounds
  have hg := hs.global
  have hreg := ho.registry hg hs.closed hk
  have hrd : r < h.length ∨ r = h₁.length := hreg.imp (·.2.1) (·.2.1)
  have hslot (b : Nat) (key : String) :
      ((h₂.write d "hash" (.string p.hash)).write r p.path (.object d)).slot b key =
        if b = r ∧ key = p.path then some (.data (.object d) true)
        else if b = d ∧ key = "hash" then some (.data (.string p.hash) true) else h₂.slot b key := by
    rw [Heap.slot_write (by simpa using hrl),Heap.slot_write (by omega)]
  have hpayload : Denotes ((h₂.write d "hash" (.string p.hash)).write r p.path (.object d)) h.length
      h₁.length (.object d) (.object (entries ++ [("hash",.string p.hash)])) := by
    have hd₂ := hd.mono fun b hb hb' => ho.getElem? hb' (by omega)
    exact (hd₂.set_string "hash" p.hash).mono fun b hb hb' =>
      Heap.getElem?_write_of_ne (by omega)
  -- neither the coverage nor the registry is inherited from
  have hout {a : Nat} (ha : h.length ≤ a) : a ∉ S := fun hm =>
    absurd (hs.ancestral.lt a hm) (Nat.not_lt.mpr ha)
  have hout_r : r ∉ S := by
    obtain ⟨hgr,-⟩ | ⟨-,rfl,-⟩ := hreg
    · exact (hrec.registry r hgr).1.outside
    · exact hout hl
  refine ⟨hu,?_,?_,hpayload.widen le_rfl (by simpa using hl₂),fun a ha => ?_,
    fun b key hb hp hv => ?_,
    ((hgrow.trans hgrow₂).trans (.write (hout hdl.1))).trans (.write hout_r),?_⟩
  · refine hreg.imp And.left fun hm => ⟨hm.1,by omega,?_⟩
    rw [← hm.2.2]
    refine Heap.read_of_slot ?_
    rw [hslot,if_neg (fun hn => by omega),if_neg (fun hn => by omega)]
  · rw [Heap.read_eq_slot,hslot,if_pos ⟨rfl,rfl⟩]
    rfl
  · have hb := hpayload.bounds_of_reaches ha
    exact ⟨hb.1,by omega⟩
  · rw [hslot,if_neg (fun hn => hp hn.1 hn.2),if_neg (fun hn => by omega)]
    obtain hs₂ | ⟨rfl,rfl,hf⟩ := ho.slot (by omega) b key
    · rw [hs₂]
      obtain hb | rfl := hb
      · exact Heap.slot_of_isPrefix hk hb key
      · obtain hrl | rfl := hrd
        · exact Heap.slot_of_isPrefix hk hrl key
        · rw [Heap.slot_of_le le_rfl,Heap.slot_of_le hl]
    · -- a registry was made, so none was there
      rw [Heap.read_of_isPrefix hk hg,hv rfl rfl] at hf
      cases hf
  · have hc₂ := ho.closed hs₁.closed (by omega)
    have hc₃ : (h₂.write d "hash" (.string p.hash)).Closed := by
      refine hc₂.write (by omega) fun b hb => ?_
      cases hb
    refine hc₃.write (by simpa using hrl) fun b hb => ?_
    cases hb
    rw [Heap.length_write]
    omega

namespace Receptive

/-- The registry that is had can take in an entry for the path. -/
theorem ordinary (hrec : Receptive S g p h) (hs : Grounded S g h) (hk : h <+: h₁)
    (hgrow : h.Grows S h₁) (hs₁ : Grounded S g h₁) (ho : Opens g p.coverageVariable h₁ r h₂) :
    h₂.Ordinary S {p.path} r := by
  obtain ⟨hgr,-,rfl⟩ | ⟨-,hm,-⟩ := ho.registry hs.global hs.closed hk
  · exact hgrow.ordinary hs.ancestral (hrec.registry r hgr).1
  · have hgrow₂ := ho.grows hs₁.ancestral hrec.outside
    have hroots := hgrow.mildRoots hs.ancestral hrec.roots
    refine hgrow₂.ordinary_new hs₁.ancestral (hroots.mono (by simp)) hm.ge (ho.lt hs₁.closed)
      fun key _ => ?_
    rw [ho.slot_made hs₁.global hm]
    nofun

/-- What the registry holds under the path can be asked for its fingerprint, but has another one. -/
theorem unlike (hrec : Receptive S g p h) (hs : Grounded S g h) (hk : h <+: h₁)
    (hgrow : h.Grows S h₁) (ho : Opens g p.coverageVariable h₁ r h₂) (hu : ∀ e, ¬ Held g p h e) :
    (∀ e, h₂.read r p.path = .object e → Asked S h₂ e) ∧
      hasHash h₂ p.hash (h₂.read r p.path) = false := by
  obtain ⟨hgr,hrl,rfl⟩ | ⟨-,hm,-⟩ := ho.registry hs.global hs.closed hk
  · have hread := Heap.read_of_isPrefix hk hrl p.path
    refine ⟨fun e he => ?_,?_⟩
    · have hre := hread.symm.trans he
      have hask := (hrec.registry r hgr).2 e hre
      refine ⟨hgrow.tame hs.ancestral (hs.closed hre) hask.tame,?_⟩
      rw [Heap.slot_of_isPrefix hk (hs.closed hre)]
      exact hask.slot
    · cases hx : h₂.read r p.path with
      | object e =>
        have hre := hread.symm.trans hx
        refine decide_eq_false fun hh => hu e ⟨r,hgr,hre,?_⟩
        rw [← Heap.read_of_isPrefix hk (hs.closed hre),hh]
      | _ => rfl
  · have hread : h₂.read r p.path = .undefined := by
      rw [Heap.read_eq_slot,ho.slot_made (hs.global.trans_le hk.length_le) hm]
      rfl
    rw [hread]
    exact ⟨nofun,rfl⟩

end Receptive

/-- Where nothing is held, a program that can install its coverage does so. -/
theorem boot_of_unheld (hp : p.data = .object entries) (hj : Json.Lacks "__proto__" p.data)
    (hs : Grounded S g h) (hrec : Receptive S g p h) (hu : ∀ e, ¬ Held g p h e) (strict : Bool) :
    ∃ r e h', boot ⟨g,strict⟩ p h = some (.object e,h') ∧ Installs S g p entries h r e h' := by
  obtain ⟨r,d,h₁,h₂,scope,hrun,hl,hk,hd,hgrow,hs₁,ho⟩ :=
    run_locals hp hj hs hrec.opens strict [hoisted [coverage p]]
  have hgrow₂ := ho.grows hs₁.ancestral hrec.outside
  have hs₂ := hgrow₂.ancestral hs₁.ancestral
  have hord := hrec.ordinary hs hk hgrow hs₁ ho
  have hroots := (hgrow.trans hgrow₂).mildRoots hs.ancestral hrec.roots
  obtain ⟨hask,hunlike⟩ := hrec.unlike hs hk hgrow ho hu
  obtain ⟨x,hlx,hx⟩ := exists_legible (hroots.mono (by simp)) hord hask
  have hdl : d < h₂.length := hd.bounds.2.trans_le hgrow₂.length
  have hdo : h₂.Ordinary S {"hash"} d :=
    (hgrow.trans hgrow₂).ordinary_new hs.ancestral (hrec.roots.mono (by simp)) hd.bounds.1 hdl
      fun key hk => hk ▸ (hgrow.trans hgrow₂).not_special_new hd.bounds.1 (by decide)
  have hstamp : h₂.Grows S (h₂.write d "hash" (.string p.hash)) := .write hdo.outside
  rw [hp] at hd
  exact ⟨r,d,_,boot_of_run ((run_bind_of hrun).trans (hl.run_rest_unheld hlx (hx.trans hunlike)
    (hdo.allows? rfl) ((hstamp.ordinary hs₂ hord).allows? rfl))),
    installs_of_unheld hs hk hgrow hs₁ hrec hd ho hu⟩

/-- One evaluation gives an object: the entry that is held, or a new one. -/
theorem boot_cases (hp : p.data = .object entries) (hj : Json.Lacks "__proto__" p.data)
    (hs : Grounded S g h) (ho : (∃ e, Held g p h e) ∨ Receptive S g p h) (strict : Bool) :
    ∃ e h', boot ⟨g,strict⟩ p h = some (.object e,h') ∧
      (Reuses S g p h e h' ∨ ∃ r, Installs S g p entries h r e h') := by
  by_cases he : ∃ e, Held g p h e
  · obtain ⟨e,he⟩ := he
    obtain ⟨h',hb,hreuse⟩ := boot_of_held hp hj hs he
    exact ⟨e,h',hb,.inl hreuse⟩
  · obtain ⟨r,e,h',hb,hi⟩ := boot_of_unheld hp hj hs (ho.resolve_left he)
      (fun e hheld => he ⟨e,hheld⟩) strict
    exact ⟨e,h',hb,.inr ⟨r,hi⟩⟩

end Ends

end Bootstrap

end CoverageCounters
