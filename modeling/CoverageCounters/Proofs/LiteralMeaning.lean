import Mathlib.Data.Nat.Cast.Field
import Mathlib.Data.Rat.Cast.Lemmas
import CoverageCounters.Proofs.Evaluation

/-!
What the literal of a JSON value evaluates to. A string is read back as it was, a number keeps its value,
and an array or an object becomes a new object that holds the values of its parts. Nothing that was there
before is touched.
-/

namespace CoverageCounters

open Eval

/-! ### Strings -/

section Spelling

/-- Whether a text starts with so many hexadecimal digits. -/
def startsHex : Nat → List Char → Bool
  | 0, _ => true
  | _ + 1, [] => false
  | n + 1, c :: rest => isHexDigit c && startsHex n rest

theorem startsUnit_cons (c : Char) (rest : List Char) :
    startsUnit (c :: rest) = (decide (c = 'u') && startsHex 4 rest) := by
  by_cases hc : c = 'u'
  · subst hc
    rcases rest with _ | ⟨a,_ | ⟨b,_ | ⟨c,_ | ⟨d,rest⟩⟩⟩⟩ <;> simp [startsUnit,startsHex,Bool.and_assoc]
  · simp [startsUnit,hc]

theorem spellLiteral_cons_of_ne {c : Char} (hc : c ≠ '\\') (rest : List Char) :
    spellLiteral (c :: rest) = c :: spellLiteral rest := by
  simp [spellLiteral,hc]

theorem exists_spellLiteral_backslash (rest : List Char) :
    ∃ tail, spellLiteral ('\\' :: rest) = '\\' :: tail := by
  rw [spellLiteral]
  split
  · exact ⟨_,rfl⟩
  · exact ⟨_,rfl⟩

theorem startsHex_spellLiteral (n : Nat) (cs : List Char) :
    startsHex n (spellLiteral cs) = startsHex n cs := by
  induction n generalizing cs with
  | zero => rfl
  | succ n ih =>
    cases cs with
    | nil => rfl
    | cons c rest =>
      by_cases hc : c = '\\'
      · subst hc
        obtain ⟨tail,ht⟩ := exists_spellLiteral_backslash rest
        have hx : isHexDigit '\\' = false := by decide
        rw [ht,startsHex,startsHex,hx,Bool.false_and,Bool.false_and]
      · rw [spellLiteral_cons_of_ne hc,startsHex,startsHex,ih]

/-- To double a backslash further on neither makes nor breaks a spelling at the start. -/
theorem startsUnit_spellLiteral (cs : List Char) : startsUnit (spellLiteral cs) = startsUnit cs := by
  cases cs with
  | nil => rfl
  | cons c rest =>
    by_cases hc : c = '\\'
    · subst hc
      obtain ⟨tail,ht⟩ := exists_spellLiteral_backslash rest
      rw [ht]
      rfl
    · rw [spellLiteral_cons_of_ne hc,startsUnit_cons,startsUnit_cons,startsHex_spellLiteral]

theorem readLiteral_spellLiteral (cs : List Char) : readLiteral 0 (spellLiteral cs) = cs := by
  induction cs with
  | nil => rfl
  | cons c rest ih =>
    by_cases hc : c = '\\'
    · subst hc
      rw [spellLiteral]
      split
      next hu =>
        have hb : startsUnit ('\\' :: spellLiteral rest) = false := rfl
        simp [readLiteral,hb,startsUnit_spellLiteral,hu,ih]
      next hu =>
        have hu : startsUnit rest = false := by simpa using hu
        -- a backslash that follows is doubled just if it would start a spelling itself
        have hn : ¬ ((spellLiteral rest).head? = some '\\' ∧ startsUnit (spellLiteral rest).tail) := by
          cases rest with
          | nil => simp [spellLiteral]
          | cons d rest =>
            rw [spellLiteral]
            split
            · exact fun h => by cases h.2
            · next hd =>
              intro h
              rw [List.head?_cons,Option.some_inj,List.tail_cons,startsUnit_spellLiteral] at h
              exact hd h
        simp [readLiteral,startsUnit_spellLiteral,hu,hn,ih]
    · rw [spellLiteral_cons_of_ne hc,readLiteral,if_neg (Nat.lt_irrefl 0),if_neg hc,ih]

@[simp] theorem textOfLiteral_literalText (text : String) : textOfLiteral (literalText text) = text := by
  rw [textOfLiteral,literalText,String.toList_ofList,readLiteral_spellLiteral,String.ofList_toList]

end Spelling

/-! ### Numbers -/

namespace Binary64

theorem ratio_pos (x : Binary64) : 0 < x.ratio.2 := by
  rw [ratio]
  split
  · exact Nat.one_pos
  · exact Nat.pow_pos Nat.two_pos

@[simp] theorem toRat_neg (x : Binary64) : x.neg.toRat = -x.toRat := by
  have hr : x.neg.ratio = x.ratio := rfl
  rw [toRat,toRat,hr,neg]
  cases x.negative <;> simp

theorem toInt?_eq_some {x : Binary64} {n : Int} (h : x.toInt? = some n) : (n : Rat) = x.toRat := by
  simp only [toInt?] at h
  split at h
  next hd =>
    have hq : ((x.ratio.1 / x.ratio.2 : Nat) : Rat) = (x.ratio.1 : Rat) / (x.ratio.2 : Rat) :=
      Nat.cast_div (Nat.dvd_of_mod_eq_zero hd) (Nat.cast_ne_zero.mpr x.ratio_pos.ne')
    rw [← Option.some.inj h,toRat,← hq]
    generalize x.ratio.1 / x.ratio.2 = q
    cases x.negative <;> simp
  next => cases h

end Binary64

namespace Number

theorem value_literalNumber (x : Binary64) : (Build.literalNumber x).value = x.toRat := by
  rw [Build.literalNumber]
  cases hx : x.toInt? with
  | none => rfl
  | some n =>
    dsimp only
    split
    · exact Binary64.toInt?_eq_some hx
    · rfl

theorem value_neg (n : Number) : n.neg.value = -n.value := by
  cases n with
  | integer n => simp [neg,value]
  | binary x => exact x.toRat_neg

end Number

/-! ### Literals of one piece -/

namespace Build

variable (m : Realm)

@[simp] theorem eval_string (text : String) : (string text).eval m = pure (.string text) := by
  simp [string,Node.leaf,Node.eval,evalParts,Head.apply,Head.text?,Json.lookup,Json.asString?,ofOption]

@[simp] theorem eval_null : null.eval m = pure .null := by
  simp [null,Node.leaf,Node.eval,evalParts,Head.apply]

@[simp] theorem eval_bool (b : Bool) : (bool b).eval m = pure (.bool b) := by
  cases b <;> simp [bool,Node.leaf,Node.eval,evalParts,Head.apply,Json.lookup,Json.asBool?]

theorem eval_magnitude (x : Binary64) : (magnitude x).eval m = pure (.number (literalNumber x)) := by
  simp [magnitude,Node.leaf,Node.eval,evalParts,Head.apply,Json.lookup]

theorem eval_number (x : Binary64) : ∃ n : Number, n.value = x.toRat ∧
    (number x).eval m = pure (.number n) := by
  rw [number]
  split
  · refine ⟨(literalNumber x.neg).neg,?_,?_⟩
    · rw [Number.value_neg,Number.value_literalNumber,Binary64.toRat_neg,neg_neg]
    · simp [Node.eval,evalParts,eval_magnitude,Head.apply,Head.text?,Json.lookup,Json.asString?]
  · exact ⟨_,Number.value_literalNumber x,eval_magnitude m x⟩

theorem evalEntries_property (a : Nat) (key : String) (e : Node) (rest : List Node) :
    evalEntries m a (property key e :: rest) = (do
      let v ← e.eval m
      define a key v
      evalEntries m a rest) := by
  simp [property,string,Node.leaf,evalEntries,require,Head.text?,Json.lookup,Json.asString?,ofOption]

/-- The elements of an array are put into it like entries with the indices as keys. -/
theorem evalItems_eq (a i : Nat) (items : List Json) :
    evalItems m a i (dataItems items) = evalEntries m a (dataEntries (indexed id i items)) := by
  induction items generalizing i with
  | nil => rfl
  | cons j items ih => simp [dataItems,indexed,dataEntries,evalItems,evalEntries_property,ih]

end Build

/-! ### Values that stand for JSON -/

namespace Json

/-- No object in a JSON value has a key. -/
inductive Lacks (key : String) : Json → Prop where
  | null : Lacks key .null
  | bool (b : Bool) : Lacks key (.bool b)
  | number (n : Number) : Lacks key (.number n)
  | string (s : String) : Lacks key (.string s)
  | array {items : List Json} (h : ∀ j ∈ items, Lacks key j) : Lacks key (.array items)
  | object {entries : List (String × Json)} (hk : ∀ e ∈ entries, e.1 ≠ key)
      (h : ∀ e ∈ entries, Lacks key e.2) : Lacks key (.object entries)

/-- What an array or an object is made of, and whether it is an array; the elements of an array stand
under their indices. -/
def parts? : Json → Option (Bool × List (String × Json))
  | .array items => some (true,indexed id 0 items)
  | .object entries => some (false,entries)
  | _ => none

end Json

/-- A value stands for a JSON value: a number has its value as a binary64, and an object holds under each
key a value that stands for the part under that key, and nothing under other keys. All its objects are
between two addresses, and each is behind the one that holds it. -/
inductive Denotes (h : Heap) : (first last : Nat) → Value → Json → Prop where
  | null {first last : Nat} : Denotes h first last .null .null
  | bool {first last : Nat} (b : Bool) : Denotes h first last (.bool b) (.bool b)
  | number {first last : Nat} {n m : Number} (hn : n.value = m.toBinary.toRat) :
      Denotes h first last (.number n) (.number m)
  | string {first last : Nat} (s : String) : Denotes h first last (.string s) (.string s)
  | composite {first last a : Nat} {o : Object} {j : Json} {isArray : Bool}
      {entries : List (String × Json)}
      (ha : first ≤ a) (hl : a < last) (ho : h[a]? = some o)
      (hj : j.parts? = some (isArray,entries)) (hk : o.isArray = isArray)
      (keys : ∀ key, (o.own key).isSome = (Json.lookup key entries).isSome)
      (values : ∀ key v part, o.own key = some v → Json.lookup key entries = some part →
        Denotes h (a + 1) last v part) :
      Denotes h first last (.object a) j

namespace Denotes

variable {h h' : Heap} {first first' last last' a : Nat} {v : Value} {j : Json}

/-- Only the objects between the two addresses count. -/
theorem mono (hd : Denotes h first last v j) (hh : ∀ b, first ≤ b → b < last → h'[b]? = h[b]?) :
    Denotes h' first last v j := by
  induction hd with
  | null => exact .null
  | bool b => exact .bool b
  | number hn => exact .number hn
  | string s => exact .string s
  | composite ha hl ho hj hk keys _ ih =>
    refine .composite ha hl ((hh _ ha hl).trans ho) hj hk keys fun key v part hv hp => ?_
    exact ih key v part hv hp fun b hb => hh b (by omega)

theorem widen (hd : Denotes h first last v j) (hf : first' ≤ first) (hl : last ≤ last') :
    Denotes h first' last' v j := by
  induction hd generalizing first' with
  | null => exact .null
  | bool b => exact .bool b
  | number hn => exact .number hn
  | string s => exact .string s
  | composite ha hb ho hj hk keys _ ih =>
    exact .composite (hf.trans ha) (hb.trans_le hl) ho hj hk keys fun key v part hv hp =>
      ih key v part hv hp le_rfl hl

theorem bounds (hd : Denotes h first last (.object a) j) : first ≤ a ∧ a < last := by
  cases hd with
  | composite ha hl => exact ⟨ha,hl⟩

end Denotes

/-- A literal evaluates to a value that stands for a JSON value, in new objects alone. -/
def Literal (m : Realm) (e : Node) (j : Json) : Prop :=
  ∀ (h : Heap) (scopes : List Scope), ∃ v h', (e.eval m).run ⟨h,scopes⟩ = some (v,⟨h',scopes⟩) ∧
    h <+: h' ∧ Denotes h' h.length h'.length v j ∧ (h.Closed → Heap.Closed h') ∧
    ∀ (a : Nat) (o : Object), h.length ≤ a → h'[a]? = some o → o.Plain

theorem Literal.of_pure {m : Realm} {e : Node} {j : Json} {v : Value} (he : e.eval m = pure v)
    (hd : ∀ h first last, Denotes h first last v j) : Literal m e j := by
  intro h scopes
  refine ⟨v,h,by rw [he]; rfl,List.prefix_rfl,hd h _ _,id,fun a o ha ho => ?_⟩
  rw [List.getElem?_eq_none ha] at ho
  cases ho

/-- What it takes to put entries into the object at an address: the object keeps what it holds under
other keys, holds the new values behind that address, and no other object changes. -/
structure Fills (a : Nat) (o o' : Object) (entries : List (String × Json)) (h h' : Heap) : Prop where
  length : h.length ≤ h'.length
  frame : ∀ b, b < h.length → b ≠ a → h'[b]? = h[b]?
  filled : h'[a]? = some o'
  isArray : o'.isArray = o.isArray
  others : ∀ key, Json.lookup key entries = none → o'.own key = o.own key
  values : ∀ key j, Json.lookup key entries = some j → ∃ v, o'.own key = some v ∧
    Denotes h' (a + 1) h'.length v j
  closed : h.Closed → h'.Closed
  plain : o.Plain → o'.Plain
  new : ∀ b p, h.length ≤ b → h'[b]? = some p → p.Plain

namespace Fills

variable {a : Nat} {o o' : Object} {h h₁ h' : Heap} {entries : List (String × Json)}

theorem nil (ho : h[a]? = some o) : Fills a o o [] h h := by
  refine ⟨le_rfl,fun _ _ _ => rfl,ho,rfl,fun _ _ => rfl,fun _ _ hs => ?_,id,id,fun b p hb hp => ?_⟩
  · cases hs
  · rw [List.getElem?_eq_none hb] at hp
    cases hp

/-- The first entry is evaluated behind all objects there are, then written, then come the others. -/
theorem cons {key : String} {v : Value} {j : Json} (ho : h[a]? = some o) (hk : h <+: h₁)
    (hd : Denotes h₁ h.length h₁.length v j) (hc : h.Closed → h₁.Closed)
    (hn : ∀ (b : Nat) (p : Object), h.length ≤ b → h₁[b]? = some p → p.Plain)
    (hf : Fills a (o.set key v) o' entries (h₁.write a key v) h') :
    Fills a o o' ((key,j) :: entries) h h' := by
  have ha : a < h.length := (List.getElem?_eq_some_iff.mp ho).1
  have hlen : h₁.length ≤ h'.length := by simpa using hf.length
  have hframe : ∀ b, b < h₁.length → b ≠ a → h'[b]? = h₁[b]? := by
    intro b hb hne
    rw [hf.frame b (by simpa using hb) hne,Heap.getElem?_write_of_ne hne]
  have hv : Denotes h' (a + 1) h'.length v j :=
    (hd.mono fun b hb hl => hframe b hl (by omega)).widen ha hlen
  have hval : ∀ b, v = .object b → b < h₁.length := by
    intro b hb
    subst hb
    exact hd.bounds.2
  refine ⟨hk.length_le.trans hlen,fun b hb hne => ?_,hf.filled,hf.isArray,fun k hn => ?_,
    fun k i hs => ?_,fun hcl => hf.closed ((hc hcl).write (ha.trans_le hk.length_le) hval),
    fun hp => hf.plain (hp.set key v),fun b p hb hp => ?_⟩
  · rw [hframe b (hb.trans_le hk.length_le) hne]
    exact (List.prefix_iff_getElem?.mp hk b hb).trans (List.getElem?_eq_getElem hb).symm
  · rw [Json.lookup,Option.or_eq_none_iff] at hn
    have hne : k ≠ key := fun he => by simp [he] at hn
    rw [hf.others k hn.1,Object.own_set,if_neg hne]
  · rw [Json.lookup] at hs
    cases hl : Json.lookup k entries with
    | some i' =>
      rw [hl,Option.some_or] at hs
      exact hf.values k i (hl.trans hs)
    | none =>
      rw [hl,Option.none_or] at hs
      split at hs
      next he =>
        subst he
        cases hs
        refine ⟨v,?_,hv⟩
        rw [hf.others _ hl,Object.own_set,if_pos rfl]
      next => cases hs
  · by_cases hb₁ : b < h₁.length
    · rw [hframe b hb₁ (by omega)] at hp
      exact hn b p hb hp
    · exact hf.new b p (by simpa using hb₁) hp

end Fills

theorem run_evalEntries {m : Realm} {a : Nat} {entries : List (String × Json)}
    (hl : ∀ e ∈ entries, e.1 ≠ "__proto__" ∧ Literal m (Build.data e.2) e.2) (scopes : List Scope) {h : Heap} {o : Object}
    (ho : h[a]? = some o) :
    ∃ o' h', (evalEntries m a (Build.dataEntries entries)).run ⟨h,scopes⟩ = some ((),⟨h',scopes⟩) ∧
      Fills a o o' entries h h' := by
  induction entries generalizing h o with
  | nil => exact ⟨o,h,by simp [Build.dataEntries,evalEntries],.nil ho⟩
  | cons e entries ih =>
    obtain ⟨key,j⟩ := e
    obtain ⟨hkey,hlj⟩ := hl (key,j) (List.mem_cons_self ..)
    obtain ⟨v,h₁,hr,hk,hd,hc,hn⟩ := hlj h scopes
    have hw : (h₁.write a key v)[a]? = some (o.set key v) := by
      have ha := (List.getElem?_eq_some_iff.mp ho).1
      rw [Heap.getElem?_write_self,List.prefix_iff_getElem?.mp hk a ha,
        ← List.getElem?_eq_getElem ha,ho]
      rfl
    obtain ⟨o',h',hr',hf⟩ := ih (fun e he => hl e (List.mem_cons_of_mem _ he)) hw
    refine ⟨o',h',?_,.cons ho hk hd hc hn hf⟩
    rw [Build.dataEntries,Build.evalEntries_property,run_bind_of hr,run_bind_of (run_define hkey ..)]
    exact hr'

/-- A new object that is filled with the literals of entries stands for them. -/
theorem Literal.composite {m : Realm} {e : Node} {j : Json} {isArray : Bool}
    {entries : List (String × Json)} (hj : j.parts? = some (isArray,entries))
    (he : e.eval m = (do
      let a ← allocate (.empty isArray)
      evalEntries m a (Build.dataEntries entries)
      return .object a))
    (hl : ∀ e ∈ entries, e.1 ≠ "__proto__" ∧ Literal m (Build.data e.2) e.2) : Literal m e j := by
  intro h scopes
  have hn : (h ++ [Object.empty isArray])[h.length]? = some (.empty isArray) := by simp
  obtain ⟨o,h',hr,hf⟩ := run_evalEntries hl scopes hn
  refine ⟨.object h.length,h',?_,?_,?_,fun hc => hf.closed (hc.append_empty isArray),
    fun a p ha hp => ?_⟩
  · rw [he,run_bind_of (run_allocate ..),run_bind_of hr]
    rfl
  · refine List.prefix_iff_getElem?.mpr fun b hb => ?_
    rw [hf.frame b (by simp; omega) hb.ne,List.getElem?_append_left hb,List.getElem?_eq_getElem hb]
  · have hl : h.length < h'.length := (List.getElem?_eq_some_iff.mp hf.filled).1
    refine .composite le_rfl hl hf.filled hj hf.isArray (fun key => ?_) fun key v part hv hp => ?_
    · cases hk : Json.lookup key entries with
      | none => rw [hf.others key hk,Object.own_empty]; rfl
      | some part =>
        obtain ⟨v,hv,-⟩ := hf.values key part hk
        rw [hv]
        rfl
    · obtain ⟨w,hw,hd⟩ := hf.values key part hp
      cases hv.symm.trans hw
      exact hd
  · obtain rfl | hlt := Nat.eq_or_lt_of_le ha
    · cases hf.filled.symm.trans hp
      exact hf.plain (.empty isArray)
    · exact hf.new a p (by simp; omega) hp

theorem mem_indexed {k : Nat} {items : List Json} {e : String × Json} (h : e ∈ indexed id k items) :
    e.2 ∈ items := by
  rw [indexed_eq] at h
  obtain ⟨p,hp,rfl⟩ := List.mem_map.mp h
  exact List.fst_mem_of_mem_zipIdx hp

theorem indexText_ne {i : Nat} {key : String} (h : key.toList.all Char.isDigit = false) :
    indexText i ≠ key := by
  rintro rfl
  rw [indexText,String.toList_ofList,List.all_eq_false] at h
  obtain ⟨c,hc,hd⟩ := h
  exact hd (Nat.isDigit_of_mem_toDigits (by decide) (by decide) hc)

theorem ne_of_mem_indexed {k : Nat} {items : List Json} {e : String × Json} {key : String}
    (hk : key.toList.all Char.isDigit = false) (h : e ∈ indexed id k items) : e.1 ≠ key := by
  rw [indexed_eq] at h
  obtain ⟨p,hp,rfl⟩ := List.mem_map.mp h
  exact indexText_ne hk

/-- The literal of a JSON value evaluates to that value, if no key in it is the one that sets what an
object inherits from. -/
theorem literal_data (m : Realm) {j : Json} (hj : Json.Lacks "__proto__" j) : Literal m (Build.data j) j := by
  induction hj with
  | null => exact .of_pure (by simp [Build.data]) fun _ _ _ => .null
  | bool b => exact .of_pure (by simp [Build.data]) fun _ _ _ => .bool b
  | number n =>
    obtain ⟨x,hx,he⟩ := Build.eval_number m n.toBinary
    exact .of_pure he fun _ _ _ => .number hx
  | string s => exact .of_pure (by simp [Build.data]) fun _ _ _ => .string s
  | array h ih =>
    refine .composite rfl ?_ fun e he => ⟨ne_of_mem_indexed (by decide) he,ih _ (mem_indexed he)⟩
    rw [Build.data,Build.eval_array]
    simp only [Build.evalItems_eq]
  | object hk h ih =>
    refine .composite rfl ?_ fun e he => ⟨hk e he,ih e he⟩
    rw [Build.data,Build.eval_object]

end CoverageCounters
