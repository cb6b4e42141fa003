import Mathlib.Data.Set.Defs
import Mathlib.Logic.Function.Basic
import Mathlib.Order.Nat
import CoverageCounters.Coverage.Codec
import CoverageCounters.Tree.Build

/-!
Values and objects of the language that counters run in. An object has properties of its own and
inherits those of another object; a property may be one that cannot be set, and an object one that gets
no new properties. What accessors do when they are read or set is left open, as is the length of an array.
-/

namespace CoverageCounters

/-- The functions that are told apart: the constructor of functions, what it makes of the text
`return this`, and any other one. -/
inductive Callable where
  | constructor
  | receiver
  | other
  deriving DecidableEq, Repr

/-- A value of the language; an object is held by its address. -/
inductive Value where
  | undefined
  | null
  | bool (value : Bool)
  | number (value : Number)
  | nan
  | infinity (negative : Bool)
  | bigint (value : Int)
  | string (value : String)
  | symbol (id : Nat)
  | function (callable : Callable)
  | object (address : Nat)
  deriving DecidableEq, Repr

namespace Binary64

/-- The exact value of a number. -/
def toRat (x : Binary64) : Rat :=
  (if x.negative then -1 else 1) * ((x.ratio.1 : Rat) / (x.ratio.2 : Rat))

end Binary64

namespace Number

def value : Number → Rat
  | integer n => n
  | binary x => x.toRat

def isZero : Number → Bool
  | integer n => n = 0
  | binary x => x.isZero

def neg : Number → Number
  | integer n => integer (-n)
  | binary x => binary x.neg

/-- The number that an increment makes of another one: whole numbers below the limit are exact, any other
sum is rounded. -/
def succ : Number → Number
  | integer n =>
    if (n + 1).natAbs < Build.wholeLimit then integer (n + 1) else Build.literalNumber (.ofInt (n + 1))
  | binary x =>
    let sum := x.toRat + 1
    Build.literalNumber ((Binary64.ofRatio (sum < 0) sum.num.natAbs sum.den).getD x)

end Number

/-- What values inherit from that are no objects, and what new objects inherit from. -/
inductive Root where
  | object
  | array
  | function
  | string
  | number
  | bool
  | symbol
  | bigint
  deriving DecidableEq, Repr

namespace Root

/-- The roots are the first objects. -/
def address : Root → Nat
  | object => 0
  | array => 1
  | function => 2
  | string => 3
  | number => 4
  | bool => 5
  | symbol => 6
  | bigint => 7

def count : Nat := 8

theorem address_lt (root : Root) : root.address < count := by
  cases root <;> decide

end Root

namespace Value

/-- What a condition makes of a value. -/
def isTruthy : Value → Bool
  | undefined | null | nan => false
  | bool b => b
  | number n => !n.isZero
  | bigint n => n ≠ 0
  | string s => s ≠ ""
  | infinity _ | symbol _ | function _ | object _ => true

/-- Equality without conversion. -/
def strictlyEquals : Value → Value → Bool
  | nan, _ => false
  | number m, number n => m.value = n.value
  | v, w => v = w

/-- The name of a property that a value stands for. -/
def key? : Value → Option String
  | string s => some s
  | number (.integer n) => some (if n < 0 then "-" ++ indexText n.natAbs else indexText n.natAbs)
  | _ => none

def address? : Value → Option Nat
  | object a => some a
  | _ => none

def number? : Value → Option Number
  | number n => some n
  | _ => none

theorem address?_eq_some {v : Value} {a : Nat} : v.address? = some a ↔ v = .object a := by
  cases v <;> simp [address?]

/-- Where the properties of a value are looked up. -/
def home? : Value → Option Nat
  | undefined | null => none
  | object a => some a
  | function _ => some Root.function.address
  | string _ => some Root.string.address
  | number _ | nan | infinity _ => some Root.number.address
  | bool _ => some Root.bool.address
  | symbol _ => some Root.symbol.address
  | bigint _ => some Root.bigint.address

theorem exists_root {v : Value} (ht : v.isTruthy = true) (ha : v.address? = none) :
    ∃ root : Root, v.home? = some root.address := by
  cases v with
  | undefined | null => cases ht
  | object a => cases ha
  | _ => exact ⟨_,rfl⟩

/-- The properties that functions and strings have of their own are left open. -/
def hides (key : String) : Value → Bool
  | function _ => ["length","name","prototype","arguments","caller"].contains key
  | string _ => key = "length" || key.toList.all Char.isDigit
  | _ => false

end Value

/-- A property: a value, or something that is left open. -/
inductive Slot where
  | data (value : Value) (writable : Bool)
  | special
  deriving DecidableEq, Repr

namespace Slot

def value? : Slot → Option Value
  | data v _ => some v
  | special => none

def writable? : Slot → Option Bool
  | data _ w => some w
  | special => none

/-- A function that can be replaced, as are those that objects usually inherit. -/
def IsMethod (s : Slot) : Prop := ∃ f, s = .data (.function f) true

end Slot

structure Object where
  isArray : Bool
  /-- The object that it inherits from. -/
  parent : Option Nat
  /-- Whether it can get new properties. -/
  extensible : Bool
  slots : String → Option Slot

namespace Object

/-- A new object, or a new array. -/
def empty (isArray : Bool) : Object where
  isArray := isArray
  parent := some (if isArray then Root.array.address else Root.object.address)
  extensible := true
  slots := fun key => if isArray && key = "length" then some .special else none

/-- The values that it holds itself. -/
def own (o : Object) (key : String) : Option Value := (o.slots key).bind Slot.value?

def get (o : Object) (key : String) : Value := (o.own key).getD .undefined

def set (o : Object) (key : String) (v : Value) : Object :=
  { o with slots := Function.update o.slots key (some (.data v true)) }

theorem slots_set (o : Object) (k key : String) (v : Value) :
    (o.set k v).slots key = if key = k then some (.data v true) else o.slots key :=
  Function.update_apply ..

theorem own_set (o : Object) (k key : String) (v : Value) :
    (o.set k v).own key = if key = k then some v else o.own key := by
  rw [own,slots_set]
  split <;> rfl

@[simp] theorem own_empty (isArray : Bool) (key : String) : (empty isArray).own key = none := by
  rw [own,empty]
  dsimp only
  split <;> rfl

/-- An object that a program has made: it inherits from a root, and all that it holds can be set. -/
structure Plain (o : Object) : Prop where
  extensible : o.extensible = true
  parent : ∀ b, o.parent = some b → b < Root.count
  slots : ∀ key s, o.slots key = some s → (key = "length" ∧ s = .special) ∨ ∃ v, s = .data v true

theorem Plain.empty (isArray : Bool) : (Object.empty isArray).Plain := by
  refine ⟨rfl,fun b hb => ?_,fun key s hs => ?_⟩
  · cases hb
    split <;> exact Root.address_lt _
  · rw [Object.empty] at hs
    dsimp only at hs
    split at hs
    next hk =>
      cases hs
      exact .inl ⟨by simpa using (Bool.and_eq_true_iff.mp hk).2,rfl⟩
    next => cases hs

theorem Plain.set {o : Object} (h : o.Plain) (key : String) (v : Value) : (o.set key v).Plain := by
  refine ⟨h.extensible,h.parent,fun k s hs => ?_⟩
  rw [slots_set] at hs
  split at hs
  · cases hs
    exact .inr ⟨v,rfl⟩
  · exact h.slots k s hs

end Object

/-- The objects by address. -/
abbrev Heap := List Object

namespace Heap

/-- The property that an object has itself. -/
def slot (h : Heap) (a : Nat) (key : String) : Option Slot := (h[a]?).bind (·.slots key)

/-- The value that an object holds itself. -/
def read (h : Heap) (a : Nat) (key : String) : Value := ((h[a]?).map (·.get key)).getD .undefined

def write (h : Heap) (a : Nat) (key : String) (v : Value) : Heap := h.modify a (·.set key v)

/-- Let an object inherit from an object, or from nothing; other values change nothing. -/
def setParent? (h : Heap) (a : Nat) : Value → Option Heap
  | .object b => some (h.modify a ({ · with parent := some b }))
  | .null => some (h.modify a ({ · with parent := none }))
  | .function _ => none
  | _ => some h

/-- The property that is found on the way up from an object, with so many objects to look at. -/
def find (h : Heap) (key : String) : Nat → Nat → Option Slot
  | 0, _ => none
  | n + 1, a => (h.slot a key).or (((h[a]?).bind Object.parent).bind fun b => h.find key n b)

/-- The property that an object has or inherits. No object inherits from itself, so there are enough
objects to look at. -/
def lookup (h : Heap) (a : Nat) (key : String) : Option Slot := h.find key h.length a

/-- The property of a value. The constructor of a function is the one that makes functions of texts. -/
def get? (h : Heap) (v : Value) (key : String) : Option Value :=
  match v, key with
  | .function _, "constructor" => some (.function .constructor)
  | _, _ =>
    if v.hides key then none
    else v.home?.bind fun a =>
      match h.lookup a key with
      | none => some .undefined
      | some s => s.value?

/-- Whether a property of an object can be set. -/
def allows? (h : Heap) (a : Nat) (key : String) : Option Bool :=
  (h[a]?).bind fun o =>
    let writable :=
      match h.lookup a key with
      | none => some true
      | some s => s.writable?
    writable.map (· && ((o.slots key).isSome || o.extensible))

/-! ### What an object holds itself -/

section

variable {h h' : Heap} {a b : Nat} {k key : String} {v : Value} {s : Slot}

theorem read_of_getElem? {o : Object} (ho : h[a]? = some o) : h.read a key = o.get key := by
  rw [read,ho]
  rfl

theorem read_of_le (ha : h.length ≤ a) : h.read a key = .undefined := by
  rw [read,List.getElem?_eq_none ha]
  rfl

theorem read_eq_slot (h : Heap) (a : Nat) (key : String) :
    h.read a key = ((h.slot a key).bind Slot.value?).getD .undefined := by
  unfold read slot Object.get Object.own
  cases h[a]? <;> rfl

theorem read_of_slot (hs : h'.slot b key = h.slot a key) : h'.read b key = h.read a key := by
  rw [read_eq_slot,hs,← read_eq_slot]

theorem exists_slot_of_read (hv : h.read a key = v) (hne : v ≠ .undefined) :
    ∃ w, h.slot a key = some (.data v w) := by
  rw [read_eq_slot] at hv
  cases hs : h.slot a key with
  | none =>
    rw [hs] at hv
    exact absurd hv.symm hne
  | some s =>
    rw [hs,Option.bind_some] at hv
    cases s with
    | data u w => exact ⟨w,by rw [← hv]; rfl⟩
    | special => exact absurd hv.symm hne

theorem lt_of_slot (hs : h.slot a key = some s) : a < h.length := by
  obtain ⟨o,ho,-⟩ := Option.bind_eq_some_iff.mp hs
  exact (List.getElem?_eq_some_iff.mp ho).1

theorem slot_of_le (ha : h.length ≤ a) : h.slot a key = none := by
  rw [slot,List.getElem?_eq_none ha]
  rfl

@[simp] theorem length_write : (h.write a key v).length = h.length := List.length_modify ..

theorem getElem?_write_self : (h.write a k v)[a]? = (h[a]?).map (·.set k v) := by
  simp [write]

theorem getElem?_write_of_ne (hb : b ≠ a) : (h.write a k v)[b]? = h[b]? := by
  simp [write,hb.symm]

theorem slot_write (ha : a < h.length) :
    (h.write a k v).slot b key = if b = a ∧ key = k then some (.data v true) else h.slot b key := by
  by_cases hb : b = a
  · subst hb
    rw [slot,getElem?_write_self,slot,List.getElem?_eq_getElem ha]
    simp [Object.slots_set]
  · rw [slot,getElem?_write_of_ne hb,if_neg (fun h => hb h.1),slot]

theorem read_write (ha : a < h.length) :
    (h.write a k v).read b key = if b = a ∧ key = k then v else h.read b key := by
  rw [read_eq_slot,slot_write ha,read_eq_slot]
  split <;> rfl

theorem slot_append_left (ha : a < h.length) : Heap.slot (h ++ h') a key = h.slot a key := by
  rw [slot,List.getElem?_append_left ha,slot]

theorem read_append_left (ha : a < h.length) : Heap.read (h ++ h') a key = h.read a key :=
  read_of_slot (slot_append_left ha)

theorem read_append_empty (isArray : Bool) : Heap.read (h ++ [.empty isArray]) a key = h.read a key := by
  by_cases ha : a < h.length
  · exact read_append_left ha
  · rw [read_of_le (Nat.le_of_not_lt ha),read,List.getElem?_append_right (Nat.le_of_not_lt ha)]
    cases a - h.length with
    | zero => simp [Object.get]
    | succ n => rfl

theorem slot_append_empty : Heap.slot (h ++ [.empty false]) a key = h.slot a key := by
  by_cases ha : a < h.length
  · exact slot_append_left ha
  · rw [slot_of_le (Nat.le_of_not_lt ha),slot,List.getElem?_append_right (Nat.le_of_not_lt ha)]
    cases a - h.length <;> rfl

end

/-- Every object that is held has an address in the heap. -/
def Closed (h : Heap) : Prop := ∀ ⦃a key b⦄, h.read a key = .object b → b < h.length

theorem Closed.append_empty {h : Heap} (hc : h.Closed) (isArray : Bool) :
    Closed (h ++ [.empty isArray]) := by
  intro a key b hr
  rw [read_append_empty] at hr
  rw [List.length_append]
  exact Nat.lt_add_right _ (hc hr)

theorem Closed.write {h : Heap} (hc : h.Closed) {a : Nat} {k : String} {v : Value}
    (ha : a < h.length) (hv : ∀ b, v = .object b → b < h.length) : (h.write a k v).Closed := by
  intro b key c hr
  rw [read_write ha] at hr
  rw [length_write]
  split at hr
  · exact hv c hr
  · exact hc hr

/-! ### What an object inherits -/

/-- What an object inherits from is one of some objects. -/
def Under (S : Set Nat) (h : Heap) (a : Nat) : Prop :=
  ∀ b, (h[a]?).bind Object.parent = some b → b ∈ S

/-- Objects that are there, the roots among them, and with each one what it inherits from. -/
structure Ancestral (S : Set Nat) (h : Heap) : Prop where
  root : ∀ a < Root.count, a ∈ S
  lt : ∀ a ∈ S, a < h.length
  under : ∀ a ∈ S, h.Under S a

/-- Under some names nothing is found from an object on but functions that can be replaced. -/
def Mild (names : Set String) (h : Heap) (a : Nat) : Prop :=
  ∀ key ∈ names, ∀ n s, h.find key n a = some s → s.IsMethod

/-- New objects, and values that are no objects, have nothing under some names but methods. -/
def MildRoots (names : Set String) (h : Heap) : Prop := ∀ a < Root.count, h.Mild names a

/-- An object inherits from some objects, and nothing under some names but methods. -/
structure Tame (S : Set Nat) (names : Set String) (h : Heap) (a : Nat) : Prop where
  under : h.Under S a
  mild : ∀ b, (h[a]?).bind Object.parent = some b → h.Mild names b

/-- An object has no property of a name and inherits none. -/
def Bare (h : Heap) (a : Nat) (key : String) : Prop := ∀ n, h.find key n a = none

section

variable {h h' : Heap} {a b : Nat} {key : String} {v w : Value} {s : Slot} {S : Set Nat}
  {names names' : Set String}

theorem find_succ (n : Nat) : h.find key (n + 1) a =
    (h.slot a key).or (((h[a]?).bind Object.parent).bind fun b => h.find key n b) := rfl

theorem MildRoots.mono (hr : h.MildRoots names) (hs : names' ⊆ names) : h.MildRoots names' :=
  fun a ha key hk => hr a ha key (hs hk)

theorem Tame.mono (ht : h.Tame S names a) (hs : names' ⊆ names) : h.Tame S names' a :=
  ⟨ht.under,fun b hb key hk => ht.mild b hb key (hs hk)⟩

theorem lookup_of_slot (hs : h.slot a key = some s) : h.lookup a key = some s := by
  obtain ⟨n,hn⟩ := Nat.exists_eq_add_one_of_ne_zero (Nat.ne_zero_of_lt (lt_of_slot hs))
  rw [lookup,hn,find_succ,hs]
  rfl

/-- What an object does not have itself is a method, if it is there. -/
theorem Tame.lookup (ht : h.Tame S names a) (hk : key ∈ names) (hn : h.slot a key = none)
    (hl : h.lookup a key = some s) : s.IsMethod := by
  rw [Heap.lookup] at hl
  cases hlen : h.length with
  | zero => rw [hlen] at hl; cases hl
  | succ n =>
    rw [hlen,find_succ,hn,Option.none_or] at hl
    obtain ⟨b,hb,hf⟩ := Option.bind_eq_some_iff.mp hl
    exact ht.mild b hb key hk n s hf

theorem get?_object (h : Heap) (a : Nat) (key : String) : h.get? (.object a) key =
    match h.lookup a key with
    | none => some .undefined
    | some s => s.value? := rfl

theorem get?_of_slot {v : Value} {w : Bool} (hs : h.slot a key = some (.data v w)) :
    h.get? (.object a) key = some v := by
  rw [get?_object,lookup_of_slot hs]
  rfl

theorem get?_of_read (hv : h.read a key = v) (hne : v ≠ .undefined) :
    h.get? (.object a) key = some v := by
  obtain ⟨w,hs⟩ := exists_slot_of_read hv hne
  exact get?_of_slot hs

/-- A value that stands under a name is what the object holds there itself, or something inherited that
is no object, number or text. -/
theorem Tame.get? (ht : h.Tame S names a) (hk : key ∈ names) (hv : h.get? (.object a) key = some v) :
    v = h.read a key ∨ h.read a key = .undefined ∧ ∃ f, v = .function f := by
  rw [get?_object] at hv
  cases hs : h.slot a key with
  | some s =>
    rw [lookup_of_slot hs] at hv
    dsimp only at hv
    rw [read_eq_slot,hs,Option.bind_some,hv]
    exact .inl rfl
  | none =>
    rw [read_eq_slot,hs]
    cases hl : h.lookup a key with
    | none =>
      rw [hl] at hv
      exact .inl (Option.some.inj hv).symm
    | some s =>
      obtain ⟨f,rfl⟩ := ht.lookup hk hs hl
      rw [hl] at hv
      exact .inr ⟨rfl,f,(Option.some.inj hv).symm⟩

theorem Tame.exists_get? (ht : h.Tame S names a) (hk : key ∈ names)
    (hs : h.slot a key ≠ some .special) : ∃ v, h.get? (.object a) key = some v := by
  rw [get?_object]
  cases hl : h.lookup a key with
  | none => exact ⟨_,rfl⟩
  | some s =>
    cases hn : h.slot a key with
    | none =>
      obtain ⟨f,rfl⟩ := ht.lookup hk hn hl
      exact ⟨_,rfl⟩
    | some s' =>
      obtain rfl : s' = s := Option.some.inj ((lookup_of_slot hn).symm.trans hl)
      cases s' with
      | data v w => exact ⟨v,rfl⟩
      | special => exact absurd hn hs

/-- A value that is no object has at most inherited methods. -/
theorem MildRoots.get? (hr : h.MildRoots names) (hk : key ∈ names) (hv : v.address? = none)
    (hw : h.get? v key = some w) : w = .undefined ∨ ∃ f, w = .function f := by
  rw [Heap.get?.eq_def] at hw
  split at hw
  · exact .inr ⟨_,(Option.some.inj hw).symm⟩
  · split at hw
    · cases hw
    · obtain ⟨a,ha,hw⟩ := Option.bind_eq_some_iff.mp hw
      have hroot : a < Root.count := by
        cases v <;> cases ha <;> first | exact Root.address_lt _ | cases hv
      cases hl : h.lookup a key with
      | none =>
        rw [hl] at hw
        exact .inl (Option.some.inj hw).symm
      | some s =>
        obtain ⟨f,rfl⟩ := hr a hroot key hk _ s hl
        rw [hl] at hw
        exact .inr ⟨f,(Option.some.inj hw).symm⟩

/-- A value that counts as true has properties. -/
theorem MildRoots.exists_get? (hr : h.MildRoots names) (hk : key ∈ names) (ht : v.isTruthy = true)
    (ha : v.address? = none) (hh : v.hides key = false) : ∃ w, h.get? v key = some w := by
  rw [Heap.get?.eq_def]
  split
  · exact ⟨_,rfl⟩
  · obtain ⟨root,hhome⟩ := Value.exists_root ht ha
    rw [hh,if_neg Bool.false_ne_true,hhome,Option.bind_some]
    cases hl : h.lookup root.address key with
    | none => exact ⟨_,rfl⟩
    | some s =>
      obtain ⟨f,rfl⟩ := hr _ root.address_lt key hk _ s hl
      exact ⟨_,rfl⟩

theorem Bare.slot (hb : h.Bare a key) : h.slot a key = none := by
  have h1 := hb 1
  rw [find_succ,Option.or_eq_none_iff] at h1
  exact h1.1

end

/-- An object that is none of some objects, but inherits from them, can get new properties. Under some
names it has nothing but values that can be set, and inherits nothing but methods. -/
structure Ordinary (S : Set Nat) (names : Set String) (h : Heap) (a : Nat) : Prop where
  outside : a ∉ S
  tame : h.Tame S names a
  extensible : ∃ o, h[a]? = some o ∧ o.extensible = true
  slots : ∀ key ∈ names, ∀ s, h.slot a key = some s → ∃ v, s = .data v true

section

variable {h : Heap} {a : Nat} {key : String} {v : Value} {S : Set Nat} {names names' : Set String}

theorem Ordinary.mono (ho : h.Ordinary S names a) (hs : names' ⊆ names) : h.Ordinary S names' a :=
  ⟨ho.outside,ho.tame.mono hs,ho.extensible,fun key hk => ho.slots key (hs hk)⟩

theorem Ordinary.not_special (ho : h.Ordinary S names a) (hk : key ∈ names) :
    h.slot a key ≠ some .special := by
  intro hs
  obtain ⟨v,hv⟩ := ho.slots key hk _ hs
  cases hv

/-- A property that is there and can be set, or is not there and can be made, is set. -/
theorem allows?_of_slot (hs : h.slot a key = some (.data v true)) : h.allows? a key = some true := by
  obtain ⟨o,ho,hk⟩ := Option.bind_eq_some_iff.mp hs
  rw [allows?,ho,Option.bind_some,lookup_of_slot hs]
  simp [Slot.writable?,hk]

theorem Bare.allows? (hb : h.Bare a key) {o : Object} (ho : h[a]? = some o)
    (he : o.extensible = true) : h.allows? a key = some true := by
  rw [Heap.allows?,ho,Option.bind_some,Heap.lookup,hb]
  simp [he]

theorem Ordinary.allows? (ho : h.Ordinary S names a) (hk : key ∈ names) :
    h.allows? a key = some true := by
  cases hs : h.slot a key with
  | some s =>
    obtain ⟨v,rfl⟩ := ho.slots key hk s hs
    exact allows?_of_slot hs
  | none =>
    obtain ⟨o,hoa,he⟩ := ho.extensible
    rw [Heap.allows?,hoa,Option.bind_some]
    cases hl : h.lookup a key with
    | none => simp [he]
    | some s =>
      obtain ⟨f,rfl⟩ := ho.tame.lookup hk hs hl
      simp [Slot.writable?,he]

end

/-! ### What a program does to a heap -/

/-- How a heap grows. Some objects stay as they are; the other ones inherit and can get what they did and
could, and what they hold anew can be set; the new objects are plain. -/
structure Grows (S : Set Nat) (h h' : Heap) : Prop where
  length : h.length ≤ h'.length
  fixed : ∀ a ∈ S, h'[a]? = h[a]?
  old : ∀ a o', a < h.length → h'[a]? = some o' → ∃ o, h[a]? = some o ∧ o'.parent = o.parent ∧
    o'.extensible = o.extensible ∧
    ∀ key s, o'.slots key = some s → o.slots key = some s ∨ ∃ v, s = .data v true
  new : ∀ a o', h.length ≤ a → h'[a]? = some o' → o'.Plain

namespace Grows

variable {h h' h'' : Heap} {a : Nat} {k key : String} {v : Value} {S : Set Nat} {names : Set String}

theorem of_isPrefix (hp : h <+: h') (hs : h.Ancestral S)
    (hn : ∀ a o, h.length ≤ a → h'[a]? = some o → o.Plain) : h.Grows S h' := by
  have hold (a : Nat) (ha : a < h.length) : h'[a]? = h[a]? :=
    (List.prefix_iff_getElem?.mp hp a ha).trans (List.getElem?_eq_getElem ha).symm
  exact ⟨hp.length_le,fun a ha => hold a (hs.lt a ha),
    fun a o ha ho => ⟨o,(hold a ha).symm.trans ho,rfl,rfl,fun _ _ hs => .inl hs⟩,hn⟩

theorem refl (hs : h.Ancestral S) : h.Grows S h :=
  of_isPrefix List.prefix_rfl hs fun a o ha ho => by
    rw [List.getElem?_eq_none ha] at ho
    cases ho

theorem append_empty (hs : h.Ancestral S) (isArray : Bool) : h.Grows S (h ++ [.empty isArray]) := by
  refine of_isPrefix (List.prefix_append ..) hs fun a o ha ho => ?_
  rw [List.getElem?_append_right ha] at ho
  cases hn : a - h.length with
  | zero => rw [hn] at ho; cases ho; exact .empty isArray
  | succ n => rw [hn] at ho; cases ho

theorem write (ha : a ∉ S) : h.Grows S (h.write a key v) := by
  refine ⟨length_write.ge,fun b hb => getElem?_write_of_ne fun he => ha (he ▸ hb),
    fun b o' hb ho => ?_,fun b o' hb ho => ?_⟩
  · by_cases he : b = a
    · subst he
      rw [getElem?_write_self] at ho
      obtain ⟨o,hob,rfl⟩ := Option.map_eq_some_iff.mp ho
      refine ⟨o,hob,rfl,rfl,fun k s hs => ?_⟩
      rw [Object.slots_set] at hs
      split at hs
      · cases hs
        exact .inr ⟨v,rfl⟩
      · exact .inl hs
    · rw [getElem?_write_of_ne he] at ho
      exact ⟨o',ho,rfl,rfl,fun _ _ hs => .inl hs⟩
  · rw [List.getElem?_eq_none (length_write.trans_le hb)] at ho
    cases ho

theorem exists_old (hg : h.Grows S h') {o : Object} (ho : h[a]? = some o) :
    ∃ o', h'[a]? = some o' ∧ o'.parent = o.parent ∧ o'.extensible = o.extensible := by
  have ha : a < h.length := (List.getElem?_eq_some_iff.mp ho).1
  have ho' := List.getElem?_eq_getElem (ha.trans_le hg.length)
  obtain ⟨o₁,ho₁,hp,he,-⟩ := hg.old a _ ha ho'
  cases ho.symm.trans ho₁
  exact ⟨_,ho',hp,he⟩

theorem trans (hg : h.Grows S h') (hg' : h'.Grows S h'') : h.Grows S h'' := by
  refine ⟨hg.length.trans hg'.length,fun a ha => (hg'.fixed a ha).trans (hg.fixed a ha),
    fun a o'' ha ho => ?_,fun a o'' ha ho => ?_⟩
  · obtain ⟨o',ho',hp',he',hs'⟩ := hg'.old a o'' (ha.trans_le hg.length) ho
    obtain ⟨o,ho,hp,he,hs⟩ := hg.old a o' ha ho'
    refine ⟨o,ho,hp'.trans hp,he'.trans he,fun key s hk => ?_⟩
    exact (hs' key s hk).elim (hs key s) .inr
  · by_cases ha' : a < h'.length
    · obtain ⟨o',ho',hp',he',hs'⟩ := hg'.old a o'' ha' ho
      have hpl := hg.new a o' ha ho'
      refine ⟨he'.trans hpl.extensible,fun b hb => hpl.parent b (hp'.symm.trans hb),fun key s hk => ?_⟩
      exact (hs' key s hk).elim (hpl.slots key s) .inr
    · exact hg'.new a o'' (Nat.le_of_not_lt ha') ho

/-- An old object inherits from what it did. -/
theorem parent_eq (hg : h.Grows S h') (ha : a < h.length) :
    (h'[a]?).bind Object.parent = (h[a]?).bind Object.parent := by
  have ho := List.getElem?_eq_getElem ha
  obtain ⟨o',ho',hp,-⟩ := hg.exists_old ho
  rw [ho',ho,Option.bind_some,Option.bind_some,hp]

theorem under (hg : h.Grows S h') (ha : a < h.length) (hu : h.Under S a) : h'.Under S a :=
  fun b hb => hu b ((hg.parent_eq ha).symm.trans hb)

theorem ancestral (hg : h.Grows S h') (hs : h.Ancestral S) : h'.Ancestral S :=
  ⟨hs.root,fun a ha => (hs.lt a ha).trans_le hg.length,
    fun a ha => hg.under (hs.lt a ha) (hs.under a ha)⟩

/-- What is found from the objects on that stay as they are stays the same. -/
theorem find_of_mem (hg : h.Grows S h') (hs : h.Ancestral S) (ha : a ∈ S) (n : Nat) :
    h'.find key n a = h.find key n a := by
  induction n generalizing a with
  | zero => rfl
  | succ n ih =>
    rw [find_succ,find_succ,slot,hg.fixed a ha]
    congr 1
    exact Option.bind_congr fun b hb => ih (hs.under a ha b hb)

theorem mild (hg : h.Grows S h') (hs : h.Ancestral S) (ha : a ∈ S) (hm : h.Mild names a) :
    h'.Mild names a := by
  intro key hk n s hf
  rw [hg.find_of_mem hs ha] at hf
  exact hm key hk n s hf

theorem mildRoots (hg : h.Grows S h') (hs : h.Ancestral S) (hr : h.MildRoots names) :
    h'.MildRoots names := fun a ha => hg.mild hs (hs.root a ha) (hr a ha)

theorem tame (hg : h.Grows S h') (hs : h.Ancestral S) (ha : a < h.length) (ht : h.Tame S names a) :
    h'.Tame S names a := by
  refine ⟨hg.under ha ht.under,fun b hb => ?_⟩
  rw [hg.parent_eq ha] at hb
  exact hg.mild hs (ht.under b hb) (ht.mild b hb)

/-- What an object does not inherit it does not come to inherit. -/
theorem bare (hg : h.Grows S h') (hs : h.Ancestral S) (hu : h.Under S a) (hb : h.Bare a key)
    (ha : a < h.length) (hn : h'.slot a key = none) : h'.Bare a key := by
  intro n
  cases n with
  | zero => rfl
  | succ n =>
    have hf := hb (n + 1)
    rw [find_succ,Option.or_eq_none_iff] at hf
    rw [find_succ,hn,Option.none_or,hg.parent_eq ha]
    exact (Option.bind_congr fun b hb => hg.find_of_mem hs (hu b hb) n).trans hf.2

theorem ordinary (hg : h.Grows S h') (hs : h.Ancestral S) (ho : h.Ordinary S names a) :
    h'.Ordinary S names a := by
  obtain ⟨o,hoa,he⟩ := ho.extensible
  have ha : a < h.length := (List.getElem?_eq_some_iff.mp hoa).1
  obtain ⟨o',ho',hp,he'⟩ := hg.exists_old hoa
  refine ⟨ho.outside,hg.tame hs ha ho.tame,⟨o',ho',he'.trans he⟩,fun key hk s hs => ?_⟩
  obtain ⟨o₁,ho₁,-,-,hso⟩ := hg.old a o' ha ho'
  rw [slot,ho',Option.bind_some] at hs
  obtain hs | hv := hso key s hs
  · exact ho.slots key hk s (by rw [slot,ho₁]; exact hs)
  · exact hv

/-- A new object inherits from a root. -/
theorem tame_new (hg : h.Grows S h') (hs : h.Ancestral S) (hr : h.MildRoots names) (ha : h.length ≤ a) :
    h'.Tame S names a := by
  have hroot {b : Nat} (hb : (h'[a]?).bind Object.parent = some b) : b < Root.count := by
    obtain ⟨o,ho,hb⟩ := Option.bind_eq_some_iff.mp hb
    exact (hg.new a o ha ho).parent b hb
  exact ⟨fun b hb => hs.root b (hroot hb),
    fun b hb => hg.mild hs (hs.root b (hroot hb)) (hr b (hroot hb))⟩

/-- A new object is ordinary, if what it has under the names can be set. -/
theorem ordinary_new (hg : h.Grows S h') (hs : h.Ancestral S) (hr : h.MildRoots names)
    (ha : h.length ≤ a) (ha' : a < h'.length) (hn : ∀ key ∈ names, h'.slot a key ≠ some .special) :
    h'.Ordinary S names a := by
  have ho := List.getElem?_eq_getElem ha'
  have hpl := hg.new a _ ha ho
  refine ⟨fun hm => absurd (hs.lt a hm) (Nat.not_lt.mpr ha),hg.tame_new hs hr ha,
    ⟨_,ho,hpl.extensible⟩,fun key hk s hslot => ?_⟩
  obtain ⟨-,rfl⟩ | hv := hpl.slots key s (by rw [slot,ho] at hslot; exact hslot)
  · exact absurd hslot (hn key hk)
  · exact hv

/-- A new object has a property that cannot be set only as the length of an array. -/
theorem not_special_new (hg : h.Grows S h') (ha : h.length ≤ a) (hk : key ≠ "length") :
    h'.slot a key ≠ some .special := by
  intro hs
  obtain ⟨o,ho,hs⟩ := Option.bind_eq_some_iff.mp hs
  obtain ⟨rfl,-⟩ | ⟨v,hv⟩ := (hg.new a o ha ho).slots key _ hs
  · exact hk rfl
  · cases hv

end Grows

end Heap

end CoverageCounters
