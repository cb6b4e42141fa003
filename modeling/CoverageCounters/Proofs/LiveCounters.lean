import CoverageCounters.Proofs.PreludeEvaluation

/-!
Counters that are live. A program may be loaded again and again while its counters count and programs for
other paths are loaded and count as well. Its variable keeps the object that it had, the registry keeps
that object, and each counter is as far as it was counted up.
-/

namespace CoverageCounters

open Eval

/-! ### Slots -/

/-- The object and the key where a counter of an entry counts. -/
def slot? (h : Heap) (e : Nat) : Counter → Option (Nat × String)
  | .statement i => (h.read e "s").address?.map fun a => (a,indexText i)
  | .function i => (h.read e "f").address?.map fun a => (a,indexText i)
  | .branch i path =>
    (h.read e "b").address?.bind fun a =>
      (h.read a (indexText i)).address?.map fun b => (b,indexText path)

/-- How far a counter of an entry is. -/
def count? (h : Heap) (e : Nat) (c : Counter) : Option Number :=
  (slot? h e c).bind fun s => (h.read s.1 s.2).number?

/-- The objects that can be reached hold the same objects under the same keys. -/
def SameLinks (e : Nat) (h h' : Heap) : Prop :=
  ∀ a, h.Reaches e a → ∀ key, (h'.read a key).address? = (h.read a key).address?

section Links

variable {h h' : Heap} {e a : Nat} {c : Counter}

theorem SameLinks.reaches (hs : SameLinks e h h') (hr : h'.Reaches e a) : h.Reaches e a := by
  induction hr with
  | refl => exact .refl
  | tail _ hh ih =>
    obtain ⟨key,hk⟩ := hh
    refine ih.tail ⟨key,?_⟩
    rw [← Value.address?_eq_some,← hs _ ih,hk]
    rfl

theorem reaches_of_slot? {s : Nat × String} (hs : slot? h e c = some s) : h.Reaches e s.1 := by
  have hold {a b : Nat} {key : String} (hv : (h.read a key).address? = some b) : h.Holds a b :=
    ⟨key,Value.address?_eq_some.mp hv⟩
  cases c with
  | statement i | function i =>
    obtain ⟨a,ha,rfl⟩ := Option.map_eq_some_iff.mp hs
    exact .single (hold ha)
  | branch i path =>
    obtain ⟨a,ha,hm⟩ := Option.bind_eq_some_iff.mp hs
    obtain ⟨b,hb,rfl⟩ := Option.map_eq_some_iff.mp hm
    exact .tail (.single (hold ha)) (hold hb)

theorem SameLinks.slot? (hs : SameLinks e h h') (c : Counter) : slot? h' e c = slot? h e c := by
  cases c with
  | statement i | function i => rw [CoverageCounters.slot?,CoverageCounters.slot?,hs e .refl]
  | branch i path =>
    rw [CoverageCounters.slot?,CoverageCounters.slot?,hs e .refl]
    refine Option.bind_congr fun a ha => ?_
    rw [hs a (.single ⟨"b",Value.address?_eq_some.mp ha⟩)]

end Links

/-- The names of properties that counters go through. -/
def counterNames : Set String :=
  {key | key ∈ ["hash","s","f","b"] ∨ ∃ i, key = indexText i}

theorem length_not_mem_counterNames : "length" ∉ counterNames := by
  rintro (h | ⟨i,hi⟩)
  · revert h
    decide
  · exact indexText_ne (by decide) hi.symm

theorem mem_counterNames_of_slot? {h : Heap} {e : Nat} {c : Counter} {s : Nat × String}
    (hs : slot? h e c = some s) : s.2 ∈ counterNames := by
  cases c with
  | statement i | function i =>
    obtain ⟨a,-,rfl⟩ := Option.map_eq_some_iff.mp hs
    exact .inr ⟨i,rfl⟩
  | branch i path =>
    obtain ⟨a,-,hm⟩ := Option.bind_eq_some_iff.mp hs
    obtain ⟨b,-,rfl⟩ := Option.map_eq_some_iff.mp hm
    exact .inr ⟨path,rfl⟩

/-- A counter reads the number of its slot and writes the next one. -/
theorem run_counter {e : Nat} {name : String} {scope : Scope} (hv : scope name = some (.object e))
    {h : Heap} {c : Counter} {s : Nat × String} {n : Number} (hs : slot? h e c = some s)
    (hn : h.slot s.1 s.2 = some (.data (.number n) true)) (m : Realm) (rest : List Scope) :
    ((c.node name).eval m).run ⟨h,scope :: rest⟩ =
      some (.number n,⟨h.write s.1 s.2 (.number n.succ),scope :: rest⟩) := by
  have hk (i : Nat) : (Value.number (.integer i)).key? = some (indexText i) := by
    simp [Value.key?]
  have hget {a b : Nat} {key : String} (ha : (h.read a key).address? = some b) (scopes : List Scope) :
      (getMember (.object a) key).run ⟨h,scopes⟩ = some (.object b,⟨h,scopes⟩) :=
    run_getMember (Heap.get?_of_read (Value.address?_eq_some.mp ha) nofun)
  have hnum (scopes : List Scope) : (getMember (.object s.1) s.2).run ⟨h,scopes⟩ =
      some (.number n,⟨h,scopes⟩) := run_getMember (Heap.get?_of_slot hn)
  have hset (scopes : List Scope) (v : Value) : (setMember m.strict (.object s.1) s.2 v).run
      ⟨h,scopes⟩ = some ((),⟨h.write s.1 s.2 v,scopes⟩) :=
    run_setMember (Heap.allows?_of_slot hn) m.strict v
  cases c with
  | statement i | function i =>
    obtain ⟨a,ha,rfl⟩ := Option.map_eq_some_iff.mp hs
    simp [Counter.node,Build.eval_increment_element,Build.eval_member,run_lookup hv,hget ha,hk,ofOption,
      hnum,hset]
  | branch i path =>
    obtain ⟨a,ha,hm⟩ := Option.bind_eq_some_iff.mp hs
    obtain ⟨b,hb,rfl⟩ := Option.map_eq_some_iff.mp hm
    simp [Counter.node,Build.eval_increment_element,Build.eval_element,Build.eval_member,run_lookup hv,
      hget ha,hget hb,hk,ofOption,hnum,hset]

section Found

variable {S : Set Nat} {names : Set String} {h : Heap} {key : String} {v w : Value}

/-- What is found under one of the names, and is no method, is held by an object. -/
theorem exists_read_of_get? (hr : h.MildRoots names) (ht : ∀ a, v = .object a → h.Tame S names a)
    (hk : key ∈ names) (hv : h.get? v key = some w) (hw : w ≠ .undefined)
    (hf : ∀ f, w ≠ .function f) : ∃ a, v = .object a ∧ h.read a key = w := by
  cases ha : v.address? with
  | none =>
    obtain h | ⟨f,h⟩ := hr.get? hk ha hv
    · exact absurd h hw
    · exact absurd h (hf f)
  | some a =>
    obtain rfl := Value.address?_eq_some.mp ha
    obtain h | ⟨-,f,h⟩ := (ht a rfl).get? hk hv
    · exact ⟨a,rfl,h.symm⟩
    · exact absurd h (hf f)

/-- An increment that has an answer finds a number in a property of an object. -/
theorem exists_of_run_increment {strict : Bool} {s : RunState} {r : Value × RunState}
    (hroots : s.heap.MildRoots names) (ht : ∀ a, v = .object a → s.heap.Tame S names a)
    (hk : key ∈ names) (hr : (do
      match ← getMember v key with
      | .number n =>
        setMember strict v key (.number n.succ)
        return .number n
      | _ => failure : Eval Value).run s = some r) :
    ∃ a n, v = .object a ∧ s.heap.read a key = .number n := by
  rw [StateT.run_bind] at hr
  obtain ⟨⟨w,s'⟩,hw,hr⟩ := Option.bind_eq_some_iff.mp hr
  cases w with
  | number n =>
    obtain ⟨a,ha,hn⟩ := exists_read_of_get? hroots ht hk (get?_of_run_getMember hw).1 nofun nofun
    exact ⟨a,n,ha,hn⟩
  | _ => cases hr

end Found

/-- A counter that has an answer finds a number in its slot. -/
theorem exists_of_run_counter {m : Realm} {e : Nat} {name : String} {scope : Scope}
    (hv : scope name = some (.object e)) {S : Set Nat} {h : Heap} (hroots : h.MildRoots counterNames)
    (ht : ∀ a, h.Reaches e a → h.Tame S counterNames a) {c : Counter} {rest : List Scope}
    {r : Value × RunState} (hr : ((c.node name).eval m).run ⟨h,scope :: rest⟩ = some r) :
    ∃ s n, slot? h e c = some s ∧ h.read s.1 s.2 = .number n := by
  have hk (i : Nat) : (Value.number (.integer i)).key? = some (indexText i) := by
    simp [Value.key?]
  -- what an object finds itself is reached from it, or no object
  have hnext {a : Nat} {key : String} {v : Value} (hea : h.Reaches e a) (hk : key ∈ counterNames)
      (hv : h.get? (.object a) key = some v) (b : Nat) (hb : v = .object b) :
      (h.read a key).address? = some b ∧ h.Reaches e b := by
    subst hb
    obtain hb | ⟨-,f,hf⟩ := (ht a hea).get? hk hv
    · exact ⟨by rw [← hb]; rfl,hea.tail ⟨key,hb.symm⟩⟩
    · cases hf
  cases c with
  | statement i | function i =>
    simp only [Counter.node,Build.eval_increment_element,Build.eval_member,Build.eval_identifier,
      Build.eval_index,bind_assoc,pure_bind,hk,ofOption] at hr
    rw [run_bind_of (run_lookup hv),StateT.run_bind] at hr
    obtain ⟨⟨w,s⟩,hw,hr⟩ := Option.bind_eq_some_iff.mp hr
    obtain ⟨hfound,rfl⟩ := get?_of_run_getMember hw
    have hin := hnext .refl (.inl (by simp)) hfound
    obtain ⟨a,n,rfl,hn⟩ := exists_of_run_increment hroots (fun b hb => ht b (hin b hb).2)
      (.inr ⟨i,rfl⟩) hr
    refine ⟨(a,indexText i),n,?_,hn⟩
    rw [slot?,(hin a rfl).1]
    rfl
  | branch i path =>
    simp only [Counter.node,Build.eval_increment_element,Build.eval_element,Build.eval_member,
      Build.eval_identifier,Build.eval_index,bind_assoc,pure_bind,hk,ofOption] at hr
    rw [run_bind_of (run_lookup hv),StateT.run_bind] at hr
    obtain ⟨⟨u,s⟩,hu,hr⟩ := Option.bind_eq_some_iff.mp hr
    obtain ⟨hb,rfl⟩ := get?_of_run_getMember hu
    rw [StateT.run_bind] at hr
    obtain ⟨⟨w,s⟩,hw,hr⟩ := Option.bind_eq_some_iff.mp hr
    obtain ⟨hfound,rfl⟩ := get?_of_run_getMember hw
    have hin := hnext .refl (.inl (by simp)) hb
    have htame (a : Nat) (ha : u = .object a) := ht a (hin a ha).2
    have hinner (b : Nat) (hb' : w = .object b) : ∃ a, u = .object a ∧
        (h.read a (indexText i)).address? = some b ∧ h.Reaches e b := by
      obtain ⟨a,ha,-⟩ := exists_read_of_get? hroots htame (.inr ⟨i,rfl⟩) hfound
        (by simp [hb']) (by simp [hb'])
      exact ⟨a,ha,hnext (hin a ha).2 (.inr ⟨i,rfl⟩) (ha ▸ hfound) b hb'⟩
    obtain ⟨b,n,rfl,hn⟩ := exists_of_run_increment hroots
      (fun b hb' => ht b (hinner b hb').choose_spec.2.2) (.inr ⟨path,rfl⟩) hr
    obtain ⟨a,ha,hi,-⟩ := hinner b rfl
    refine ⟨(b,indexText path),n,?_,hn⟩
    rw [slot?,(hin a ha).1,Option.bind_some,hi]
    rfl

namespace Heap

theorem Closed.lt_of_reaches {h : Heap} (hc : h.Closed) {e a : Nat} (he : e < h.length)
    (hr : h.Reaches e a) : a < h.length := by
  induction hr with
  | refl => exact he
  | tail _ hh _ =>
    obtain ⟨key,hk⟩ := hh
    exact hc hk

theorem lt_of_number {h : Heap} {a : Nat} {k : String} {n : Number} (hn : h.read a k = .number n) :
    a < h.length :=
  lt_of_slot (exists_slot_of_read hn nofun).choose_spec

/-- Where a number takes the place of a number all other values are as before. -/
theorem read_renumbered_iff {h : Heap} {a b : Nat} {k key : String} {n m : Number} {v : Value}
    (hn : h.read a k = .number n) (hv : v.number? = none) :
    (h.write a k (.number m)).read b key = v ↔ h.read b key = v := by
  rw [read_write (lt_of_number hn)]
  split
  next he =>
    rw [he.1,he.2,hn]
    constructor <;> rintro rfl <;> cases hv
  next => rfl

end Heap

theorem sameLinks_renumbered {h : Heap} {a : Nat} {k : String} {n : Number} (hn : h.read a k = .number n)
    (m : Number) (e : Nat) : SameLinks e h (h.write a k (.number m)) := by
  intro b _ key
  rw [Heap.read_write (Heap.lt_of_number hn)]
  split
  next he => rw [he.1,he.2,hn]; rfl
  next => rfl

/-- Where a slot gets the next number the counters that count in it are one further. -/
theorem count?_renumbered {h : Heap} {e : Nat} {c : Counter} {s : Nat × String} {n : Number}
    (hs : slot? h e c = some s) (hn : h.read s.1 s.2 = .number n) (c' : Counter) :
    count? (h.write s.1 s.2 (.number n.succ)) e c' =
      (count? h e c').map Number.succ^[if slot? h e c = slot? h e c' then 1 else 0] := by
  rw [count?,count?,(sameLinks_renumbered hn n.succ e).slot?,hs]
  cases hs' : slot? h e c' with
  | none => rfl
  | some s' =>
    rw [Option.bind_some,Option.bind_some,Heap.read_write (Heap.lt_of_number hn)]
    by_cases heq : s = s'
    · subst heq
      rw [if_pos ⟨rfl,rfl⟩,if_pos rfl,hn]
      rfl
    · have hne : ¬ (s'.1 = s.1 ∧ s'.2 = s.2) := fun hn => heq (Prod.ext hn.1.symm hn.2.symm)
      rw [if_neg hne,if_neg fun hn => heq (Option.some.inj hn),Function.iterate_zero,
        Option.map_id_fun,id_eq]

namespace Bootstrap

/-! ### Programs that are loaded -/

/-- A program that was loaded, whether its code is strict, and the object that its variable holds. -/
structure Loaded where
  program : Parameters
  strict : Bool
  entry : Nat

/-- What happens while programs run: one is loaded, or a counter of one that was loaded counts. -/
inductive Event where
  | load (strict : Bool) (p : Parameters)
  | count (i : Nat) (c : Counter)

/-- The objects, and the programs in the order in which they were loaded. -/
structure World where
  heap : Heap
  loaded : List Loaded

namespace World

def step (g : Nat) (w : World) : Event → Option World
  | .load strict p => do
    let (v,heap) ← boot ⟨g,strict⟩ p w.heap
    let e ← v.address?
    return ⟨heap,w.loaded ++ [⟨p,strict,e⟩]⟩
  | .count i c => do
    let l ← w.loaded[i]?
    let scope := Function.update (fun _ => none) l.program.identifier (some (.object l.entry))
    let (_,s) ← ((c.node l.program.identifier).eval ⟨g,l.strict⟩).run ⟨w.heap,[scope]⟩
    return { w with heap := s.heap }

def run (g : Nat) (w : World) : List Event → Option World
  | [] => some w
  | event :: rest => do (← w.step g event).run g rest

end World

section Steps

variable {g : Nat} {p : Parameters} {h : Heap} {loaded : List Loaded} {w w' : World}

theorem step_load {strict : Bool} {e : Nat} {h' : Heap}
    (hb : boot ⟨g,strict⟩ p w.heap = some (.object e,h')) :
    w.step g (.load strict p) = some ⟨h',w.loaded ++ [⟨p,strict,e⟩]⟩ := by
  simp [World.step,hb,Value.address?]

theorem step_count {i : Nat} {l : Loaded} {c : Counter} {s : Nat × String} {n : Number}
    (hl : w.loaded[i]? = some l) (hs : slot? w.heap l.entry c = some s)
    (hn : w.heap.slot s.1 s.2 = some (.data (.number n) true)) :
    w.step g (.count i c) = some { w with heap := w.heap.write s.1 s.2 (.number n.succ) } := by
  simp only [World.step,hl,Option.bind_eq_bind,Option.bind_some]
  rw [run_counter (Function.update_self ..) hs hn]
  rfl

/-- A counter that counts has a number in its slot. -/
theorem exists_of_step_count {S : Set Nat} (hr : w.heap.MildRoots counterNames)
    (ht : ∀ l ∈ w.loaded, ∀ a, w.heap.Reaches l.entry a → w.heap.Tame S counterNames a) {i : Nat}
    {c : Counter} (h : w.step g (.count i c) = some w') :
    ∃ l s n, w.loaded[i]? = some l ∧ slot? w.heap l.entry c = some s ∧
      w.heap.read s.1 s.2 = .number n := by
  obtain ⟨l,hl,h⟩ := Option.bind_eq_some_iff.mp h
  obtain ⟨r,hrun,-⟩ := Option.bind_eq_some_iff.mp h
  obtain ⟨s,n,hs,hn⟩ := exists_of_run_counter (Function.update_self ..) hr
    (ht l (List.mem_of_getElem? hl)) hrun
  exact ⟨l,s,n,hl,hs,hn⟩

end Steps

/-! ### What a run relies on -/

section Order

/-- A registry holds an object under a path. -/
def Entry (g : Nat) (V : Set String) (h : Heap) (path : String) (a : Nat) : Prop :=
  ∃ v ∈ V, ∃ r, h.read g v = .object r ∧ h.read r path = .object a

/-- The objects of programs for other paths: those in a registry and those that were loaded. -/
def Other (g : Nat) (V : Set String) (p : Parameters) (w : World) (a : Nat) : Prop :=
  (∃ path, path ≠ p.path ∧ Entry g V w.heap path a) ∨
    ∃ l ∈ w.loaded, l.program.path ≠ p.path ∧ l.entry = a

/-- The objects that counters may count in. -/
def InUse (g : Nat) (V : Set String) (p : Parameters) (w : World) (a : Nat) : Prop :=
  Held g p w.heap a ∨ Other g V p w a

/-- What can be reached from entries in the registries, for some paths, and from what programs hold. -/
def Used (g : Nat) (V P : Set String) (w : World) (a : Nat) : Prop :=
  (∃ path ∈ P, ∃ e, Entry g V w.heap path e ∧ w.heap.Reaches e a) ∨
    ∃ l ∈ w.loaded, w.heap.Reaches l.entry a

/-- The world of a program. Each name of a coverage variable stands for an object, which is not the global
object, or for nothing. The program for the path is the one, and its variable holds the entry. From what
counters count in neither the global object nor a registry can be reached, and the entry of the path
shares nothing with the objects of programs for other paths. New objects inherit nothing but methods
under the paths and the names of counters, nothing that matters inherits from the global object, and the
registries and what is used are ordinary objects. -/
structure Orderly (S : Set Nat) (g : Nat) (V P : Set String) (p : Parameters) (w : World) : Prop where
  grounded : Grounded S g w.heap
  outside : g ∉ S
  roots : w.heap.MildRoots (P ∪ counterNames)
  mem : p.coverageVariable ∈ V
  path : p.path ∈ P
  names : ∀ v ∈ V, Openable g v w.heap ∧ w.heap.read g v ≠ .object g
  registries : ∀ v ∈ V, ∀ r, w.heap.read g v = .object r → w.heap.Ordinary S P r
  ordinary : ∀ a, Used g V P w a → w.heap.Ordinary S counterNames a
  loaded : ∀ l ∈ w.loaded, l.entry < w.heap.length ∧
    (l.program.path = p.path → l.program = p ∧ Held g p w.heap l.entry)
  inside : ∀ a, InUse g V p w a → ¬ w.heap.Reaches a g ∧
    ∀ v ∈ V, ∀ r, w.heap.read g v = .object r → ¬ w.heap.Reaches a r
  apart : ∀ e a b, Held g p w.heap e → Other g V p w a → w.heap.Reaches e b → ¬ w.heap.Reaches a b

/-- What may be loaded in such a world: the program, or one for another path. -/
structure Fits (V P : Set String) (p q : Parameters) : Prop where
  mem : q.coverageVariable ∈ V
  known : q.path ∈ P
  data : ∃ entries, q.data = .object entries
  lacks : Json.Lacks "__proto__" q.data
  path : q.path = p.path → q = p

def Event.Fits (V P : Set String) (p : Parameters) : Event → Prop
  | .load _ q => Bootstrap.Fits V P p q
  | .count _ _ => True

/-- Whether an event counts up the slot of a counter, in the object at an address. -/
def World.hits (w : World) (e : Nat) (c : Counter) : Event → Bool
  | .load .. => false
  | .count i c' =>
    (w.loaded[i]?).map Loaded.entry = some e && slot? w.heap e c' = slot? w.heap e c

/-- All that can be reached from an object is new. -/
def Fresh (g : Nat) (V : Set String) (h h' : Heap) (a : Nat) : Prop :=
  ∀ b, h'.Reaches a b → h.length ≤ b ∧ ∀ v ∈ V, h'.read g v ≠ .object b

/-- What an event does to an entry: it stays in place, and each counter is counted up so many times. -/
structure Kept (g : Nat) (p : Parameters) (e : Nat) (h h' : Heap) (k : Counter → Nat) : Prop where
  held : Held g p h' e
  slot : ∀ c, slot? h' e c = slot? h e c
  count : ∀ c, count? h' e c = (count? h e c).map Number.succ^[k c]

variable {S : Set Nat} {g : Nat} {V P : Set String} {p q : Parameters} {h h' h'' : Heap}
  {a d e r : Nat} {w w' : World} {loaded : List Loaded}

theorem Held.unique {e' : Nat} (he : Held g p h e) (he' : Held g p h e') : e = e' := by
  obtain ⟨r,hr,hre,-⟩ := he
  obtain ⟨r',hr',hre',-⟩ := he'
  cases hr.symm.trans hr'
  cases hre.symm.trans hre'
  rfl

theorem Held.lt (he : Held g p h e) (hc : h.Closed) : e < h.length := by
  obtain ⟨r,-,hre,-⟩ := he
  exact hc hre

theorem Kept.refl (he : Held g p h e) : Kept g p e h h fun _ => 0 := by
  refine ⟨he,fun _ => rfl,fun c => ?_⟩
  rw [Function.iterate_zero,Option.map_id_fun,id_eq]

theorem Kept.trans {k k' : Counter → Nat} (hk : Kept g p e h h' k) (hk' : Kept g p e h' h'' k') :
    Kept g p e h h'' fun c => k' c + k c := by
  refine ⟨hk'.held,fun c => (hk'.slot c).trans (hk.slot c),fun c => ?_⟩
  rw [hk'.count,hk.count,Option.map_map,Function.iterate_add]

/-- If everything that can be reached from an entry is the same, nothing is counted up. -/
theorem kept_of_same (hs : ∀ a, h.Reaches e a → ∀ key, h'.read a key = h.read a key)
    (he : Held g p h' e) : Kept g p e h h' fun _ => 0 := by
  have hlinks : SameLinks e h h' := fun a ha key => by rw [hs a ha]
  refine ⟨he,hlinks.slot?,fun c => ?_⟩
  rw [count?,hlinks.slot?,Function.iterate_zero,Option.map_id_fun,id_eq,count?]
  refine Option.bind_congr fun s hslot => ?_
  rw [hs _ (reaches_of_slot? hslot)]

theorem held_renumbered {k : String} {n : Number} (hn : h.read a k = .number n) (m : Number) :
    Held g p (h.write a k (.number m)) e ↔ Held g p h e := by
  simp only [Held,Heap.read_renumbered_iff hn (v := .object _) rfl,
    Heap.read_renumbered_iff hn (v := .string _) rfl]

theorem entry_renumbered {k path : String} {n : Number} (hn : h.read a k = .number n) (m : Number) :
    Entry g V (h.write a k (.number m)) path e ↔ Entry g V h path e := by
  simp only [Entry,Heap.read_renumbered_iff hn (v := .object _) rfl]

namespace Orderly

theorem lt (ho : Orderly S g V P p w) (ha : InUse g V p w a) : a < w.heap.length := by
  obtain he | ⟨path,-,v,-,r,-,hr⟩ | ⟨l,hl,-,rfl⟩ := ha
  · exact he.lt ho.grounded.closed
  · exact ho.grounded.closed hr
  · exact (ho.loaded l hl).1

theorem inUse_of_loaded (ho : Orderly S g V P p w) {l : Loaded} (hl : l ∈ w.loaded) :
    InUse g V p w l.entry := by
  by_cases hp : l.program.path = p.path
  · exact .inl ((ho.loaded l hl).2 hp).2
  · exact .inr (.inr ⟨l,hl,hp,rfl⟩)

/-- What a program needs to be loaded is there. -/
theorem receptive (ho : Orderly S g V P p w) (hf : Fits V P p q) : Receptive S g q w.heap := by
  refine ⟨ho.outside,ho.roots.mono ?_,(ho.names _ hf.mem).1,fun r hr => ⟨?_,fun e he => ?_⟩⟩
  · rintro key (rfl | rfl)
    · exact .inl hf.known
    · exact .inr (.inl (by simp))
  · exact (ho.registries _ hf.mem r hr).mono (Set.singleton_subset_iff.mpr hf.known)
  · have hu : Used g V P w e := .inl ⟨_,hf.known,e,⟨_,hf.mem,r,hr,he⟩,.refl⟩
    have hhash : "hash" ∈ counterNames := .inl (by simp)
    have hord := ho.ordinary e hu
    exact ⟨hord.tame.mono (Set.singleton_subset_iff.mpr hhash),hord.not_special hhash⟩

end Orderly

/-- What an event has to keep for the order to be kept: what was in use holds the same objects, and what
comes into use is new, for the entry or for the others, and ordinary. -/
structure Keeps (S : Set Nat) (g : Nat) (V P : Set String) (p : Parameters) (w w' : World) : Prop where
  closed : w'.heap.Closed
  grows : w.heap.Grows S w'.heap
  names : ∀ v ∈ V, w'.heap.slot g v = w.heap.slot g v ∨
    ∃ r, w.heap.length ≤ r ∧ w'.heap.read g v = .object r ∧ w'.heap.Ordinary S P r
  loaded : ∀ l ∈ w'.loaded, l.entry < w'.heap.length ∧
    (l.program.path = p.path → l.program = p ∧ Held g p w'.heap l.entry)
  links : ∀ a, InUse g V p w a → SameLinks a w.heap w'.heap
  held : ∀ a, Held g p w'.heap a → Held g p w.heap a ∨ Fresh g V w.heap w'.heap a
  others : ∀ a, Other g V p w' a → Other g V p w a ∨ Fresh g V w.heap w'.heap a
  one : (∀ a, Held g p w'.heap a → Held g p w.heap a) ∨ ∀ a, Other g V p w' a → Other g V p w a
  used : ∀ a, Used g V P w' a → Used g V P w a ∨ w'.heap.Ordinary S counterNames a

namespace Orderly

theorem keep (ho : Orderly S g V P p w) (hk : Keeps S g V P p w w') : Orderly S g V P p w' := by
  have hold {a b : Nat} (hu : InUse g V p w a) (hr : w'.heap.Reaches a b) :
      w.heap.Reaches a b ∧ b < w.heap.length := by
    have hr := (hk.links a hu).reaches hr
    exact ⟨hr,ho.grounded.closed.lt_of_reaches (ho.lt hu) hr⟩
  have hs := ho.grounded.ancestral
  refine ⟨ho.grounded.grows hk.grows hk.closed,ho.outside,hk.grows.mildRoots hs ho.roots,ho.mem,ho.path,
    fun v hv => ?_,fun v hv r hr => ?_,fun a hu => ?_,hk.loaded,fun a hu => ?_,
    fun e a b hh ho' hb hab => ?_⟩
  · obtain he | ⟨r,hlr,hr,-⟩ := hk.names v hv
    · rw [Heap.read_of_slot he]
      exact ⟨(ho.names v hv).1.grows ho.grounded hk.grows he,(ho.names v hv).2⟩
    · refine ⟨.held hr,fun hg => ?_⟩
      cases hr.symm.trans hg
      exact absurd ho.grounded.global (Nat.not_lt.mpr hlr)
  · obtain he | ⟨r',-,hr',hord⟩ := hk.names v hv
    · exact hk.grows.ordinary hs (ho.registries v hv r ((Heap.read_of_slot he).symm.trans hr))
    · cases hr'.symm.trans hr
      exact hord
  · exact (hk.used a hu).elim (fun hu => hk.grows.ordinary hs (ho.ordinary a hu)) id
  · have hu : InUse g V p w a ∨ Fresh g V w.heap w'.heap a := by
      obtain hu | hu := hu
      · exact (hk.held a hu).imp .inl id
      · exact (hk.others a hu).imp .inr id
    obtain hu | hf := hu
    · refine ⟨fun hr => (ho.inside a hu).1 (hold hu hr).1,fun v hv r hr hb => ?_⟩
      obtain he | ⟨r',hlr,hr',-⟩ := hk.names v hv
      · exact (ho.inside a hu).2 v hv r ((Heap.read_of_slot he).symm.trans hr) (hold hu hb).1
      · cases hr'.symm.trans hr
        exact absurd (hold hu hb).2 (Nat.not_lt.mpr hlr)
    · exact ⟨fun hr => absurd ho.grounded.global (Nat.not_lt.mpr (hf g hr).1),
        fun v hv r hr hb => (hf r hb).2 v hv hr⟩
  · -- what is new is behind what was in use, and only one of the two can be new
    obtain hh' | hfe := hk.held e hh
    · obtain ho'' | hfa := hk.others a ho'
      · exact ho.apart e a b hh' ho'' (hold (.inl hh') hb).1 (hold (.inr ho'') hab).1
      · exact absurd (hold (.inl hh') hb).2 (Nat.not_lt.mpr (hfa b hab).1)
    · obtain ho'' | hfa := hk.others a ho'
      · exact absurd (hold (.inr ho'') hab).2 (Nat.not_lt.mpr (hfe b hb).1)
      · obtain hone | hone := hk.one
        · exact absurd (hold (.inl (hone e hh)) hb).2 (Nat.not_lt.mpr (hfe b hb).1)
        · exact absurd (hold (.inr (hone a ho')) hab).2 (Nat.not_lt.mpr (hfa b hab).1)

/-- What is used behind an event is among what holds the entries and is closed under holding. -/
theorem of_used {D : Nat → Prop}
    (he : ∀ path ∈ P, ∀ e, Entry g V w'.heap path e → D e) (hl : ∀ l ∈ w'.loaded, D l.entry)
    (hc : ∀ a b, D a → w'.heap.Holds a b → D b) {a : Nat} (hu : Used g V P w' a) : D a := by
  have hreach {e b : Nat} (hd : D e) (hr : w'.heap.Reaches e b) : D b := by
    induction hr with
    | refl => exact hd
    | tail _ hh ih => exact hc _ _ ih hh
  obtain ⟨path,hp,e,hentry,hr⟩ | ⟨l,hmem,hr⟩ := hu
  · exact hreach (he path hp e hentry) hr
  · exact hreach (hl l hmem) hr

theorem used_of_holds {b : Nat} (hu : Used g V P w a) (hh : w.heap.Holds a b) : Used g V P w b :=
  hu.imp (fun ⟨path,hp,e,he,hr⟩ => ⟨path,hp,e,he,hr.tail hh⟩) fun ⟨l,hl,hr⟩ => ⟨l,hl,hr.tail hh⟩

theorem lt_of_used (ho : Orderly S g V P p w) (hu : Used g V P w a) : a < w.heap.length := by
  obtain ⟨path,-,e,⟨v,-,r,-,hre⟩,hr⟩ | ⟨l,hl,hr⟩ := hu
  · exact ho.grounded.closed.lt_of_reaches (ho.grounded.closed hre) hr
  · exact ho.grounded.closed.lt_of_reaches (ho.loaded l hl).1 hr

/-! #### To load what is held -/

/-- To take over an entry leaves all objects as they were. -/
theorem reuse (ho : Orderly S g V P p w) (hf : Fits V P p q) (hr : Reuses S g q w.heap d h')
    (strict : Bool) : Orderly S g V P p ⟨h',w.loaded ++ [⟨q,strict,d⟩]⟩ ∧
      ∀ e, Held g p w.heap e → Kept g p e w.heap h' fun _ => 0 := by
  have hsame {a : Nat} (ha : a < w.heap.length) (key : String) : h'.read a key = w.heap.read a key :=
    Heap.read_of_isPrefix hr.kept ha key
  have hheld (p : Parameters) (a : Nat) : Held g p h' a ↔ Held g p w.heap a := by
    constructor
    · rintro ⟨r,hgr,hra,hh⟩
      rw [hsame ho.grounded.global] at hgr
      rw [hsame (ho.grounded.closed hgr)] at hra
      rw [hsame (ho.grounded.closed hra)] at hh
      exact ⟨r,hgr,hra,hh⟩
    · rintro ⟨r,hgr,hra,hh⟩
      exact ⟨r,(hsame ho.grounded.global _).trans hgr,(hsame (ho.grounded.closed hgr) _).trans hra,
        (hsame (ho.grounded.closed hra) _).trans hh⟩
  have hentry {path : String} {a : Nat} (ha : Entry g V h' path a) : Entry g V w.heap path a := by
    obtain ⟨v,hv,r,hgr,hra⟩ := ha
    rw [hsame ho.grounded.global] at hgr
    exact ⟨v,hv,r,hgr,(hsame (ho.grounded.closed hgr) _).symm.trans hra⟩
  have hother (a : Nat) (ha : Other g V p ⟨h',w.loaded ++ [⟨q,strict,d⟩]⟩ a) : Other g V p w a := by
    obtain ⟨path,hp,ha⟩ | ⟨l,hl,hp,rfl⟩ := ha
    · exact .inl ⟨path,hp,hentry ha⟩
    · obtain hl | hl := List.mem_append.mp hl
      · exact .inr ⟨l,hl,hp,rfl⟩
      · obtain rfl := List.mem_singleton.mp hl
        obtain ⟨r,hgr,hra,-⟩ := hr.held
        exact .inl ⟨q.path,hp,q.coverageVariable,hf.mem,r,hgr,hra⟩
  have hreach {a : Nat} (hu : InUse g V p w a) (b : Nat) (hb : w.heap.Reaches a b) (key : String) :
      h'.read b key = w.heap.read b key :=
    hsame (ho.grounded.closed.lt_of_reaches (ho.lt hu) hb) key
  refine ⟨ho.keep ⟨hr.closed,hr.grows,
    fun v _ => .inl (Heap.slot_of_isPrefix hr.kept ho.grounded.global v),fun l hl => ?_,
    fun a hu b hb key => congrArg _ (hreach hu b hb key),fun a ha => .inl ((hheld p a).mp ha),
    fun a ha => .inl (hother a ha),.inr hother,fun a hu => .inl ?_⟩,
    fun e he => kept_of_same (hreach (.inl he)) ((hheld p e).mpr he)⟩
  · obtain hl | hl := List.mem_append.mp hl
    · obtain ⟨hlt,hp⟩ := ho.loaded l hl
      exact ⟨hlt.trans_le hr.kept.length_le,fun he => ⟨(hp he).1,(hheld p _).mpr (hp he).2⟩⟩
    · obtain rfl := List.mem_singleton.mp hl
      refine ⟨(hr.held.lt ho.grounded.closed).trans_le hr.kept.length_le,fun he => ?_⟩
      obtain rfl := hf.path he
      exact ⟨rfl,(hheld q d).mpr hr.held⟩
  · refine of_used (fun path hp e he => .inl ⟨path,hp,e,hentry he,.refl⟩) (fun l hl => ?_)
      (fun a b ha hh => ?_) hu
    · obtain hl | hl := List.mem_append.mp hl
      · exact .inr ⟨l,hl,.refl⟩
      · obtain rfl := List.mem_singleton.mp hl
        obtain ⟨r,hgr,hra,-⟩ := hr.held
        exact .inl ⟨_,hf.known,d,⟨_,hf.mem,r,hgr,hra⟩,.refl⟩
    · obtain ⟨key,hk⟩ := hh
      exact used_of_holds ha ⟨key,(hsame (ho.lt_of_used ha) key).symm.trans hk⟩

/-! #### To load what is not held -/

section Installed

variable {entries : List (String × Json)}

theorem ne_registry (ho : Orderly S g V P p w) (hf : Fits V P p q)
    (hi : Installs S g q entries w.heap r d h') : r ≠ g := by
  rintro rfl
  obtain hr | ⟨-,hr,-⟩ := hi.registry
  · exact (ho.names _ hf.mem).2 hr
  · exact absurd ho.grounded.global (Nat.not_lt.mpr hr)

/-- What an old object has afterwards is what it had, or the new entry or registry. -/
theorem slot_installed (ho : Orderly S g V P p w) (hf : Fits V P p q)
    (hi : Installs S g q entries w.heap r d h') {b : Nat} (hb : b < w.heap.length) (key : String) :
    h'.slot b key = w.heap.slot b key ∨ (b = r ∧ key = q.path ∧ h'.read b key = .object d) ∨
      (b = g ∧ key = q.coverageVariable ∧ (w.heap.read g key).isTruthy = false ∧
        w.heap.length ≤ r ∧ h'.read b key = .object r) := by
  by_cases hr : b = r ∧ key = q.path
  · obtain ⟨rfl,rfl⟩ := hr
    exact .inr (.inl ⟨rfl,rfl,hi.entry⟩)
  · by_cases hg : b = g ∧ key = q.coverageVariable
    · obtain ⟨rfl,rfl⟩ := hg
      obtain hreg | ⟨hfalse,hlr,hreg⟩ := hi.registry
      · exact .inl (hi.others b _ (.inl hb) (fun he => absurd he.symm (ho.ne_registry hf hi))
          fun _ _ => hreg)
      · exact .inr (.inr ⟨rfl,rfl,hfalse,hlr,hreg⟩)
    · exact .inl (hi.others b key (.inl hb) (fun he hk => hr ⟨he,hk⟩) fun he hk => absurd ⟨he,hk⟩ hg)

theorem read_installed (ho : Orderly S g V P p w) (hf : Fits V P p q)
    (hi : Installs S g q entries w.heap r d h') {b : Nat} (hb : b < w.heap.length) (key : String) :
    h'.read b key = w.heap.read b key ∨ (b = r ∧ key = q.path ∧ h'.read b key = .object d) ∨
      (b = g ∧ key = q.coverageVariable ∧ (w.heap.read g key).isTruthy = false ∧
        w.heap.length ≤ r ∧ h'.read b key = .object r) :=
  (ho.slot_installed hf hi hb key).imp_left Heap.read_of_slot

theorem slot_names (ho : Orderly S g V P p w) (hf : Fits V P p q)
    (hi : Installs S g q entries w.heap r d h') (v : String) :
    h'.slot g v = w.heap.slot g v ∨ (w.heap.length ≤ r ∧ h'.read g v = .object r) := by
  obtain hr | ⟨hr,-⟩ | ⟨-,-,-,hlr,hr⟩ := ho.slot_installed hf hi ho.grounded.global v
  · exact .inl hr
  · exact absurd hr.symm (ho.ne_registry hf hi)
  · exact .inr ⟨hlr,hr⟩

theorem read_names (ho : Orderly S g V P p w) (hf : Fits V P p q)
    (hi : Installs S g q entries w.heap r d h') (v : String) :
    h'.read g v = w.heap.read g v ∨ (w.heap.length ≤ r ∧ h'.read g v = .object r) :=
  (ho.slot_names hf hi v).imp_left Heap.read_of_slot

/-- The registry stands under the name of the coverage variable. -/
theorem registry_installed (ho : Orderly S g V P p w) (hf : Fits V P p q)
    (hi : Installs S g q entries w.heap r d h') : h'.read g q.coverageVariable = .object r := by
  obtain hr | ⟨-,-,hr⟩ := hi.registry
  · obtain he | ⟨-,he⟩ := ho.read_names hf hi q.coverageVariable
    · exact he.trans hr
    · exact he
  · exact hr

theorem held_installed (ho : Orderly S g V P p w) (hf : Fits V P p q)
    (hi : Installs S g q entries w.heap r d h') : Held g q h' d :=
  ⟨r,ho.registry_installed hf hi,hi.entry,hi.payload.read_of_string
    (by simp [Json.lookup_append,Json.lookup])⟩

theorem fresh_installed (ho : Orderly S g V P p w) (hf : Fits V P p q)
    (hi : Installs S g q entries w.heap r d h') : Fresh g V w.heap h' d := by
  intro b hb
  obtain ⟨hlb,hbr⟩ := hi.apart b hb
  refine ⟨hlb,fun v _ hr => ?_⟩
  obtain he | ⟨-,he⟩ := ho.read_names hf hi v
  · exact absurd (ho.grounded.closed (he.symm.trans hr)) (Nat.not_lt.mpr hlb)
  · cases he.symm.trans hr
    exact hbr rfl

theorem same_installed (ho : Orderly S g V P p w) (hf : Fits V P p q)
    (hi : Installs S g q entries w.heap r d h') (hu : InUse g V p w a) {b : Nat}
    (hb : w.heap.Reaches a b) (key : String) : h'.read b key = w.heap.read b key := by
  have hlt := ho.grounded.closed.lt_of_reaches (ho.lt hu) hb
  obtain hr | ⟨rfl,-⟩ | ⟨rfl,-⟩ := ho.read_installed hf hi hlt key
  · exact hr
  · obtain hr | ⟨-,hr,-⟩ := hi.registry
    · exact absurd hb ((ho.inside a hu).2 _ hf.mem b hr)
    · exact absurd hlt (Nat.not_lt.mpr hr)
  · exact absurd hb (ho.inside a hu).1

/-- A new registry has nothing but the new entry. -/
theorem slot_new_registry (ho : Orderly S g V P p w) (hf : Fits V P p q)
    (hi : Installs S g q entries w.heap r d h') (hlr : w.heap.length ≤ r) {key : String}
    (hk : key ≠ q.path) : h'.slot r key = none := by
  rw [hi.others r key (.inr rfl) (fun _ => hk) fun he => absurd he (ho.ne_registry hf hi),
    Heap.slot_of_le hlr]

theorem ordinary_new_registry (ho : Orderly S g V P p w) (hf : Fits V P p q)
    (hi : Installs S g q entries w.heap r d h') (hlr : w.heap.length ≤ r) : h'.Ordinary S P r := by
  obtain ⟨writable,hs⟩ := Heap.exists_slot_of_read hi.entry nofun
  refine hi.grows.ordinary_new ho.grounded.ancestral (ho.roots.mono Set.subset_union_left) hlr
    (Heap.lt_of_slot hs) fun key _ => ?_
  by_cases hp : key = q.path
  · rw [hp,hs]
    nofun
  · rw [ho.slot_new_registry hf hi hlr hp]
    nofun

/-- A registry holds what it held, and the new entry under its path. -/
theorem entry_installed (ho : Orderly S g V P p w) (hf : Fits V P p q)
    (hi : Installs S g q entries w.heap r d h') {v path : String} (hv : v ∈ V) {r' : Nat}
    (hr : h'.read g v = .object r') (ha : h'.read r' path = .object a) :
    (path = q.path ∧ a = d) ∨
      (w.heap.read g v = .object r' ∧ w.heap.read r' path = .object a) := by
  obtain hv' | ⟨hlr,hv'⟩ := ho.read_names hf hi v
  · have hold := hv'.symm.trans hr
    obtain he | ⟨-,hp,he⟩ | ⟨rfl,-⟩ := ho.read_installed hf hi (ho.grounded.closed hold) path
    · exact .inr ⟨hold,he.symm.trans ha⟩
    · cases he.symm.trans ha
      exact .inl ⟨hp,rfl⟩
    · exact absurd hold (ho.names v hv).2
  · cases hv'.symm.trans hr
    by_cases hp : path = q.path
    · subst hp
      cases hi.entry.symm.trans ha
      exact .inl ⟨rfl,rfl⟩
    · -- a new registry holds nothing else
      rw [Heap.read_eq_slot,ho.slot_new_registry hf hi hlr hp] at ha
      cases ha

theorem used_installed (ho : Orderly S g V P p w) (hf : Fits V P p q)
    (hi : Installs S g q entries w.heap r d h') {strict : Bool}
    (hu : Used g V P ⟨h',w.loaded ++ [⟨q,strict,d⟩]⟩ a) :
    Used g V P w a ∨ w.heap.length ≤ a ∧ (h'.Reaches d a ∨ a = r) := by
  have hd : w.heap.length ≤ d ∧ (h'.Reaches d d ∨ d = r) := ⟨hi.payload.bounds.1,.inl .refl⟩
  refine of_used (D := fun a => Used g V P w a ∨ w.heap.length ≤ a ∧ (h'.Reaches d a ∨ a = r))
    (fun path hp e he => ?_) (fun l hl => ?_) (fun a b ha hh => ?_) hu
  · obtain ⟨v,hv,r',hgr,hra⟩ := he
    obtain ⟨-,rfl⟩ | ⟨hgr,hra⟩ := ho.entry_installed hf hi hv hgr hra
    · exact .inr hd
    · exact .inl (.inl ⟨path,hp,e,⟨v,hv,r',hgr,hra⟩,.refl⟩)
  · obtain hl | hl := List.mem_append.mp hl
    · exact .inl (.inr ⟨l,hl,.refl⟩)
    · obtain rfl := List.mem_singleton.mp hl
      exact .inr hd
  · obtain ⟨key,hk⟩ := hh
    obtain ha | ⟨hla,ha | rfl⟩ := ha
    · obtain he | ⟨-,-,he⟩ | ⟨-,-,-,hlr,he⟩ := ho.read_installed hf hi (ho.lt_of_used ha) key
      · exact .inl (used_of_holds ha ⟨key,he.symm.trans hk⟩)
      · cases he.symm.trans hk
        exact .inr hd
      · cases he.symm.trans hk
        exact .inr ⟨hlr,.inr rfl⟩
    · have hb := ha.tail ⟨key,hk⟩
      exact .inr ⟨(hi.apart b hb).1,.inl hb⟩
    · by_cases hp : key = q.path
      · subst hp
        cases hi.entry.symm.trans hk
        exact .inr hd
      · rw [Heap.read_eq_slot,ho.slot_new_registry hf hi hla hp] at hk
        cases hk

/-- To install an entry leaves what is in use alone. -/
theorem install (ho : Orderly S g V P p w) (hf : Fits V P p q) (hi : Installs S g q entries w.heap r d h')
    (strict : Bool) : Orderly S g V P p ⟨h',w.loaded ++ [⟨q,strict,d⟩]⟩ ∧
      ∀ e, Held g p w.heap e → Kept g p e w.heap h' fun _ => 0 := by
  have hother (a : Nat) (ha : Other g V p ⟨h',w.loaded ++ [⟨q,strict,d⟩]⟩ a) :
      Other g V p w a ∨ (q.path ≠ p.path ∧ a = d) := by
    obtain ⟨path,hp,v,hv,r',hgr,hra⟩ | ⟨l,hl,hp,rfl⟩ := ha
    · obtain ⟨rfl,rfl⟩ | ⟨hgr,hra⟩ := ho.entry_installed hf hi hv hgr hra
      · exact .inr ⟨hp,rfl⟩
      · exact .inl (.inl ⟨path,hp,v,hv,r',hgr,hra⟩)
    · obtain hl | hl := List.mem_append.mp hl
      · exact .inl (.inr ⟨l,hl,hp,rfl⟩)
      · obtain rfl := List.mem_singleton.mp hl
        exact .inr ⟨hp,rfl⟩
  have hheld (a : Nat) (ha : Held g p h' a) : Held g p w.heap a ∨ (q.path = p.path ∧ a = d) := by
    obtain ⟨r',hgr,hra,hh⟩ := ha
    obtain ⟨hp,rfl⟩ | ⟨hgr,hra⟩ := ho.entry_installed hf hi ho.mem hgr hra
    · exact .inr ⟨hp.symm,rfl⟩
    · refine .inl ⟨r',hgr,hra,?_⟩
      obtain he | ⟨-,-,he⟩ | ⟨-,-,-,-,he⟩ := ho.read_installed hf hi (ho.grounded.closed hra) "hash"
      · exact he.symm.trans hh
      · cases he.symm.trans hh
      · cases he.symm.trans hh
  have hkeeps (e : Nat) (he : Held g p w.heap e) : Held g p h' e := by
    have hpath : p.path ≠ q.path := by
      intro hp
      obtain rfl := hf.path hp.symm
      exact hi.unheld e he
    have hsame := ho.same_installed hf hi (.inl he) .refl "hash"
    obtain ⟨r',hgr,hra,hh⟩ := he
    refine ⟨r',?_,?_,hsame.trans hh⟩
    · obtain he | ⟨he,-⟩ | ⟨-,-,hfalse,-⟩ := ho.read_installed hf hi ho.grounded.global p.coverageVariable
      · exact he.trans hgr
      · exact absurd he.symm (ho.ne_registry hf hi)
      · rw [hgr] at hfalse
        cases hfalse
    · obtain he | ⟨-,hp,-⟩ | ⟨rfl,-⟩ := ho.read_installed hf hi (ho.grounded.closed hgr) p.path
      · exact he.trans hra
      · exact absurd hp hpath
      · exact absurd hgr (ho.names _ ho.mem).2
  have hfresh := ho.fresh_installed hf hi
  have hloaded (l : Loaded) (hl : l ∈ w.loaded ++ [⟨q,strict,d⟩]) : l.entry < h'.length ∧
      (l.program.path = p.path → l.program = p ∧ Held g p h' l.entry) := by
    obtain hl | hl := List.mem_append.mp hl
    · obtain ⟨hlt,hp⟩ := ho.loaded l hl
      exact ⟨hlt.trans_le hi.grows.length,fun he => ⟨(hp he).1,hkeeps _ (hp he).2⟩⟩
    · obtain rfl := List.mem_singleton.mp hl
      refine ⟨hi.payload.bounds.2,fun he => ?_⟩
      obtain rfl := hf.path he
      exact ⟨rfl,ho.held_installed hf hi⟩
  refine ⟨ho.keep ⟨hi.closed,hi.grows,fun v _ => ?_,hloaded,fun a hu b hb key => ?_,
    fun a ha => (hheld a ha).imp_right fun hn => by rwa [hn.2],
    fun a ha => (hother a ha).imp_right fun hn => by rwa [hn.2],?_,fun a hu => ?_⟩,
    fun e he => kept_of_same (fun b hb => ho.same_installed hf hi (.inl he) hb) (hkeeps e he)⟩
  · exact (ho.slot_names hf hi v).imp_right fun hr =>
      ⟨r,hr.1,hr.2,ho.ordinary_new_registry hf hi hr.1⟩
  · rw [ho.same_installed hf hi hu hb key]
  · by_cases hp : q.path = p.path
    · exact .inr fun a ha => (hother a ha).resolve_right fun hn => hn.1 hp
    · exact .inl fun a ha => (hheld a ha).resolve_right fun hn => hp hn.1
  · refine (ho.used_installed hf hi hu).imp_right fun ⟨hla,ha⟩ => ?_
    refine hi.grows.ordinary_new ho.grounded.ancestral (ho.roots.mono Set.subset_union_right) hla ?_
      fun key hk => hi.grows.not_special_new hla fun hl => length_not_mem_counterNames (hl ▸ hk)
    obtain ha | rfl := ha
    · exact (hi.payload.bounds_of_reaches ha).2
    · exact Heap.lt_of_slot (Heap.exists_slot_of_read hi.entry nofun).choose_spec

end Installed

/-! #### To count -/

/-- The number of a counter can be set. -/
theorem slot_of_counter (ho : Orderly S g V P p w) {l : Loaded} {c : Counter} {s : Nat × String}
    {n : Number} (hl : l ∈ w.loaded) (hs : slot? w.heap l.entry c = some s)
    (hn : w.heap.read s.1 s.2 = .number n) :
    w.heap.slot s.1 s.2 = some (.data (.number n) true) := by
  obtain ⟨writable,hslot⟩ := Heap.exists_slot_of_read hn nofun
  obtain ⟨v,hv⟩ := (ho.ordinary s.1 (.inr ⟨l,hl,reaches_of_slot? hs⟩)).slots _
    (mem_counterNames_of_slot? hs) _ hslot
  cases hv
  exact hslot

/-- A counter that counts changes its own slot and no other one. -/
theorem count (ho : Orderly S g V P p w) {l : Loaded} {c : Counter} {s : Nat × String} {n : Number}
    (hl : l ∈ w.loaded) (hs : slot? w.heap l.entry c = some s) (hn : w.heap.read s.1 s.2 = .number n) :
    Orderly S g V P p { w with heap := w.heap.write s.1 s.2 (.number n.succ) } ∧
      ∀ e, Held g p w.heap e → Kept g p e w.heap (w.heap.write s.1 s.2 (.number n.succ)) fun c' =>
        if l.entry = e ∧ slot? w.heap e c = slot? w.heap e c' then 1 else 0 := by
  have hu := ho.inUse_of_loaded hl
  have hreach := reaches_of_slot? hs
  have hord := ho.ordinary s.1 (.inr ⟨l,hl,hreach⟩)
  have hlt := Heap.lt_of_number hn
  have hheld (e : Nat) : Held g p (w.heap.write s.1 s.2 (.number n.succ)) e ↔ Held g p w.heap e :=
    held_renumbered hn n.succ
  have hother (a : Nat) : Other g V p { w with heap := w.heap.write s.1 s.2 (.number n.succ) } a ↔
      Other g V p w a := by
    simp only [Other,entry_renumbered hn n.succ]
  have hc : (w.heap.write s.1 s.2 (.number n.succ)).Closed := by
    refine ho.grounded.closed.write hlt fun b hb => ?_
    cases hb
  refine ⟨ho.keep ⟨hc,.write hord.outside,fun v _ => .inl ?_,fun l hl => ?_,
    fun a _ => sameLinks_renumbered hn n.succ a,fun a ha => .inl ((hheld a).mp ha),
    fun a ha => .inl ((hother a).mp ha),.inl fun a => (hheld a).mp,fun a hu => .inl ?_⟩,fun e he => ?_⟩
  · rw [Heap.slot_write hlt,if_neg]
    rintro ⟨rfl,-⟩
    exact (ho.inside _ hu).1 hreach
  · obtain ⟨hlt,hp⟩ := ho.loaded l hl
    exact ⟨by simpa using hlt,fun hpath => ⟨(hp hpath).1,(hheld _).mpr (hp hpath).2⟩⟩
  · refine of_used (fun path hp e he => .inl ⟨path,hp,e,(entry_renumbered hn n.succ).mp he,.refl⟩)
      (fun l hl => .inr ⟨l,hl,.refl⟩) (fun a b ha hh => ?_) hu
    obtain ⟨key,hk⟩ := hh
    exact used_of_holds ha ⟨key,(Heap.read_renumbered_iff hn rfl).mp hk⟩
  by_cases hle : l.entry = e
  · subst hle
    refine ⟨(hheld _).mpr he,(sameLinks_renumbered hn n.succ _).slot?,fun c' => ?_⟩
    simp only [true_and]
    exact count?_renumbered hs hn c'
  · -- another object: it has nothing in common with the entry
    have ho' : Other g V p w l.entry := hu.resolve_left fun hn => hle (hn.unique he)
    simp only [hle,false_and,if_false]
    refine kept_of_same (fun b hb key => ?_) ((hheld e).mpr he)
    rw [Heap.read_write hlt,if_neg]
    rintro ⟨rfl,-⟩
    exact ho.apart e _ _ he ho' hb hreach

/-! #### Any number of events -/

/-- A counter that counts has a number in its slot. -/
theorem exists_of_count (ho : Orderly S g V P p w) {i : Nat} {c : Counter}
    (h : w.step g (.count i c) = some w') :
    ∃ l s n, w.loaded[i]? = some l ∧ slot? w.heap l.entry c = some s ∧
      w.heap.read s.1 s.2 = .number n :=
  exists_of_step_count (ho.roots.mono Set.subset_union_right)
    (fun l hl a ha => (ho.ordinary a (.inr ⟨l,hl,ha⟩)).tame) h

theorem step (ho : Orderly S g V P p w) {event : Event} (hf : event.Fits V P p)
    (h : w.step g event = some w') :
    Orderly S g V P p w' ∧ w.loaded <+: w'.loaded ∧ ∀ e, Held g p w.heap e →
      Kept g p e w.heap w'.heap fun c => if w'.hits e c event then 1 else 0 := by
  cases event with
  | load strict q =>
    obtain ⟨entries,hd⟩ := hf.data
    obtain ⟨d,h',hb,hr | ⟨r,hi⟩⟩ :=
      boot_cases hd hf.lacks ho.grounded (.inr (ho.receptive hf)) strict
    · obtain rfl := Option.some.inj (h.symm.trans (step_load hb))
      obtain ⟨ho',hk⟩ := ho.reuse hf hr strict
      exact ⟨ho',List.prefix_append ..,hk⟩
    · obtain rfl := Option.some.inj (h.symm.trans (step_load hb))
      obtain ⟨ho',hk⟩ := ho.install hf hi strict
      exact ⟨ho',List.prefix_append ..,hk⟩
  | count i c =>
    obtain ⟨l,s,n,hl,hs,hn⟩ := ho.exists_of_count h
    have hslot := ho.slot_of_counter (List.mem_of_getElem? hl) hs hn
    obtain rfl := Option.some.inj (h.symm.trans (step_count hl hs hslot))
    obtain ⟨ho',hk⟩ := ho.count (List.mem_of_getElem? hl) hs hn
    refine ⟨ho',List.prefix_rfl,fun e he => ?_⟩
    have hke := hk e he
    refine ⟨hke.held,hke.slot,fun c' => (hke.count c').trans ?_⟩
    simp [World.hits,hl,hke.slot]

end Orderly

theorem Orderly.run (ho : Orderly S g V P p w) (he : Held g p w.heap e) {events : List Event}
    (hf : ∀ event ∈ events, event.Fits V P p) (h : w.run g events = some w') :
    Orderly S g V P p w' ∧ w.loaded <+: w'.loaded ∧
      Kept g p e w.heap w'.heap fun c => events.countP (w'.hits e c) := by
  induction events generalizing w with
  | nil =>
    cases h
    exact ⟨ho,List.prefix_rfl,.refl he⟩
  | cons event rest ih =>
    obtain ⟨w₁,hw₁,h⟩ := Option.bind_eq_some_iff.mp h
    obtain ⟨ho₁,hl₁,hk₁⟩ := ho.step (hf event List.mem_cons_self) hw₁
    have hk₁ := hk₁ e he
    obtain ⟨ho',hl',hk'⟩ := ih ho₁ hk₁.held (fun x hx => hf x (List.mem_cons_of_mem _ hx)) h
    refine ⟨ho',hl₁.trans hl',?_⟩
    have hhits (c : Counter) : w'.hits e c event = w₁.hits e c event := by
      cases event with
      | load strict q => rfl
      | count i c' =>
        obtain ⟨l,s,n,hl,-⟩ := ho.exists_of_count hw₁
        have hkeep {u u' : World} (hp : u.loaded <+: u'.loaded) (hl : u.loaded[i]? = some l) :
            u'.loaded[i]? = some l := by
          obtain ⟨more,hm⟩ := hp
          rw [← hm,List.getElem?_append_left (List.getElem?_eq_some_iff.mp hl).1,hl]
        simp [World.hits,hkeep hl₁ hl,hkeep (hl₁.trans hl') hl,hk'.slot]
    have hkk := hk₁.trans hk'
    refine ⟨hkk.held,hkk.slot,fun c => (hkk.count c).trans ?_⟩
    rw [List.countP_cons,hhits]

end Order

/-- Roots that all have the same properties, and some objects that inherit from the first one. -/
def sampleHeap (roots : String → Option Slot) (objects : List (Bool × (String → Option Slot))) : Heap :=
  List.replicate Root.count ⟨false,none,true,roots⟩ ++
    objects.map fun o => ⟨false,some Root.object.address,o.1,o.2⟩

/-- The properties of an object that has one, or none. -/
def sampleSlots : Option (String × Value) → String → Option Slot
  | none, _ => none
  | some (name,v), key => if key = name then some (.data v true) else none

/-- A global object that holds nothing yet. -/
def bareHeap : Heap := sampleHeap (sampleSlots none) [(true,sampleSlots none)]

theorem mem_bareHeap {o : Object} (ho : o ∈ bareHeap) :
    (∀ b, o.parent = some b → b = Root.object.address) ∧ ∀ key, o.slots key = none := by
  obtain ho | ho := List.mem_append.mp ho
  · rw [(List.mem_replicate.mp ho).2]
    exact ⟨nofun,fun _ => rfl⟩
  · rw [List.mem_singleton.mp ho]
    exact ⟨fun b hb => (Option.some.inj hb).symm,fun _ => rfl⟩

@[simp] theorem slot_bareHeap (a : Nat) (key : String) : Heap.slot bareHeap a key = none := by
  rw [Heap.slot,Option.bind_eq_none_iff]
  exact fun o ho => (mem_bareHeap (List.mem_of_getElem? ho)).2 key

@[simp] theorem read_bareHeap (a : Nat) (key : String) : Heap.read bareHeap a key = .undefined := by
  rw [Heap.read_eq_slot,slot_bareHeap]
  rfl

end Bootstrap

end CoverageCounters
