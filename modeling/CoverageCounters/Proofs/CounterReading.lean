import CoverageCounters.Proofs.Children

/-!
Reading counters back from syntax. A node is read as a counter exactly if it is the expression that
counts the slot up, so the counters of a program can be listed and its counter statements told from
all others.
-/

namespace CoverageCounters

namespace Build

def index? : Node → Option Nat
  | .plain ⟨form,span,[(key,.number (.integer (.ofNat i)))]⟩ [] =>
    if form = .numericLiteral ∧ span = .dummy ∧ key = "value" then some i else none
  | _ => none

def identifier? : Node → Option String
  | .plain ⟨form,span,[(key,.string name)]⟩ [] =>
    if form = .identifier ∧ span = .dummy ∧ key = "value" then some name else none
  | _ => none

/-- The object and the property of a member expression that was built. -/
def access? : Node → Option (Node × Node)
  | .plain ⟨form,span,[]⟩ [.child first object,.child second property] =>
    if form = .memberExpression ∧ span = .dummy ∧ first = "object" ∧ second = "property" then
      some (object,property)
    else none
  | _ => none

def computed? : Node → Option Node
  | .plain ⟨form,span,[]⟩ [.child field key] =>
    if form = .computed ∧ span = .dummy ∧ field = "expression" then some key else none
  | _ => none

/-- The place that a post-increment counts up. -/
def incremented? : Node → Option Node
  | .plain ⟨form,span,[(key,.string operator)]⟩ [.child field target] =>
    if form = .updateExpression ∧ span = .dummy ∧ key = "operator" ∧ operator = "++" ∧
        field = "argument" then some target
    else none
  | _ => none

theorem index?_eq_some_iff {n : Node} {i : Nat} : index? n = some i ↔ n = index i := by
  constructor
  · intro h
    unfold index? at h
    split at h
    · split at h
      · rename_i hh
        obtain ⟨rfl,rfl,rfl⟩ := hh
        cases h
        rfl
      · cases h
    · cases h
  · rintro rfl
    rfl

theorem identifier?_eq_some_iff {n : Node} {name : String} :
    identifier? n = some name ↔ n = identifier name := by
  constructor
  · intro h
    unfold identifier? at h
    split at h
    · split at h
      · rename_i hh
        obtain ⟨rfl,rfl,rfl⟩ := hh
        cases h
        rfl
      · cases h
    · cases h
  · rintro rfl
    rfl

theorem access?_eq_some_iff {n object property : Node} :
    access? n = some (object,property) ↔
      n = .plain ⟨.memberExpression,.dummy,[]⟩
        [.child "object" object,.child "property" property] := by
  constructor
  · intro h
    unfold access? at h
    split at h
    · split at h
      · rename_i hh
        obtain ⟨rfl,rfl,rfl,rfl⟩ := hh
        cases h
        rfl
      · cases h
    · cases h
  · rintro rfl
    rfl

theorem computed?_eq_some_iff {n key : Node} :
    computed? n = some key ↔ n = .plain ⟨.computed,.dummy,[]⟩ [.child "expression" key] := by
  constructor
  · intro h
    unfold computed? at h
    split at h
    · split at h
      · rename_i hh
        obtain ⟨rfl,rfl,rfl⟩ := hh
        cases h
        rfl
      · cases h
    · cases h
  · rintro rfl
    rfl

theorem incremented?_eq_some_iff {n target : Node} :
    incremented? n = some target ↔ n = increment target := by
  constructor
  · intro h
    unfold incremented? at h
    split at h
    · split at h
      · rename_i hh
        obtain ⟨rfl,rfl,rfl,rfl,rfl⟩ := hh
        cases h
        rfl
      · cases h
    · cases h
  · rintro rfl
    rfl

def member? (n : Node) : Option (Node × String) :=
  (access? n).bind fun (object,property) => (identifier? property).map (object,·)

def slot? (n : Node) : Option (Node × Nat) :=
  (access? n).bind fun (object,property) =>
    ((computed? property).bind index?).map (object,·)

theorem member?_eq_some_iff {n object : Node} {name : String} :
    member? n = some (object,name) ↔ n = member object name := by
  simp only [member?,Option.bind_eq_some_iff,Option.map_eq_some_iff,Prod.exists,Prod.mk.injEq,
    access?_eq_some_iff,identifier?_eq_some_iff,member]
  constructor
  · rintro ⟨a,b,rfl,c,rfl,rfl,rfl⟩
    rfl
  · intro h
    exact ⟨_,_,h,_,rfl,rfl,rfl⟩

theorem slot?_eq_some_iff {n object : Node} {i : Nat} :
    slot? n = some (object,i) ↔ n = element object (index i) := by
  simp only [slot?,Option.bind_eq_some_iff,Option.map_eq_some_iff,Prod.exists,Prod.mk.injEq,
    access?_eq_some_iff,computed?_eq_some_iff,index?_eq_some_iff,element]
  constructor
  · rintro ⟨a,b,rfl,c,⟨d,rfl,rfl⟩,rfl,rfl⟩
    rfl
  · intro h
    exact ⟨_,_,h,_,⟨_,rfl,rfl⟩,rfl,rfl⟩

end Build

namespace Counter

open Build

/-- The table of the counter object with this name that a node stands for. -/
def table? (name : String) (n : Node) : Option String :=
  (member? n).bind fun (object,table) =>
    if identifier? object = some name then some table else none

/-- The counter under a number in a table. The table of a branch is itself a slot. -/
def ofSlot? (name : String) (object : Node) (i : Nat) : Option Counter :=
  match table? name object with
  | some table =>
    if table = "s" then some (.statement i) else if table = "f" then some (.function i) else none
  | none =>
    (slot? object).bind fun (branches,b) =>
      if table? name branches = some "b" then some (.branch b i) else none

/-- Read a node as a counter of the object with this name. -/
def ofNode? (name : String) (n : Node) : Option Counter :=
  ((incremented? n).bind slot?).bind fun (object,i) => ofSlot? name object i

theorem table?_eq_some_iff {name table : String} {n : Node} :
    table? name n = some table ↔ n = member (identifier name) table := by
  simp only [table?,Option.bind_eq_some_iff,Prod.exists,Option.ite_none_right_eq_some,
    Option.some.injEq,member?_eq_some_iff,identifier?_eq_some_iff]
  constructor
  · rintro ⟨object,field,rfl,rfl,rfl⟩
    rfl
  · rintro rfl
    exact ⟨_,_,rfl,rfl,rfl⟩

theorem eq_node_of_ofSlot? {name : String} {object : Node} {i : Nat} {c : Counter}
    (h : ofSlot? name object i = some c) : increment (element object (index i)) = c.node name := by
  unfold ofSlot? at h
  split at h
  · rename_i table ht
    rw [table?_eq_some_iff] at ht
    subst ht
    split at h
    · rename_i hs
      cases h
      rw [hs]
      rfl
    · split at h
      · rename_i hf
        cases h
        rw [hf]
        rfl
      · cases h
  · obtain ⟨⟨branches,b⟩,hb,hc⟩ := Option.bind_eq_some_iff.mp h
    rw [slot?_eq_some_iff] at hb
    subst hb
    dsimp only at hc
    split at hc
    · rename_i ht
      rw [table?_eq_some_iff] at ht
      cases hc
      rw [ht]
      rfl
    · cases hc

theorem ofSlot?_of_table (name table : String) (i : Nat) :
    ofSlot? name (member (identifier name) table) i =
      if table = "s" then some (.statement i) else if table = "f" then some (.function i) else none := by
  rw [ofSlot?,table?_eq_some_iff.mpr rfl]

theorem ofSlot?_of_branch (name : String) (b i : Nat) :
    ofSlot? name (element (member (identifier name) "b") (index b)) i = some (.branch b i) := by
  have hn : table? name (element (member (identifier name) "b") (index b)) = none := by
    cases ht : table? name (element (member (identifier name) "b") (index b)) with
    | none => rfl
    | some table => cases table?_eq_some_iff.mp ht
  rw [ofSlot?,hn]
  dsimp only
  rw [slot?_eq_some_iff.mpr rfl,Option.bind_some,table?_eq_some_iff.mpr rfl,if_pos rfl]

/-- A node is read as a counter exactly if it is the expression that counts it up. -/
theorem ofNode?_eq_some_iff {name : String} {n : Node} {c : Counter} :
    ofNode? name n = some c ↔ n = c.node name := by
  constructor
  · intro h
    obtain ⟨⟨object,i⟩,ht,hc⟩ := Option.bind_eq_some_iff.mp h
    obtain ⟨target,hn,hs⟩ := Option.bind_eq_some_iff.mp ht
    rw [incremented?_eq_some_iff] at hn
    rw [slot?_eq_some_iff] at hs
    rw [hn,hs]
    exact eq_node_of_ofSlot? hc
  · rintro rfl
    cases c with
    | statement i =>
      rw [ofNode?,node,incremented?_eq_some_iff.mpr rfl,Option.bind_some,slot?_eq_some_iff.mpr rfl]
      exact ofSlot?_of_table name "s" i
    | function i =>
      rw [ofNode?,node,incremented?_eq_some_iff.mpr rfl,Option.bind_some,slot?_eq_some_iff.mpr rfl]
      exact ofSlot?_of_table name "f" i
    | branch b path =>
      rw [ofNode?,node,incremented?_eq_some_iff.mpr rfl,Option.bind_some,slot?_eq_some_iff.mpr rfl]
      exact ofSlot?_of_branch name b path

@[simp] theorem ofNode?_node (name : String) (c : Counter) : ofNode? name (c.node name) = some c :=
  ofNode?_eq_some_iff.mpr rfl

end Counter

namespace Node

/-- The name at the bottom of a member expression or of an operation on one: the node is followed
through its first part. -/
def root? : Node → Option String
  | plain head (.child _ n :: _) => if head.form = .identifier then head.text? "value" else n.root?
  | plain head _ => if head.form = .identifier then head.text? "value" else none
  | _ => none

theorem root?_node (name : String) (c : Counter) : (c.node name).root? = some name := by
  cases c <;> rfl

theorem mentions_of_root? {name : String} {n : Node} (h : n.root? = some name) :
    n.mentions name = true := by
  induction n using induction_children with
  | step n ih =>
    rw [mentions_eq]
    unfold root? at h
    split at h
    · rename_i head field m rest
      split at h
      · rename_i hf
        have hn : (plain head (.child field m :: rest)).identifierName? = some name := by
          rw [identifierName?,if_pos hf,h]
        simp [hn]
      · have hm : m ∈ (plain head (.child field m :: rest)).children := by simp [children,Part.nodes]
        rw [Bool.or_eq_true,List.any_eq_true]
        exact Or.inr ⟨m,hm,ih m hm h⟩
    · rename_i head parts hp
      split at h
      · rename_i hf
        have hn : (plain head parts).identifierName? = some name := by
          rw [identifierName?,if_pos hf,h]
        simp [hn]
      · cases h
    · cases h

/-- Whether a statement only counts a slot of the object with this name up. -/
def isCounter (name : String) : Node → Bool
  | expression s e => s = .dummy && (Counter.ofNode? name e).isSome
  | _ => false

@[simp] theorem isCounter_statementNode (name : String) (c : Counter) :
    (c.statementNode name).isCounter name = true := by
  simp [Counter.statementNode,Build.statement,isCounter]

theorem isCounter_iff {name : String} {n : Node} :
    n.isCounter name = true ↔ ∃ c : Counter, n = c.statementNode name := by
  constructor
  · intro h
    cases n with
    | expression s e =>
      rw [isCounter,Bool.and_eq_true,decide_eq_true_eq,Option.isSome_iff_exists] at h
      obtain ⟨rfl,c,hc⟩ := h
      exact ⟨c,congrArg (expression .dummy) (Counter.ofNode?_eq_some_iff.mp hc)⟩
    | _ => cases h
  · rintro ⟨c,rfl⟩
    exact isCounter_statementNode name c

/-- The counters in a node, from left to right. -/
def counters (name : String) (n : Node) : List Counter := n.subnodes.filterMap (Counter.ofNode? name)

end Node

namespace Program

/-- The counters in a program, from left to right. -/
def counters (name : String) (p : Program) : List Counter :=
  p.nodes.filterMap (Counter.ofNode? name)

end Program
end CoverageCounters
