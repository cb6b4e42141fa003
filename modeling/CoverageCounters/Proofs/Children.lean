import CoverageCounters.Tree.Build

/-!
The nodes inside a node. Every node stands above its children in size, so a property that passes
from the children of each node to the node holds of all nodes.
-/

namespace CoverageCounters

namespace Part

def nodes : Part → List Node
  | child _ n => [n]
  | children _ nodes => nodes

end Part

namespace Body

def nodes : Body → List Node
  | absent => []
  | block _ statements => statements
  | value e => [e]

end Body

namespace Case

def span : Case → Span
  | mk s _ _ => s

def nodes : Case → List Node
  | mk _ test consequent => test.toList ++ consequent

end Case

namespace Declarator

def span : Declarator → Span
  | mk s _ _ _ => s

def nodes : Declarator → List Node
  | mk _ _ target init => target :: init.toList

end Declarator

namespace Node

/-- The nodes directly inside a node, in the order in which they are walked. -/
def children : Node → List Node
  | plain _ parts => parts.flatMap Part.nodes
  | paren _ inner => [inner]
  | logical _ _ left right => [left,right]
  | conditional _ test consequent alternate => [test,consequent,alternate]
  | function _ key before body after =>
    key.toList ++ before.flatMap Part.nodes ++ body.nodes ++ after.flatMap Part.nodes
  | defaulted _ _ target value => target :: value.toList
  | classDeclaration _ _ name before heritage after =>
    name :: before.flatMap Part.nodes ++ heritage.toList ++ after.flatMap Part.nodes
  | expression _ inner => [inner]
  | simple _ _ parts => parts.flatMap Part.nodes
  | compound _ _ _ init head body => init.toList ++ head.flatMap Part.nodes ++ [body]
  | ifElse _ test consequent alternate => test :: consequent :: alternate.toList
  | switch _ discriminant cases => discriminant :: cases.flatMap Case.nodes
  | bindings _ _ declarators => declarators.flatMap Declarator.nodes
  | block _ statements => statements
  | exported _ declaration => [declaration]
  | namespaceBlock _ items => items

end Node

section Size

variable {n : Node}

theorem sizeOf_of_mem_toList {o : Option Node} (h : n ∈ o.toList) : sizeOf n < sizeOf o := by
  rw [Option.mem_toList] at h
  subst h
  simp

theorem sizeOf_of_mem_part {p : Part} (h : n ∈ p.nodes) : sizeOf n < sizeOf p := by
  cases p with
  | child field m =>
    have hm : n = m := List.mem_singleton.mp h
    subst hm
    simp only [Part.child.sizeOf_spec]
    omega
  | children field nodes =>
    have hn : sizeOf n < sizeOf nodes := List.sizeOf_lt_of_mem h
    simp only [Part.children.sizeOf_spec]
    omega

theorem sizeOf_of_mem_parts {parts : List Part} (h : n ∈ parts.flatMap Part.nodes) :
    sizeOf n < sizeOf parts := by
  obtain ⟨p,hp,hn⟩ := List.mem_flatMap.mp h
  have h₁ := List.sizeOf_lt_of_mem hp
  have h₂ := sizeOf_of_mem_part hn
  omega

theorem sizeOf_of_mem_body {b : Body} (h : n ∈ b.nodes) : sizeOf n < sizeOf b := by
  cases b with
  | absent => exact absurd h List.not_mem_nil
  | block s statements =>
    have hn : sizeOf n < sizeOf statements := List.sizeOf_lt_of_mem h
    simp only [Body.block.sizeOf_spec]
    omega
  | value e =>
    have he : n = e := List.mem_singleton.mp h
    subst he
    simp

theorem sizeOf_of_mem_cases {cases : List Case} (h : n ∈ cases.flatMap Case.nodes) :
    sizeOf n < sizeOf cases := by
  obtain ⟨⟨s,test,consequent⟩,hc,hn⟩ := List.mem_flatMap.mp h
  have h₁ := List.sizeOf_lt_of_mem hc
  simp only [Case.mk.sizeOf_spec] at h₁
  rcases List.mem_append.mp hn with hn | hn
  · have h₂ := sizeOf_of_mem_toList hn
    omega
  · have h₂ := List.sizeOf_lt_of_mem hn
    omega

theorem sizeOf_of_mem_declarators {declarators : List Declarator}
    (h : n ∈ declarators.flatMap Declarator.nodes) : sizeOf n < sizeOf declarators := by
  obtain ⟨⟨s,data,target,init⟩,hd,hn⟩ := List.mem_flatMap.mp h
  have h₁ := List.sizeOf_lt_of_mem hd
  simp only [Declarator.mk.sizeOf_spec] at h₁
  rcases List.mem_cons.mp hn with hn | hn
  · subst hn
    omega
  · have h₂ := sizeOf_of_mem_toList hn
    omega

end Size

namespace Node

/-- A child is smaller than its parent. -/
theorem sizeOf_of_mem_children {m n : Node} (h : m ∈ n.children) : sizeOf m < sizeOf n := by
  cases n <;>
    simp only [children,List.mem_append,List.mem_cons,List.not_mem_nil,or_false] at h <;>
    simp only [plain.sizeOf_spec,paren.sizeOf_spec,logical.sizeOf_spec,conditional.sizeOf_spec,
      function.sizeOf_spec,defaulted.sizeOf_spec,classDeclaration.sizeOf_spec,
      expression.sizeOf_spec,simple.sizeOf_spec,compound.sizeOf_spec,ifElse.sizeOf_spec,
      switch.sizeOf_spec,bindings.sizeOf_spec,block.sizeOf_spec,exported.sizeOf_spec,
      namespaceBlock.sizeOf_spec]
  case plain => have hh := sizeOf_of_mem_parts h; omega
  case paren => subst h; omega
  case logical => rcases h with h | h <;> subst h <;> omega
  case conditional => rcases h with h | h | h <;> subst h <;> omega
  case function =>
    rcases h with ((h | h) | h) | h
    · have hh := sizeOf_of_mem_toList h; omega
    · have hh := sizeOf_of_mem_parts h; omega
    · have hh := sizeOf_of_mem_body h; omega
    · have hh := sizeOf_of_mem_parts h; omega
  case defaulted =>
    rcases h with h | h
    · subst h; omega
    · have hh := sizeOf_of_mem_toList h; omega
  case classDeclaration =>
    rcases h with (h | h) | h
    · rcases h with h | h
      · subst h; omega
      · have hh := sizeOf_of_mem_parts h; omega
    · have hh := sizeOf_of_mem_toList h; omega
    · have hh := sizeOf_of_mem_parts h; omega
  case expression => subst h; omega
  case simple => have hh := sizeOf_of_mem_parts h; omega
  case compound =>
    rcases h with (h | h) | h
    · have hh := sizeOf_of_mem_toList h; omega
    · have hh := sizeOf_of_mem_parts h; omega
    · subst h; omega
  case ifElse =>
    rcases h with h | h | h
    · subst h; omega
    · subst h; omega
    · have hh := sizeOf_of_mem_toList h; omega
  case switch =>
    rcases h with h | h
    · subst h; omega
    · have hh := sizeOf_of_mem_cases h; omega
  case bindings => have hh := sizeOf_of_mem_declarators h; omega
  case block => have hh := List.sizeOf_lt_of_mem h; omega
  case exported => subst h; omega
  case namespaceBlock => have hh := List.sizeOf_lt_of_mem h; omega

/-- A property of all children of each node that passes to the node holds of every node. -/
theorem induction_children {P : Node → Prop} (step : ∀ n : Node, (∀ m ∈ n.children, P m) → P n)
    (n : Node) : P n :=
  step n fun m _ => induction_children step m
termination_by sizeOf n
decreasing_by exact sizeOf_of_mem_children ‹_›

/-- All nodes inside a node, each before those inside it. -/
def inner (n : Node) : List Node := n.children.attach.flatMap fun ⟨m,_⟩ => m :: m.inner
termination_by sizeOf n
decreasing_by exact sizeOf_of_mem_children ‹_›

/-- A node and all nodes inside it. -/
def subnodes (n : Node) : List Node := n :: n.inner

theorem inner_eq (n : Node) : n.inner = n.children.flatMap subnodes := by
  rw [inner]
  calc n.children.attach.flatMap (fun m => subnodes m.val)
      = (n.children.attach.map Subtype.val).flatMap subnodes :=
        (List.flatMap_map Subtype.val subnodes _).symm
    _ = n.children.flatMap subnodes := by rw [List.attach_map_subtype_val]

theorem self_mem_subnodes (n : Node) : n ∈ n.subnodes := List.mem_cons_self

theorem subnodes_subset_of_mem_children {m n : Node} (h : m ∈ n.children) :
    m.subnodes ⊆ n.inner := by
  intro x hx
  rw [inner_eq]
  exact List.mem_flatMap.mpr ⟨m,h,hx⟩

/-- Whether a name stands somewhere in a node. -/
def mentions (name : String) (n : Node) : Bool :=
  n.subnodes.any fun m => m.identifierName? = some name

theorem mentions_eq (name : String) (n : Node) :
    n.mentions name =
      (decide (n.identifierName? = some name) || n.children.any (mentions name)) := by
  rw [mentions,subnodes,List.any_cons,inner_eq,List.any_flatMap]
  rfl

theorem mentions_of_mem_children {name : String} {m n : Node} (h : n.mentions name = false)
    (hm : m ∈ n.children) : m.mentions name = false := by
  rw [mentions_eq,Bool.or_eq_false_iff,List.any_eq_false] at h
  exact Bool.eq_false_iff.mpr (h.2 m hm)

end Node

namespace Program

/-- All nodes of a program. -/
def nodes (p : Program) : List Node := p.body.flatMap Node.subnodes

/-- Whether a name stands somewhere in a program. -/
def mentions (name : String) (p : Program) : Bool :=
  p.nodes.any fun m => m.identifierName? = some name

theorem mentions_eq_false_iff {name : String} {p : Program} :
    p.mentions name = false ↔ ∀ n ∈ p.body, n.mentions name = false := by
  simp only [mentions,nodes,Node.mentions,List.any_flatMap,List.any_eq_false,Bool.not_eq_true]

end Program
end CoverageCounters
