import CoverageCounters.Proofs.Instrumented

/-!
How often a counter stands in a tree. Only increments can be counters, so a node that is none of them
has the counters of its children; the prelude of a program has none at all.
-/

namespace CoverageCounters

theorem Counter.ofNode?_plain {name : String} {head : Head} (parts : List Part)
    (h : head.form ≠ .updateExpression) : ofNode? name (.plain head parts) = none := by
  cases hc : ofNode? name (.plain head parts) with
  | none => rfl
  | some c =>
    have hn := ofNode?_eq_some_iff.mp hc
    have hf : head.form = .updateExpression := by
      cases c <;> rw [(Node.plain.inj hn).1]
    exact absurd hf h

namespace Node

variable {name : String}

theorem counters_eq (n : Node) :
    n.counters name =
      (Counter.ofNode? name n).toList ++ n.children.flatMap (counters name) := by
  rw [counters,subnodes,inner_eq,List.filterMap_cons,List.filterMap_flatMap]
  cases Counter.ofNode? name n <;> rfl

theorem counters_of_root? {n : Node} (h : n.root? ≠ some name) :
    n.counters name = n.children.flatMap (counters name) := by
  have hn : Counter.ofNode? name n = none := by
    cases hc : Counter.ofNode? name n with
    | none => rfl
    | some c =>
      rw [Counter.ofNode?_eq_some_iff] at hc
      rw [hc,root?_node] at h
      exact absurd rfl h
  rw [counters_eq,hn]
  rfl

theorem counters_of_mentions {n : Node} (h : n.mentions name = false) : n.counters name = [] := by
  induction n using induction_children with
  | step n ih =>
    have hr : n.root? ≠ some name := fun hr => by
      rw [mentions_of_root? hr] at h
      cases h
    rw [counters_of_root? hr,List.flatMap_eq_nil_iff]
    exact fun m hm => ih m hm (mentions_of_mem_children h hm)

theorem counters_plain {head : Head} (parts : List Part) (h : head.form ≠ .updateExpression) :
    (plain head parts).counters name =
      (parts.flatMap Part.nodes).flatMap (counters name) := by
  rw [counters_eq,Counter.ofNode?_plain parts h]
  rfl

@[simp] theorem counters_leaf {form : Form} (s : Span) (data : Attributes)
    (h : form ≠ .updateExpression) : (leaf form s data).counters name = [] :=
  counters_plain [] h

@[simp] theorem counters_identifier (text : String) :
    (Build.identifier text).counters name = [] :=
  counters_leaf _ _ (by decide)

@[simp] theorem counters_string (text : String) : (Build.string text).counters name = [] :=
  counters_leaf _ _ (by decide)

@[simp] theorem counters_index (i : Nat) : (Build.index i).counters name = [] :=
  counters_leaf _ _ (by decide)

@[simp] theorem counters_member (object : Node) (field : String) :
    (Build.member object field).counters name = object.counters name := by
  rw [Build.member,counters_plain _ (by decide)]
  simp [Part.nodes]

@[simp] theorem counters_element (object key : Node) :
    (Build.element object key).counters name = object.counters name ++ key.counters name := by
  rw [Build.element,counters_plain _ (by decide)]
  simp [Part.nodes,counters_plain]

/-- The expression of a counter counts that counter up and no other. -/
@[simp] theorem counters_node (c : Counter) : (c.node name).counters name = [c] := by
  rw [counters_eq,Counter.ofNode?_node]
  cases c <;>
    simp [Counter.node,Build.increment,children,Part.nodes]

/-- A counter of one object is none of another. -/
theorem counters_node_of_ne {identifier : String} (h : identifier ≠ name) (c : Counter) :
    (c.node identifier).counters name = [] := by
  rw [counters_of_root? (by rw [root?_node]; exact fun hs => h (Option.some.inj hs))]
  cases c <;> simp [Counter.node,Build.increment,children,Part.nodes]

@[simp] theorem counters_paren (s : Span) (inner : Node) :
    (paren s inner).counters name = inner.counters name := by
  rw [counters_of_root? (by rintro ⟨⟩)]
  simp [children]

@[simp] theorem counters_expression (s : Span) (inner : Node) :
    (expression s inner).counters name = inner.counters name := by
  rw [counters_of_root? (by rintro ⟨⟩)]
  simp [children]

@[simp] theorem counters_statementNode (identifier : String) (c : Counter) :
    (c.statementNode identifier).counters name = (c.node identifier).counters name := by
  simp [Counter.statementNode,Build.statement]

@[simp] theorem counters_after (first n : Node) :
    (Build.after first n).counters name = first.counters name ++ n.counters name := by
  simp [Build.after,Build.paren,Build.sequence,counters_plain,Part.nodes]

end Node

namespace Build

variable {name : String}

theorem counters_number (x : Binary64) : (number x).counters name = [] := by
  unfold number
  split
  · simp [Node.counters_plain,Part.nodes,magnitude]
  · simp [magnitude]

mutual

theorem counters_data : ∀ j : Json, (data j).counters name = []
  | .null => by simp [data,null]
  | .bool b => by simp [data,bool]
  | .number n => by rw [data,counters_number]
  | .string s => by simp [data]
  | .array items => by
    rw [data,array,Node.counters_plain _ (by decide)]
    simpa [Part.nodes] using counters_dataItems items
  | .object entries => by
    rw [data,object,Node.counters_plain _ (by decide)]
    simpa [Part.nodes] using counters_dataEntries entries

theorem counters_dataItems : ∀ items : List Json, (dataItems items).flatMap (Node.counters name) = []
  | [] => rfl
  | j :: rest => by
    rw [dataItems,List.flatMap_cons,counters_dataItems rest,argument,
      Node.counters_plain _ (by decide)]
    simp [Part.nodes,counters_data j]

theorem counters_dataEntries : ∀ entries : List (String × Json),
    (dataEntries entries).flatMap (Node.counters name) = []
  | [] => rfl
  | (key,j) :: rest => by
    rw [dataEntries,List.flatMap_cons,counters_dataEntries rest,property,
      Node.counters_plain _ (by decide)]
    simp [Part.nodes,counters_data j]

end

@[simp] theorem counters_function (statements : List Node) :
    (function statements).counters name = statements.flatMap (Node.counters name) := by
  rw [function,Node.counters_of_root? (by rintro ⟨⟩)]
  simp [Node.children,Part.nodes,Body.nodes]

@[simp] theorem counters_call (callee : Node) (arguments : List Node) :
    (call callee arguments).counters name =
      callee.counters name ++ arguments.flatMap (Node.counters name) := by
  have ha : ∀ n : Node, (argument n).counters name = n.counters name := by
    intro n
    rw [argument,Node.counters_plain _ (by decide)]
    simp [Part.nodes]
  rw [call,Node.counters_plain _ (by decide)]
  simp [Part.nodes,List.flatMap_map,ha]

@[simp] theorem counters_assign (target value : Node) :
    (assign target value).counters name = target.counters name ++ value.counters name := by
  rw [assign,Node.counters_plain _ (by decide)]
  simp [Part.nodes]

@[simp] theorem counters_bindings (declarators : List Declarator) :
    (bindings declarators).counters name =
      (declarators.flatMap Declarator.nodes).flatMap (Node.counters name) :=
  Node.counters_of_root? (by rintro ⟨⟩)

end Build

namespace Bootstrap

variable {name : String}

theorem counters_globalObject : globalObject.counters name = [] := by
  have hc : (Build.construct (Build.identifier "Function") [Build.string "return this"]).counters
      name = [] := by
    rw [Build.construct,Node.counters_plain _ (by decide)]
    simp [Part.nodes,Build.argument,Node.counters_plain]
  simp [globalObject,Build.paren,hc]

theorem counters_logical (s : Span) (operator : LogicalOperator) (left right : Node) :
    (Node.logical s operator left right).counters name =
      left.counters name ++ right.counters name := by
  rw [Node.counters_of_root? (by rintro ⟨⟩)]
  simp [Node.children]

theorem counters_entry : entry.counters name = [] := by simp [entry]

theorem counters_locals (p : Parameters) : (locals p).counters name = [] := by
  have hr : registry.counters name = [] := by
    simp [registry,counters_logical,Build.paren,Build.object,Node.counters_plain,Part.nodes]
  simp [locals,Build.declarator,Declarator.nodes,Build.paren,counters_globalObject,
    Build.counters_data,hr]

theorem counters_reuse : reuse.counters name = [] := by
  rw [reuse,Node.counters_of_root? (by rintro ⟨⟩)]
  have hb : (Node.block .dummy [Build.returning entry]).counters name = [] := by
    rw [Node.counters_of_root? (by rintro ⟨⟩)]
    simp only [Node.children,List.flatMap_cons,List.flatMap_nil,List.append_nil]
    rw [Build.returning,Node.counters_of_root? (by rintro ⟨⟩)]
    simp [Node.children,Part.nodes,counters_entry]
  simp [Node.children,counters_logical,counters_entry,Build.strictlyEqual,Node.counters_plain,
    Part.nodes,hb]

theorem counters_coverage (p : Parameters) : (coverage p).counters name = [] := by
  have hp : publish.counters name = [] := by
    rw [publish,Build.returning,Node.counters_of_root? (by rintro ⟨⟩)]
    simp [Node.children,Part.nodes,counters_entry]
  simp [coverage,Build.declarator,Declarator.nodes,Build.paren,counters_locals,counters_reuse,
    stamp,Build.statement,hp]

theorem counters_git (info : GitInfo) : (git info).counters name = [] := by
  simp [git,Build.statement,Build.paren,Build.declarator,Declarator.nodes,Build.counters_data,
    counters_globalObject]

end Bootstrap

theorem counters_prelude (name path : String) (options : Options) (coverage : FileCoverage)
    (git : Option GitInfo) :
    (prelude path options coverage git).flatMap (Node.counters name) = [] := by
  rw [prelude,List.flatMap_cons,Bootstrap.counters_coverage]
  cases git with
  | none => rfl
  | some info => simp [Bootstrap.counters_git]

end CoverageCounters
