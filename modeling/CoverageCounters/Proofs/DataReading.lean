import CoverageCounters.Proofs.Children
import CoverageCounters.Proofs.LiteralMeaning

/-!
Reading a literal as data. Objects, arrays and literals are read as the JSON they spell, and a minus as
the negation of a number. Main statement: the literal of a JSON value is read as that value, its numbers
rounded to binary64, which leaves whole numbers up to `2 ^ 53` as they are.
-/

namespace CoverageCounters

/-! ### Numbers -/

namespace Binary64

theorem inUnits_of_nonpos {n d : Nat} {e : Int} (h : e ≤ 0) :
    inUnits n d e = (n * 2 ^ (-e).toNat,d) := by
  unfold inUnits
  split
  · have he : e = 0 := by omega
    simp [he]
  · rfl

/-- A ratio that rounds to fewer than 54 bits of its unit. -/
theorem ofRatio_of_units {negative : Bool} {n d a b m : Nat} {e : Int} (hn : n ≠ 0)
    (he : unitExponent n d = e) (hu : inUnits n d e = (a,b)) (hm : roundDiv a b = m)
    (hne : m ≠ Nat.pow 2 53) (hmax : ¬ maxExponent < e) :
    ofRatio negative n d = some ⟨negative,m,e⟩ := by
  unfold ofRatio
  rw [if_neg hn,he]
  simp only [hu,hm]
  rw [if_neg hne,if_neg hmax]

/-- A whole number of at most 53 bits is held with its bits moved to the front. -/
theorem ofRatio_nat {negative : Bool} {n : Nat} (hn : n ≠ 0) (hl : n < 2 ^ 53) :
    ofRatio negative n 1 = some ⟨negative,n * 2 ^ (52 - n.log2),(n.log2 : Int) - 52⟩ := by
  have hlog : n.log2 < 53 := (Nat.log2_lt hn).mpr hl
  have hone : Nat.log2 1 = 0 := by decide
  have hmoved : (-((n.log2 : Int) - 52)).toNat = 52 - n.log2 := by omega
  have hunits : inUnits n 1 ((n.log2 : Int) - 52) = (n * 2 ^ (52 - n.log2),1) := by
    rw [inUnits_of_nonpos (by omega),hmoved]
  have hlow : 2 ^ 52 ≤ n * 2 ^ (52 - n.log2) := by
    calc 2 ^ 52 = 2 ^ n.log2 * 2 ^ (52 - n.log2) := by rw [← Nat.pow_add]; congr 1; omega
      _ ≤ n * 2 ^ (52 - n.log2) := Nat.mul_le_mul_right _ (Nat.log2_self_le hn)
  have hhigh : n * 2 ^ (52 - n.log2) < 2 ^ 53 := by
    calc n * 2 ^ (52 - n.log2) < 2 ^ (n.log2 + 1) * 2 ^ (52 - n.log2) :=
          Nat.mul_lt_mul_of_pos_right Nat.lt_log2_self (Nat.pow_pos Nat.two_pos)
      _ = 2 ^ 53 := by rw [← Nat.pow_add]; congr 1; omega
  have hexp : unitExponent n 1 = (n.log2 : Int) - 52 := by
    have hn52 : ¬ n * 2 ^ (52 - n.log2) < 1 * Nat.pow 2 52 := by
      rw [Nat.pow_eq,one_mul]
      exact Nat.not_lt.mpr hlow
    simp only [unitExponent,hone,Nat.cast_zero,sub_zero,hunits]
    rw [if_neg hn52,minExponent]
    omega
  have hn53 : n * 2 ^ (52 - n.log2) ≠ Nat.pow 2 53 := by
    rw [Nat.pow_eq]
    exact hhigh.ne
  have hmax : ¬ maxExponent < (n.log2 : Int) - 52 := by
    rw [maxExponent]
    omega
  exact ofRatio_of_units hn hexp hunits (roundDiv_one _) hn53 hmax

theorem toInt?_of_moved {negative : Bool} {n l : Nat} (hl : l ≤ 52) :
    toInt? ⟨negative,n * 2 ^ (52 - l),(l : Int) - 52⟩ = some (if negative then -(n : Int) else n) := by
  have hratio : ratio ⟨negative,n * 2 ^ (52 - l),(l : Int) - 52⟩ =
      (n * 2 ^ (52 - l),2 ^ (52 - l)) := by
    unfold ratio
    split
    next h =>
      have he : l = 52 := by dsimp only at h; omega
      subst he
      simp
    next h =>
      have he : (-((l : Int) - 52)).toNat = 52 - l := by omega
      simp only [he,Nat.pow_eq]
  have hpos : 0 < 2 ^ (52 - l) := Nat.pow_pos Nat.two_pos
  simp only [toInt?,hratio,Nat.mul_mod_left,if_true,Nat.mul_div_cancel _ hpos]

theorem toInt?_ofInt {k : Int} (h : k.natAbs ≤ 2 ^ 53) : (ofInt k).toInt? = some k := by
  by_cases hz : k = 0
  · subst hz
    decide +kernel
  by_cases hl : k.natAbs < 2 ^ 53
  · have hn : k.natAbs ≠ 0 := Int.natAbs_ne_zero.mpr hz
    have hlog : k.natAbs.log2 < 53 := (Nat.log2_lt hn).mpr hl
    rw [ofInt,ofRatio_nat hn hl,Option.getD_some,toInt?_of_moved (by omega)]
    split
    next hs => have hs := of_decide_eq_true hs; congr 1; omega
    next hs => have hs := of_decide_eq_false (Bool.eq_false_iff.mpr hs); congr 1; omega
  · have hk : k = 2 ^ 53 ∨ k = -2 ^ 53 := by omega
    obtain rfl | rfl := hk <;> decide +kernel

theorem toInt?_neg (x : Binary64) : x.neg.toInt? = x.toInt?.map (-·) := by
  have hr : x.neg.ratio = x.ratio := rfl
  have hs : x.neg.negative = !x.negative := rfl
  simp only [toInt?,hr,hs]
  split
  · cases x.negative <;> simp
  · rfl

@[simp] theorem neg_neg (x : Binary64) : x.neg.neg = x := by simp [neg]

end Binary64

namespace Number

/-- The same number, as an integer if it is equal to one. -/
def normal : Number → Number
  | integer k => integer k
  | binary x => (x.toInt?.map integer).getD (binary x)

@[simp] theorem normal_integer (k : Int) : (integer k).normal = integer k := rfl

theorem normal_literalNumber (x : Binary64) : (Build.literalNumber x).normal = (binary x).normal := by
  rw [Build.literalNumber]
  cases hx : x.toInt? with
  | none => rfl
  | some k =>
    dsimp only
    split
    · simp [normal,hx]
    · rfl

theorem neg_normal_neg (x : Binary64) : (binary x.neg).normal.neg = (binary x).normal := by
  simp only [normal,Binary64.toInt?_neg]
  cases x.toInt? <;> simp [neg]

theorem normal_toBinary {n : Number} {k : Int} (hn : n.normal = integer k) (hk : k.natAbs ≤ 2 ^ 53) :
    (binary n.toBinary).normal = n.normal := by
  cases n with
  | binary x => rfl
  | integer i =>
    obtain rfl : i = k := by simpa using hn
    simp [normal,toBinary,Binary64.toInt?_ofInt hk]

end Number

/-! ### The numbers of a JSON value -/

namespace Json

mutual

def numbers : Json → List Number
  | .number n => [n]
  | .array items => numbersOfItems items
  | .object entries => numbersOfEntries entries
  | _ => []

def numbersOfItems : List Json → List Number
  | [] => []
  | j :: rest => j.numbers ++ numbersOfItems rest

def numbersOfEntries : List (String × Json) → List Number
  | [] => []
  | (_,j) :: rest => j.numbers ++ numbersOfEntries rest

end

mutual

/-- A value with other numbers in it. -/
def mapNumbers (f : Number → Number) : Json → Json
  | .null => .null
  | .bool b => .bool b
  | .number n => .number (f n)
  | .string s => .string s
  | .array items => .array (mapNumbersItems f items)
  | .object entries => .object (mapNumbersEntries f entries)

def mapNumbersItems (f : Number → Number) : List Json → List Json
  | [] => []
  | j :: rest => j.mapNumbers f :: mapNumbersItems f rest

def mapNumbersEntries (f : Number → Number) : List (String × Json) → List (String × Json)
  | [] => []
  | (key,j) :: rest => (key,j.mapNumbers f) :: mapNumbersEntries f rest

end

section

variable {f g : Number → Number}

mutual

theorem mapNumbers_congr (j : Json) (h : ∀ n ∈ j.numbers, f n = g n) :
    j.mapNumbers f = j.mapNumbers g := by
  cases j with
  | null | bool | string => rfl
  | number n => rw [mapNumbers,mapNumbers,h n (by simp [numbers])]
  | array items => rw [mapNumbers,mapNumbers,mapNumbersItems_congr items (by simpa [numbers] using h)]
  | object entries =>
    rw [mapNumbers,mapNumbers,mapNumbersEntries_congr entries (by simpa [numbers] using h)]

theorem mapNumbersItems_congr (items : List Json) (h : ∀ n ∈ numbersOfItems items, f n = g n) :
    mapNumbersItems f items = mapNumbersItems g items := by
  cases items with
  | nil => rfl
  | cons j rest =>
    simp only [numbersOfItems,List.mem_append,or_imp,forall_and] at h
    rw [mapNumbersItems,mapNumbersItems,mapNumbers_congr j h.1,mapNumbersItems_congr rest h.2]

theorem mapNumbersEntries_congr (entries : List (String × Json))
    (h : ∀ n ∈ numbersOfEntries entries, f n = g n) :
    mapNumbersEntries f entries = mapNumbersEntries g entries := by
  cases entries with
  | nil => rfl
  | cons entry rest =>
    obtain ⟨key,j⟩ := entry
    simp only [numbersOfEntries,List.mem_append,or_imp,forall_and] at h
    rw [mapNumbersEntries,mapNumbersEntries,mapNumbers_congr j h.1,mapNumbersEntries_congr rest h.2]

end

mutual

@[simp] theorem mapNumbers_id (j : Json) : j.mapNumbers id = j := by
  cases j with
  | null | bool | string | number => rfl
  | array items => rw [mapNumbers,mapNumbersItems_id]
  | object entries => rw [mapNumbers,mapNumbersEntries_id]

@[simp] theorem mapNumbersItems_id (items : List Json) : mapNumbersItems id items = items := by
  cases items with
  | nil => rfl
  | cons j rest => rw [mapNumbersItems,mapNumbers_id,mapNumbersItems_id]

@[simp] theorem mapNumbersEntries_id (entries : List (String × Json)) :
    mapNumbersEntries id entries = entries := by
  cases entries with
  | nil => rfl
  | cons entry rest =>
    obtain ⟨key,j⟩ := entry
    rw [mapNumbersEntries,mapNumbers_id,mapNumbersEntries_id]

end

end

end Json

/-! ### Reading -/

/-- The value a literal of one piece has. -/
def Head.scalar? (h : Head) : Option Json :=
  match h.form with
  | .nullLiteral => some .null
  | .booleanLiteral => some (.bool ((Json.lookup "value" h.data).bind Json.asBool? = some true))
  | .stringLiteral => (h.text? "value").map fun s => .string (textOfLiteral s)
  | .numericLiteral =>
    match Json.lookup "value" h.data with
    | some (.number n) => some (.number n.normal)
    | _ => none
  | _ => none

def Json.negated? : Json → Option Json
  | .number n => some (.number n.neg)
  | _ => none

mutual

/-- The data an expression spells: an object with its keys in order, an array, a literal, or the negation
of a number. -/
def Node.asData? : Node → Option Json
  | .plain head [] => head.scalar?
  | .plain head [.child _ e] =>
    if head.form = .unaryExpression ∧ head.text? "operator" = some "-" then e.asData?.bind Json.negated?
    else none
  | .plain head [.children _ nodes] =>
    match head.form with
    | .arrayExpression => (itemsAsData? nodes).map .array
    | .objectExpression => (entriesAsData? nodes).map .object
    | _ => none
  | _ => none

/-- The elements of an array; none is spread. -/
def itemsAsData? : List Node → Option (List Json)
  | [] => some []
  | .plain head [.child _ e] :: rest =>
    if head.form = .argument ∧ head.data.isEmpty then do return (← e.asData?) :: (← itemsAsData? rest)
    else none
  | _ => none

/-- The properties of an object, each under a string. -/
def entriesAsData? : List Node → Option (List (String × Json))
  | [] => some []
  | .plain head [.child _ (.plain key []),.child _ e] :: rest =>
    if head.form = .keyValueProperty ∧ key.form = .stringLiteral then do
      return (textOfLiteral (← key.text? "value"),← e.asData?) :: (← entriesAsData? rest)
    else none
  | _ => none

end

/-- A node that data is built of: an object, an array, a literal, a minus, or what holds an element or a
property. -/
def Node.isData : Node → Bool
  | .plain head _ =>
    match head.form with
    | .nullLiteral | .booleanLiteral | .numericLiteral | .stringLiteral => true
    | .arrayExpression | .objectExpression => true
    | .unaryExpression => head.text? "operator" = some "-"
    | .argument | .keyValueProperty => head.data.isEmpty
    | _ => false
  | _ => false

namespace Build

open Json

@[simp] theorem asData?_magnitude (x : Binary64) :
    (magnitude x).asData? = some (.number (Number.binary x).normal) := by
  simp [magnitude,Node.leaf,Node.asData?,Head.scalar?,lookup,Number.normal_literalNumber]

theorem asData?_number (x : Binary64) : (number x).asData? = some (.number (Number.binary x).normal) := by
  rw [number]
  split
  · simp [Node.asData?,Head.text?,lookup,asString?,negated?,Number.neg_normal_neg]
  · exact asData?_magnitude x

theorem asData?_string (text : String) : (string text).asData? = some (.string text) := by
  simp [string,Node.leaf,Node.asData?,Head.scalar?,Head.text?,lookup,asString?]

theorem asData?_bool (b : Bool) : (bool b).asData? = some (.bool b) := by
  cases b <;> rfl

theorem itemsAsData?_cons {e : Node} {rest : List Node} {j : Json} {items : List Json}
    (he : e.asData? = some j) (hr : itemsAsData? rest = some items) :
    itemsAsData? (argument e :: rest) = some (j :: items) := by
  simp [argument,itemsAsData?,he,hr]

theorem entriesAsData?_cons {key : String} {e : Node} {rest : List Node} {j : Json}
    {entries : List (String × Json)} (he : e.asData? = some j) (hr : entriesAsData? rest = some entries) :
    entriesAsData? (property key e :: rest) = some ((key,j) :: entries) := by
  simp [property,string,Node.leaf,entriesAsData?,Head.text?,lookup,asString?,he,hr]

/-- A number as the literal holds it. -/
def rounded (n : Number) : Number := (Number.binary n.toBinary).normal

mutual

theorem asData?_data (j : Json) : (data j).asData? = some (j.mapNumbers rounded) := by
  cases j with
  | null => rfl
  | bool b => exact asData?_bool b
  | number n => exact asData?_number n.toBinary
  | string s => exact asData?_string s
  | array items =>
    rw [data,array,Node.asData?,itemsAsData?_dataItems items]
    rfl
  | object entries =>
    rw [data,object,Node.asData?,entriesAsData?_dataEntries entries]
    rfl

theorem itemsAsData?_dataItems (items : List Json) :
    itemsAsData? (dataItems items) = some (mapNumbersItems rounded items) := by
  cases items with
  | nil => rfl
  | cons j rest => exact itemsAsData?_cons (asData?_data j) (itemsAsData?_dataItems rest)

theorem entriesAsData?_dataEntries (entries : List (String × Json)) :
    entriesAsData? (dataEntries entries) = some (mapNumbersEntries rounded entries) := by
  cases entries with
  | nil => rfl
  | cons entry rest =>
    obtain ⟨key,j⟩ := entry
    exact entriesAsData?_cons (asData?_data j) (entriesAsData?_dataEntries rest)

end

/-! ### What data is built of -/

/-- A node that was built as a part of data. -/
def DataNode (m : Node) : Prop := m.span = .dummy ∧ m.isData = true

theorem forall_subnodes {P : Node → Prop} {n : Node} (hn : P n)
    (hc : ∀ c ∈ n.children, ∀ m ∈ c.subnodes, P m) : ∀ m ∈ n.subnodes, P m := by
  intro m hm
  rw [Node.subnodes,Node.inner_eq] at hm
  obtain rfl | hm := List.mem_cons.mp hm
  · exact hn
  · obtain ⟨c,hcn,hmc⟩ := List.mem_flatMap.mp hm
    exact hc c hcn m hmc

theorem dataNodes_magnitude (x : Binary64) : ∀ m ∈ (magnitude x).subnodes, DataNode m :=
  forall_subnodes ⟨rfl,rfl⟩ nofun

theorem dataNodes_number (x : Binary64) : ∀ m ∈ (number x).subnodes, DataNode m := by
  rw [number]
  split
  · refine forall_subnodes ⟨rfl,?_⟩ fun c hc => ?_
    · simp [Node.isData,Head.text?,lookup,asString?]
    · obtain rfl : c = magnitude x.neg := by simpa [Node.children,Part.nodes] using hc
      exact dataNodes_magnitude x.neg
  · exact dataNodes_magnitude x

theorem dataNodes_string (text : String) : ∀ m ∈ (string text).subnodes, DataNode m :=
  forall_subnodes ⟨rfl,rfl⟩ nofun

theorem dataNodes_argument {e : Node} (he : ∀ m ∈ e.subnodes, DataNode m) :
    ∀ m ∈ (argument e).subnodes, DataNode m := by
  refine forall_subnodes ⟨rfl,rfl⟩ fun c hc => ?_
  obtain rfl : c = e := by simpa [argument,Node.children,Part.nodes] using hc
  exact he

theorem dataNodes_property (key : String) {e : Node} (he : ∀ m ∈ e.subnodes, DataNode m) :
    ∀ m ∈ (property key e).subnodes, DataNode m := by
  refine forall_subnodes ⟨rfl,rfl⟩ fun c hc => ?_
  have hc : c = string key ∨ c = e := by simpa [property,Node.children,Part.nodes] using hc
  obtain rfl | rfl := hc
  · exact dataNodes_string key
  · exact he

mutual

theorem dataNodes_data (j : Json) : ∀ m ∈ (data j).subnodes, DataNode m := by
  cases j with
  | null => exact forall_subnodes ⟨rfl,rfl⟩ nofun
  | bool b => exact forall_subnodes ⟨rfl,rfl⟩ nofun
  | number n => exact dataNodes_number n.toBinary
  | string s => exact dataNodes_string s
  | array items =>
    refine forall_subnodes ⟨rfl,rfl⟩ fun c hc => ?_
    exact dataNodes_dataItems items c (by simpa [data,array,Node.children,Part.nodes] using hc)
  | object entries =>
    refine forall_subnodes ⟨rfl,rfl⟩ fun c hc => ?_
    exact dataNodes_dataEntries entries c (by simpa [data,object,Node.children,Part.nodes] using hc)

theorem dataNodes_dataItems (items : List Json) :
    ∀ c ∈ dataItems items, ∀ m ∈ c.subnodes, DataNode m := by
  cases items with
  | nil => exact nofun
  | cons j rest =>
    rw [dataItems,List.forall_mem_cons]
    exact ⟨dataNodes_argument (dataNodes_data j),dataNodes_dataItems rest⟩

theorem dataNodes_dataEntries (entries : List (String × Json)) :
    ∀ c ∈ dataEntries entries, ∀ m ∈ c.subnodes, DataNode m := by
  cases entries with
  | nil => exact nofun
  | cons entry rest =>
    obtain ⟨key,j⟩ := entry
    rw [dataEntries,List.forall_mem_cons]
    exact ⟨dataNodes_property key (dataNodes_data j),dataNodes_dataEntries rest⟩

end

/-- A value whose numbers are whole and at most `2 ^ 53` in size is what its literal is read as, with its
numbers written as integers, and the literal is built of nodes of data without a place. -/
theorem data_reads_back (v : Json)
    (hv : ∀ n ∈ v.numbers, ∃ k : Int, n.normal = .integer k ∧ k.natAbs ≤ 2 ^ 53) :
    (data v).asData? = some (v.mapNumbers Number.normal) ∧
    ((∀ n ∈ v.numbers, ∃ k, n = .integer k) → (data v).asData? = some v) ∧
    ∀ m ∈ (data v).subnodes, m.span = .dummy ∧ m.isData = true := by
  have hr : (data v).asData? = some (v.mapNumbers Number.normal) := by
    rw [asData?_data]
    refine congrArg some (mapNumbers_congr v fun n hn => ?_)
    obtain ⟨k,hk,hs⟩ := hv n hn
    exact Number.normal_toBinary hk hs
  refine ⟨hr,fun hi => ?_,dataNodes_data v⟩
  rw [hr,mapNumbers_congr (g := id) v fun n hn => ?_,mapNumbers_id]
  obtain ⟨k,rfl⟩ := hi n hn
  rfl

section Sample

/-- Data with a number below zero, one of 54 bits, and a whole one that is no integer. -/
def sampleData : Json :=
  .object [("b",.array [.number (.integer (-2)),.null,.number (.integer (2 ^ 53))]),
    ("a",.object [("",.bool true),("\\u",.number (.binary ⟨true,2 ^ 52,-50⟩))])]

end Sample

theorem data_reads_back_sample :
    (∀ n ∈ sampleData.numbers, ∃ k : Int, n.normal = .integer k ∧ k.natAbs ≤ 2 ^ 53) ∧
    (data sampleData).asData? = some (sampleData.mapNumbers Number.normal) := by
  have hv : ∀ n ∈ sampleData.numbers, ∃ k : Int, n.normal = .integer k ∧ k.natAbs ≤ 2 ^ 53 := by
    have hn : sampleData.numbers =
        [.integer (-2),.integer (2 ^ 53),.binary ⟨true,2 ^ 52,-50⟩] := rfl
    rw [hn]
    simp only [List.forall_mem_cons]
    exact ⟨⟨-2,rfl,by decide⟩,⟨2 ^ 53,rfl,by decide⟩,⟨-4,by decide +kernel,by decide⟩,nofun⟩
  exact ⟨hv,(data_reads_back sampleData hv).1⟩

end Build
end CoverageCounters
