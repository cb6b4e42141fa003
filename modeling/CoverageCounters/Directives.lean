import CoverageCounters.Hint
import CoverageCounters.Source.Comments
import CoverageCounters.Source.Location

/-!
Which hint leads a construct. Comments stored as leading its first token count first. Failing those,
comments stored as trailing some earlier token count if nothing but blanks and such comments lies
between them and the construct.
-/

namespace CoverageCounters

/-- A file's comments together with the text they stand in. -/
structure Directives where
  comments : Comments
  source : SourceText

/-- A comment stored as trailing, with the hint it carries. -/
structure TrailingComment where
  span : Span
  hint : Option Hint

/-- The number of elements in front of the first one that fails `p`, in a list that `p` parts, by
halving the range `size` times smaller that starts at `base`. -/
def partitionFrom {α : Type} (p : α → Bool) (xs : List α) (base size : Nat) : Nat :=
  if h : size ≤ 1 then
    match xs[base]? with
    | some x => if p x then base + 1 else base
    | none => base
  else
    let mid := base + size / 2
    let holds := match xs[mid]? with
      | some x => p x
      | none => false
    partitionFrom p xs (if holds then mid else base) (size - size / 2)
termination_by size
decreasing_by omega

def partitionPoint {α : Type} (p : α → Bool) (xs : List α) : Nat :=
  partitionFrom p xs 0 xs.length

namespace Directives

/-- The trailing comments sorted by where they start. -/
def trailingIndex (d : Directives) : List TrailingComment :=
  (d.comments.trailing.all.map fun c => ⟨c.span,Hint.ofText? c.text⟩).mergeSort
    fun a b => a.span.lo ≤ b.span.lo

/-- Whether nothing but blanks lies between two positions. -/
def onlyBlankBetween (d : Directives) (lo hi : Nat) : Bool :=
  if hi ≤ lo then lo = hi
  else match d.source.slice? lo hi with
    | some gap => gap.all isBlank
    | none => false

/-- The first hint met when walking back from `cursor` over comments, nearest first. -/
def scanBack (d : Directives) (cursor : Nat) : List TrailingComment → Option Hint
  | [] => none
  | c :: rest =>
    if d.onlyBlankBetween c.span.hi cursor then c.hint.or (d.scanBack c.span.lo rest) else none

/-- The nearest hint among the trailing comments that run up to a position. -/
def adjacentHint? (d : Directives) (pos : Nat) : Option Hint :=
  let index := d.trailingIndex
  d.scanBack pos (index.take (partitionPoint (fun c => decide (c.span.hi ≤ pos)) index)).reverse

/-- The hint that leads a span: the last one among its leading comments, or else the nearest among
the trailing comments that run up to it. -/
def hintFor? (d : Directives) (s : Span) : Option Hint :=
  if s.isDummy then none
  else ((d.comments.leading.attachedAt s.lo).filterMap (fun c => Hint.ofText? c.text)).getLast?.or
    (d.adjacentHint? s.lo)

@[simp] theorem hintFor?_dummy (d : Directives) : d.hintFor? .dummy = none := rfl

def skips (d : Directives) (s : Span) : Bool := d.hintFor? s = some .next

@[simp] theorem skips_dummy (d : Directives) : d.skips .dummy = false := rfl

/-- The last source-map reference among the comments that lead or trail a span. -/
def sourceMapUrl? (d : Directives) (s : Span) : Option String :=
  if s.isDummy then none
  else ((d.comments.leading.attachedAt s.lo ++ d.comments.trailing.attachedAt s.hi).filterMap
    fun c => SourceMapReference.ofText? c.text).getLast?

@[simp] theorem sourceMapUrl?_dummy (d : Directives) : d.sourceMapUrl? .dummy = none := rfl

/-- The last source-map reference among the comments attached at a position or later, by where the
comments start. -/
def trailerUrl? (d : Directives) (pos : Nat) : Option String :=
  let found := (d.comments.leading.since pos ++ d.comments.trailing.since pos).filterMap
    fun c => (SourceMapReference.ofText? c.text).map fun url => (c.span.lo,url)
  ((found.mergeSort fun a b => a.1 ≤ b.1).getLast?).map (·.2)

/-- Whether some comment leaves out the whole file. -/
def fileIgnored (d : Directives) : Bool := d.comments.all.any fun c => isFileHint c.text

end Directives
end CoverageCounters
