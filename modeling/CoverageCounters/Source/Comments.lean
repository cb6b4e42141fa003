import CoverageCounters.Source.Span

/-!
The comments of a file, each kept under the position of the token it leads or trails.
-/

namespace CoverageCounters

/-- The text of a comment stands without its delimiters. -/
structure Comment where
  text : String
  span : Span

/-- Comments by the byte position they are attached to. -/
structure CommentTable where
  entries : List (Nat × List Comment)

namespace CommentTable

def empty : CommentTable := ⟨[]⟩

def attachedAt (t : CommentTable) (pos : Nat) : List Comment :=
  (t.entries.filter (·.1 = pos)).flatMap (·.2)

/-- The comments attached at a position or later. -/
def since (t : CommentTable) (pos : Nat) : List Comment :=
  (t.entries.filter (pos ≤ ·.1)).flatMap (·.2)

def all (t : CommentTable) : List Comment := t.entries.flatMap (·.2)

end CommentTable

structure Comments where
  leading : CommentTable
  trailing : CommentTable

namespace Comments

def empty : Comments := ⟨.empty,.empty⟩

def all (c : Comments) : List Comment := c.leading.all ++ c.trailing.all

end Comments
end CoverageCounters
