/-!
Spans: half-open ranges of byte positions in a source text, whose first byte has position 1. A dummy
span marks a construct that was built and not read.
-/

namespace CoverageCounters

structure Span where
  lo : Nat
  hi : Nat
  lo_le_hi : lo ≤ hi := by omega
  deriving DecidableEq, Repr

namespace Span

/-- The span of a construct that stands nowhere in a text. -/
def dummy : Span := ⟨0,0,by omega⟩

instance : Inhabited Span := ⟨dummy⟩

/-- The span between two positions, whichever comes first. -/
def ofBounds (a b : Nat) : Span :=
  if h : a ≤ b then ⟨a,b,h⟩ else ⟨b,a,by omega⟩

/-- Positions from here on are reserved and belong to no text. -/
def reservedFrom : Nat := 4294901759

def isDummy (s : Span) : Bool := (s.lo = 0 && s.hi = 0) || reservedFrom ≤ s.lo

@[simp] theorem isDummy_dummy : dummy.isDummy = true := rfl

@[simp] theorem ofBounds_lo_hi (s : Span) : ofBounds s.lo s.hi = s := by
  simp [ofBounds,s.lo_le_hi]

theorem ofBounds_comm (a b : Nat) : ofBounds a b = ofBounds b a := by
  unfold ofBounds
  split <;> split <;> simp <;> omega

end Span
end CoverageCounters
