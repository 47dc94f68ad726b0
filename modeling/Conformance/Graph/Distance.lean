/-!
# Distances

The length of a shortest walk, or infinity where there is none. Lengths go up to `Distance.limit`; a
sum beyond it counts as infinite.
-/

namespace Conformance

/-- The length of a shortest walk. -/
inductive Distance where
  | finite (steps : Nat)
  | infinite
deriving DecidableEq, Repr

namespace Distance

/-- The greatest finite length. -/
def limit : Nat := 0xFFFFFFFF

/-- Is there a walk at all? -/
def isFinite : Distance → Bool
  | finite _ => true
  | infinite => false

/-- The sum of two distances. -/
def plus : Distance → Distance → Distance
  | finite a, finite b => if a + b ≤ limit then finite (a + b) else infinite
  | _, _ => infinite

/-- Distances ascend by length, and infinity is the last. -/
def compare : Distance → Distance → Ordering
  | finite a, finite b => Ord.compare a b
  | finite _, infinite => .lt
  | infinite, finite _ => .gt
  | infinite, infinite => .eq

/-- The lesser of two distances. -/
def min (a b : Distance) : Distance :=
  if (compare b a).isLT then b else a

/-- The greater of two distances. -/
def max (a b : Distance) : Distance :=
  if (compare a b).isLT then b else a

/-- The number of steps, or the sign of infinity. -/
def text : Distance → String
  | finite n => toString n
  | infinite => "∞"

end Distance

end Conformance
