/-!
# Sets of code points

A set of code points is kept as the increasing list of the points where membership changes. The
first boundary is the first member, the second the first code point after that run, and so on.
-/

namespace NominalTypes.Text

/-- A set of code points, given by the code points at which membership changes. -/
structure CodeSet where
  boundaries : List Nat

/-- The boundaries after a code point that lie the given distances apart. -/
def boundariesFrom : Nat → List Nat → List Nat
  | _, [] => []
  | start, gap :: gaps => (start + gap) :: boundariesFrom (start + gap) gaps

/-- The set whose boundaries are the given distances apart. -/
def CodeSet.ofGaps (gaps : List Nat) : CodeSet :=
  ⟨boundariesFrom 0 gaps⟩

/-- A code point belongs to the set when an odd number of boundaries lie at or before it. -/
def CodeSet.contains (s : CodeSet) (c : Char) : Bool :=
  (s.boundaries.takeWhile (· ≤ c.toNat)).length % 2 == 1

end NominalTypes.Text
