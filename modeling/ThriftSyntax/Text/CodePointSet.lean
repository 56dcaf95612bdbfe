/-!
# Sets of code points

A character class of the Unicode standard is a table of ranges; `CodePointSet.contains` reads it.
-/

namespace ThriftSyntax

/-- Code points as ranges, both ends included, ascending and apart from each other. -/
structure CodePointSet where
  ranges : List (Nat × Nat)

namespace CodePointSet

/-- Whether `n` lies in one of the ranges; the first range that does not end before `n` decides. -/
def covers (n : Nat) : List (Nat × Nat) → Bool
  | [] => false
  | (first, last) :: ranges => if n ≤ last then decide (first ≤ n) else covers n ranges

def contains (set : CodePointSet) (c : Char) : Bool :=
  covers c.toNat set.ranges

theorem covers_cons (n first last : Nat) (ranges : List (Nat × Nat)) :
    covers n ((first, last) :: ranges) = if n ≤ last then decide (first ≤ n) else covers n ranges :=
  rfl

end CodePointSet

end ThriftSyntax
