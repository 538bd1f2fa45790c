/-!
# Ranges of code points

A property of characters is a list of closed ranges of code points, ascending and apart.
-/

namespace ReversePolish.Text

def inRanges (rs : List (Nat × Nat)) (n : Nat) : Bool :=
  rs.any fun r => r.1 ≤ n && n ≤ r.2

end ReversePolish.Text
