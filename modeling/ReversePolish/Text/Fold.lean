/-!
# Letter case

Lower case as far as it reaches ASCII. Two characters outside ASCII have an ASCII letter in their
lower case: the Kelvin sign, whose lower case is `k`, and the capital I with a dot above, whose
lower case is `i` and a combining dot. All others outside ASCII stay outside it, so a comparison
with a text in ASCII needs no more than this.
-/

namespace ReversePolish.Text

/-- The lower case of a character, exact wherever it holds an ASCII character. -/
def lowerCase (c : Char) : List Char :=
  if c = '\u212A' then ['k']
  else if c = '\u0130' then ['i', '\u0307']
  else [c.toLower]

def fold (s : List Char) : List Char := s.flatMap lowerCase

@[simp] theorem fold_nil : fold [] = [] := rfl

@[simp] theorem fold_cons (c : Char) (s : List Char) : fold (c :: s) = lowerCase c ++ fold s := by
  simp [fold]

end ReversePolish.Text
