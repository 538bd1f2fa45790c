/-!
# Lines

A stream is cut behind every line feed, so that each piece but the last is one line with its
terminator (`cutAfter`). The terminator is a line feed, with a carriage return before it or
without, and `chomp` takes it away. A piece of bytes is read as UTF-8 by itself (`decode`).
-/

namespace ReversePolish.Text

variable {α : Type}

/-- Cuts a list behind every element that `ends` holds of. -/
def cutAfter (ends : α → Bool) : List α → List (List α)
  | [] => []
  | a :: s =>
    if ends a then [a] :: cutAfter ends s
    else match cutAfter ends s with
      | [] => [[a]]
      | p :: ps => (a :: p) :: ps

theorem flatten_cutAfter (ends : α → Bool) (s : List α) : (cutAfter ends s).flatten = s := by
  induction s with
  | nil => rfl
  | cons a s ih =>
    simp only [cutAfter]
    split
    · simp [ih]
    · split <;> rename_i h <;> simp_all

def isLineFeed (b : UInt8) : Bool := b == 0x0A

/-- The lines of a stream of bytes, each with its terminator; the last may lack one. -/
def lines (bytes : List UInt8) : List (List UInt8) := cutAfter isLineFeed bytes

def chomp : List Char → List Char
  | [] => []
  | ['\n'] => []
  | ['\r', '\n'] => []
  | c :: s => c :: chomp s

def splitLines (s : String) : List String :=
  (cutAfter (· == '\n') s.toList).map fun l => String.ofList (chomp l)

def decode (line : List UInt8) : Option String :=
  String.fromUTF8? ⟨line.toArray⟩

end ReversePolish.Text
