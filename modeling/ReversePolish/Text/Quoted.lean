import ReversePolish.Text.Printable

/-!
# Quoted text

A text between double quotes, in which every character that would not show, or would end the
quotation, has an escaped spelling: a backslash and a letter for the quote, the backslash and four
controls, and the hexadecimal code point in braces for the rest.
-/

namespace ReversePolish.Text.Quoted

/-- The letter behind the backslash, for the characters that have one. -/
def letter? : Char → Option Char
  | '"' => some '"'
  | '\\' => some '\\'
  | '\t' => some 't'
  | '\n' => some 'n'
  | '\r' => some 'r'
  | '\x00' => some '0'
  | _ => none

def braced (n : Nat) : List Char :=
  '{' :: Nat.toDigits 16 n ++ ['}']

def spell (c : Char) : List Char :=
  match letter? c with
  | some l => ['\\', l]
  | none => if shows c then [c] else '\\' :: 'u' :: braced c.toNat

def encode (s : List Char) : List Char :=
  '"' :: s.flatMap spell ++ ['"']

def quote (s : String) : String :=
  String.ofList (encode s.toList)

end ReversePolish.Text.Quoted
