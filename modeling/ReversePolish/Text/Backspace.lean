import ReversePolish.Text.Cluster

/-!
# Backspaces

A backspace in a line takes away the cluster before it that is still there, and itself. The size of
a cluster is its number of bytes in UTF-8, kept in eight bits, so behind a cluster of 256 bytes or
more a backspace asks for fewer bytes than the cluster has. Where these bytes would cut a character
in two, the backspace cannot be applied and the line has no reading. A line without backspaces is
read as it stands (`erase?_eq_some_self`).
-/

namespace ReversePolish.Text

def backspace : Char := '\x08'

def byteSize : List Char → Nat
  | [] => 0
  | c :: s => c.utf8Size + byteSize s

/-- Takes so many bytes off the front, unless they end inside a character. -/
def dropBytes : Nat → List Char → Option (List Char)
  | 0, s => some s
  | _ + 1, [] => none
  | n + 1, c :: s => if c.utf8Size ≤ n + 1 then dropBytes (n + 1 - c.utf8Size) s else none

/-- Applies the backspaces among clusters to the text before them, which is given from its end, with
the sizes of its clusters. -/
def applyBackspaces (kept : List Char) (sizes : List UInt8) :
    List (List Char) → Option (List Char)
  | [] => some kept.reverse
  | cluster :: rest =>
    if cluster = [backspace] then
      match dropBytes (sizes.headD 0).toNat kept with
      | none => none
      | some kept => applyBackspaces kept sizes.tail rest
    else applyBackspaces (cluster.reverse ++ kept) ((byteSize cluster).toUInt8 :: sizes) rest

def erase? (s : List Char) : Option (List Char) := applyBackspaces [] [] (clusters s)

theorem applyBackspaces_of_not_mem {cs : List (List Char)} (h : backspace ∉ cs.flatten)
    (kept : List Char) (sizes : List UInt8) :
    applyBackspaces kept sizes cs = some (kept.reverse ++ cs.flatten) := by
  induction cs generalizing kept sizes with
  | nil => simp [applyBackspaces]
  | cons c cs ih =>
    rw [List.flatten_cons, List.mem_append, not_or] at h
    have hc : c ≠ [backspace] := fun he => h.1 (he ▸ List.mem_singleton_self _)
    rw [applyBackspaces, if_neg hc, ih h.2]
    simp

theorem erase?_eq_some_self {s : List Char} (h : backspace ∉ s) : erase? s = some s := by
  rw [erase?, applyBackspaces_of_not_mem (by rwa [flatten_clusters]), flatten_clusters]
  rfl

end ReversePolish.Text
