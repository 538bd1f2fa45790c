import ReversePolish.Text.Joining

/-!
# Clusters

A text is a sequence of clusters, the characters as a reader perceives them: a letter with its
marks, a syllable of Hangul, a flag, a family of pictographs, a conjunct of consonants. Whether a
character joins the one before it depends on both kinds and, for the last three, on what led up to
them (`Context`). Cutting a text into clusters loses nothing (`flatten_clusters`).
-/

namespace ReversePolish.Text

/-- How far a pictograph that may take another has come. -/
inductive Picture
  | none
  /-- a pictograph and the marks behind it -/
  | whole
  /-- a pictograph, its marks and a joiner -/
  | joined
deriving DecidableEq, Repr

/-- How far a consonant that may take another has come. -/
inductive Conjunct
  | none
  /-- a consonant and the marks behind it -/
  | begun
  /-- a consonant, its marks and a linker among them -/
  | linked
deriving DecidableEq, Repr

structure Context where
  last : Option Kind
  /-- whether the regional indicators just before are odd in number -/
  unpaired : Bool
  picture : Picture
  conjunct : Conjunct

namespace Context

def start : Context := ⟨none, false, .none, .none⟩

def nextPicture (x : Context) : Kind → Picture
  | .pictographic => .whole
  | .extend | .linker | .nonJoiner => if x.picture = .whole then .whole else .none
  | .joiner => if x.picture = .whole then .joined else .none
  | _ => .none

def nextConjunct (x : Context) : Kind → Conjunct
  | .consonant => .begun
  | .linker => if x.conjunct = .none then .none else .linked
  | .extend | .joiner => x.conjunct
  | _ => .none

def next (x : Context) (k : Kind) : Context where
  last := some k
  unpaired := k = .regional && !x.unpaired
  picture := x.nextPicture k
  conjunct := x.nextConjunct k

/-- Whether a character of a kind belongs to the cluster before it. -/
def joins (x : Context) (k : Kind) : Bool :=
  match x.last with
  | none => false
  | some last =>
    if last.isControl || k.isControl then last = .carriageReturn && k = .lineFeed
    else k.attaches || last = .prepended || last.syllable k ||
      (k = .consonant && x.conjunct = .linked) ||
      (k = .pictographic && x.picture = .joined) ||
      (k = .regional && x.unpaired)

end Context

/-- The rest of the cluster before a text, and the clusters behind it. -/
def scanCluster (x : Context) : List Char → List Char × List (List Char)
  | [] => ([], [])
  | c :: s =>
    let r := scanCluster (x.next (.ofChar c)) s
    if x.joins (.ofChar c) then (c :: r.1, r.2) else ([], (c :: r.1) :: r.2)

def clusters (s : List Char) : List (List Char) := (scanCluster .start s).2

theorem scanCluster_append (x : Context) (s : List Char) :
    (scanCluster x s).1 ++ (scanCluster x s).2.flatten = s := by
  induction s generalizing x with
  | nil => rfl
  | cons c s ih =>
    simp only [scanCluster]
    split
    · simp only [List.cons_append, ih]
    · simp only [List.nil_append, List.flatten_cons, List.cons_append, ih]

theorem scanCluster_start (s : List Char) : (scanCluster .start s).1 = [] := by
  cases s <;> rfl

theorem flatten_clusters (s : List Char) : (clusters s).flatten = s := by
  have h := scanCluster_append .start s
  rw [scanCluster_start, List.nil_append] at h
  exact h

end ReversePolish.Text
