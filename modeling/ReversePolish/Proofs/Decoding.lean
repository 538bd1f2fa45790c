import ReversePolish.Session
import ReversePolish.Proofs.Lines

/-!
# Reading a transcript

What a session shows is a list of passages, one for each prompt: the prompt, the entries of the line
behind it and its answer, if there is one. Their texts can be told apart whatever the words are: a
prompt ends at its only mark, each entry and each answer is one line, and entries start with letters
that answers do not start with. `decode` reads the passages back (`decode_text`).
-/

namespace ReversePolish

namespace Session

structure Passage where
  prompt : String
  entries : List String
  answer? : Option String
deriving DecidableEq

namespace Passage

def text (p : Passage) : String :=
  p.prompt ++ String.join (p.entries.map line) ++ String.join (p.answer?.toList.map line)

end Passage

def Block.passage (b : Block) : Passage where
  prompt := b.prompt
  entries := b.trace.map Entry.text
  answer? := b.answer?.map showFloat

/-- The passages of a transcript; the last prompt has one of its own. -/
def Transcript.passages (t : Transcript) : List Passage :=
  t.blocks.map Block.passage ++
    match t.ending with
    | .terminated => []
    | .endOfInput | .unreadable | .aborted => [⟨t.machine.prompt, [], none⟩]

def isEntry : List Char → Bool
  | 'P' :: _ | 'E' :: _ => true
  | _ => false

def splitPrompt : List Char → List Char × List Char
  | [] => ([], [])
  | c :: s => if c = '>' then ([c], s) else ((c :: (splitPrompt s).1), (splitPrompt s).2)

/-- The passage that lines open with, with a prompt or behind it, and the passages after it. -/
def scanPassage : Bool → List (List Char) → Passage × List Passage
  | _, [] => (⟨"", [], none⟩, [])
  | prompted, l :: ls =>
    let (prompt, shown) := if prompted then splitPrompt l else ([], l)
    -- only the last prompt has nothing behind it
    if shown = [] then (⟨String.ofList prompt, [], none⟩, [])
    else if isEntry shown then
      let r := scanPassage false ls
      (⟨String.ofList prompt, String.ofList shown.dropLast :: r.1.entries, r.1.answer?⟩, r.2)
    else
      let r := scanPassage true ls
      (⟨String.ofList prompt, [], some (String.ofList shown.dropLast)⟩, r.1 :: r.2)

/-- The passages of a text, which opens with a prompt or is what stands behind one. -/
def scan (prompted : Bool) (s : List Char) : Passage × List Passage :=
  scanPassage prompted (Text.cutAfter (· == '\n') s)

def decode (s : String) : List Passage := (scan true s.toList).1 :: (scan true s.toList).2

section Scanning

variable {p s t : List Char}

theorem ends_of_not_mem (ht : '\n' ∉ t) : ∀ c ∈ t, (c == '\n') = false := by
  intro c hc
  rw [beq_eq_false_iff_ne]
  rintro rfl
  exact ht hc

theorem isEntry_append (hne : t ≠ []) (s : List Char) : isEntry (t ++ s) = isEntry t := by
  obtain ⟨c, t, rfl⟩ := List.exists_cons_of_ne_nil hne
  unfold isEntry
  split <;> simp_all

theorem splitPrompt_append (hp : '>' ∉ p) (s : List Char) :
    splitPrompt (p ++ '>' :: s) = (p ++ ['>'], s) := by
  induction p with
  | nil => rfl
  | cons c p ih =>
    rw [List.mem_cons, not_or] at hp
    simp [splitPrompt, ih hp.2, Ne.symm hp.1]

theorem scan_line (ht : '\n' ∉ t) (hne : t ≠ []) :
    scan false (t ++ '\n' :: s) =
      if isEntry t then
        (⟨"", String.ofList t :: (scan false s).1.entries, (scan false s).1.answer?⟩,
          (scan false s).2)
      else (⟨"", [], some (String.ofList t)⟩, (scan true s).1 :: (scan true s).2) := by
  rw [scan, Text.cutAfter_line (ends_of_not_mem ht) (by rfl), scanPassage]
  simp [isEntry_append hne, scan]

theorem scan_prompt (hp : '>' ∉ p) (hline : '\n' ∉ p) (s : List Char) :
    scan true (p ++ '>' :: s) =
      ({ (scan false s).1 with prompt := String.ofList (p ++ ['>']) }, (scan false s).2) := by
  have hmark : '\n' ∉ p ++ ['>'] := by simp [hline]
  have hcut := Text.cutAfter_append (ends_of_not_mem hmark) (by simp) s
  rw [List.append_assoc, List.singleton_append] at hcut
  rw [scan, scan, hcut, scanPassage, List.append_assoc, List.singleton_append]
  simp only [if_true, splitPrompt_append hp]
  cases hs : Text.cutAfter (· == '\n') s with
  | nil => rfl
  | cons l ls =>
    simp only [scanPassage, List.headD_cons, List.tail_cons, Bool.false_eq_true, if_false]
    by_cases hl : l = [] <;> by_cases he : isEntry l = true <;> simp [hl, he]

end Scanning

structure Passage.Legible (p : Passage) : Prop where
  prompt : ∃ s : List Char, p.prompt.toList = s ++ ['>'] ∧ '>' ∉ s ∧ '\n' ∉ s
  entries : ∀ e ∈ p.entries, '\n' ∉ e.toList ∧ isEntry e.toList = true
  answer : ∀ a ∈ p.answer?, '\n' ∉ a.toList ∧ a ≠ "" ∧ isEntry a.toList = false

/-- Passages that can be told apart: each but the last has an answer. -/
inductive Legible : List Passage → Prop
  | last {p : Passage} (hp : p.Legible) (ha : p.answer? = none) : Legible [p]
  | cons {p : Passage} {ps : List Passage} (hp : p.Legible) (ha : p.answer? ≠ none)
      (hps : Legible ps) : Legible (p :: ps)

variable {p : Passage} {ps : List Passage}

theorem scan_entries {es : List String} (h : ∀ e ∈ es, '\n' ∉ e.toList ∧ isEntry e.toList = true)
    (s : List Char) (hs : (scan false s).1.prompt = "") :
    scan false ((String.join (es.map line)).toList ++ s) =
      (⟨"", es ++ (scan false s).1.entries, (scan false s).1.answer?⟩, (scan false s).2) := by
  induction es with
  | nil =>
    rw [← hs]
    rfl
  | cons e es ih =>
    obtain ⟨⟨hline, he⟩, hes⟩ := List.forall_mem_cons.mp h
    have hne : e.toList ≠ [] := by
      intro hnil
      rw [hnil] at he
      cases he
    have hcons : (String.join ((e :: es).map line)).toList ++ s =
        e.toList ++ '\n' :: ((String.join (es.map line)).toList ++ s) := by
      simp [line]
    rw [hcons, scan_line hline hne, if_pos he, ih hes]
    simp

theorem decode_passage (hp : p.Legible) (s : List Char)
    (hs : (scan false s).1 = ⟨"", [], p.answer?⟩) :
    decode (p.prompt ++ String.join (p.entries.map line) ++ String.ofList s) =
      p :: (scan false s).2 := by
  obtain ⟨t, hprompt, hmark, hline⟩ := hp.prompt
  have htext : (p.prompt ++ String.join (p.entries.map line) ++ String.ofList s).toList =
      t ++ '>' :: ((String.join (p.entries.map line)).toList ++ s) := by
    simp [hprompt]
  have hofList : String.ofList (t ++ ['>']) = p.prompt := by
    rw [← hprompt, String.ofList_toList]
  have hentries := scan_entries hp.entries s (by rw [hs])
  rw [decode, htext, scan_prompt hmark hline, hentries, hs, hofList]
  simp

theorem decode_text (h : Legible ps) : decode (String.join (ps.map Passage.text)) = ps := by
  induction h with
  | @last p hp ha =>
    have hnil : scan false [] = (⟨"", [], p.answer?⟩, []) := by
      rw [ha]
      rfl
    have htext := decode_passage hp [] (by rw [hnil])
    rw [hnil] at htext
    simpa [Passage.text, ha] using htext
  | @cons p ps hp ha hps ih =>
    -- the answer ends its passage, so behind it a prompt is read again
    obtain ⟨a, ha⟩ := Option.ne_none_iff_exists'.mp ha
    obtain ⟨hline, hne, he⟩ := hp.answer a ha
    have hscan : scan false (a.toList ++ '\n' :: (String.join (ps.map Passage.text)).toList) =
        (⟨"", [], some a⟩, ps) := by
      rw [scan_line hline (by simpa using hne), he, String.ofList_toList]
      exact congrArg (Prod.mk _) ih
    have hshown : String.join ((p :: ps).map Passage.text) =
        p.prompt ++ String.join (p.entries.map line) ++
          String.ofList (a.toList ++ '\n' :: (String.join (ps.map Passage.text)).toList) := by
      rw [← String.toList_inj]
      simp [Passage.text, ha, line]
    rw [hshown, decode_passage hp _ (by rw [hscan, ha]), hscan]

end Session

end ReversePolish
