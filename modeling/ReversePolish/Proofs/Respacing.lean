import ReversePolish.Proofs.Agreement
import ReversePolish.Proofs.Spacing

/-!
# White space and line ends

A session hears of each line the words that its backspaces leave, and nothing else of it reaches an
answer, the log or the exit code (`Program.run_congr`). Without backspaces these are the words of
the line, so the white space between and around them may be of any kind and amount. A backspace
takes white space away as it takes letters, so in front of one the number of blanks can tell how
words are joined; but what stands behind the last backspace of a line stays, and with it the freedom
to end the line with any white space.
-/

namespace ReversePolish

namespace Text

def Blank (s : List Char) : Prop := ∀ c ∈ s, isBlank c = true

instance (s : List Char) : Decidable (Blank s) :=
  decidable_of_iff (s.all isBlank) (by simp [Blank])

theorem words_of_blank {s : List Char} (h : Blank s) : words s = [] := by
  induction s with
  | nil => rfl
  | cons c s ih =>
    obtain ⟨hc, hs⟩ := List.forall_mem_cons.mp h
    rw [words_blank hc, ih hs]

theorem words_append_of_blank (s : List Char) {t : List Char} (h : Blank t) :
    words (s ++ t) = words s := by
  cases t with
  | nil => rw [List.append_nil]
  | cons c t =>
    obtain ⟨hc, ht⟩ := List.forall_mem_cons.mp h
    rw [words_append_blank s hc, words_of_blank ht, List.append_nil]

theorem words_erase?_append (s : List Char) {t : List Char} (h : Blank t) :
    (erase? (s ++ t)).map words = (erase? s).map words := by
  have hno : backspace ∉ t := fun hmem => absurd (h _ hmem) (by decide)
  have hwords : (fun u => words (u ++ t)) = words := funext fun u => words_append_of_blank u h
  rw [erase?_append hno, Option.map_map, Function.comp_def, hwords]

theorem exists_blank_chomp (l : List Char) : ∃ t, Blank t ∧ l = chomp l ++ t := by
  fun_induction chomp l with
  | case1 => exact ⟨[], by decide, rfl⟩
  | case2 => exact ⟨['\n'], by decide, rfl⟩
  | case3 => exact ⟨['\r', '\n'], by decide, rfl⟩
  | case4 c s _ _ ih =>
    obtain ⟨t, ht, hs⟩ := ih
    exact ⟨t, ht, congrArg (c :: ·) hs⟩

theorem words_erase?_chomp (l : List Char) :
    (erase? (chomp l)).map words = (erase? l).map words := by
  obtain ⟨t, ht, hl⟩ := exists_blank_chomp l
  rw [← words_erase?_append (chomp l) ht, ← hl]

def crlf (s : List Char) : List Char := s.flatMap fun c => if c = '\n' then ['\r', '\n'] else [c]

theorem crlf_eq_self {s : List Char} (h : ∀ c ∈ s, (c == '\n') = false) : crlf s = s := by
  induction s with
  | nil => rfl
  | cons c s ih =>
    obtain ⟨hc, hs⟩ := List.forall_mem_cons.mp h
    rw [crlf, List.flatMap_cons, if_neg (ne_of_beq_false hc), ← crlf, ih hs]
    rfl

theorem crlf_line {s : List Char} (h : ∀ c ∈ s, (c == '\n') = false) (t : List Char) :
    crlf (s ++ '\n' :: t) = s ++ ['\r'] ++ '\n' :: crlf t := by
  rw [crlf, List.flatMap_append, ← crlf, crlf_eq_self h]
  simp [crlf]

end Text

namespace Session

open Text (linesOf)

/-- The words that a session hears of a line, if its backspaces can be applied. -/
def wordsOfLine? (l : List Char) : Option (List String) :=
  (phrase? (String.ofList l)).map wordsOf

def wordsOfLines (s : String) : List (Option (List String)) := (linesOf s).map wordsOfLine?

theorem wordsOfLine?_eq (l : List Char) :
    wordsOfLine? l = ((Text.erase? l).map Text.words).map (List.map String.ofList) := by
  have hwords : wordsOf ∘ String.ofList = List.map String.ofList ∘ Text.words := by
    funext s
    rw [Function.comp_apply, Function.comp_apply, wordsOf, String.toList_ofList]
  rw [wordsOfLine?, phrase?, String.toList_ofList, Option.map_map, hwords,
    ← Option.map_map, Text.words_erase?_chomp]

theorem wordsOfLine?_of_not_mem {l : List Char} (h : Text.backspace ∉ l) :
    wordsOfLine? l = some ((Text.words l).map String.ofList) := by
  rw [wordsOfLine?_eq, Text.erase?_eq_some_self h]
  rfl

theorem wordsOfLine?_of_spaced {ws : List (List Char)} {l : List Char} (hl : Text.Spaced ws l)
    (hws : ∀ w ∈ ws, Text.IsWord w) (h : Text.backspace ∉ l) :
    wordsOfLine? l = some (ws.map String.ofList) := by
  rw [wordsOfLine?_of_not_mem h, Text.words_of_spaced hl hws]

theorem wordsOfLine?_append (l : List Char) {t : List Char} (h : Text.Blank t) :
    wordsOfLine? (l ++ t) = wordsOfLine? l := by
  rw [wordsOfLine?_eq, wordsOfLine?_eq, Text.words_erase?_append l h]

theorem map_wordsOf_phrases? (s : String) :
    (phrases? s).map (Option.map wordsOf) = wordsOfLines s := by
  rw [phrases?, List.map_map, wordsOfLines]
  apply List.map_congr_left
  intro l _
  rw [Function.comp_apply, wordsOfLine?]

theorem converse_congr (last : Ending) (m : Machine) {ps qs : List String}
    (h : ps.map wordsOf = qs.map wordsOf) : converse last m ps = converse last m qs := by
  induction ps generalizing m qs with
  | nil => rw [List.map_eq_nil_iff.mp h.symm]
  | cons p ps ih =>
    obtain ⟨q, qs, rfl, hq, hqs⟩ := List.map_eq_cons_iff.mp h.symm
    have heval : m.eval p = m.eval q := by
      rw [Machine.eval_eq_run, Machine.eval_eq_run, hq]
    rw [converse, converse, heval, ih _ hqs.symm]

theorem run_congr (m : Machine) {s t : String} (h : wordsOfLines s = wordsOfLines t) :
    run m (Text.lines (Text.utf8 s)) = run m (Text.lines (Text.utf8 t)) := by
  have hlimit : ∀ u, limit (phrases? u) = limit (wordsOfLines u) := by
    intro u
    rw [← map_wordsOf_phrases?, limit_map]
  have hwords : ∀ u, (phrases u).map wordsOf = leading (wordsOfLines u) := by
    intro u
    rw [← map_wordsOf_phrases?, leading_map, phrases]
  rw [run_utf8, run_utf8, hlimit, hlimit, h]
  apply converse_congr
  rw [hwords, hwords, h]

theorem wordsOfLines_crlf (s : String) :
    wordsOfLines (String.ofList (Text.crlf s.toList)) = wordsOfLines s := by
  rw [wordsOfLines, wordsOfLines, linesOf, linesOf, String.toList_ofList]
  induction s.toList using Text.lines_induction (· == '\n') with
  | nil => rfl
  | rest a ha _ => rw [Text.crlf_eq_self ha]
  | line a c b ha hc ih =>
    obtain rfl := eq_of_beq hc
    have har : ∀ x ∈ a ++ ['\r'], (x == '\n') = false := by
      intro x hx
      rcases List.mem_append.mp hx with hx | hx
      · exact ha x hx
      · rw [List.mem_singleton.mp hx]
        rfl
    rw [Text.crlf_line ha, Text.cutAfter_line har hc, Text.cutAfter_line ha hc, List.map_cons,
      List.map_cons, ih, List.append_assoc, wordsOfLine?_append a (by decide),
      wordsOfLine?_append a (by decide)]

theorem wordsOfLines_append_lineFeed {s : String} {c : Char} (hlast : s.toList.getLast? = some c)
    (hc : c ≠ '\n') : wordsOfLines (s ++ "\n") = wordsOfLines s := by
  rw [wordsOfLines, wordsOfLines, linesOf, linesOf, String.toList_append]
  generalize s.toList = l at hlast
  induction l using Text.lines_induction (· == '\n') with
  | nil => cases hlast
  | rest a ha hne =>
    have hcut : Text.cutAfter (· == '\n') (a ++ "\n".toList) = [a ++ ['\n']] :=
      Text.cutAfter_line ha rfl []
    rw [hcut, Text.cutAfter_rest ha hne, List.map_singleton, List.map_singleton,
      wordsOfLine?_append a (by decide)]
  | line a x b ha hx ih =>
    have hb : b.getLast? = some c := by
      cases b with
      | nil =>
        rw [List.getLast?_concat] at hlast
        cases hlast
        exact absurd (eq_of_beq hx) hc
      | cons y b => simpa using hlast
    rw [List.append_assoc, List.cons_append, Text.cutAfter_line ha hx, Text.cutAfter_line ha hx,
      List.map_cons, List.map_cons, ih hb]

end Session

namespace Program

open Session (wordsOfLine? wordsOfLines)

theorem run_congr (counts : List Nat) (setting : LogSetting) {s t : String}
    (h : wordsOfLines s = wordsOfLines t) :
    run (Request.verbosityFlags counts) setting.text (Text.utf8 s) =
      run (Request.verbosityFlags counts) setting.text (Text.utf8 t) := by
  rw [run_setting, run_setting, Session.run_congr .empty h]

/-- A run goes by the words that are heard of each line, and by nothing else of its input. They are
the words of the line as it stands, however they are spaced, if it holds no backspaces; and with
backspaces or without, the white space at its end and the way it ends count for nothing. -/
theorem run_of_respaced (counts : List Nat) (setting : LogSetting) :
    let session (s : String) := run (Request.verbosityFlags counts) setting.text (Text.utf8 s)
    (∀ s t, wordsOfLines s = wordsOfLines t → session s = session t) ∧
    (∀ l, Text.backspace ∉ l → wordsOfLine? l = some ((Text.words l).map String.ofList)) ∧
    (∀ ws l, Text.Spaced ws l → (∀ w ∈ ws, Text.IsWord w) → Text.backspace ∉ l →
      wordsOfLine? l = some (ws.map String.ofList)) ∧
    (∀ l t, Text.Blank t → wordsOfLine? (l ++ t) = wordsOfLine? l) ∧
    (∀ s, session (String.ofList (Text.crlf s.toList)) = session s) ∧
    ∀ s c, s.toList.getLast? = some c → c ≠ '\n' → session (s ++ "\n") = session s := by
  intro session
  refine ⟨?_, ?_, ?_, ?_, ?_, ?_⟩
  · exact fun s t => run_congr counts setting
  · exact fun l => Session.wordsOfLine?_of_not_mem
  · exact fun ws l => Session.wordsOfLine?_of_spaced
  · exact fun l t => Session.wordsOfLine?_append l
  · exact fun s => run_congr counts setting (Session.wordsOfLines_crlf s)
  · intro s c hlast hc
    exact run_congr counts setting (Session.wordsOfLines_append_lineFeed hlast hc)

theorem run_of_respaced_sum :
    let plain := "3 4\n+"
    let spaced := "\t3\u00a0\u20284 \r\n\u3000 +\r"
    let session (s : String) := run (Request.verbosityFlags []) none (Text.utf8 s)
    wordsOfLines spaced = wordsOfLines plain ∧ session spaced = session plain ∧
    session (plain ++ "\n") = session plain := by
  intro plain spaced session
  obtain ⟨hrun, -, -, -, -, hlast⟩ := run_of_respaced [] .unset
  have hwords : wordsOfLines spaced = wordsOfLines plain := by decide +kernel
  exact ⟨hwords, hrun spaced plain hwords, hlast plain '+' (by decide) (by decide)⟩

/-- A backspace takes one blank and leaves the next. -/
theorem stdout_tells_blanks :
    let one := "3 \x084\n"
    let two := "3  \x084\n"
    (Text.linesOf one).map Text.words = (Text.linesOf two).map Text.words ∧
    (run (Request.verbosityFlags []) none (Text.utf8 one)).stdout ≠
      (run (Request.verbosityFlags []) none (Text.utf8 two)).stdout := by
  intro one two
  refine ⟨by decide, ?_⟩
  have hstdout : ∀ s, (run (Request.verbosityFlags []) none (Text.utf8 s)).stdout =
      (Session.converse (Session.limit (Session.phrases? s)) .empty (Session.phrases s)).text := by
    intro s
    rw [run_verbosityFlags, Session.run_utf8]
    rfl
  rw [hstdout, hstdout]
  decide +kernel

end Program

end ReversePolish
