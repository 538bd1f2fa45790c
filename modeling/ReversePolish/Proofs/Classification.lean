import ReversePolish.Proofs.Grammar
import ReversePolish.Proofs.Postfix

/-!
# What a word means

The words of each meaning as languages. Commands and operators are words of their own, a constant is
its name in any case with one sign or none, and all else is a numeral or nothing. Constants and
numerals share the spellings of infinity alone, and there they push the same, so the tests could be
made in any order (`classify_iff`).
-/

namespace ReversePolish

open Numeral (signOf anyCase numeral splitSign)

namespace Operator

theorem ofSymbol?_eq_some_iff {w : String} {op : Operator} :
    ofSymbol? w = some op ↔ w = op.symbol := by
  constructor
  · intro h
    unfold ofSymbol? at h
    split at h <;> cases h <;> rfl
  · rintro rfl
    exact ofSymbol?_symbol op

end Operator

namespace Constant

def spelling : Constant → List Char
  | pi => ['p', 'i']
  | e => ['e']
  | ans => ['a', 'n', 's']
  | infinity => ['i', 'n', 'f', 'i', 'n', 'i', 't', 'y']

def language (name : Constant) (negate : Bool) : Language Char :=
  signOf negate * anyCase name.spelling

variable {name : Constant} {negate : Bool} {s : List Char}

theorem ofName?_eq_some_iff : ofName? (String.ofList s) = some name ↔ s = name.spelling := by
  rw [← String.ofList_inj]
  generalize String.ofList s = w
  constructor
  · intro h
    unfold ofName? at h
    split at h <;> cases h <;> rfl
  · rintro rfl
    cases name <;> rfl

/-- Names are in lower case, and without the one letter that is also lower case of another letter
outside ASCII. -/
theorem of_mem_spelling {c : Char} (h : c ∈ name.spelling) :
    97 ≤ c.toNat ∧ c.toNat < 128 ∧ c ≠ 'k' := by
  cases name <;> simp only [spelling, List.mem_cons, List.not_mem_nil, or_false] at h
  · rcases h with rfl | rfl <;> decide
  · subst h
    decide
  · rcases h with rfl | rfl | rfl <;> decide
  · rcases h with rfl | rfl | rfl | rfl | rfl | rfl | rfl | rfl <;> decide

theorem mem_language_iff :
    s ∈ name.language negate ↔
      (splitSign s).1 = negate ∧ (splitSign s).2.map Char.toLower = name.spelling := by
  apply Numeral.mem_signOf_mul
  intro t ht
  apply Numeral.splitSign_of_map_toLower ht
  cases name <;> rfl

theorem mem_of_mem_splitSign {c : Char} (h : c ∈ s) :
    c = '-' ∨ c = '+' ∨ c ∈ (splitSign s).2 := by
  unfold splitSign
  split
  · exact (List.mem_cons.mp h).imp_right Or.inr
  · exact (List.mem_cons.mp h).elim (fun h => Or.inr (Or.inl h)) fun h => Or.inr (Or.inr h)
  · exact Or.inr (Or.inr h)

theorem toNat_lt_of_mem_language (h : s ∈ name.language negate) {c : Char} (hc : c ∈ s) :
    c.toNat < 128 := by
  obtain ⟨-, hbare⟩ := mem_language_iff.mp h
  rcases mem_of_mem_splitSign hc with rfl | rfl | hc
  · decide
  · decide
  · have hlower : c.toLower ∈ name.spelling := hbare ▸ List.mem_map_of_mem hc
    exact Text.toNat_lt_of_toLower (of_mem_spelling hlower).2.1

theorem fold_eq_of_splitSign (h : (splitSign (Text.fold s)).2 = name.spelling) :
    Text.fold s = s.map Char.toLower := by
  have hout : ∀ c ∈ Text.fold s, c ≠ 'k' ∧ c ≠ '\u0307' := by
    intro c hc
    rcases mem_of_mem_splitSign hc with rfl | rfl | hc
    · decide
    · decide
    · obtain ⟨-, hascii, hk⟩ := of_mem_spelling (h ▸ hc)
      refine ⟨hk, ?_⟩
      rintro rfl
      exact absurd hascii (by decide)
  apply Text.fold_eq_map
  · exact fun hk => (hout 'k' (Text.mem_fold hk (by decide))).1 rfl
  · exact fun hdot => (hout '\u0307' (Text.mem_fold hdot (by decide))).2 rfl

theorem decimal?_of_map_toLower (h : s.map Char.toLower = name.spelling) :
    Numeral.decimal? s = none :=
  Numeral.decimal?_of_mem_anyCase (fun _ hc => (of_mem_spelling hc).1) h

/-- Of the constants only infinity is a numeral too. -/
theorem eq_infinity_of_read {n : Numeral} (h : s ∈ name.language negate)
    (hn : Numeral.read s = .ok n) : name = infinity ∧ n = ⟨negate, .infinity⟩ := by
  obtain ⟨hneg, hbare⟩ := mem_language_iff.mp h
  obtain ⟨negative, magnitude⟩ := n
  obtain ⟨hnegative, hmagnitude⟩ := Numeral.read_eq_ok_iff.mp hn
  rw [hneg] at hnegative
  rw [Numeral.magnitude?, decimal?_of_map_toLower hbare, hbare] at hmagnitude
  cases name with
  | infinity =>
    cases hnegative
    cases hmagnitude
    exact ⟨rfl, rfl⟩
  | pi => cases hmagnitude
  | e => cases hmagnitude
  | ans => cases hmagnitude

theorem value_infinity (negate : Bool) :
    Numeral.value ⟨negate, .infinity⟩ =
      if negate then -Binary64.infinity else Binary64.infinity := by
  cases negate <;> rfl

end Constant

namespace Token

theorem constant?_eq_some_iff {w : String} {name : Constant} {negate : Bool} :
    constant? w = some (.constant name negate) ↔ w.toList ∈ name.language negate := by
  have hunfold : constant? w = some (.constant name negate) ↔
      (splitSign (Text.fold w.toList)).1 = negate ∧
        (splitSign (Text.fold w.toList)).2 = name.spelling := by
    rw [← Constant.ofName?_eq_some_iff]
    simp only [constant?, Option.map_eq_some_iff, Token.constant.injEq]
    grind
  rw [hunfold, Constant.mem_language_iff]
  constructor
  · rintro ⟨hneg, hbare⟩
    rw [Constant.fold_eq_of_splitSign hbare, Numeral.splitSign_map_toLower] at hneg hbare
    exact ⟨hneg, hbare⟩
  · intro h
    have hascii : ∀ c ∈ w.toList, c.toNat < 128 := fun _ =>
      Constant.toNat_lt_of_mem_language (Constant.mem_language_iff.mpr h)
    have hfold : Text.fold w.toList = w.toList.map Char.toLower := by
      apply Text.fold_eq_map
      · exact fun hk => absurd (hascii _ hk) (by decide)
      · exact fun hdot => absurd (hascii _ hdot) (by decide)
    rw [hfold, Numeral.splitSign_map_toLower]
    exact h

variable {w : String} {t : Token}

theorem constant?_eq_none_iff :
    constant? w = none ↔ ∀ (name : Constant) (negate : Bool), w.toList ∉ name.language negate := by
  constructor
  · intro h name negate hmem
    rw [constant?_eq_some_iff.mpr hmem] at h
    cases h
  · intro h
    cases hc : constant? w with
    | none => rfl
    | some t =>
      obtain ⟨name, _, rfl⟩ := Option.map_eq_some_iff.mp hc
      exact absurd (constant?_eq_some_iff.mp hc) (h _ _)

theorem not_constant_of_command? (h : command? w = some t) :
    constant? w = none ∧ Numeral.read w.toList = .error .malformed := by
  have hall : ∀ v ∈ ["break", "exit", "quit", "bye", "clear", "*", "+", "-", "/", "^"],
      constant? v = none ∧ Numeral.read v.toList = .error .malformed := by decide
  exact hall w (mem_of_command? h)

inductive Reading (w : String) : Except Numeral.Defect Token → Prop
  | command {t : Token} (h : command? w = some t) (hc : constant? w = none)
      (hn : Numeral.read w.toList = .error .malformed) : Reading w (.ok t)
  | constant {name : Constant} {negate : Bool} (h : command? w = none)
      (hc : constant? w = some (.constant name negate)) : Reading w (.ok (.constant name negate))
  | number {n : Numeral} (h : command? w = none) (hc : constant? w = none)
      (hn : Numeral.read w.toList = .ok n) : Reading w (.ok (.number n.value))
  | rejected {defect : Numeral.Defect} (h : command? w = none) (hc : constant? w = none)
      (hn : Numeral.read w.toList = .error defect) : Reading w (.error defect)

theorem reading_classify (w : String) : Reading w (classify w) := by
  unfold classify
  cases h : command? w with
  | some t =>
    obtain ⟨hc, hn⟩ := not_constant_of_command? h
    exact .command h hc hn
  | none =>
    cases hc : constant? w with
    | some t =>
      obtain ⟨name, _, rfl⟩ := Option.map_eq_some_iff.mp hc
      exact .constant h hc
    | none =>
      cases hn : Numeral.read w.toList with
      | ok n => exact .number h hc hn
      | error defect => exact .rejected h hc hn

theorem cases_of_command? (h : command? w = some t) :
    t = .terminate ∨ t = .clear ∨ ∃ op, t = .operator op := by
  unfold command? at h
  split at h
  · cases h; exact Or.inl rfl
  · cases h; exact Or.inl rfl
  · cases h; exact Or.inl rfl
  · cases h; exact Or.inl rfl
  · cases h; exact Or.inr (Or.inl rfl)
  · obtain ⟨op, _, rfl⟩ := Option.map_eq_some_iff.mp h
    exact Or.inr (Or.inr ⟨op, rfl⟩)

theorem command?_eq_operator_iff {op : Operator} :
    command? w = some (.operator op) ↔ w = op.symbol := by
  constructor
  · intro h
    unfold command? at h
    split at h
    · cases h
    · cases h
    · cases h
    · cases h
    · cases h
    · obtain ⟨op', hop, heq⟩ := Option.map_eq_some_iff.mp h
      cases heq
      exact Operator.ofSymbol?_eq_some_iff.mp hop
  · rintro rfl
    cases op <;> rfl

theorem classify_eq_operator_iff {op : Operator} :
    classify w = .ok (.operator op) ↔ w = op.symbol := by
  rw [← command?_eq_operator_iff]
  exact ⟨fun h => command?_of_classify h nofun nofun, classify_of_command?⟩

theorem classify_eq_constant_iff {name : Constant} {negate : Bool} :
    classify w = .ok (.constant name negate) ↔ w.toList ∈ name.language negate := by
  rw [← constant?_eq_some_iff]
  have hr := reading_classify w
  generalize classify w = r at hr ⊢
  cases hr with
  | command h hc hn =>
    rcases cases_of_command? h with rfl | rfl | ⟨op, rfl⟩ <;> simp [hc]
  | constant h hc => simp [hc]
  | number h hc hn => simp [hc]
  | rejected h hc hn => simp [hc]

theorem classify_eq_number_iff {v : Float} :
    classify w = .ok (.number v) ↔
      constant? w = none ∧ ∃ n, Numeral.read w.toList = .ok n ∧ n.value = v := by
  have hr := reading_classify w
  generalize classify w = r at hr ⊢
  cases hr with
  | command h hc hn =>
    rcases cases_of_command? h with rfl | rfl | ⟨op, rfl⟩ <;> simp [hn]
  | constant h hc => simp [hc]
  | number h hc hn => simp [hc, hn]
  | rejected h hc hn => simp [hn]

theorem classify_eq_error_iff {defect : Numeral.Defect} :
    classify w = .error defect ↔
      command? w = none ∧ constant? w = none ∧ Numeral.read w.toList = .error defect := by
  have hr := reading_classify w
  generalize classify w = r at hr ⊢
  cases hr with
  | command h hc hn => simp [h]
  | constant h hc => simp [hc]
  | number h hc hn => simp [hn]
  | rejected h hc hn => simp [h, hc, hn]

theorem command?_eq_none_iff :
    command? w = none ↔ w ∉ terminators ∧ w ≠ "clear" ∧ ∀ op : Operator, w ≠ op.symbol := by
  simp only [Ne, ← command?_eq_terminate_iff, ← command?_eq_clear_iff, ← command?_eq_operator_iff]
  constructor
  · intro h
    simp [h]
  · rintro ⟨hterminate, hclear, hoperator⟩
    cases h : command? w with
    | none => rfl
    | some t =>
      rcases cases_of_command? h with rfl | rfl | ⟨op, rfl⟩
      · exact absurd h hterminate
      · exact absurd h hclear
      · exact absurd h (hoperator op)

def Meaningless (w : String) : Prop :=
  w ∉ terminators ∧ w ≠ "clear" ∧ (∀ op : Operator, w ≠ op.symbol) ∧
    (∀ (name : Constant) (negate : Bool), w.toList ∉ name.language negate) ∧ w.toList ∉ numeral

theorem read_eq_error_iff_not_mem {defect : Numeral.Defect} :
    Numeral.read w.toList = .error defect ↔
      w.toList ∉ numeral ∧ defect = if w = "" then .empty else .malformed := by
  simp only [Numeral.mem_numeral_iff, ← String.toList_eq_nil_iff]
  constructor
  · intro h
    refine ⟨?_, (Numeral.read_eq_error_iff.mp h).2⟩
    rintro ⟨n, hn⟩
    rw [h] at hn
    cases hn
  · rintro ⟨hno, hdefect⟩
    cases h : Numeral.read w.toList with
    | ok n => exact absurd ⟨n, h⟩ hno
    | error defect' => rw [hdefect, (Numeral.read_eq_error_iff.mp h).2]

theorem classify_eq_error_iff_meaningless {defect : Numeral.Defect} :
    classify w = .error defect ↔
      Meaningless w ∧ defect = if w = "" then .empty else .malformed := by
  rw [classify_eq_error_iff, command?_eq_none_iff, constant?_eq_none_iff, read_eq_error_iff_not_mem,
    Meaningless]
  tauto

section Order

def control? (w : String) : Option Token :=
  if w ∈ terminators then some .terminate else if w = "clear" then some .clear else none

def operator? (w : String) : Option Token := (Operator.ofSymbol? w).map .operator

def number? (w : String) : Option Token :=
  (Numeral.read w.toList).toOption.map fun n => .number n.value

/-- The tests of a word, in the order in which it is put to them. -/
def tests : List (String → Option Token) := [control?, operator?, constant?, number?]

theorem command?_of_control? (h : control? w = some t) : command? w = some t := by
  unfold control? at h
  split at h
  · cases h
    exact command?_eq_terminate_iff.mpr ‹_›
  · split at h
    · cases h
      exact command?_eq_clear_iff.mpr ‹_›
    · cases h

theorem command?_of_operator? (h : operator? w = some t) : command? w = some t := by
  obtain ⟨op, hop, rfl⟩ := Option.map_eq_some_iff.mp h
  exact command?_eq_operator_iff.mpr (Operator.ofSymbol?_eq_some_iff.mp hop)

theorem control?_or_operator? (w : String) : (control? w).or (operator? w) = command? w := by
  cases h : command? w with
  | none =>
    obtain ⟨hterminate, hclear, -⟩ := command?_eq_none_iff.mp h
    cases hop : operator? w with
    | none => simp [control?, hterminate, hclear]
    | some t =>
      rw [command?_of_operator? hop] at h
      cases h
  | some t =>
    rcases cases_of_command? h with rfl | rfl | ⟨op, rfl⟩
    · simp [control?, command?_eq_terminate_iff.mp h]
    · rw [command?_eq_clear_iff.mp h]
      rfl
    · rw [command?_eq_operator_iff.mp h]
      cases op <;> rfl

theorem findSome?_tests (w : String) : tests.findSome? (· w) = (classify w).toOption := by
  have hor : tests.findSome? (· w) =
      ((control? w).or (operator? w)).or ((constant? w).or (number? w)) := by
    simp only [tests, List.findSome?_cons, List.findSome?_nil]
    cases control? w <;> cases operator? w <;> cases constant? w <;> cases number? w <;> rfl
  rw [hor, control?_or_operator?]
  have hr := reading_classify w
  generalize classify w = r at hr ⊢
  cases hr with
  | command h hc hn => simp [h, Except.toOption]
  | constant h hc => simp [h, hc, Except.toOption]
  | number h hc hn => simp [h, hc, number?, hn, Except.toOption]
  | rejected h hc hn => simp [h, hc, number?, hn, Except.toOption]

theorem classify_of_test {test : String → Option Token} (htest : test ∈ tests)
    (h : test w = some t) :
    classify w = .ok t ∨ ∃ negate, w.toList ∈ Constant.infinity.language negate ∧
      t = .number (if negate then -Binary64.infinity else Binary64.infinity) := by
  simp only [tests, List.mem_cons, List.not_mem_nil, or_false] at htest
  rcases htest with rfl | rfl | rfl | rfl
  · exact Or.inl (classify_of_command? (command?_of_control? h))
  · exact Or.inl (classify_of_command? (command?_of_operator? h))
  · obtain ⟨name, _, rfl⟩ := Option.map_eq_some_iff.mp h
    exact Or.inl (classify_eq_constant_iff.mpr (constant?_eq_some_iff.mp h))
  · obtain ⟨n, hn, rfl⟩ := Option.map_eq_some_iff.mp h
    have hread : Numeral.read w.toList = .ok n := by
      cases hr : Numeral.read w.toList with
      | ok n' =>
        rw [hr] at hn
        cases hn
        rfl
      | error defect =>
        rw [hr] at hn
        cases hn
    cases hc : constant? w with
    | none => exact Or.inl (classify_eq_number_iff.mpr ⟨hc, n, hread, rfl⟩)
    | some t =>
      obtain ⟨name, _, rfl⟩ := Option.map_eq_some_iff.mp hc
      have hmem := constant?_eq_some_iff.mp hc
      obtain ⟨rfl, rfl⟩ := Constant.eq_infinity_of_read hmem hread
      exact Or.inr ⟨_, hmem, congrArg _ (Constant.value_infinity _)⟩

theorem findSome?_of_perm {order : List (String → Option Token)} (h : order.Perm tests) :
    order.findSome? (· w) = (classify w).toOption ∨
      ∃ negate, w.toList ∈ Constant.infinity.language negate ∧
        order.findSome? (· w) =
          some (.number (if negate then -Binary64.infinity else Binary64.infinity)) := by
  cases ho : order.findSome? (· w) with
  | none =>
    have hnone := List.findSome?_eq_none_iff.mp ho
    refine Or.inl ?_
    rw [← findSome?_tests, eq_comm, List.findSome?_eq_none_iff]
    exact fun test htest => hnone test (h.mem_iff.mpr htest)
  | some t =>
    obtain ⟨test, htest, ht⟩ := List.exists_of_findSome?_eq_some ho
    rcases classify_of_test (h.mem_iff.mp htest) ht with hok | ⟨negate, hmem, rfl⟩
    · rw [hok]
      exact Or.inl rfl
    · exact Or.inr ⟨negate, hmem, rfl⟩

theorem effect?_of_perm {order : List (String → Option Token)} (h : order.Perm tests)
    (m : Machine) (w : String) :
    (order.findSome? (· w)).map m.effect? = (classify w).toOption.map m.effect? := by
  rcases findSome?_of_perm (w := w) h with ho | ⟨negate, hmem, ho⟩
  · rw [ho]
  · rw [ho, classify_eq_constant_iff.mpr hmem]
    rfl

end Order

end Token

namespace Machine

open Token (classify Meaningless)

variable {m : Machine} {w : String} {r : Rejection}

theorem Does.of_rejected {st : Step} (h : m.Does w st)
    (hr : Entry.error r ∈ st.trace ∨ Message.rejected r ∈ st.journal) :
    r.word = w ∧ classify w = .error r.defect := by
  cases h with
  | reject hw =>
    obtain rfl : r = ⟨w, _⟩ := by simpa using hr
    exact ⟨rfl, hw⟩
  | clear => simp at hr
  | apply => simp at hr
  | push => simp at hr

theorem rejected_of_run {ws : List String}
    (h : Entry.error r ∈ (m.run ws).trace ∨ Message.rejected r ∈ (m.run ws).journal) :
    r.word ∈ ws ∧ classify r.word = .error r.defect := by
  have hstep : ∃ n : Machine, ∃ w ∈ ws, w ∉ terminators ∧
      (Entry.error r ∈ (n.step w).trace ∨ Message.rejected r ∈ (n.step w).journal) := by
    rcases h with h | h
    · obtain ⟨n, w, hws, hw, hmem⟩ := m.exists_step_of_mem_trace h
      exact ⟨n, w, hws, hw, Or.inl hmem⟩
    · rcases m.exists_step_of_mem_journal h with ⟨n, w, hws, hw, hmem⟩ | ⟨w, -, -, hmsg⟩
      · exact ⟨n, w, hws, hw, Or.inr hmem⟩
      · simp at hmsg
  obtain ⟨n, w, hws, hw, hmem⟩ := hstep
  obtain ⟨rfl, hr⟩ := (does_step hw).of_rejected hmem
  exact ⟨hws, hr⟩

theorem ne_empty_of_mem_wordsOf {p : String} (h : w ∈ wordsOf p) : w ≠ "" := by
  obtain ⟨s, hs, rfl⟩ := List.mem_map.mp h
  obtain ⟨hne, -⟩ := Text.mem_words hs
  simpa using hne

theorem rejected_of_eval {p : String}
    (h : Entry.error r ∈ (m.eval p).trace ∨ Message.rejected r ∈ (m.eval p).journal) :
    r.word ∈ wordsOf p ∧ Meaningless r.word ∧ r.defect = .malformed := by
  obtain ⟨hmem, hr⟩ := rejected_of_run h
  -- no word of a phrase is empty, so none is rejected for that
  obtain ⟨hno, hdefect⟩ := Token.classify_eq_error_iff_meaningless.mp hr
  rw [if_neg (ne_empty_of_mem_wordsOf hmem)] at hdefect
  exact ⟨hmem, hno, hdefect⟩

theorem eval_of_meaningless (hw : Text.IsWord w.toList) (h : Meaningless w) (m : Machine) :
    m.eval w =
      ⟨m, [.error ⟨w, .malformed⟩], .proceed m.answer, [.rejected ⟨w, .malformed⟩]⟩ := by
  have hwords : m.eval w = m.run [w] := congrArg m.run (wordsOf_of_word hw.1 hw.2)
  have hne : w ≠ "" := by
    rintro rfl
    exact hw.1 rfl
  have hr : classify w = .error .malformed := by
    rw [Token.classify_eq_error_iff_meaningless, if_neg hne]
    exact ⟨h, rfl⟩
  rw [hwords, run_cons h.1, step_of_error hr]
  rfl

end Machine

namespace Token

/-- A text means what the language says that it is in, and is rejected if it is in none. A rejected
word is recorded as it is spelled and changes nothing, and no word is rejected as empty. The tests
of a word could be made in any order: only infinity passes two, and as either it pushes the same. -/
theorem classify_iff (w : String) :
    (classify w = .ok .terminate ↔ w ∈ ["break", "exit", "quit", "bye"]) ∧
    (classify w = .ok .clear ↔ w = "clear") ∧
    (∀ op, classify w = .ok (.operator op) ↔ w = op.symbol) ∧
    (∀ name negate, classify w = .ok (.constant name negate) ↔
      w.toList ∈ Constant.language name negate) ∧
    (∀ name negate, w.toList ∈ Constant.language name negate → ∀ c ∈ w.toList, c.toNat < 128) ∧
    ((∃ v, classify w = .ok (.number v)) ↔
      w.toList ∈ numeral ∧ ∀ name negate, w.toList ∉ Constant.language name negate) ∧
    (∀ defect, classify w = .error defect ↔
      Meaningless w ∧ defect = if w = "" then .empty else .malformed) ∧
    Numeral.Defect.malformed.text = "invalid float literal" ∧
    (Text.IsWord w.toList → Meaningless w → ∀ m : Machine, m.eval w =
      ⟨m, [.error ⟨w, .malformed⟩], .proceed m.answer, [.rejected ⟨w, .malformed⟩]⟩) ∧
    (∀ (m : Machine) (p : String) (r : Rejection),
      Entry.error r ∈ (m.eval p).trace ∨ Message.rejected r ∈ (m.eval p).journal →
        r.word ∈ wordsOf p ∧ Meaningless r.word ∧ r.defect = .malformed) ∧
    (∀ test ∈ tests, ∀ t, test w = some t →
      classify w = .ok t ∨ ∃ negate, w.toList ∈ Constant.infinity.language negate ∧
        t = .number (if negate then -Binary64.infinity else Binary64.infinity)) ∧
    tests.findSome? (· w) = (classify w).toOption ∧
    ∀ (order : List (String → Option Token)), order.Perm tests → ∀ m : Machine,
      (order.findSome? (· w)).map m.effect? = (classify w).toOption.map m.effect? := by
  have hnumber : (∃ v, classify w = .ok (.number v)) ↔
      w.toList ∈ numeral ∧ ∀ name negate, w.toList ∉ Constant.language name negate := by
    rw [Numeral.mem_numeral_iff, ← constant?_eq_none_iff]
    simp only [classify_eq_number_iff]
    constructor
    · rintro ⟨v, hc, n, hn, -⟩
      exact ⟨⟨n, hn⟩, hc⟩
    · rintro ⟨⟨n, hn⟩, hc⟩
      exact ⟨n.value, hc, n, hn, rfl⟩
  exact ⟨classify_eq_terminate_iff, classify_eq_clear_iff, fun _ => classify_eq_operator_iff,
    fun _ _ => classify_eq_constant_iff, fun _ _ h _ => Constant.toNat_lt_of_mem_language h,
    hnumber, fun _ => classify_eq_error_iff_meaningless, rfl,
    fun hw h m => m.eval_of_meaningless hw h, fun _ _ _ => Machine.rejected_of_eval,
    fun _ htest _ => classify_of_test htest, findSome?_tests w,
    fun _ h m => effect?_of_perm h m w⟩

-- one sign is taken off and no more, and an exponent needs a digit in front of it
example : classify "-PI" = .ok (.constant .pi true) ∧ classify "--pi" = .error .malformed ∧
    classify "+.e1" = .error .malformed := ⟨rfl, rfl, rfl⟩

end Token

end ReversePolish
