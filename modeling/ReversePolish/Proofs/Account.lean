import ReversePolish.Proofs.Classification
import ReversePolish.Proofs.Concatenation

/-!
# The account of a run

What the words of a phrase do can be told over the operands alone, word by word: a clearing empties
them, a value goes on top, an operator puts its result in the place of the two on top, of which a
missing one reads as zero, and a rejected word changes nothing. `Account` ties this reading to a
list of entries, one for each word but the clearings. The trace of a run is the only list of entries
with an account of its words, and that account ends at the operands that the run left.
-/

namespace ReversePolish

def Constant.valueAbove (s : List Float) : Constant → Float
  | pi => Binary64.pi
  | e => Binary64.e
  | ans => s.getLast?.getD Binary64.zero
  | infinity => Binary64.infinity

inductive Denotes (s : List Float) (w : String) : Float → Prop
  | number {v : Float} (h : Token.classify w = .ok (.number v)) : Denotes s w v
  | constant {name : Constant} {negate : Bool}
      (h : Token.classify w = .ok (.constant name negate)) :
      Denotes s w (if negate then -name.valueAbove s else name.valueAbove s)

inductive Operator.Gives (lhs rhs : Float) : Operator → Float → Prop
  | multiply : Gives lhs rhs .multiply (lhs * rhs)
  | add : Gives lhs rhs .add (lhs + rhs)
  | subtract : Gives lhs rhs .subtract (lhs - rhs)
  | divide : Gives lhs rhs .divide (lhs / rhs)
  | power : Gives lhs rhs .power (Float.pow lhs rhs)

/-- Above the first operands, the words leave the entries and lead to the last operands. -/
inductive Account : List Float → List String → List Entry → List Float → Prop
  | nil (s : List Float) : Account s [] [] s
  | clear {s t : List Float} {w : String} {ws : List String} {es : List Entry}
      (hw : w = "clear") (h : Account [] ws es t) : Account s (w :: ws) es t
  | push {s t : List Float} {w : String} {ws : List String} {es : List Entry} {v : Float}
      (hw : Denotes s w v) (h : Account (s ++ [v]) ws es t) : Account s (w :: ws) (.push v :: es) t
  | apply {s t : List Float} {w : String} {ws : List String} {es : List Entry} {op : Operator}
      {lhs rhs x : Float} (hw : w = op.symbol) (hrhs : rhs = s.getLast?.getD Binary64.zero)
      (hlhs : lhs = s.dropLast.getLast?.getD Binary64.zero) (hx : op.Gives lhs rhs x)
      (h : Account (s.dropLast.dropLast ++ [x]) ws es t) :
      Account s (w :: ws) (.apply lhs op rhs x :: es) t
  | error {s t : List Float} {w : String} {ws : List String} {es : List Entry}
      {defect : Numeral.Defect} (hw : Token.classify w = .error defect) (h : Account s ws es t) :
      Account s (w :: ws) (.error ⟨w, defect⟩ :: es) t

variable {s t : List Float} {w : String} {ws us vs : List String} {es : List Entry}

theorem gives_iff {op : Operator} {lhs rhs x : Float} :
    op.Gives lhs rhs x ↔ x = op.apply lhs rhs := by
  constructor
  · intro h
    cases h <;> rfl
  · rintro rfl
    cases op with
    | multiply => exact .multiply
    | add => exact .add
    | subtract => exact .subtract
    | divide => exact .divide
    | power => exact .power

theorem denotes_iff {v : Float} :
    Denotes s w v ↔ Token.classify w = .ok (.number v) ∨
      ∃ name negate, Token.classify w = .ok (.constant name negate) ∧
        v = if negate then -name.valueAbove s else name.valueAbove s := by
  constructor
  · intro h
    cases h with
    | number h => exact Or.inl h
    | constant h => exact Or.inr ⟨_, _, h, rfl⟩
  · rintro (h | ⟨name, negate, h, rfl⟩)
    · exact .number h
    · exact .constant h

/-- What a word does is decided by what it means. -/
theorem account_cons_iff :
    Account s (w :: ws) es t ↔
      match Token.classify w with
      | .ok .terminate => False
      | .ok .clear => Account [] ws es t
      | .ok (.operator op) =>
        let rhs := s.getLast?.getD Binary64.zero
        let lhs := s.dropLast.getLast?.getD Binary64.zero
        ∃ rest, es = .apply lhs op rhs (op.apply lhs rhs) :: rest ∧
          Account (s.dropLast.dropLast ++ [op.apply lhs rhs]) ws rest t
      | .ok (.constant name negate) =>
        let v := if negate then -name.valueAbove s else name.valueAbove s
        ∃ rest, es = .push v :: rest ∧ Account (s ++ [v]) ws rest t
      | .ok (.number v) => ∃ rest, es = .push v :: rest ∧ Account (s ++ [v]) ws rest t
      | .error defect => ∃ rest, es = .error ⟨w, defect⟩ :: rest ∧ Account s ws rest t := by
  constructor
  · intro h
    cases h with
    | clear hw h =>
      rw [classify_eq_clear_iff.mpr hw]
      exact h
    | push hw h =>
      rcases denotes_iff.mp hw with ht | ⟨name, negate, ht, rfl⟩
      · rw [ht]
        exact ⟨_, rfl, h⟩
      · rw [ht]
        exact ⟨_, rfl, h⟩
    | apply hw hrhs hlhs hx h =>
      obtain rfl := gives_iff.mp hx
      subst hw hrhs hlhs
      rw [classify_symbol]
      exact ⟨_, rfl, h⟩
    | error hw h =>
      rw [hw]
      exact ⟨_, rfl, h⟩
  · intro h
    cases hw : Token.classify w with
    | error defect =>
      rw [hw] at h
      obtain ⟨rest, rfl, h⟩ := h
      exact .error hw h
    | ok token =>
      rw [hw] at h
      cases token with
      | terminate => exact h.elim
      | clear => exact .clear (classify_eq_clear_iff.mp hw) h
      | operator op =>
        obtain ⟨rest, rfl, h⟩ := h
        exact .apply (Token.classify_eq_operator_iff.mp hw) rfl rfl (gives_iff.mpr rfl) h
      | constant name negate =>
        obtain ⟨rest, rfl, h⟩ := h
        exact .push (.constant hw) h
      | number v =>
        obtain ⟨rest, rfl, h⟩ := h
        exact .push (.number hw) h

namespace Account

theorem unique {es' : List Entry} {t' : List Float} (h : Account s ws es t)
    (h' : Account s ws es' t') : es = es' ∧ t = t' := by
  induction ws generalizing s es es' with
  | nil =>
    cases h
    cases h'
    exact ⟨rfl, rfl⟩
  | cons w ws ih =>
    rw [account_cons_iff] at h h'
    cases hw : Token.classify w with
    | error defect =>
      rw [hw] at h h'
      obtain ⟨rest, rfl, h⟩ := h
      obtain ⟨rest', rfl, h'⟩ := h'
      exact (ih h h').imp_left (congrArg _)
    | ok token =>
      rw [hw] at h h'
      cases token with
      | terminate => exact h.elim
      | clear => exact ih h h'
      | operator op =>
        obtain ⟨rest, rfl, h⟩ := h
        obtain ⟨rest', rfl, h'⟩ := h'
        exact (ih h h').imp_left (congrArg _)
      | constant name negate =>
        obtain ⟨rest, rfl, h⟩ := h
        obtain ⟨rest', rfl, h'⟩ := h'
        exact (ih h h').imp_left (congrArg _)
      | number v =>
        obtain ⟨rest, rfl, h⟩ := h
        obtain ⟨rest', rfl, h'⟩ := h'
        exact (ih h h').imp_left (congrArg _)

theorem exists_of_append (h : Account s (us ++ vs) es t) :
    ∃ early late mid, es = early ++ late ∧ Account s us early mid ∧ Account mid vs late t := by
  induction us generalizing s es with
  | nil => exact ⟨[], es, s, rfl, .nil s, h⟩
  | cons u us ih =>
    cases h with
    | clear hw h =>
      obtain ⟨early, late, mid, rfl, hu, hv⟩ := ih h
      exact ⟨early, late, mid, rfl, .clear hw hu, hv⟩
    | push hw h =>
      obtain ⟨early, late, mid, rfl, hu, hv⟩ := ih h
      exact ⟨_ :: early, late, mid, rfl, .push hw hu, hv⟩
    | apply hw hrhs hlhs hx h =>
      obtain ⟨early, late, mid, rfl, hu, hv⟩ := ih h
      exact ⟨_ :: early, late, mid, rfl, .apply hw hrhs hlhs hx hu, hv⟩
    | error hw h =>
      obtain ⟨early, late, mid, rfl, hu, hv⟩ := ih h
      exact ⟨_ :: early, late, mid, rfl, .error hw hu, hv⟩

theorem of_cons_clear (h : Account s ("clear" :: ws) es t) : Account [] ws es t := by
  rw [account_cons_iff, classify_eq_clear_iff.mpr rfl] at h
  exact h

end Account

def Entry.IsOf (w : String) : Entry → Prop
  | .push v => ∃ s, Denotes s w v
  | .apply l op r x => w = op.symbol ∧ op.Gives l r x
  | .error r => r.word = w ∧ Token.classify w = .error r.defect

def Entry.value? : Entry → Option Float
  | .push v => some v
  | .apply _ _ _ x => some x
  | .error _ => none

def lastValue (es : List Entry) : Option Float := (es.filterMap Entry.value?).getLast?

theorem lastValue_cons (e : Entry) (es : List Entry) :
    lastValue (e :: es) = (lastValue es).or e.value? := by
  cases h : e.value? <;> simp [lastValue, h, List.getLast?_cons]

namespace Account

theorem forall₂_isOf_cons {e : Entry} (hne : w ≠ "clear") (he : e.IsOf w)
    (hes : List.Forall₂ Entry.IsOf (ws.filter (· ≠ "clear")) es) :
    List.Forall₂ Entry.IsOf ((w :: ws).filter (· ≠ "clear")) (e :: es) := by
  rw [List.filter_cons_of_pos (by simpa using hne)]
  exact .cons he hes

theorem forall₂_isOf (h : Account s ws es t) :
    List.Forall₂ Entry.IsOf (ws.filter (· ≠ "clear")) es := by
  induction h with
  | nil => exact .nil
  | clear hw _ ih => simpa [hw] using ih
  | push hw _ ih =>
    refine forall₂_isOf_cons ?_ ?_ ih
    · rcases denotes_iff.mp hw with ht | ⟨name, negate, ht, -⟩
      · exact ne_clear_of_classify ht nofun
      · exact ne_clear_of_classify ht nofun
    · exact ⟨_, hw⟩
  | apply hw _ _ hx _ ih =>
    refine forall₂_isOf_cons ?_ ?_ ih
    · exact ne_clear_of_classify (Token.classify_eq_operator_iff.mpr hw) nofun
    · exact ⟨hw, hx⟩
  | error hw _ ih =>
    refine forall₂_isOf_cons ?_ ?_ ih
    · exact ne_clear_of_classify hw nofun
    · exact ⟨rfl, hw⟩

theorem getLast?_eq (h : Account s ws es t) (hc : "clear" ∉ ws) :
    t.getLast? = (lastValue es).or s.getLast? := by
  induction h with
  | nil => rfl
  | clear hw => exact absurd (hw ▸ List.mem_cons_self) hc
  | push hw _ ih =>
    rw [ih (List.not_mem_of_not_mem_cons hc), lastValue_cons, Option.or_assoc]
    simp [Entry.value?]
  | apply hw _ _ _ _ ih =>
    rw [ih (List.not_mem_of_not_mem_cons hc), lastValue_cons, Option.or_assoc]
    simp [Entry.value?]
  | error hw _ ih =>
    rw [ih (List.not_mem_of_not_mem_cons hc), lastValue_cons, Option.or_assoc]
    simp [Entry.value?]

end Account

namespace Machine

variable (m : Machine)

theorem top_eq : m.top = m.operands.getLast?.getD Binary64.zero := by
  rw [top, getLast?_operands]

theorem resolve_eq (name : Constant) : m.resolve name = name.valueAbove m.operands := by
  cases name with
  | ans => exact m.top_eq
  | pi => rfl
  | e => rfl
  | infinity => rfl

/-- A word is accounted for in front of whatever is done on the machine that it left. -/
theorem account_step (hw : w ∉ terminators) (h : Account (m.step w).machine.operands ws es t) :
    Account m.operands (w :: ws) ((m.step w).trace ++ es) t := by
  cases ht : Token.classify w with
  | error defect =>
    rw [step_of_error ht] at h ⊢
    exact .error ht h
  | ok token =>
    cases token with
    | terminate => exact absurd (classify_eq_terminate_iff.mp ht) hw
    | clear =>
      rw [step_of_effect ht rfl] at h ⊢
      exact .clear (classify_eq_clear_iff.mp ht) h
    | operator op =>
      rw [step_of_effect ht rfl] at h ⊢
      rw [operands_apply] at h
      refine .apply (Token.classify_eq_operator_iff.mp ht) m.top_eq ?_ (gives_iff.mpr rfl) h
      rw [top_eq, operands_drop]
    | constant name negate =>
      rw [step_of_effect ht rfl] at h ⊢
      rw [operands_push] at h
      rw [resolve_eq] at h ⊢
      exact .push (.constant ht) h
    | number v =>
      rw [step_of_effect ht rfl] at h ⊢
      rw [operands_push] at h
      exact .push (.number ht) h

theorem account_run (ws : List String) :
    Account m.operands (executed ws) (m.run ws).trace (m.run ws).machine.operands := by
  induction ws generalizing m with
  | nil => exact .nil m.operands
  | cons w ws ih =>
    by_cases hw : w ∈ terminators
    · rw [run_cons_terminator hw, executed_cons_of_mem hw]
      exact .nil m.operands
    · rw [run_cons hw, executed_cons_of_not_mem hw]
      exact m.account_step hw (ih (m.step w).machine)

theorem answer_eq : m.answer = m.operands.getLast?.getD Binary64.nan := by
  rw [answer, getLast?_operands]

/-- A run to the end answers with what its trace put on top last since the last clearing. If it put
nothing there, then a clearing left nothing at all, and without one the top stayed as it was. -/
theorem answer_of_account (h : Account s ws es m.operands) :
    ("clear" ∉ ws → m.answer = ((lastValue es).or s.getLast?).getD Binary64.nan) ∧
    ∀ us vs, ws = us ++ "clear" :: vs → "clear" ∉ vs →
      ∃ early late mid, es = early ++ late ∧ Account s us early mid ∧
        Account [] vs late m.operands ∧ m.answer = (lastValue late).getD Binary64.nan ∧
        (lastValue late = none → m.operands = []) := by
  refine ⟨fun hc => by rw [answer_eq, h.getLast?_eq hc], ?_⟩
  intro us vs hws hc
  rw [hws] at h
  obtain ⟨early, late, mid, hes, hearly, hlate⟩ := h.exists_of_append
  have htop := hlate.of_cons_clear.getLast?_eq hc
  rw [List.getLast?_nil, Option.or_none] at htop
  refine ⟨early, late, mid, hes, hearly, hlate.of_cons_clear, ?_, ?_⟩
  · rw [answer_eq, htop]
  · intro hnone
    rw [hnone] at htop
    exact List.getLast?_eq_none_iff.mp htop

/-- The trace accounts for every word up to the end that a word asks for, with one entry for each
but the clearings, and nothing else does. The account ends at the operands that are left, and the
answer is read off the entries behind the last clearing. -/
theorem eval_account (m : Machine) (p : String) :
    let ws := executed (wordsOf p)
    let ev := m.eval p
    Account m.operands ws ev.trace ev.machine.operands ∧
    (∀ es t, Account m.operands ws es t → es = ev.trace ∧ t = ev.machine.operands) ∧
    List.Forall₂ Entry.IsOf (ws.filter (· ≠ "clear")) ev.trace ∧
    ((∃ w ∈ wordsOf p, w ∈ terminators) ↔ ev.outcome = .terminate) ∧
    ∀ v, ev.outcome = .proceed v →
      ("clear" ∉ ws → v = ((lastValue ev.trace).or m.operands.getLast?).getD Binary64.nan) ∧
      ∀ us vs, ws = us ++ "clear" :: vs → "clear" ∉ vs →
        ∃ early late mid, ev.trace = early ++ late ∧ Account m.operands us early mid ∧
          Account [] vs late ev.machine.operands ∧
          v = (lastValue late).getD Binary64.nan ∧
          (lastValue late = none → ev.machine.operands = []) := by
  intro ws ev
  have h : Account m.operands ws ev.trace ev.machine.operands := m.account_run (wordsOf p)
  refine ⟨h, fun es t h' => h'.unique h, h.forall₂_isOf, ?_, ?_⟩
  · exact m.outcome_run_eq_terminate_iff.symm
  · intro v hv
    obtain rfl : v = ev.machine.answer := m.eq_answer_of_outcome_run hv
    exact ev.machine.answer_of_account h

/-- What was pushed first is the left operand, and a missing one is zero. -/
theorem eval_account_of_differences :
    let eight := Numeral.value ⟨false, .decimal ⟨8, 0⟩⟩
    let difference := -Binary64.pi - eight
    let quotient := Binary64.zero / difference
    (eval ⟨[Binary64.e]⟩ "2 clear -PI 8 - x / bye 3").trace =
      [.push (Numeral.value ⟨false, .decimal ⟨2, 0⟩⟩), .push (-Binary64.pi), .push eight,
        .apply (-Binary64.pi) .subtract eight difference, .error ⟨"x", .malformed⟩,
        .apply Binary64.zero .divide difference quotient] ∧
    (eval ⟨[Binary64.e]⟩ "2 clear -PI 8 - x / bye 3").machine.operands = [quotient] := by
  intro eight difference quotient
  have h2 : Token.classify "2" = .ok (.number (Numeral.value ⟨false, .decimal ⟨2, 0⟩⟩)) := rfl
  have hpi : Token.classify "-PI" = .ok (.constant .pi true) := rfl
  have h8 : Token.classify "8" = .ok (.number eight) := rfl
  have hws : executed (wordsOf "2 clear -PI 8 - x / bye 3") =
      ["2", "clear", "-PI", "8", "-", "x", "/"] := by decide
  obtain ⟨-, hunique, -⟩ := eval_account ⟨[Binary64.e]⟩ "2 clear -PI 8 - x / bye 3"
  rw [hws] at hunique
  have h := hunique _ _ (.push (.number h2) (.clear rfl (.push (.constant hpi) (.push (.number h8)
    (.apply rfl rfl rfl .subtract (.error rfl (.apply rfl rfl rfl .divide (.nil _))))))))
  exact ⟨h.1.symm, h.2.symm⟩

end Machine

end ReversePolish
