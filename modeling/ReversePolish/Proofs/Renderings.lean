import Mathlib.Data.List.TFAE
import Mathlib.Tactic.TFAE
import ReversePolish.Proofs.Chronicle
import ReversePolish.Proofs.Forest
import ReversePolish.Proofs.Quotation

/-!
# Entries and their renderings

The text of an entry and its description each tell the entry. Floats are words in both, so those
of a push or of an operator are found by counting words. A rejected word may be any text. In the
text of an error it stands as it is spelled, but what is in front of it is always the same, and
what is behind it tells the defect by its last letters (`Entry.text_inj`). In a description it is
quoted, and a quotation tells where it ends (`Entry.description_inj`).
-/

namespace ReversePolish

namespace Binary64

/-- Floats with the same bits, or both NaN. -/
def Alike (x y : Float) : Prop := x.toBits = y.toBits ∨ isNaN x = true ∧ isNaN y = true

theorem alike_iff_eq {x y : Float} : Alike x y ↔ x = y := by
  constructor
  · rintro (h | ⟨hx, hy⟩)
    · rw [← ofBits_toBits x, h, ofBits_toBits]
    · rw [eq_nan_of_isNaN hx, eq_nan_of_isNaN hy]
  · rintro rfl
    exact Or.inl rfl

end Binary64

/-- Entries of one kind with the same operator, word and defect and with floats alike. -/
inductive Entry.Alike : Entry → Entry → Prop
  | push {v v' : Float} (h : Binary64.Alike v v') : Alike (.push v) (.push v')
  | apply {l r x l' r' x' : Float} (op : Operator) (hl : Binary64.Alike l l')
      (hr : Binary64.Alike r r') (hx : Binary64.Alike x x') :
      Alike (.apply l op r x) (.apply l' op r' x')
  | error {r r' : Rejection} (hw : r.word = r'.word) (hd : r.defect = r'.defect) :
      Alike (.error r) (.error r')

theorem Layout.text_inj {layout : Layout} {x y : Float} (h : layout.text x = layout.text y) :
    x = y := by
  have hx := layout.classify_text x
  rw [h, layout.classify_text y] at hx
  cases hx
  rfl

theorem isWord_append_comma {w : String} (h : Text.IsWord w.toList) :
    Text.IsWord (w ++ ",").toList := by
  rw [String.toList_append]
  exact ⟨by simp, Text.solid_append.mpr ⟨h.2, by decide⟩⟩

theorem Operator.name_inj {op op' : Operator} (h : op.name = op'.name) : op = op' := by
  have hall : ∀ k k' : Operator, k.name = k'.name → k = k' := by
    intro k k'
    cases k <;> cases k' <;> decide
  exact hall op op' h

theorem Operator.isWord_name (op : Operator) : Text.IsWord op.name.toList := by
  cases op <;> decide

namespace Rejection

variable {r r' : Rejection}

/-- The last letter of the cause tells which it is. -/
theorem take_reverse_text (r : Rejection) :
    r.text.toList.reverse.take 2 =
      match r.defect with
      | .empty => [')', 'g']
      | .malformed => [')', 'l'] := by
  obtain ⟨w, defect⟩ := r
  cases defect <;> simp [text, Numeral.Defect.text]

theorem text_inj (h : r.text = r'.text) : r = r' := by
  have hlast := congrArg (fun s => s.toList.reverse.take 2) h
  simp only [take_reverse_text] at hlast
  obtain ⟨w, defect⟩ := r
  obtain ⟨w', defect'⟩ := r'
  obtain rfl : defect = defect' := by
    cases defect <;> cases defect' <;> simp_all
  simp only [text, String.append_left_inj, String.append_right_inj] at h
  rw [h]

theorem defectName_inj {d d' : Numeral.Defect} (h : defectName d = defectName d') : d = d' := by
  cases d <;> cases d' <;> first | rfl | exact absurd h (by decide)

theorem description_eq (w : String) (defect : Numeral.Defect) :
    description ⟨w, defect⟩ =
      "InvalidNumber(" ++ (Text.Quoted.quote w ++ (", ParseFloatError \x7b kind: " ++
        (defectName defect ++ " \x7d)"))) := by
  rw [← String.append_assoc, ← String.append_assoc, ← String.append_assoc]
  rfl

theorem description_inj (h : r.description = r'.description) : r = r' := by
  obtain ⟨w, defect⟩ := r
  obtain ⟨w', defect'⟩ := r'
  rw [description_eq, description_eq, String.append_right_inj] at h
  obtain ⟨rfl, hrest⟩ := Text.Quoted.quote_append_inj h
  rw [String.append_right_inj, String.append_left_inj] at hrest
  rw [defectName_inj hrest]

end Rejection

namespace Entry

variable {a b : Entry}

theorem text_push (v : Float) : (push v).text = "Pushing " ++ showFloat v := rfl

theorem text_apply (l : Float) (op : Operator) (r x : Float) :
    (apply l op r x).text = "Pushing " ++ showFloat l ++ " " ++ op.symbol ++ " " ++ showFloat r ++
      " = " ++ showFloat x := rfl

theorem text_error (r : Rejection) : (error r).text = "Error: " ++ r.text := rfl

theorem description_push (v : Float) :
    (push v).description = "Push(" ++ Layout.diagnostic.text v ++ ")" := rfl

theorem description_apply (l : Float) (op : Operator) (r x : Float) :
    (apply l op r x).description =
      "Apply \x7b lhs: " ++ Layout.diagnostic.text l ++ ", operator: " ++ op.name ++ ", rhs: " ++
        Layout.diagnostic.text r ++ ", result: " ++ Layout.diagnostic.text x ++ " \x7d" := rfl

theorem description_error (r : Rejection) :
    (error r).description = "Error(" ++ r.description ++ ")" := rfl

theorem wordsOf_text_push (v : Float) : wordsOf (push v).text = ["Pushing", showFloat v] := by
  have htext : (push v).text = "Pushing" ++ " " ++ showFloat v := by
    simp [text_push]
  rw [htext, wordsOf_cons (by decide), wordsOf_showFloat]

theorem wordsOf_text_apply (l : Float) (op : Operator) (r x : Float) :
    wordsOf (apply l op r x).text =
      ["Pushing", showFloat l, op.symbol, showFloat r, "=", showFloat x] := by
  have htext : (apply l op r x).text = "Pushing" ++ " " ++ (Message.applied l op r x).text := by
    rw [text_apply]
    change _ = "Pushing" ++ " " ++
      (showFloat l ++ " " ++ op.symbol ++ " " ++ showFloat r ++ " = " ++ showFloat x)
    simp [← String.toList_inj]
  rw [htext, wordsOf_cons (by decide), wordsOf_applied]

theorem head?_text (e : Entry) :
    e.text.toList.head? =
      match e with
      | push _ | apply .. => some 'P'
      | error _ => some 'E' := by
  cases e with
  | push v => simp [text_push]
  | apply l op r x => simp [text_apply]
  | error r => simp [text_error]

theorem text_inj (h : a.text = b.text) : a = b := by
  have hhead := congrArg (fun s => s.toList.head?) h
  have hwords := congrArg wordsOf h
  simp only [head?_text] at hhead
  cases a with
  | push v =>
    rw [wordsOf_text_push] at hwords
    cases b with
    | push v' =>
      rw [wordsOf_text_push] at hwords
      rw [Layout.text_inj (List.cons.inj (List.cons.inj hwords).2).1]
    | apply l' op' r' x' =>
      rw [wordsOf_text_apply] at hwords
      exact absurd (congrArg List.length hwords) (by simp)
    | error r' => exact absurd hhead (by simp)
  | apply l op r x =>
    rw [wordsOf_text_apply] at hwords
    cases b with
    | push v' =>
      rw [wordsOf_text_push] at hwords
      exact absurd (congrArg List.length hwords) (by simp)
    | apply l' op' r' x' =>
      rw [wordsOf_text_apply] at hwords
      simp only [List.cons.injEq, and_true, true_and] at hwords
      obtain ⟨hl, hop, hr, hx⟩ := hwords
      rw [Layout.text_inj hl, symbol_injective hop, Layout.text_inj hr, Layout.text_inj hx]
    | error r' => exact absurd hhead (by simp)
  | error r =>
    cases b with
    | push v' => exact absurd hhead (by simp)
    | apply l' op' r' x' => exact absurd hhead (by simp)
    | error r' =>
      rw [text_error, text_error, String.append_right_inj] at h
      rw [Rejection.text_inj h]

theorem wordsOf_fields {l o r x : String} (hl : Text.IsWord l.toList) (ho : Text.IsWord o.toList)
    (hr : Text.IsWord r.toList) (hx : Text.IsWord x.toList) :
    wordsOf ("Apply \x7b lhs: " ++ l ++ ", operator: " ++ o ++ ", rhs: " ++ r ++ ", result: " ++
        x ++ " \x7d") =
      ["Apply", "\x7b", "lhs:", l ++ ",", "operator:", o ++ ",", "rhs:", r ++ ",", "result:", x,
        "\x7d"] := by
  have htext : "Apply \x7b lhs: " ++ l ++ ", operator: " ++ o ++ ", rhs: " ++ r ++ ", result: " ++
      x ++ " \x7d" =
      "Apply" ++ " " ++ ("\x7b" ++ " " ++ ("lhs:" ++ " " ++ (l ++ "," ++ " " ++
        ("operator:" ++ " " ++ (o ++ "," ++ " " ++ ("rhs:" ++ " " ++ (r ++ "," ++ " " ++
          ("result:" ++ " " ++ (x ++ " " ++ "\x7d"))))))))) := by
    rw [← String.toList_inj]
    simp only [String.toList_append, List.append_assoc]
    rfl
  have hclose : Text.IsWord "\x7d".toList := by decide
  rw [htext, wordsOf_cons (by decide), wordsOf_cons (by decide), wordsOf_cons (by decide),
    wordsOf_cons (isWord_append_comma hl), wordsOf_cons (by decide),
    wordsOf_cons (isWord_append_comma ho), wordsOf_cons (by decide),
    wordsOf_cons (isWord_append_comma hr), wordsOf_cons (by decide), wordsOf_cons hx,
    wordsOf_of_word hclose.1 hclose.2]

theorem wordsOf_description_apply (l : Float) (op : Operator) (r x : Float) :
    wordsOf (apply l op r x).description =
      ["Apply", "\x7b", "lhs:", Layout.diagnostic.text l ++ ",", "operator:", op.name ++ ",",
        "rhs:", Layout.diagnostic.text r ++ ",", "result:", Layout.diagnostic.text x, "\x7d"] :=
  have hword := Layout.diagnostic.isWord_text
  wordsOf_fields (hword l) op.isWord_name (hword r) (hword x)

theorem head?_description (e : Entry) :
    e.description.toList.head? =
      match e with
      | push _ => some 'P'
      | apply .. => some 'A'
      | error _ => some 'E' := by
  cases e with
  | push v => simp [description_push]
  | apply l op r x => simp [description_apply]
  | error r => simp [description_error]

theorem description_inj (h : a.description = b.description) : a = b := by
  have hhead := congrArg (fun s => s.toList.head?) h
  simp only [head?_description] at hhead
  cases a with
  | push v =>
    cases b with
    | push v' =>
      rw [description_push, description_push, String.append_left_inj,
        String.append_right_inj] at h
      rw [Layout.text_inj h]
    | apply l' op' r' x' => exact absurd hhead (by simp)
    | error r' => exact absurd hhead (by simp)
  | apply l op r x =>
    cases b with
    | push v' => exact absurd hhead (by simp)
    | apply l' op' r' x' =>
      have hwords := congrArg wordsOf h
      simp only [wordsOf_description_apply, List.cons.injEq, and_true, true_and,
        String.append_left_inj] at hwords
      obtain ⟨hl, hop, hr, hx⟩ := hwords
      rw [Layout.text_inj hl, Operator.name_inj hop, Layout.text_inj hr, Layout.text_inj hx]
    | error r' => exact absurd hhead (by simp)
  | error r =>
    cases b with
    | push v' => exact absurd hhead (by simp)
    | apply l' op' r' x' => exact absurd hhead (by simp)
    | error r' =>
      rw [description_error, description_error, String.append_left_inj,
        String.append_right_inj] at h
      rw [Rejection.description_inj h]

theorem alike_iff_eq : a.Alike b ↔ a = b := by
  constructor
  · intro h
    cases h with
    | push h => rw [Binary64.alike_iff_eq.mp h]
    | apply op hl hr hx =>
      rw [Binary64.alike_iff_eq.mp hl, Binary64.alike_iff_eq.mp hr, Binary64.alike_iff_eq.mp hx]
    | @error r r' hw hd =>
      obtain ⟨w, defect⟩ := r
      obtain ⟨w', defect'⟩ := r'
      obtain rfl : w = w' := hw
      obtain rfl : defect = defect' := hd
      rfl
  · rintro rfl
    cases a with
    | push v => exact .push (Or.inl rfl)
    | apply l op r x => exact .apply op (Or.inl rfl) (Or.inl rfl) (Or.inl rfl)
    | error r => exact .error rfl rfl

/-- Entries have the same text just when they have the same description, and just when they are
alike: no two floats but NaNs are written the same, and no rejected word can feign anything. -/
theorem renderings_unambiguous (a b : Entry) :
    [a.text = b.text, a.description = b.description, a.Alike b].TFAE ∧
      ¬Binary64.Alike Binary64.zero (-Binary64.zero) := by
  refine ⟨?_, ?_⟩
  · tfae_have 1 → 3 := fun h => alike_iff_eq.mpr (text_inj h)
    tfae_have 3 → 2 := fun h => congrArg description (alike_iff_eq.mp h)
    tfae_have 2 → 1 := fun h => congrArg text (description_inj h)
    tfae_finish
  · rw [Binary64.alike_iff_eq]
    decide

end Entry

end ReversePolish
