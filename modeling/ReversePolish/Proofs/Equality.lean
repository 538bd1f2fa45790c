import ReversePolish.Proofs.ExactValue
import ReversePolish.Proofs.Renderings

/-!
# Equality and descriptions

Floats are compared by value, so NaN differs from itself and a zero does not show its sign. All
other floats are equal only if they are the same (`Binary64.beq_iff`). Entries and outcomes are
compared part by part, and a description tells every part, so two of them are equal just when no
NaN is in either and they are described alike once every zero has lost its sign. What equality
lacks of an equivalence is therefore only that a value with a NaN in it equals nothing.
-/

namespace ReversePolish

namespace Binary64

open Float.Model (UnpackedFloat)

theorem compare_sign_eq_iff {s t : UnpackedFloat.Sign} : compare s t = .eq ↔ s = t := by
  cases s with
  | negative =>
    cases t with
    | negative => exact iff_of_true rfl rfl
    | positive => exact iff_of_false (by decide) nofun
  | positive =>
    cases t with
    | negative => exact iff_of_false (by decide) nofun
    | positive => exact iff_of_true rfl rfl

/-- Unpacked floats compare as equal when they are the same or both a zero, but for NaN. -/
theorem compare_eq_some_eq_iff {u v : UnpackedFloat} :
    u.compare v = some .eq ↔
      u ≠ .notANumber ∧ v ≠ .notANumber ∧ (u = v ∨ (∃ s, u = .zero s) ∧ ∃ s, v = .zero s) := by
  cases u with
  | notANumber => simp [UnpackedFloat.compare]
  | infinity s =>
    cases v with
    | notANumber => cases s <;> simp [UnpackedFloat.compare]
    | infinity t => simp [UnpackedFloat.compare, compare_sign_eq_iff]
    | zero t => cases s <;> simp [UnpackedFloat.compare]
    | finite t k f hk => cases s <;> simp [UnpackedFloat.compare]
  | zero s =>
    cases v with
    | notANumber => simp [UnpackedFloat.compare]
    | infinity t => cases t <;> simp [UnpackedFloat.compare]
    | zero t => simp [UnpackedFloat.compare]
    | finite t k f hk => cases t <;> simp [UnpackedFloat.compare]
  | finite s m e hm =>
    cases v with
    | notANumber => cases s <;> simp [UnpackedFloat.compare]
    | infinity t => cases s <;> cases t <;> simp [UnpackedFloat.compare]
    | zero t => cases s <;> simp [UnpackedFloat.compare]
    | finite t k f hk =>
      cases s <;> cases t <;>
        simp [UnpackedFloat.compare, Ordering.swap_eq_eq, Ordering.then_eq_eq, and_comm]

variable {x y : Float}

theorem unpack_eq_notANumber_iff : x.toModel.unpack = .notANumber ↔ isNaN x = true := by
  rw [isNaN, decide_eq_true_iff]
  have hx := unpacked x
  generalize x.toModel.unpack = u at hx
  cases hx with
  | zero s h => exact iff_of_false (by simp) (by omega)
  | subnormal s hpos h hm he => exact iff_of_false (by simp) (h.trans (by decide)).not_gt
  | normal s hpos h ht hm he => exact iff_of_false (by simp) h.not_gt
  | infinity s h => exact iff_of_false (by simp) h.not_gt
  | notANumber h => exact iff_of_true rfl h

theorem exists_unpack_eq_zero_iff : (∃ s, x.toModel.unpack = .zero s) ↔ code x = 0 := by
  have hx := unpacked x
  generalize x.toModel.unpack = u at hx
  cases hx with
  | zero s h => exact iff_of_true ⟨s, rfl⟩ h
  | subnormal s hpos h hm he => exact iff_of_false (by simp) (by omega)
  | normal s hpos h ht hm he => exact iff_of_false (by simp) fun h0 => by simp [h0] at ht
  | infinity s h => exact iff_of_false (by simp) (by rw [h]; decide)
  | notANumber h => exact iff_of_false (by simp) (by omega)

theorem unpack_inj : x.toModel.unpack = y.toModel.unpack ↔ x = y := by
  have hpack : ∀ z : Float, Float.ofModel (.pack z.toModel.unpack) = z := ofBits_toBits
  constructor
  · intro h
    rw [← hpack x, h, hpack]
  · rintro rfl
    rfl

def NoNaN (vs : List Float) : Prop := ∀ v ∈ vs, isNaN v = false

/-- A float, with 0.0 for -0.0. -/
def withoutZeroSign (x : Float) : Float := if x = -zero then zero else x

theorem withoutZeroSign_eq (x : Float) :
    withoutZeroSign x = if code x = 0 then zero else x := by
  by_cases h : code x = 0
  · have hx : ofCode (negative x) 0 = x := h ▸ ofCode_code x
    rw [if_pos h, withoutZeroSign, ← hx]
    cases negative x <;> decide
  · have hne : x ≠ -zero := by
      rintro rfl
      exact h (by decide)
    rw [if_neg h, withoutZeroSign, if_neg hne]

theorem code_withoutZeroSign (x : Float) : code (withoutZeroSign x) = code x := by
  rw [withoutZeroSign_eq]
  split
  · rename_i h
    rw [h]
    decide
  · rfl

theorem withoutZeroSign_inj :
    withoutZeroSign x = withoutZeroSign y ↔ x = y ∨ code x = 0 ∧ code y = 0 := by
  constructor
  · intro h
    have hcode : code x = code y := by
      rw [← code_withoutZeroSign x, h, code_withoutZeroSign]
    by_cases hx : code x = 0
    · exact Or.inr ⟨hx, hcode ▸ hx⟩
    · rw [withoutZeroSign_eq, withoutZeroSign_eq, if_neg hx, if_neg (hcode ▸ hx)] at h
      exact Or.inl h
  · rintro (rfl | ⟨hx, hy⟩)
    · rfl
    · rw [withoutZeroSign_eq, withoutZeroSign_eq, if_pos hx, if_pos hy]

/-- Floats are equal when they are the same up to the sign of a zero, and no NaN. -/
theorem beq_iff :
    (x == y) = true ↔
      isNaN x = false ∧ isNaN y = false ∧ withoutZeroSign x = withoutZeroSign y := by
  have hcompare : (x == y) = (x.toModel.unpack.compare y.toModel.unpack == some .eq) := rfl
  rw [hcompare, beq_iff_eq, compare_eq_some_eq_iff, Ne, Ne, unpack_eq_notANumber_iff,
    unpack_eq_notANumber_iff, unpack_inj, exists_unpack_eq_zero_iff, exists_unpack_eq_zero_iff,
    withoutZeroSign_inj, Bool.not_eq_true, Bool.not_eq_true]

end Binary64

open Binary64 (NoNaN withoutZeroSign)

/-- An equality of values that hold floats: symmetric and transitive, reflexive on the values
without a NaN, and otherwise the sameness of descriptions up to the signs of zeros. -/
structure EqualAsDescribed {α : Type} [BEq α] (floats : α → List Float)
    (mapFloats : (Float → Float) → α → α) (description : α → String) : Prop where
  symm (a b : α) : (a == b) = true → (b == a) = true
  trans (a b c : α) : (a == b) = true → (b == c) = true → (a == c) = true
  self_iff (a : α) : (a == a) = true ↔ NoNaN (floats a)
  iff_description (a b : α) :
    (a == b) = true ↔ NoNaN (floats a) ∧ NoNaN (floats b) ∧
      description (mapFloats withoutZeroSign a) = description (mapFloats withoutZeroSign b)

/-- It is enough that descriptions tell everything and that equality means the same as sameness up
to the signs of zeros. -/
theorem EqualAsDescribed.of_beq_iff {α : Type} [BEq α] {floats : α → List Float}
    {mapFloats : (Float → Float) → α → α} {description : α → String}
    (hdescription : ∀ {a b}, description a = description b → a = b)
    (hbeq : ∀ a b : α, (a == b) = true ↔ NoNaN (floats a) ∧ NoNaN (floats b) ∧
      mapFloats withoutZeroSign a = mapFloats withoutZeroSign b) :
    EqualAsDescribed floats mapFloats description where
  symm a b h := by
    obtain ⟨ha, hb, hab⟩ := (hbeq a b).mp h
    exact (hbeq b a).mpr ⟨hb, ha, hab.symm⟩
  trans a b c h k := by
    obtain ⟨ha, -, hab⟩ := (hbeq a b).mp h
    obtain ⟨-, hc, hbc⟩ := (hbeq b c).mp k
    exact (hbeq a c).mpr ⟨ha, hc, hab.trans hbc⟩
  self_iff a := by
    rw [hbeq]
    exact ⟨And.left, fun ha => ⟨ha, ha, rfl⟩⟩
  iff_description a b := by
    rw [hbeq]
    exact and_congr_right fun _ => and_congr_right fun _ => ⟨congrArg _, hdescription⟩

namespace Entry

def floats : Entry → List Float
  | push v => [v]
  | apply l _ r x => [l, r, x]
  | error _ => []

def mapFloats (f : Float → Float) : Entry → Entry
  | push v => push (f v)
  | apply l op r x => apply (f l) op (f r) (f x)
  | error r => error r

theorem beq_push (v w : Float) : (push v == push w) = (v == w) := rfl

theorem beq_apply (l r x l' r' x' : Float) (op op' : Operator) :
    (apply l op r x == apply l' op' r' x') = (l == l' && op == op' && r == r' && x == x') := rfl

theorem beq_error (r r' : Rejection) : (error r == error r') = (r == r') := rfl

theorem beq_iff (a b : Entry) :
    (a == b) = true ↔ NoNaN a.floats ∧ NoNaN b.floats ∧
      a.mapFloats withoutZeroSign = b.mapFloats withoutZeroSign := by
  cases a with
  | push v =>
    cases b with
    | push w => simp [beq_push, Binary64.beq_iff, NoNaN, floats, mapFloats]
    | apply | error => exact iff_of_false nofun fun h => nomatch h.2.2
  | apply l op r x =>
    cases b with
    | apply l' op' r' x' =>
      simp only [beq_apply, Bool.and_eq_true, Binary64.beq_iff, beq_iff_eq, NoNaN, floats,
        mapFloats, List.forall_mem_cons, apply.injEq]
      tauto
    | push | error => exact iff_of_false nofun fun h => nomatch h.2.2
  | error r =>
    cases b with
    | error r' => simp [beq_error, NoNaN, floats, mapFloats]
    | push | apply => exact iff_of_false nofun fun h => nomatch h.2.2

end Entry

namespace Outcome

def floats : Outcome → List Float
  | proceed v => [v]
  | terminate => []

def mapFloats (f : Float → Float) : Outcome → Outcome
  | proceed v => proceed (f v)
  | terminate => terminate

theorem beq_proceed (v w : Float) : (proceed v == proceed w) = (v == w) := rfl

theorem beq_iff (a b : Outcome) :
    (a == b) = true ↔ NoNaN a.floats ∧ NoNaN b.floats ∧
      a.mapFloats withoutZeroSign = b.mapFloats withoutZeroSign := by
  cases a with
  | proceed v =>
    cases b with
    | proceed w => simp [beq_proceed, Binary64.beq_iff, NoNaN, floats, mapFloats]
    | terminate => exact iff_of_false nofun fun h => nomatch h.2.2
  | terminate =>
    cases b with
    | proceed w => exact iff_of_false nofun fun h => nomatch h.2.2
    | terminate => exact iff_of_true rfl ⟨nofun, nofun, rfl⟩

theorem description_proceed (v : Float) :
    (proceed v).description = "Continue(" ++ Layout.diagnostic.text v ++ ")" := rfl

theorem description_inj {a b : Outcome} (h : a.description = b.description) : a = b := by
  have hne : ∀ v, (proceed v).description ≠ terminate.description := by
    intro v hv
    have hhead := congrArg (fun s => s.toList.head?) hv
    simp [description] at hhead
  cases a with
  | proceed v =>
    cases b with
    | proceed w =>
      rw [description_proceed, description_proceed, String.append_left_inj,
        String.append_right_inj] at h
      rw [Layout.text_inj h]
    | terminate => exact absurd h (hne v)
  | terminate =>
    cases b with
    | proceed w => exact absurd h.symm (hne w)
    | terminate => rfl

end Outcome

/-- Entries are equal as they are described, and so are outcomes. Errors are equal just when their
texts are the same. -/
theorem Entry.equal_as_described :
    EqualAsDescribed Entry.floats Entry.mapFloats Entry.description ∧
    EqualAsDescribed Outcome.floats Outcome.mapFloats Outcome.description ∧
    ∀ r r' : Rejection,
      ((r == r') = true ↔ r.text = r'.text) ∧
      ((Entry.error r == Entry.error r') = true ↔ (Entry.error r).text = (Entry.error r').text) := by
  refine ⟨.of_beq_iff Entry.description_inj Entry.beq_iff,
    .of_beq_iff Outcome.description_inj Outcome.beq_iff, ?_⟩
  intro r r'
  have htext : (r == r') = true ↔ r.text = r'.text := by
    rw [beq_iff_eq]
    exact ⟨congrArg _, Rejection.text_inj⟩
  refine ⟨htext, ?_⟩
  rw [Entry.beq_error, htext, Entry.text_error, Entry.text_error, String.append_right_inj]

end ReversePolish
