import Mathlib.Algebra.Order.Group.Int
import Mathlib.Order.Bounds.Basic
import ReversePolish.Proofs.Clearing
import ReversePolish.Proofs.Padding

/-!
# The depth of the stack

How many operands there are depends on how many there were and on the kinds of the words, and on no
value. A word that pushes adds one, an operator takes one away, and each pop that finds nothing
makes up for one (`depth_run`). So the depth is what pushes and operators leave of it, but never
less than what they leave of the one operand behind an operator (`depthLaw_run`).
-/

namespace ReversePolish

def pushes (w : String) : Bool :=
  match Token.classify w with
  | .ok (.number _) | .ok (.constant ..) => true
  | _ => false

def operates (w : String) : Bool :=
  match Token.classify w with
  | .ok (.operator _) => true
  | _ => false

inductive Entry.Kind
  | push
  | apply (op : Operator)
  | error (r : Rejection)

def Entry.kind : Entry → Entry.Kind
  | .push _ => .push
  | .apply _ op _ _ => .apply op
  | .error r => .error r

def Entry.Kind.of? (w : String) : Option Entry.Kind :=
  match Token.classify w with
  | .ok .terminate | .ok .clear => none
  | .ok (.operator op) => some (.apply op)
  | .ok (.constant ..) | .ok (.number _) => some .push
  | .error defect => some (.error ⟨w, defect⟩)

/-- What words that clear nothing make of a depth, with so many operands missing. -/
structure DepthLaw (before : Nat) (ws : List String) (missing depth : Nat) : Prop where
  balance : depth + ws.countP operates = before + ws.countP pushes + missing
  isGreatest : IsGreatest
    {d : Int | d = before + ws.countP pushes - ws.countP operates ∨
      ∃ us w vs, ws = us ++ w :: vs ∧ operates w = true ∧
        d = 1 + vs.countP pushes - vs.countP operates} depth

variable {w : String} {ws us vs : List String}

namespace Machine

variable (m n : Machine)

def pops (m : Machine) (w : String) : List (Option Float) :=
  if operates w then [m.top?, m.drop.top?] else []

def popsEach (m : Machine) : List String → List (Option Float)
  | [] => []
  | w :: ws => m.pops w ++ (m.step w).machine.popsEach ws

theorem isNone_top? : m.top?.isNone = decide (m.depth = 0) := by
  obtain ⟨pending⟩ := m
  cases pending <;> rfl

theorem countP_pops (w : String) : (m.pops w).countP Option.isNone = m.lacking w := by
  rw [pops, operates, lacking]
  cases Token.classify w with
  | error defect => rfl
  | ok t =>
    cases t with
    | operator op =>
      simp only [if_true, List.countP_cons, List.countP_nil, isNone_top?, depth_drop,
        decide_eq_true_eq]
      split <;> split <;> omega
    | terminate => rfl
    | clear => rfl
    | constant name negate => rfl
    | number v => rfl

theorem countP_popsEach (h : ∀ w ∈ ws, w ∉ terminators) :
    (m.popsEach ws).countP Option.isNone = m.shortfall ws := by
  induction ws generalizing m with
  | nil => rfl
  | cons w ws ih =>
    obtain ⟨hw, hws⟩ := List.forall_mem_cons.mp h
    rw [popsEach, List.countP_append, countP_pops, ih _ hws, shortfall, if_neg hw]

theorem depth_apply (op : Operator) : (m.apply op).machine.depth = m.depth - 2 + 1 := by
  simp only [apply, drop, depth, List.length_cons, List.length_tail]
  omega

/-- What a word that clears nothing does to the depth, and how many operands it misses. -/
inductive Shift (m : Machine) (w : String) : Prop
  | up (hp : pushes w = true) (ho : operates w = false) (hl : m.lacking w = 0)
      (hd : (m.step w).machine.depth = m.depth + 1)
  | down (hp : pushes w = false) (ho : operates w = true) (hl : m.lacking w = 2 - m.depth)
      (hd : (m.step w).machine.depth = m.depth - 2 + 1)
  | none (hp : pushes w = false) (ho : operates w = false) (hl : m.lacking w = 0)
      (hd : (m.step w).machine.depth = m.depth)

theorem shift (hw : w ∉ terminators) (hc : w ≠ "clear") : m.Shift w := by
  cases ht : Token.classify w with
  | error defect =>
    refine .none ?_ ?_ ?_ ?_
    · rw [pushes, ht]
    · rw [operates, ht]
    · rw [lacking, ht]
    · rw [step_of_error ht]
  | ok t =>
    cases t with
    | terminate => exact absurd (classify_eq_terminate_iff.mp ht) hw
    | clear => exact absurd (classify_eq_clear_iff.mp ht) hc
    | operator op =>
      refine .down ?_ ?_ ?_ ?_
      · rw [pushes, ht]
      · rw [operates, ht]
      · rw [lacking, ht]
      · rw [step_of_effect ht rfl, depth_apply]
    | constant name negate =>
      refine .up ?_ ?_ ?_ ?_
      · rw [pushes, ht]
      · rw [operates, ht]
      · rw [lacking, ht]
      · rw [step_of_effect ht rfl]
        rfl
    | number v =>
      refine .up ?_ ?_ ?_ ?_
      · rw [pushes, ht]
      · rw [operates, ht]
      · rw [lacking, ht]
      · rw [step_of_effect ht rfl]
        rfl

variable {m n}

theorem depth_run (hws : ∀ w ∈ ws, w ∉ terminators) (hc : "clear" ∉ ws) :
    (m.run ws).machine.depth + ws.countP operates =
      m.depth + ws.countP pushes + m.shortfall ws := by
  induction ws generalizing m with
  | nil => rfl
  | cons w ws ih =>
    obtain ⟨hw, hws⟩ := List.forall_mem_cons.mp hws
    have hrest := ih (m := (m.step w).machine) hws (List.not_mem_of_not_mem_cons hc)
    rw [run_cons hw, shortfall, if_neg hw]
    simp only [Evaluation.after]
    cases m.shift hw (List.ne_of_not_mem_cons hc).symm with
    | up hp ho hl hd =>
      rw [List.countP_cons_of_neg (by simp [ho]), List.countP_cons_of_pos hp]
      omega
    | down hp ho hl hd =>
      rw [List.countP_cons_of_pos ho, List.countP_cons_of_neg (by simp [hp])]
      omega
    | none hp ho hl hd =>
      rw [List.countP_cons_of_neg (by simp [ho]), List.countP_cons_of_neg (by simp [hp])]
      omega

theorem depth_pos_of_operates (hw : w ∉ terminators) (hc : w ≠ "clear")
    (h : operates w = true) : 0 < (m.step w).machine.depth := by
  cases m.shift hw hc with
  | up hp ho hl hd => omega
  | down hp ho hl hd => omega
  | none hp ho hl hd => exact absurd h (by simp [ho])

/-- If anything is missing, a last operator misses something. It leaves one operand. -/
theorem shortfall_eq_zero_or (hws : ∀ w ∈ ws, w ∉ terminators) (hc : "clear" ∉ ws) :
    m.shortfall ws = 0 ∨ ∃ us w vs, ws = us ++ w :: vs ∧ operates w = true ∧
      (m.run (us ++ [w])).machine.depth = 1 ∧ (m.run (us ++ [w])).machine.shortfall vs = 0 := by
  induction ws generalizing m with
  | nil => exact Or.inl rfl
  | cons w ws ih =>
    obtain ⟨hw, hws⟩ := List.forall_mem_cons.mp hws
    rw [shortfall, if_neg hw]
    rcases ih (m := (m.step w).machine) hws (List.not_mem_of_not_mem_cons hc) with
      hzero | ⟨us, v, vs, rfl, hv, hone, hrest⟩
    · by_cases hl : m.lacking w = 0
      · exact Or.inl (by omega)
      · cases m.shift hw (List.ne_of_not_mem_cons hc).symm with
        | up _ _ hl' _ => exact absurd hl' hl
        | down _ ho hl' hd =>
          refine Or.inr ⟨[], w, ws, rfl, ho, ?_, ?_⟩
          · rw [List.nil_append, run_singleton hw]
            change (m.step w).machine.depth = 1
            omega
          · rw [List.nil_append, run_singleton hw]
            exact hzero
        | none _ _ hl' _ => exact absurd hl' hl
    · refine Or.inr ⟨w :: us, v, vs, rfl, hv, ?_, ?_⟩
      · rw [List.cons_append, run_cons hw]
        exact hone
      · rw [List.cons_append, run_cons hw]
        exact hrest

theorem depthLaw_run (hws : ∀ w ∈ ws, w ∉ terminators) (hc : "clear" ∉ ws) :
    DepthLaw m.depth ws (m.shortfall ws) (m.run ws).machine.depth where
  balance := depth_run hws hc
  isGreatest := by
    have hbalance := m.depth_run hws hc
    -- behind any of its operators the run is one of the rest of the words
    have hbehind : ∀ us w vs, ws = us ++ w :: vs →
        (m.run ws).machine.depth + vs.countP operates =
          (m.run (us ++ [w])).machine.depth + vs.countP pushes +
            (m.run (us ++ [w])).machine.shortfall vs := by
      rintro us w vs rfl
      have hcons : us ++ w :: vs = us ++ [w] ++ vs := by simp
      rw [hcons] at hws hc ⊢
      obtain ⟨hus, hvs⟩ := List.forall_mem_append.mp hws
      rw [machine_run_append m hus]
      exact depth_run hvs fun h => hc (List.mem_append_right _ h)
    constructor
    · rcases m.shortfall_eq_zero_or hws hc with hzero | ⟨us, w, vs, rfl, hop, hone, hzero⟩
      · exact Or.inl (by omega)
      · have hrest := hbehind us w vs rfl
        exact Or.inr ⟨us, w, vs, rfl, hop, by omega⟩
    · rintro d (rfl | ⟨us, w, vs, rfl, hop, rfl⟩)
      · omega
      · have hrest := hbehind us w vs rfl
        have hpos : 0 < (m.run (us ++ [w])).machine.depth := by
          obtain ⟨hus, hwvs⟩ := List.forall_mem_append.mp hws
          obtain ⟨hw, -⟩ := List.forall_mem_cons.mp hwvs
          rw [machine_run_append m hus, run_singleton hw]
          refine depth_pos_of_operates hw ?_ hop
          rintro rfl
          exact hc (by simp)
        omega

theorem Does.map_kind {st : Step} (h : m.Does w st) :
    st.trace.filterMap (some ∘ Entry.kind) = (Entry.Kind.of? w).toList := by
  rw [Entry.Kind.of?]
  cases h with
  | reject h => rw [h]; rfl
  | clear h => rw [h]; rfl
  | apply h => rw [h]; rfl
  | @push t v h ht =>
    rw [h]
    cases t with
    | constant name negate => rfl
    | number v => rfl
    | terminate => cases ht
    | clear => cases ht
    | operator op => exact absurd (congrArg Effect.entry? (Option.some.inj ht)) nofun

theorem map_kind_run (ws : List String) :
    (m.run ws).trace.map Entry.kind = (executed ws).filterMap Entry.Kind.of? := by
  rw [← List.filterMap_eq_map, m.filterMap_trace_run fun _ _ _ h => h.map_kind]

theorem exists_last_clear (h : "clear" ∈ ws) :
    ∃ us vs, ws = us ++ "clear" :: vs ∧ "clear" ∉ vs := by
  induction ws with
  | nil => cases h
  | cons w ws ih =>
    by_cases hws : "clear" ∈ ws
    · obtain ⟨us, vs, rfl, hvs⟩ := ih hws
      exact ⟨w :: us, vs, rfl, hvs⟩
    · obtain rfl : "clear" = w := (List.mem_cons.mp h).resolve_right hws
      exact ⟨[], ws, rfl, hws⟩

theorem machine_run_clear (hus : ∀ w ∈ us, w ∉ terminators) (vs : List String) :
    (m.run (us ++ "clear" :: vs)).machine = (empty.run vs).machine := by
  rw [machine_run_append m hus, run_clear_cons]
  rfl

theorem depth_run_congr (h : m.depth = n.depth) (hws : ∀ w ∈ ws, w ∉ terminators) :
    (m.run ws).machine.depth = (n.run ws).machine.depth := by
  by_cases hc : "clear" ∈ ws
  · obtain ⟨us, vs, rfl, -⟩ := exists_last_clear hc
    obtain ⟨hus, -⟩ := List.forall_mem_append.mp hws
    rw [machine_run_clear hus, machine_run_clear hus]
  · have hm := (depthLaw_run (m := m) hws hc).isGreatest
    have hn := (depthLaw_run (m := n) hws hc).isGreatest
    rw [h] at hm
    exact_mod_cast hm.unique hn

theorem depth_run_eq_zero_iff (hws : ∀ w ∈ ws, w ∉ terminators) (hc : "clear" ∉ ws) :
    (m.run ws).machine.depth = 0 ↔
      m.depth = 0 ∧ ∀ w ∈ ws, pushes w = false ∧ operates w = false := by
  induction ws generalizing m with
  | nil => simp
  | cons w ws ih =>
    obtain ⟨hw, hws⟩ := List.forall_mem_cons.mp hws
    have hrest := ih (m := (m.step w).machine) hws (List.not_mem_of_not_mem_cons hc)
    rw [run_cons hw, List.forall_mem_cons]
    refine hrest.trans ?_
    cases m.shift hw (List.ne_of_not_mem_cons hc).symm with
    | up hp ho hl hd => simp [hd, hp]
    | down hp ho hl hd => simp [hd, ho]
    | none hp ho hl hd => simp [hd, hp, ho]

theorem forall_not_mem_of_clear (hws : ∀ w ∈ us ++ "clear" :: vs, w ∉ terminators) :
    (∀ u ∈ us, u ∉ terminators) ∧ ∀ v ∈ vs, v ∉ terminators := by
  obtain ⟨hus, hvs⟩ := List.forall_mem_append.mp hws
  exact ⟨hus, (List.forall_mem_cons.mp hvs).2⟩

/-- Nothing is left if nothing came behind the last clearing, or if there was nothing and nothing
came. -/
theorem depth_run_eq_zero_iff_or (hws : ∀ w ∈ ws, w ∉ terminators) :
    (m.run ws).machine.depth = 0 ↔
      (∃ us vs, ws = us ++ "clear" :: vs ∧ "clear" ∉ vs ∧
        ∀ v ∈ vs, pushes v = false ∧ operates v = false) ∨
      (m.depth = 0 ∧ "clear" ∉ ws ∧ ∀ w ∈ ws, pushes w = false ∧ operates w = false) := by
  have hbehind : ∀ us vs, ws = us ++ "clear" :: vs → "clear" ∉ vs →
      ((m.run ws).machine.depth = 0 ↔ ∀ v ∈ vs, pushes v = false ∧ operates v = false) := by
    rintro us vs rfl hc
    obtain ⟨hus, hvs⟩ := forall_not_mem_of_clear hws
    rw [machine_run_clear hus, depth_run_eq_zero_iff hvs hc]
    exact and_iff_right rfl
  constructor
  · intro h
    by_cases hc : "clear" ∈ ws
    · obtain ⟨us, vs, hsplit, hvs⟩ := exists_last_clear hc
      exact Or.inl ⟨us, vs, hsplit, hvs, (hbehind us vs hsplit hvs).mp h⟩
    · obtain ⟨hm, hidle⟩ := (depth_run_eq_zero_iff hws hc).mp h
      exact Or.inr ⟨hm, hc, hidle⟩
  · rintro (⟨us, vs, hsplit, hc, hidle⟩ | ⟨hm, hc, hidle⟩)
    · exact (hbehind us vs hsplit hc).mpr hidle
    · exact (depth_run_eq_zero_iff hws hc).mpr ⟨hm, hidle⟩

/-- The depth after a phrase is told by the depth before it and by its words. Each missing operand
is one that a pop did not find. Whatever the operands are, phrases end in the same way and leave
entries of the same kinds. -/
theorem eval_depth (m : Machine) (p : String) :
    let ws := executed (wordsOf p)
    let depth := (m.eval p).machine.depth
    ("clear" ∉ ws →
      DepthLaw m.depth ws ((m.popsEach ws).countP Option.isNone) depth) ∧
    (∀ us vs, ws = us ++ "clear" :: vs → "clear" ∉ vs →
      DepthLaw 0 vs (((m.run (us ++ ["clear"])).machine.popsEach vs).countP Option.isNone) depth) ∧
    (∀ n : Machine,
      (n.eval p).trace.map Entry.kind = (m.eval p).trace.map Entry.kind ∧
      ((n.eval p).outcome = .terminate ↔ (m.eval p).outcome = .terminate) ∧
      (n.depth = m.depth → (n.eval p).machine.depth = depth)) ∧
    (depth = 0 ↔
      (∃ us vs, ws = us ++ "clear" :: vs ∧ "clear" ∉ vs ∧
        ∀ v ∈ vs, pushes v = false ∧ operates v = false) ∨
      (m.depth = 0 ∧ "clear" ∉ ws ∧ ∀ w ∈ ws, pushes w = false ∧ operates w = false)) := by
  intro ws depth
  have hws : ∀ w ∈ ws, w ∉ terminators := fun w => not_mem_terminators_of_mem_executed
  have hrun : ∀ n : Machine, (n.eval p).machine = (n.run ws).machine := fun n =>
    (n.machine_run_executed (wordsOf p)).symm
  refine ⟨?_, ?_, ?_, ?_⟩
  · intro hc
    have hdepth : depth = (m.run ws).machine.depth := congrArg Machine.depth (hrun m)
    rw [countP_popsEach m hws, hdepth]
    exact depthLaw_run hws hc
  · intro us vs h hc
    obtain ⟨hus, hvs⟩ := forall_not_mem_of_clear (h ▸ hws)
    have hdepth : depth = (empty.run vs).machine.depth := by
      change (m.eval p).machine.depth = _
      rw [hrun m, h, machine_run_clear hus]
    rw [machine_run_clear hus, run_nil, countP_popsEach empty hvs, hdepth]
    exact depthLaw_run (m := empty) hvs hc
  · intro n
    refine ⟨?_, ?_, ?_⟩
    · rw [eval_eq_run, eval_eq_run, map_kind_run, map_kind_run]
    · rw [eval_eq_run, eval_eq_run, outcome_run_eq_terminate_iff, outcome_run_eq_terminate_iff]
    · intro h
      change (n.eval p).machine.depth = (m.eval p).machine.depth
      rw [hrun, hrun, depth_run_congr h hws]
  · change (m.eval p).machine.depth = 0 ↔ _
    rw [hrun m]
    exact depth_run_eq_zero_iff_or hws

/-- Behind a clearing one operand is left, and three were missing. -/
theorem eval_depth_behind_clear :
    (eval ⟨[Binary64.e, Binary64.pi]⟩ "2 x clear + 5 - * bye 7").machine.depth = 1 ∧
    DepthLaw 0 ["+", "5", "-", "*"] 3 1 := by
  obtain ⟨-, hlaw, -⟩ := eval_depth ⟨[Binary64.e, Binary64.pi]⟩ "2 x clear + 5 - * bye 7"
  have hbehind := hlaw ["2", "x"] ["+", "5", "-", "*"] (by decide) (by decide)
  have hdepth :
      (eval ⟨[Binary64.e, Binary64.pi]⟩ "2 x clear + 5 - * bye 7").machine.depth = 1 := by decide
  have hmissing : ((run ⟨[Binary64.e, Binary64.pi]⟩ ["2", "x", "clear"]).machine.popsEach
      ["+", "5", "-", "*"]).countP Option.isNone = 3 := by decide
  rw [hdepth] at hbehind
  exact ⟨hdepth, hmissing ▸ hbehind⟩

end Machine

end ReversePolish
