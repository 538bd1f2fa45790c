import ReversePolish.Proofs.Classification
import ReversePolish.Proofs.Depth
import ReversePolish.Proofs.Locality
import ReversePolish.Proofs.Postfix

/-!
# Phrases as forests

Numbers, constants and operators are the words of expressions written one behind the other as soon
as each operator has two more of the words that push in front of it than operators. The last word
tells the last expression, and what is in front of it is a forest again
(`Expression.flatMap_postorder_eq_append_singleton_iff`), so there are such expressions, and only
one list of them. Their operators find their own operands on every machine
(`Expression.readsEach_flatMap_postorder`). An operator without two in front of it finds nothing on
an empty machine, and reads a zero.
-/

namespace ReversePolish

/-- A word for a number, for a constant other than the last answer, or for an operator. -/
inductive Arithmetic (w : String) : Prop
  | number {v : Float} (h : Token.classify w = .ok (.number v))
  | constant {name : Constant} {negate : Bool}
      (h : Token.classify w = .ok (.constant name negate)) (hne : name ≠ .ans)
  | operator {op : Operator} (h : Token.classify w = .ok (.operator op))

/-- In front of each operator, the words that push outnumber the operators by two or more. -/
def Supplied (ws : List String) : Prop :=
  ∀ us w vs, ws = us ++ w :: vs → operates w = true →
    us.countP operates + 2 ≤ us.countP pushes

variable {w : String} {ws us : List String}

theorem supplied_nil : Supplied [] := by
  intro us w vs h
  simp at h

theorem supplied_append_singleton :
    Supplied (ws ++ [w]) ↔
      Supplied ws ∧ (operates w = true → ws.countP operates + 2 ≤ ws.countP pushes) := by
  constructor
  · intro h
    refine ⟨?_, h ws w [] rfl⟩
    rintro us v vs rfl
    exact h us v (vs ++ [w]) (by simp)
  · rintro ⟨hws, hw⟩ us v vs h
    rcases List.eq_nil_or_concat' vs with rfl | ⟨vs, x, rfl⟩
    · obtain ⟨rfl, hv⟩ := List.append_inj' h rfl
      rwa [← (List.cons.inj hv).1]
    · rw [← List.cons_append, ← List.append_assoc] at h
      exact hws us v vs (List.append_inj' h rfl).1

namespace Literal

variable (l : Literal)

theorem token_eq : (∃ v, l.token = .number v) ∨
    ∃ name negate, l.token = .constant name negate ∧ name ≠ .ans := by
  have hv := l.value_token
  cases ht : l.token with
  | number v => exact Or.inl ⟨v, rfl⟩
  | constant name negate =>
    refine Or.inr ⟨name, negate, rfl, ?_⟩
    rintro rfl
    rw [ht] at hv
    cases hv
  | terminate => rw [ht] at hv; cases hv
  | clear => rw [ht] at hv; cases hv
  | operator op => rw [ht] at hv; cases hv

theorem pushes_word : pushes l.word = true := by
  rcases l.token_eq with ⟨v, ht⟩ | ⟨name, negate, ht, -⟩ <;> rw [pushes, l.classify_word, ht]

theorem operates_word : operates l.word = false := by
  rcases l.token_eq with ⟨v, ht⟩ | ⟨name, negate, ht, -⟩ <;> rw [operates, l.classify_word, ht]

theorem reads_word (m : Machine) : m.reads l.word = [] := by
  rcases l.token_eq with ⟨v, ht⟩ | ⟨name, negate, ht, hne⟩
  · rw [Machine.reads, l.classify_word, ht]
  · rw [Machine.reads, l.classify_word, ht]
    cases name with
    | ans => exact absurd rfl hne
    | pi => rfl
    | e => rfl
    | infinity => rfl

/-- A word is that of one literal at most. -/
theorem ext_word {l k : Literal} (h : l.word = k.word) : l = k := by
  obtain ⟨w, t, v, ht, hv⟩ := l
  obtain ⟨w', t', v', ht', hv'⟩ := k
  obtain rfl : w = w' := h
  obtain rfl : t = t' := Except.ok.inj (ht.symm.trans ht')
  obtain rfl : v = v' := Option.some.inj (hv.symm.trans hv')
  rfl

end Literal

theorem operates_symbol (op : Operator) : operates op.symbol = true := by
  rw [operates, classify_symbol]

theorem pushes_symbol (op : Operator) : pushes op.symbol = false := by
  rw [pushes, classify_symbol]

theorem reads_symbol (m : Machine) (op : Operator) :
    m.reads op.symbol = [m.top?, m.drop.top?] := by
  rw [Machine.reads, classify_symbol]

theorem none_mem_reads_symbol_iff (m : Machine) (op : Operator) :
    none ∈ m.reads op.symbol ↔ m.depth < 2 := by
  rw [reads_symbol]
  match m with
  | ⟨[]⟩ => simp [Machine.top?, Machine.depth]
  | ⟨[_]⟩ => simp [Machine.top?, Machine.drop, Machine.depth]
  | ⟨_ :: _ :: _⟩ => simp [Machine.top?, Machine.drop, Machine.depth]

theorem top_drop_of_depth_lt {m : Machine} (h : m.depth < 2) : m.drop.top = Binary64.zero := by
  match m, h with
  | ⟨[]⟩, _ => rfl
  | ⟨[_]⟩, _ => rfl

theorem Literal.word_ne_symbol (l : Literal) (op : Operator) : l.word ≠ op.symbol := by
  intro h
  have ho := l.operates_word
  rw [h, operates_symbol] at ho
  cases ho

theorem symbol_injective {op op' : Operator} (h : op.symbol = op'.symbol) : op = op' := by
  have hop := Operator.ofSymbol?_symbol op
  rw [h, Operator.ofSymbol?_symbol] at hop
  exact (Option.some.inj hop).symm

namespace Arithmetic

theorem literal_or_symbol (h : Arithmetic w) :
    (∃ l : Literal, l.word = w) ∨ ∃ op : Operator, op.symbol = w := by
  cases h with
  | number h => exact Or.inl ⟨⟨w, _, _, h, rfl⟩, rfl⟩
  | operator h => exact Or.inr ⟨_, (Token.classify_eq_operator_iff.mp h).symm⟩
  | @constant name negate h hne =>
    cases name with
    | ans => exact absurd rfl hne
    | pi => exact Or.inl ⟨⟨w, _, _, h, rfl⟩, rfl⟩
    | e => exact Or.inl ⟨⟨w, _, _, h, rfl⟩, rfl⟩
    | infinity => exact Or.inl ⟨⟨w, _, _, h, rfl⟩, rfl⟩

theorem symbol_of_operates (h : Arithmetic w) (ho : operates w = true) :
    ∃ op : Operator, op.symbol = w := by
  rcases h.literal_or_symbol with ⟨l, rfl⟩ | hop
  · exact absurd ho (by simp [l.operates_word])
  · exact hop

theorem not_terminator (h : Arithmetic w) : w ∉ terminators := by
  cases h with
  | number h => exact not_terminator_of_classify h Token.noConfusion
  | constant h => exact not_terminator_of_classify h Token.noConfusion
  | operator h => exact not_terminator_of_classify h Token.noConfusion

theorem ne_clear (h : Arithmetic w) : w ≠ "clear" := by
  cases h with
  | number h => exact ne_clear_of_classify h nofun
  | constant h => exact ne_clear_of_classify h nofun
  | operator h => exact ne_clear_of_classify h nofun

end Arithmetic

namespace Expression

variable {es es' : List Expression}

/-- What the operators of an expression find, the right operand before the left one. -/
def operands : Expression → List Float
  | literal _ => []
  | operation _ lhs rhs => lhs.operands ++ rhs.operands ++ [rhs.value, lhs.value]

theorem postorder_ne_nil (e : Expression) : e.postorder ≠ [] := by
  cases e <;> simp [postorder]

/-- The last word of a forest is a leaf that is the last tree, or the root of the last tree, in
front of which the two trees below the root are the last ones. -/
theorem flatMap_postorder_eq_append_singleton_iff :
    es.flatMap postorder = us ++ [w] ↔
      (∃ fs l, es = fs ++ [literal l] ∧ fs.flatMap postorder = us ∧ l.word = w) ∨
      ∃ fs op lhs rhs, es = fs ++ [operation op lhs rhs] ∧
        (fs ++ [lhs, rhs]).flatMap postorder = us ∧ op.symbol = w := by
  constructor
  · intro h
    rcases List.eq_nil_or_concat' es with rfl | ⟨fs, e, rfl⟩
    · simp at h
    · cases e with
      | literal l =>
        have hsplit : fs.flatMap postorder ++ [l.word] = us ++ [w] := by
          simpa [postorder] using h
        obtain ⟨hus, hw⟩ := List.append_inj' hsplit rfl
        exact Or.inl ⟨fs, l, rfl, hus, (List.cons.inj hw).1⟩
      | operation op lhs rhs =>
        have hsplit : (fs ++ [lhs, rhs]).flatMap postorder ++ [op.symbol] = us ++ [w] := by
          simpa [postorder] using h
        obtain ⟨hus, hw⟩ := List.append_inj' hsplit rfl
        exact Or.inr ⟨fs, op, lhs, rhs, rfl, hus, (List.cons.inj hw).1⟩
  · rintro (⟨fs, l, rfl, rfl, rfl⟩ | ⟨fs, op, lhs, rhs, rfl, rfl, rfl⟩)
    · simp [postorder]
    · simp [postorder]

theorem forest_unique (h : es.flatMap postorder = es'.flatMap postorder) : es = es' := by
  generalize hws : es'.flatMap postorder = ws at h
  induction ws using List.reverseRecOn generalizing es es' with
  | nil =>
    have hnil : ∀ fs : List Expression, fs.flatMap postorder = [] → fs = [] := by
      intro fs hfs
      cases fs with
      | nil => rfl
      | cons e fs => exact absurd (List.append_eq_nil_iff.mp hfs).1 e.postorder_ne_nil
    rw [hnil es h, hnil es' hws]
  | append_singleton ws w ih =>
    rcases flatMap_postorder_eq_append_singleton_iff.mp h with
      ⟨fs, l, rfl, hfs, hl⟩ | ⟨fs, op, lhs, rhs, rfl, hfs, hop⟩
    · rcases flatMap_postorder_eq_append_singleton_iff.mp hws with
        ⟨gs, k, rfl, hgs, hk⟩ | ⟨gs, op', lhs', rhs', rfl, hgs, hop'⟩
      · rw [ih hfs hgs, Literal.ext_word (hl.trans hk.symm)]
      · exact absurd (hl.trans hop'.symm) (l.word_ne_symbol op')
    · rcases flatMap_postorder_eq_append_singleton_iff.mp hws with
        ⟨gs, k, rfl, hgs, hk⟩ | ⟨gs, op', lhs', rhs', rfl, hgs, hop'⟩
      · exact absurd (hk.trans hop.symm) (k.word_ne_symbol op)
      · obtain ⟨rfl, hpair⟩ := List.append_inj' (ih hfs hgs) rfl
        obtain ⟨rfl, hrhs⟩ := List.cons.inj hpair
        obtain ⟨rfl, -⟩ := List.cons.inj hrhs
        rw [symbol_injective (hop.trans hop'.symm)]

theorem countP_postorder (e : Expression) :
    e.postorder.countP pushes = e.postorder.countP operates + 1 := by
  induction e with
  | literal l => simp [postorder, l.pushes_word, l.operates_word]
  | operation op lhs rhs ihl ihr =>
    simp only [postorder, List.countP_append, List.countP_singleton, pushes_symbol,
      operates_symbol, if_true, Bool.false_eq_true, if_false]
    omega

theorem countP_flatMap_postorder (es : List Expression) :
    (es.flatMap postorder).countP pushes = (es.flatMap postorder).countP operates + es.length := by
  induction es with
  | nil => rfl
  | cons e es ih =>
    have he := e.countP_postorder
    rw [List.flatMap_cons, List.countP_append, List.countP_append, List.length_cons]
    omega

/-- On every machine the operators of an expression find the values of their operands. -/
theorem readsEach_postorder (e : Expression) (m : Machine) :
    m.readsEach e.postorder = e.operands.map some := by
  induction e generalizing m with
  | literal l => simp [postorder, operands, Machine.readsEach, l.reads_word]
  | operation op lhs rhs ihl ihr =>
    have hlhs := (m.run_postorder lhs).1
    have hrhs := ((m.push lhs.value).machine.run_postorder rhs).1
    rw [postorder, List.append_assoc, Machine.readsEach_append _ not_terminator_of_mem_postorder,
      Machine.readsEach_append _ not_terminator_of_mem_postorder, ihl, ihr, hlhs, hrhs]
    simp only [Machine.readsEach, reads_symbol, operands, List.map_append, List.append_assoc]
    rfl

theorem readsEach_flatMap_postorder (es : List Expression) (m : Machine) :
    m.readsEach (es.flatMap postorder) = (es.flatMap operands).map some := by
  induction es generalizing m with
  | nil => rfl
  | cons e es ih =>
    rw [List.flatMap_cons, Machine.readsEach_append _ not_terminator_of_mem_postorder,
      e.readsEach_postorder, ih, List.flatMap_cons, List.map_append]

/-- A forest takes one more word: a leaf always, and an operator above its last two trees. -/
theorem exists_forest_append_singleton (hw : Arithmetic w)
    (h : operates w = true → 2 ≤ es.length) :
    ∃ fs : List Expression, fs.flatMap postorder = es.flatMap postorder ++ [w] := by
  rcases hw.literal_or_symbol with ⟨l, rfl⟩ | ⟨op, rfl⟩
  · exact ⟨es ++ [literal l], by simp [postorder]⟩
  · have htwo := h (operates_symbol op)
    rcases List.eq_nil_or_concat' es with rfl | ⟨fs, rhs, rfl⟩
    · simp at htwo
    · rcases List.eq_nil_or_concat' fs with rfl | ⟨fs, lhs, rfl⟩
      · simp at htwo
      · exact ⟨fs ++ [operation op lhs rhs], by simp [postorder]⟩

theorem supplied_flatMap_postorder (h : es.flatMap postorder = ws) : Supplied ws := by
  induction ws using List.reverseRecOn generalizing es with
  | nil => exact supplied_nil
  | append_singleton ws w ih =>
    rw [supplied_append_singleton]
    rcases flatMap_postorder_eq_append_singleton_iff.mp h with
      ⟨fs, l, rfl, hfs, rfl⟩ | ⟨fs, op, lhs, rhs, rfl, hfs, rfl⟩
    · exact ⟨ih hfs, fun ho => absurd ho (by simp [l.operates_word])⟩
    · refine ⟨ih hfs, fun _ => ?_⟩
      have hcount := countP_flatMap_postorder (fs ++ [lhs, rhs])
      rw [hfs, List.length_append] at hcount
      simp only [List.length_cons, List.length_nil] at hcount
      omega

theorem exists_forest_of_supplied (hws : ∀ w ∈ ws, Arithmetic w) (h : Supplied ws) :
    ∃ es : List Expression, es.flatMap postorder = ws := by
  induction ws using List.reverseRecOn with
  | nil => exact ⟨[], rfl⟩
  | append_singleton ws w ih =>
    obtain ⟨hws, hw⟩ := List.forall_mem_append.mp hws
    obtain ⟨hfront, hlast⟩ := supplied_append_singleton.mp h
    obtain ⟨es, rfl⟩ := ih hws hfront
    refine exists_forest_append_singleton (hw w List.mem_cons_self) fun ho => ?_
    have hcount := countP_flatMap_postorder es
    have htwo := hlast ho
    omega

theorem exists_forest_of_reads (hws : ∀ w ∈ ws, Arithmetic w)
    (h : none ∉ Machine.empty.readsEach ws) :
    ∃ es : List Expression, es.flatMap postorder = ws := by
  induction ws using List.reverseRecOn with
  | nil => exact ⟨[], rfl⟩
  | append_singleton ws w ih =>
    obtain ⟨hws, hw⟩ := List.forall_mem_append.mp hws
    rw [Machine.readsEach_append _ fun v hv => (hws v hv).not_terminator, List.mem_append,
      not_or] at h
    obtain ⟨es, rfl⟩ := ih hws h.1
    refine exists_forest_append_singleton (hw w List.mem_cons_self) fun ho => ?_
    obtain ⟨op, rfl⟩ := (hw w List.mem_cons_self).symbol_of_operates ho
    have hoperands := (Machine.empty.run_flatMap_postorder es).1
    have hdepth := (Machine.empty.run (es.flatMap postorder)).machine.length_operands
    rw [hoperands, Machine.operands_empty, List.nil_append, List.length_map] at hdepth
    rw [Machine.readsEach, Machine.readsEach, List.append_nil, none_mem_reads_symbol_iff] at h
    omega

end Expression

open Expression

namespace Machine

/-- Words that find on an empty machine all that they read leave the same on top of any operands. -/
theorem operands_run_of_reads (m : Machine) (hws : ∀ w ∈ ws, Arithmetic w)
    (h : none ∉ empty.readsEach ws) :
    (m.run ws).machine.operands = m.operands ++ (empty.run ws).machine.operands := by
  have hexec := executed_eq_self fun w hw => (hws w hw).not_terminator
  have hclear : "clear" ∉ ws := fun hc => (hws "clear" hc).ne_clear rfl
  have hrun : (empty.above m.operands).run ws = (empty.run ws).above m.operands :=
    (run_above m.operands (by rwa [hexec]) (by rwa [hexec])).1
  rw [empty_above_operands] at hrun
  rw [hrun]
  exact operands_above m.operands _

/-- A phrase of numbers, constants and operators in which each operator is supplied is a forest, in
one way only. It puts the values of the trees on whatever operands there are: its operators find
those of their own trees, and what was there stays below. Any other such phrase has an operator
that finds no left operand on an empty machine and takes a zero. -/
theorem eval_forest {p : String} (h : ∀ w ∈ wordsOf p, Arithmetic w) :
    (Supplied (wordsOf p) →
      ∃ es : List Expression, es.flatMap postorder = wordsOf p ∧
        (∀ fs : List Expression, fs.flatMap postorder = wordsOf p → fs = es) ∧
        ∀ m : Machine,
          m.readsEach (wordsOf p) = (es.flatMap Expression.operands).map some ∧
          (∀ us, us <+: wordsOf p →
            (m.run us).machine.operands = m.operands ++ (empty.run us).machine.operands) ∧
          (m.eval p).machine.operands = m.operands ++ es.map value) ∧
    (¬Supplied (wordsOf p) →
      ∃ us op vs, wordsOf p = us ++ op.symbol :: vs ∧
        let n := (empty.run us).machine
        let entry := Entry.apply Binary64.zero op n.top (op.apply Binary64.zero n.top)
        n.depth < 2 ∧ (n.step op.symbol).trace = [entry] ∧ entry ∈ (empty.eval p).trace) := by
  have hnone : ∀ w ∈ wordsOf p, w ∉ terminators := fun w hw => (h w hw).not_terminator
  refine ⟨fun hsupplied => ?_, fun hnot => ?_⟩
  · obtain ⟨es, hes⟩ := exists_forest_of_supplied h hsupplied
    have hreads : ∀ m : Machine,
        m.readsEach (wordsOf p) = (es.flatMap Expression.operands).map some := by
      intro m
      rw [← hes, readsEach_flatMap_postorder]
    refine ⟨es, hes, fun fs hfs => forest_unique (hfs.trans hes.symm), fun m => ?_⟩
    refine ⟨hreads m, ?_, ?_⟩
    · rintro us ⟨vs, hus⟩
      rw [← hus] at h hnone hreads
      -- what finds all that it reads on an empty machine reaches nothing below on any other
      have hfound : none ∉ empty.readsEach (us ++ vs) := by simp [hreads]
      rw [readsEach_append _ (List.forall_mem_append.mp hnone).1, List.mem_append, not_or] at hfound
      exact m.operands_run_of_reads (List.forall_mem_append.mp h).1 hfound.1
    · rw [eval_eq_run, ← hes]
      exact (m.run_flatMap_postorder es).1
  · have hmem : none ∈ empty.readsEach (wordsOf p) := by
      by_contra hfound
      obtain ⟨es, hes⟩ := exists_forest_of_reads h hfound
      exact hnot (supplied_flatMap_postorder hes)
    obtain ⟨us, w, vs, hws, hw⟩ := exists_reads_of_mem hnone hmem
    rw [hws] at h hnone
    rcases (h w (by simp)).literal_or_symbol with ⟨l, rfl⟩ | ⟨op, rfl⟩
    · rw [l.reads_word] at hw
      exact absurd hw List.not_mem_nil
    · have hdepth := (none_mem_reads_symbol_iff _ op).mp hw
      have hstep : ((empty.run us).machine.step op.symbol).trace =
          [.apply Binary64.zero op (empty.run us).machine.top
            (op.apply Binary64.zero (empty.run us).machine.top)] := by
        rw [step_of_effect (classify_symbol op) rfl, ← top_drop_of_depth_lt hdepth]
        rfl
      refine ⟨us, op, vs, hws, hdepth, hstep, ?_⟩
      rw [eval_eq_run, hws]
      refine mem_trace_run_of_mem_step _ (List.forall_mem_append.mp hnone).1 ?_ ?_ vs
      · exact hnone op.symbol (by simp)
      · rw [hstep]
        exact List.mem_cons_self

/-- Two trees, the first of two operators, and a lone operand that an operator adds to a zero. -/
theorem eval_forest_of_two :
    (∀ m : Machine, (m.eval "2 PI -e ^ - 3").machine.operands =
      m.operands ++ [Numeral.value ⟨false, .decimal ⟨2, 0⟩⟩ - Float.pow Binary64.pi (-Binary64.e),
        Numeral.value ⟨false, .decimal ⟨3, 0⟩⟩]) ∧
    ∃ op r, Entry.apply Binary64.zero op r (op.apply Binary64.zero r) ∈
      (empty.eval "4 +").trace := by
  have h2 : Token.classify "2" = .ok (.number (Numeral.value ⟨false, .decimal ⟨2, 0⟩⟩)) := rfl
  have h3 : Token.classify "3" = .ok (.number (Numeral.value ⟨false, .decimal ⟨3, 0⟩⟩)) := rfl
  have h4 : Token.classify "4" = .ok (.number (Numeral.value ⟨false, .decimal ⟨4, 0⟩⟩)) := rfl
  have hpi : Token.classify "PI" = .ok (.constant .pi false) := rfl
  have he : Token.classify "-e" = .ok (.constant .e true) := rfl
  refine ⟨?_, ?_⟩
  · have hws : wordsOf "2 PI -e ^ - 3" = ["2", "PI", "-e", "^", "-", "3"] := by decide
    have h : ∀ w ∈ wordsOf "2 PI -e ^ - 3", Arithmetic w := by
      simp only [hws, List.forall_mem_cons]
      exact ⟨.number h2, .constant hpi nofun, .constant he nofun,
        .operator (classify_symbol .power), .operator (classify_symbol .subtract), .number h3,
        List.forall_mem_nil _⟩
    let es : List Expression :=
      [.operation .subtract (.literal ⟨"2", _, _, h2, rfl⟩)
        (.operation .power (.literal ⟨"PI", _, Binary64.pi, hpi, rfl⟩)
          (.literal ⟨"-e", _, -Binary64.e, he, rfl⟩)), .literal ⟨"3", _, _, h3, rfl⟩]
    have hes : es.flatMap postorder = wordsOf "2 PI -e ^ - 3" := by
      rw [hws]
      rfl
    obtain ⟨fs, -, hunique, hm⟩ := (eval_forest h).1 (supplied_flatMap_postorder hes)
    obtain rfl := hunique es hes
    exact fun m => (hm m).2.2
  · have h : ∀ w ∈ wordsOf "4 +", Arithmetic w := by
      have hws : wordsOf "4 +" = ["4", "+"] := by decide
      simp only [hws, List.forall_mem_cons]
      exact ⟨.number h4, .operator (classify_symbol .add), List.forall_mem_nil _⟩
    have hnot : ¬Supplied (wordsOf "4 +") := by
      intro hs
      exact absurd (hs ["4"] "+" [] (by decide) (operates_symbol .add)) (by decide)
    obtain ⟨us, op, vs, -, -, -, hentry⟩ := (eval_forest h).2 hnot
    exact ⟨op, _, hentry⟩

end Machine

end ReversePolish
