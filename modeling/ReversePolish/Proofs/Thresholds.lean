import Mathlib.Data.List.Basic
import ReversePolish.Proofs.Agreement

/-!
# Verbosity and the log

Each flag up to the fourth admits the messages of one level more, and a run at a greater threshold
logs all that one at a smaller threshold logs, in the same order. The flags are counted in eight
bits, so with 256 of them the count starts over, and it is the remainder that the log grows with.
-/

namespace ReversePolish

namespace Level

def ofFlags : Nat → Level
  | 0 => error
  | 1 => warn
  | 2 => info
  | 3 => debug
  | _ => trace

theorem rank_ofFlags (n : Nat) : (ofFlags n).rank = min n 4 := by
  match n with
  | 0 | 1 | 2 | 3 => rfl
  | n + 4 =>
    change 4 = min (n + 4) 4
    omega

theorem ofVerbosity_ofNat (n : Nat) : ofVerbosity (UInt8.ofNat n) = ofFlags (n % 256) := by
  have hn : (UInt8.ofNat n).toNat = n % 256 := UInt8.toNat_ofNat'
  rw [ofVerbosity, hn]
  rfl

end Level

namespace Threshold

theorem admits_of_rank_le {l l' : Level} (h : l.rank ≤ l'.rank) {level : Level}
    (ha : admits (some l) level = true) : admits (some l') level = true := by
  have hle : level.rank ≤ l.rank := of_decide_eq_true ha
  exact decide_eq_true (Nat.le_trans hle h)

theorem choose_ofNat_none (n : Nat) :
    choose (UInt8.ofNat n) none = some (Level.ofFlags (n % 256)) := by
  rw [← Level.ofVerbosity_ofNat]
  rfl

end Threshold

namespace Program

theorem logLines_sublist {l l' : Level} (h : l.rank ≤ l'.rank) (journal : List Message) :
    (logLines (some l) journal).Sublist (logLines (some l') journal) := by
  apply List.Sublist.map
  apply List.monotone_filter_right
  intro m hm
  exact Threshold.admits_of_rank_le h hm

theorem stderr_report_sublist {l l' : Level} (h : l.rank ≤ l'.rank) (t : Session.Transcript) :
    (report (some l) t).stderr.Sublist (report (some l') t).stderr := by
  apply List.Sublist.append (logLines_sublist h t.journal)
  exact List.Sublist.append (logLines_sublist h _) (List.Sublist.refl _)

/-- With nothing set in the environment the flags of a command line, however they are given, choose
the level by the remainder of their number. A run whose remainder is greater logs every line that
the other one logs. -/
theorem stderr_verbosityFlags (counts : List Nat) :
    Request.ofArguments (Request.verbosityFlags counts) =
      .converse (UInt8.ofNat (Request.flagCount counts)) ∧
    Threshold.choose (UInt8.ofNat (Request.flagCount counts)) none =
      some (Level.ofFlags (Request.flagCount counts % 256)) ∧
    (Request.flagCount counts < 256 →
      Threshold.choose (UInt8.ofNat (Request.flagCount counts)) none =
        some (Level.ofFlags (Request.flagCount counts))) ∧
    ∀ (counts' : List Nat) (input : List UInt8),
      Request.flagCount counts % 256 ≤ Request.flagCount counts' % 256 →
      (run (Request.verbosityFlags counts) none input).stderr.Sublist
        (run (Request.verbosityFlags counts') none input).stderr := by
  have hchoose := Threshold.choose_ofNat_none (Request.flagCount counts)
  refine ⟨Request.ofArguments_verbosityFlags counts, hchoose, ?_, ?_⟩
  · intro h
    rw [hchoose, Nat.mod_eq_of_lt h]
  · intro counts' input h
    rw [run_verbosityFlags, run_verbosityFlags, hchoose, Threshold.choose_ofNat_none]
    apply stderr_report_sublist
    rw [Level.rank_ofFlags, Level.rank_ofFlags]
    omega

/-- The flag that makes it 256 takes away every message. -/
theorem stderr_loses_lines_at_256_flags :
    Request.flagCount [3] < Request.flagCount [255] ∧
    Threshold.choose (UInt8.ofNat (Request.flagCount [255])) none ≠
      some (Level.ofFlags (Request.flagCount [255])) ∧
    ¬ (run (Request.verbosityFlags [3]) none []).stderr ⊆
      (run (Request.verbosityFlags [255]) none []).stderr := by
  refine ⟨by decide, by decide, ?_⟩
  rw [run_verbosityFlags, run_verbosityFlags]
  intro h
  have hend : "[INFO  rpncalc] session ended with 0 operand(s)" ∈
      (report (Threshold.choose 4 none) (Session.run .empty [])).stderr := by decide
  exact absurd (h hend) (by decide)

end Program

end ReversePolish
