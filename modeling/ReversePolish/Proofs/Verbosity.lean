import Mathlib.Data.List.TakeWhile
import ReversePolish.Options

/-!
# Verbosity flags and log settings

Flags that ask for more messages may be given apart or in clusters. A command line of nothing else
starts a session, and its verbosity is the number of flags, as far as eight bits hold it. A log
setting of the environment is a level for all messages, or one for those of a program, and goes
before the flags.
-/

namespace ReversePolish

namespace Request

/-- A command line of verbosity flags, in clusters of one and more. -/
def verbosityFlags (counts : List Nat) : List String :=
  counts.map fun k => String.ofList ('-' :: List.replicate (k + 1) 'v')

def flagCount : List Nat → Nat
  | [] => 0
  | k :: counts => k + 1 + flagCount counts

theorem cluster_replicate (verbosity : UInt8) (k : Nat) :
    cluster verbosity (List.replicate k 'v') = converse (verbosity + UInt8.ofNat k) := by
  induction k generalizing verbosity with
  | zero => simp [cluster]
  | succ k ih =>
    rw [List.replicate_succ, cluster, ih, UInt8.ofNat_add, UInt8.add_assoc,
      UInt8.add_comm (UInt8.ofNat k)]
    rfl

theorem read_cons_cluster {arg : String} {c : Char} {s : List Char}
    (h : arg.toList = '-' :: c :: s) (hc : c ≠ '-') {verbosity v : UInt8}
    (hv : cluster verbosity (c :: s) = converse v) (args : List String) :
    read verbosity (arg :: args) = read v args := by
  rw [read.eq_def verbosity (arg :: args)]
  simp only [h]
  split
  · simp_all
  · simp_all
  · rename_i he
    simp only [List.cons.injEq, true_and] at he
    obtain ⟨rfl, rfl⟩ := he
    rw [hv]
  · rename_i hne
    exact absurd rfl (hne c s)

theorem read_verbosityFlags (verbosity : UInt8) (counts : List Nat) :
    read verbosity (verbosityFlags counts) =
      converse (verbosity + UInt8.ofNat (flagCount counts)) := by
  induction counts generalizing verbosity with
  | nil => simp [verbosityFlags, flagCount, read]
  | cons k counts ih =>
    have hfirst : cluster verbosity ('v' :: List.replicate k 'v') =
        converse (verbosity + UInt8.ofNat (k + 1)) := cluster_replicate verbosity (k + 1)
    rw [verbosityFlags, List.map_cons,
      read_cons_cluster (by simp [List.replicate_succ]) (by decide) hfirst]
    change read (verbosity + UInt8.ofNat (k + 1)) (verbosityFlags counts) = _
    rw [ih, flagCount, UInt8.ofNat_add (k + 1), UInt8.add_assoc]

theorem ofArguments_verbosityFlags (counts : List Nat) :
    ofArguments (verbosityFlags counts) = converse (UInt8.ofNat (flagCount counts)) := by
  rw [ofArguments, read_verbosityFlags, UInt8.zero_add]

end Request

namespace Threshold

variable {name : List Char} {t : Threshold}

theorem equals_not_mem_of_ofName? (h : ofName? name = some t) : '=' ∉ name := by
  have hno : ∀ s ∈ ["off", "error", "warn", "info", "debug", "trace"], '=' ∉ s.toList := by
    decide
  have hname : '=' ∉ (String.ofList (name.map Char.toLower)).toList := by
    unfold ofName? at h
    split at h
    case h_7 => cases h
    all_goals
      rename_i hs
      rw [hs]
      exact hno _ (by simp)
  intro hmem
  rw [String.toList_ofList] at hname
  exact hname (List.mem_map_of_mem (f := Char.toLower) hmem)

theorem ne_equals_of_not_mem {s : List Char} (h : '=' ∉ s) : ∀ c ∈ s, decide (c ≠ '=') = true := by
  intro c hc
  rw [decide_eq_true_iff]
  rintro rfl
  exact h hc

theorem configure_level (u : Threshold) {level : String} (h : ofName? level.toList = some t) :
    u.configure level = t := by
  have hs := ne_equals_of_not_mem (equals_not_mem_of_ofName? h)
  have htake : level.toList.takeWhile (· ≠ '=') = level.toList := List.takeWhile_eq_self_iff.mpr hs
  have hdrop : level.toList.dropWhile (· ≠ '=') = [] := List.dropWhile_eq_nil_iff.mpr hs
  simp only [configure, htake, hdrop, h]

theorem configure_named_level (u : Threshold) {program level : String}
    (hprogram : '=' ∉ program.toList) (h : ofName? level.toList = some t) :
    u.configure (program ++ "=" ++ level) = u.override t program.toList := by
  have hs := ne_equals_of_not_mem hprogram
  have htext : (program ++ "=" ++ level).toList = program.toList ++ '=' :: level.toList := by
    simp
  have htake : (program ++ "=" ++ level).toList.takeWhile (· ≠ '=') = program.toList := by
    rw [htext, List.takeWhile_append_of_pos hs]
    simp
  have hdrop : (program ++ "=" ++ level).toList.dropWhile (· ≠ '=') = '=' :: level.toList := by
    rw [htext, List.dropWhile_append_of_pos hs]
    simp
  cases hlevel : level.toList with
  | nil =>
    have hempty : ofName? [] = none := by decide
    rw [hlevel, hempty] at h
    cases h
  | cons c s =>
    rw [hlevel] at hdrop h
    simp only [configure, htake, hdrop, h]

/-- The threshold of a verbosity under each kind of setting: a level for all, one for this program,
and one for another. -/
theorem choose_setting (verbosity : UInt8) {level : String}
    (h : ofName? level.toList = some t) :
    choose verbosity (some level) = t ∧
    choose verbosity (some (programName ++ "=" ++ level)) = t ∧
    ∀ other : String, '=' ∉ other.toList → ¬ other.toList <+: programName.toList →
      choose verbosity (some (other ++ "=" ++ level)) = choose verbosity none := by
  refine ⟨configure_level _ h, ?_, ?_⟩
  · exact configure_named_level _ (by decide) h
  · intro other hother hprefix
    refine (configure_named_level _ hother h).trans (if_neg ?_)
    rwa [List.isPrefixOf_iff_prefix]

end Threshold

structure SpelledLevel where
  name : String
  threshold : Threshold
  read : Threshold.ofName? name.toList = some threshold

/-- The log settings of one level: for all messages, for those of the program, or for those of its
line editor, which are not among them. -/
inductive LogSetting
  | unset
  | all (level : SpelledLevel)
  | program (level : SpelledLevel)
  | editor (level : SpelledLevel)

namespace LogSetting

def text : LogSetting → Option String
  | unset => none
  | all level => some level.name
  | program level => some (programName ++ "=" ++ level.name)
  | editor level => some ("rustyline=" ++ level.name)

/-- The threshold for the messages of the program. -/
def threshold (verbosity : UInt8) : LogSetting → Threshold
  | unset | editor _ => some (Level.ofVerbosity verbosity)
  | all level | program level => level.threshold

theorem choose_text (setting : LogSetting) (verbosity : UInt8) :
    Threshold.choose verbosity setting.text = setting.threshold verbosity := by
  cases setting with
  | unset => rfl
  | all level => exact (Threshold.choose_setting verbosity level.read).1
  | program level => exact (Threshold.choose_setting verbosity level.read).2.1
  | editor level =>
    exact (Threshold.choose_setting verbosity level.read).2.2 "rustyline" (by decide) (by decide)

end LogSetting

end ReversePolish
