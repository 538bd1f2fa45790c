import ReversePolish.Journal

/-!
# Options

What the command line asks for, and the threshold that its verbosity and the log setting of the
environment choose together.
-/

namespace ReversePolish

/-- What the command line asks for. The verbosity counts its flags in eight bits. -/
inductive Request
  | converse (verbosity : UInt8)
  | help
  | version
  | unknown (argument : String)
deriving DecidableEq

namespace Request

/-- Reads a cluster of one-letter flags, on top of the verbosity so far. -/
def cluster (verbosity : UInt8) : List Char → Request
  | [] => converse verbosity
  | 'v' :: s => cluster (verbosity + 1) s
  | 'h' :: _ => help
  | 'V' :: _ => version
  | c :: _ => unknown (String.ofList ['-', c])

/-- Reads a long flag, its name without dashes; a value behind an equals sign says nothing. -/
def long (s : List Char) : Request :=
  match String.ofList (s.takeWhile (· ≠ '=')) with
  | "help" => help
  | "version" => version
  | name => unknown ("--" ++ name)

/-- Reads the arguments, on top of the verbosity so far. The first that asks for something else, or
that is not known, decides; behind two dashes none is known. -/
def read (verbosity : UInt8) : List String → Request
  | [] => converse verbosity
  | arg :: args =>
    match arg.toList with
    | ['-', '-'] =>
      match args with
      | [] => converse verbosity
      | next :: _ => unknown next
    | '-' :: '-' :: s => long (s.dropWhile (· = '-'))
    | '-' :: c :: s =>
      match cluster verbosity (c :: s) with
      | converse verbosity => read verbosity args
      | request => request
    | _ => unknown arg

def ofArguments (args : List String) : Request := read 0 args

end Request

namespace Level

def ofVerbosity (verbosity : UInt8) : Level :=
  match verbosity.toNat with
  | 0 => error
  | 1 => warn
  | 2 => info
  | 3 => debug
  | _ => trace

end Level

namespace Threshold

/-- The threshold of a name in any case. -/
def ofName? (s : List Char) : Option Threshold :=
  match String.ofList (s.map Char.toLower) with
  | "off" => some none
  | "error" => some (some .error)
  | "warn" => some (some .warn)
  | "info" => some (some .info)
  | "debug" => some (some .debug)
  | "trace" => some (some .trace)
  | _ => none

/-- A threshold with a setting for the programs whose names begin with the one given. -/
def override (threshold setting : Threshold) (name : List Char) : Threshold :=
  if name.isPrefixOf programName.toList then setting else threshold

/-- The threshold under a log setting: a level for all, or a program's name, an equals sign and its
level. A name without a level asks for every level. This is one setting, as it is spelled: commas,
blanks and slashes, which could make several of it, are not looked for. -/
def configure (threshold : Threshold) (setting : String) : Threshold :=
  let name := setting.toList.takeWhile (· ≠ '=')
  match setting.toList.dropWhile (· ≠ '=') with
  | [] =>
    match ofName? name with
    | some t => t
    | none => if name = [] then threshold else threshold.override (some .trace) name
  | [_] => threshold.override (some .trace) name
  | _ :: level =>
    match ofName? level with
    | some t => threshold.override t name
    | none => threshold

def choose (verbosity : UInt8) (setting : Option String) : Threshold :=
  setting.elim (some (Level.ofVerbosity verbosity)) (configure (some (Level.ofVerbosity verbosity)))

end Threshold

end ReversePolish
