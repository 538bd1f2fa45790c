import ReversePolish.Options
import ReversePolish.Session

/-!
# The program

A run of the program as a function: of its arguments, the log setting of the environment and the
bytes on standard input, to the text on standard output, the lines on standard error and the exit
code. It takes turns with its input: each line is answered, and what is logged of it written, before
the next is read. What the runtime adds on standard error when the reader breaks off is not among
the lines, as it names places in the library.
-/

namespace ReversePolish.Program

structure Report where
  stdout : String
  stderr : List String
  code : Nat
deriving DecidableEq

def version : String := programName ++ " 0.1.0\n"

def usage : List String := ["USAGE:", "    " ++ programName ++ " [FLAGS]"]

def help : String :=
  version ++
  "Interactive Reverse Polish Notation calculator\n\n" ++
  String.join (usage.map Session.line) ++
  "\nFLAGS:\n" ++
  "    -h, --help       Prints help information\n" ++
  "    -V, --version    Prints version information\n" ++
  "    -v               Log verbosity. Default: errors. -v: warnings. -vv: info. -vvv: debug. " ++
  "-vvvv: trace\n"

def complaint (argument : String) : List String :=
  Text.splitLines ("error: Found argument '" ++ argument ++
    "' which wasn't expected, or isn't valid in this context") ++
  "" :: usage ++ ["", "For more information try --help"]

def failure : List String :=
  ["Error: failed to read from the terminal", "", "Caused by:",
    "    0: stream did not contain valid UTF-8", "    1: stream did not contain valid UTF-8"]

/-- A message as a line of the log: its level in five columns, the program and its wording. -/
def logLine (m : Message) : String :=
  "[" ++ String.ofList (m.level.name.toList.rightpad 5 ' ') ++ " " ++ programName ++ "] " ++
    m.text

def logLines (t : Threshold) (journal : List Message) : List String :=
  (t.filter journal).map logLine

def lastLines (t : Threshold) (m : Machine) (ending : Session.Ending) : List String :=
  logLines t (Session.farewell m ending) ++
    match ending with
    | .unreadable => failure
    | .endOfInput | .terminated | .aborted => []

def exitCode : Session.Ending → Nat
  | .endOfInput | .terminated => 0
  | .unreadable => 1
  | .aborted => 101

/-- What is written on a line, behind its prompt, and what comes next: the exit code, or the machine
for another line. -/
structure Turn where
  stdout : String
  stderr : List String
  next : Except Nat Machine

/-- The turn on a line of bytes, which logs as far as the threshold admits it. -/
def respond (t : Threshold) (m : Machine) (bytes : List UInt8) : Turn :=
  match Session.hear bytes with
  | .error ending => ⟨"", lastLines t m ending, .error (exitCode ending)⟩
  | .ok p =>
    let ev := m.evalLogged t p
    let shown := (Session.block m ev).reply
    let logged := ev.journal.map logLine
    match ev.outcome with
    | .terminate =>
      ⟨shown, logged ++ lastLines t ev.machine .terminated, .error (exitCode .terminated)⟩
    | .proceed _ => ⟨shown, logged, .ok ev.machine⟩

def Report.after (r : Report) (stdout : String) (stderr : List String) : Report :=
  { r with stdout := stdout ++ r.stdout, stderr := stderr ++ r.stderr }

/-- Turn after turn, each behind a prompt. -/
def dialogue (t : Threshold) (m : Machine) : List (List UInt8) → Report
  | [] => ⟨m.prompt, lastLines t m .endOfInput, exitCode .endOfInput⟩
  | bytes :: rest =>
    let turn := respond t m bytes
    match turn.next with
    | .error code => ⟨m.prompt ++ turn.stdout, turn.stderr, code⟩
    | .ok n => (dialogue t n rest).after (m.prompt ++ turn.stdout) turn.stderr

def run (args : List String) (setting : Option String) (input : List UInt8) : Report :=
  match Request.ofArguments args with
  | .converse verbosity =>
    dialogue (Threshold.choose verbosity setting) .empty (Text.lines input)
  | .help => ⟨help, [], 0⟩
  | .version => ⟨version, [], 0⟩
  | .unknown argument => ⟨"", complaint argument, 1⟩

end ReversePolish.Program
