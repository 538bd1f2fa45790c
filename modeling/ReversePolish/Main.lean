import ReversePolish.Program

/-!
# The command line

The program on a terminal or a pipe: each line is answered before the next is read.
-/

open ReversePolish

/-- The bytes up to a line feed and with it, or up to the end of the input. -/
partial def readLine (input : IO.FS.Stream) : IO (List UInt8) := do
  let rec more (line : Array UInt8) : IO (List UInt8) := do
    match (← input.read 1).toList with
    | [] => return line.toList
    | byte :: _ =>
      if Text.isLineFeed byte then return (line.push byte).toList else more (line.push byte)
  more #[]

def writeLines (output : IO.FS.Stream) (lines : List String) : IO Unit := do
  for line in lines do
    output.putStrLn line
  output.flush

/-- Takes turns with the standard input, as `Program.dialogue` does with its lines, up to the exit
code. -/
partial def converse (threshold : Threshold) (m : Machine) : IO Nat := do
  let stdout ← IO.getStdout
  let stderr ← IO.getStderr
  stdout.putStr m.prompt
  stdout.flush
  match ← readLine (← IO.getStdin) with
  | [] =>
    writeLines stderr (Program.lastLines threshold m .endOfInput)
    return Program.exitCode .endOfInput
  | bytes =>
    let turn := Program.respond threshold m bytes
    writeLines stderr turn.stderr
    stdout.putStr turn.stdout
    stdout.flush
    match turn.next with
    | .error code => return code
    | .ok n => converse threshold n

def main (args : List String) : IO UInt32 := do
  let stdout ← IO.getStdout
  let stderr ← IO.getStderr
  match Request.ofArguments args with
  | .converse verbosity =>
    let threshold := Threshold.choose verbosity (← IO.getEnv "RUST_LOG")
    return (← converse threshold .empty).toUInt32
  | .help | .version | .unknown _ =>
    let report := Program.run args none []
    stdout.putStr report.stdout
    stdout.flush
    writeLines stderr report.stderr
    return report.code.toUInt32
