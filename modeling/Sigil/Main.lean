import Sigil.Command

/-! The program: reads arguments, files and lines, and writes what the commands report. -/

namespace Sigil.Process

partial def await {α : Type} : Job α → IO α
  | .done a => return a
  | job => await (job.advance 65536)

def readFile (file : String) : IO (Except ReadFailure ByteArray) := do
  try
    return .ok (← IO.FS.readBinFile file)
  catch
    | .noFileOrDirectory .. => return .error .notFound
    | e => return .error (.other (toString e))

partial def readLine (input : IO.FS.Stream) (line : ByteArray) : IO ByteArray := do
  let bytes ← input.read 1
  let line := line ++ bytes
  if bytes.isEmpty || bytes[0]! = '\n'.toUInt8 then return line else readLine input line

partial def converse (config : Config) (input output errors : IO.FS.Stream) : IO UInt32 := do
  let answer ← await (Repl.dialogue config [← readLine input .empty])
  errors.putStr answer.stderr
  output.putStr answer.stdout
  output.flush
  match answer.exit? with
  | some exit => return exit.toUInt32
  | none => converse config input output errors

end Sigil.Process

open Sigil Process in
def main (arguments : List String) : IO UInt32 := do
  let output ← IO.getStdout
  let errors ← IO.getStderr
  match Invocation.ofArguments? arguments with
  | none => errors.putStr Invocation.usage; return 2
  | some ⟨config, none⟩ =>
    output.putStr (Repl.greeting ++ Repl.prompt)
    output.flush
    converse config (← IO.getStdin) output errors
  | some ⟨config, some (command, file)⟩ =>
    let report ← await (command.onFile config file (← readFile file))
    output.putStr report.stdout
    errors.putStr report.stderr
    return report.exit.toUInt32
