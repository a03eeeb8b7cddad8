import Sigil.Pipeline
import Sigil.Expr.Printer

/-!
The command line: what is written to the two output streams, and how the process ends. Everything
but the reading and writing itself is decided here.
-/
namespace Sigil

structure Report where
  exit : Nat
  stdout : String
  stderr : String
deriving DecidableEq, Repr

inductive ReadFailure where
  | notFound
  | notText
  | other (message : String)
deriving DecidableEq, Repr

def ReadFailure.message : ReadFailure → String
  | notFound => "No such file or directory (os error 2)"
  | notText => "stream did not contain valid UTF-8"
  | other message => message

inductive Command where
  | run | tokens | ast | asm
deriving DecidableEq, Repr

namespace Failure

def report (failure : Failure) : String := failure.kind ++ " error: " ++ failure.message ++ "\n"

def exit : Failure → Nat
  | runtime _ => 70
  | _ => 65

end Failure

namespace Report

def ofOutcome : Except Failure String → Report
  | .ok text => ⟨0, text, ""⟩
  | .error failure => ⟨failure.exit, "", failure.report⟩

end Report

namespace Command

def apply (config : Config) (source : String) : Command → Job (Except Failure String)
  | run => (evaluate config source).map fun r => r.map fun v => v.render ++ "\n"
  | tokens => .done do
    let tokens ← readTokens source
    return String.join (tokens.map fun t => t.render ++ "\n")
  | ast => .done do
    let program ← parse source
    return program.render ++ "\n"
  | asm => .done do
    let code ← compile source
    return code.listing

def decodeText (content : ByteArray) : Except ReadFailure String :=
  match String.fromUTF8? content with
  | some text => .ok text
  | none => .error .notText

def onFile (config : Config) (file : String) (content : Except ReadFailure ByteArray)
    (command : Command) : Job Report :=
  match content >>= decodeText with
  | .error failure =>
    .done ⟨66, "", "Failed to read " ++ file ++ ": " ++ failure.message ++ "\n"⟩
  | .ok source => (command.apply config source).map .ofOutcome

end Command

namespace Repl

def greeting : String :=
  "Welcome to the presta REPL!\nEOF to exit. (Ctrl+D on *nix, Ctrl+Z on Windows)\n"

def prompt : String := "> "

/-- The answer to a line. Without an exit code it ends in the prompt for the next one. -/
structure Answer where
  stdout : String
  stderr : String
  exit? : Option Nat
deriving DecidableEq, Repr

def Answer.silent : Answer := ⟨"", "", none⟩

@[macro_inline]
def Answer.andThen (a : Answer) (next : Job Answer) : Job Answer :=
  match a.exit? with
  | some _ => .done a
  | none => next.map fun b => ⟨a.stdout ++ b.stdout, a.stderr ++ b.stderr, b.exit?⟩

def answer (config : Config) (line : ByteArray) : Job Answer :=
  if line.isEmpty then .done ⟨"", "", some 0⟩
  else
    match Command.decodeText line with
    | .error failure => .done ⟨"", "Failed to read input: " ++ failure.message ++ "\n", some 1⟩
    | .ok text =>
      let source := String.ofList (Text.trim text.toList)
      if source = "" then .done ⟨prompt, "", none⟩
      else
        (evaluate config source).map fun
          | .ok v => ⟨v.render ++ "\n" ++ prompt, "", none⟩
          | .error failure => ⟨prompt, failure.report, none⟩

def dialogue (config : Config) : List ByteArray → Job Answer
  | [] => .done .silent
  | line :: lines => (answer config line).bind fun a => a.andThen (dialogue config lines)

def splitLines : List UInt8 → List (List UInt8)
  | [] => []
  | b :: bytes =>
    if b = '\n'.toUInt8 then [b] :: splitLines bytes
    else
      match splitLines bytes with
      | [] => [[b]]
      | line :: lines => (b :: line) :: lines

def session (config : Config) (input : ByteArray) : Job Report :=
  let lines := (splitLines input.toList).map fun line => ⟨line.toArray⟩
  (dialogue config (lines ++ [.empty])).map fun a =>
    ⟨a.exit?.getD 0, greeting ++ prompt ++ a.stdout, a.stderr⟩

end Repl

structure Invocation where
  config : Config
  command? : Option (Command × String)
deriving DecidableEq, Repr

namespace Invocation

def usage : String :=
  "Usage: [--stack-size N] [--step-limit N] [run|tokens|ast|asm FILE | repl]\n"

def commandOf? : List String → Option (Option (Command × String))
  | [] | ["repl"] => some none
  | ["run", file] => some (some (.run, file))
  | ["tokens", file] => some (some (.tokens, file))
  | ["ast", file] => some (some (.ast, file))
  | ["asm", file] => some (some (.asm, file))
  | _ => none

def limit? (word : String) : Option Nat :=
  let digits :=
    match word.toList with
    | '+' :: digits => digits
    | digits => digits
  let n := Number.digitsValue digits
  if digits ≠ [] ∧ digits.all Char.isDigit ∧ n < Nat.pow 2 64 then some n else none

def ofWords? (config : Config) (words : List String) : List String → Option Invocation
  | [] => (commandOf? words).map fun command => ⟨config, command⟩
  | "--stack-size" :: n :: arguments => do
    ofWords? { config with stackSize := ← limit? n } words arguments
  | "--step-limit" :: n :: arguments => do
    ofWords? { config with stepLimit := some (← limit? n) } words arguments
  | word :: arguments => ofWords? config (words ++ [word]) arguments

def splitOption (argument : String) : List String :=
  match argument.toList.span (· ≠ '=') with
  | (option, '=' :: value) =>
    if ["--stack-size", "--step-limit"].contains (String.ofList option) then
      [String.ofList option, String.ofList value]
    else [argument]
  | _ => [argument]

/-- Options may stand anywhere among the words of the command. One that is given twice is not
refused, and the last value counts. -/
def ofArguments? (arguments : List String) : Option Invocation :=
  ofWords? .default [] (arguments.flatMap splitOption)

end Invocation
end Sigil
