import Sigil.Pipeline

/-! Traces: what the stages of the pipeline and the steps of a machine report about themselves. -/
namespace Sigil

inductive Event where
  | tokenized (tokens : Nat)
  | parsed (functions : Nat)
  | generated (functions instructions : Nat)
  | disassembled (code : Code)
  /-- about to execute, with the stack as it is before -/
  | executing (pc : Nat) (instruction : Instruction) (stack : Stack)
  /-- where the program counter stands after the fault -/
  | faulted (pc : Nat) (fault : Fault)
  | halted (steps : Nat) (result : Value)

namespace Event

def level : Event → String
  | executing _ _ _ => "trace"
  | _ => "debug"

def message : Event → String
  | tokenized _ => "tokenized"
  | parsed _ => "parsed"
  | generated _ _ => "generated code"
  | disassembled code => "disassembly:\n" ++ code.listing
  | executing pc instruction _ => Text.address pc ++ "\t" ++ instruction.render
  | faulted _ _ => "faulted"
  | halted _ _ => "halted"

def fields : Event → List (String × String)
  | tokenized tokens => [("tokens", Text.decimal tokens)]
  | parsed functions => [("functions", Text.decimal functions)]
  | generated functions instructions =>
    [("functions", Text.decimal functions), ("instructions", Text.decimal instructions)]
  | disassembled _ => []
  | executing _ _ stack => [("stack", stack.render)]
  | faulted pc fault => [("pc", Text.decimal pc), ("error", fault.message)]
  | halted steps result => [("steps", Text.decimal steps), ("result", result.render)]

def ofSource (source : String) : List Event :=
  match readTokens source with
  | .error _ => []
  | .ok tokens =>
    .tokenized tokens.length ::
      match Program.ofTokens tokens with
      | .error _ => []
      | .ok program =>
        .parsed program.functions.length ::
          match program.compile with
          | .error _ => []
          | .ok code =>
            [.generated program.functions.length code.size, .disassembled code]

end Event

namespace Machine

def stepEvents (code : Code) (m : Machine) : List Event :=
  let before :=
    match m.upcoming? code with
    | some i => [.executing m.pc i m.stack]
    | none => []
  match step code m with
  | .error fault after =>
    if fault = .notRunning then before else before ++ [.faulted after.pc fault]
  | .ok _ _ => before

def runEvents (code : Code) (n : Nat) (m : Machine) : List Event :=
  match m.status with
  | .halted => [.halted m.steps m.accumulator]
  | .faulted => []
  | .running =>
    match n with
    | 0 => []
    | n + 1 =>
      stepEvents code m ++
        match step code m with
        | .ok _ m => runEvents code n m
        | .error _ _ => []

end Machine
end Sigil
