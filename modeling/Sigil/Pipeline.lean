import Sigil.Token.Lexer
import Sigil.Expr.Parser
import Sigil.Lowering.Program
import Sigil.Machine.Step

/-! From source text to a value, by way of tokens, a tree, code and a machine. -/
namespace Sigil

inductive Failure where
  | lexical (cause : LexicalError)
  | grammar (cause : SyntaxError)
  | semantic (cause : SemanticError)
  | runtime (cause : Fault)
deriving DecidableEq, Repr

namespace Failure

def kind : Failure → String
  | lexical _ => "lexical"
  | grammar _ => "syntax"
  | semantic _ => "semantic"
  | runtime _ => "runtime"

def message : Failure → String
  | lexical cause => cause.message
  | grammar cause => cause.message
  | semantic cause => cause.message
  | runtime cause => cause.message

end Failure

def readTokens (source : String) : Except Failure (List Token) :=
  (tokenize source).mapError .lexical

def parse (source : String) : Except Failure Program := do
  let tokens ← readTokens source
  (Program.ofTokens tokens).mapError .grammar

def compile (source : String) : Except Failure Code := do
  let program ← parse source
  program.compile.mapError .semantic

/-- Work that may wait for machines to stop. A machine need not stop, so the work is done in
stretches of a bounded number of steps. -/
inductive Job (α : Type) where
  | done (a : α)
  | running (code : Code) (machine : Machine) (next : Except Fault Value → Job α)

namespace Job

def bind {α β : Type} : Job α → (α → Job β) → Job β
  | done a, f => f a
  | running code m next, f => running code m fun r => (next r).bind f

def map {α β : Type} (f : α → β) (job : Job α) : Job β := job.bind fun a => done (f a)

def advance {α : Type} (n : Nat) : Job α → Job α
  | done a => done a
  | running code m next =>
    match Machine.run code n m with
    | .ok (some v) _ => next (.ok v)
    | .ok none m => running code m next
    | .error fault _ => next (.error fault)

end Job

def Code.evaluate (config : Config) (code : Code) : Job (Except Fault Value) :=
  .running code (.start config) .done

def evaluate (config : Config) (source : String) : Job (Except Failure Value) :=
  match compile source with
  | .error failure => .done (.error failure)
  | .ok code => (code.evaluate config).map (·.mapError .runtime)

end Sigil
