import Sigil.Token.Basic

/-! Why a token list is no program: the cause, the rules being read, and the token in the way. -/
namespace Sigil

inductive Rule where
  | program | function | expression | letIn | unary | select | concat | call | not | increment
  | binary | assign | loop
deriving DecidableEq, Repr

def Rule.name : Rule → String
  | program => "program"
  | function => "function"
  | expression => "expression"
  | letIn => "let"
  | unary => "unary"
  | select => "match"
  | concat => "concat"
  | call => "call"
  | not => "not"
  | increment => "increment"
  | binary => "binary"
  | assign => "assign"
  | loop => "repeat"

inductive NamePlace where
  | function | parameter | increment | assign
deriving DecidableEq, Repr

def NamePlace.message : NamePlace → String
  | function => "Function name must follow ~"
  | parameter => "Looking for parameter identifiers"
  | increment => "Inc/Dec operator must precede an identifier"
  | assign => "Assignment operator must precede an identifier."

inductive ExprPlace where
  | programBody | functionBody | letBody | notOperand | assignedValue | loopCondition | loopBody
  | leftOperand | rightOperand | infixOperand
deriving DecidableEq, Repr

def ExprPlace.message : ExprPlace → String
  | programBody => "Program must contain an executable expression"
  | functionBody => "Function body must be an executable expression"
  | letBody => "Missing let statement body"
  | notOperand => "Not operator must precede expression"
  | assignedValue => "Assignment operator must have valid assignment expression."
  | loopCondition => "Repeat op must have condition"
  | loopBody => "Repeat op must have body"
  | leftOperand => "Binary operation needs 2 expressions."
  | rightOperand => "Binary op needs another expression."
  | infixOperand => "Infix operator needs a right operand"

inductive SyntaxCause where
  | prematureEnd
  | expected (kind : Kind)
  | noName (place : NamePlace)
  | noExpression (place : ExprPlace)
  | letArity (names values : Nat)
  | emptySelection
  | missingBranch
  | invalidNumber (lexeme : String)
  | trailingInput
deriving DecidableEq, Repr

def SyntaxCause.message : SyntaxCause → String
  | prematureEnd => "Premature end."
  | expected kind => "Expected \"" ++ kind.text ++ "\""
  | noName place => place.message
  | noExpression place => place.message
  | letArity names values =>
    "Number of assignments (" ++ Text.decimal values ++ ") must equal number of variables (" ++
      Text.decimal names ++ ") in let"
  | emptySelection => "Match requires at least one condition and branch"
  | missingBranch => "Match expression missing branch"
  | invalidNumber lexeme => "Invalid numeric literal \"" ++ lexeme ++ "\""
  | trailingInput => "Unexpected input after program expression"

/-- The path holds the rules being read, innermost first. There is no token when the list ended
without an end of input. -/
structure SyntaxError where
  cause : SyntaxCause
  path : List Rule
  token : Option Token
deriving DecidableEq, Repr

namespace SyntaxError

def position (e : SyntaxError) : Option Position := e.token.map Token.position

def found (t : Token) : String :=
  " at " ++ t.position.render ++ " but found " ++
    if t.lexeme = "" then t.kind.text else "\"" ++ t.lexeme ++ "\""

def message (e : SyntaxError) : String :=
  e.cause.message ++ (e.token.map found).getD "" ++ " (while parsing " ++
    " > ".intercalate (e.path.reverse.map Rule.name) ++ ")"

end SyntaxError
end Sigil
