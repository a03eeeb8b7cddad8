import Sigil.Token.Kind
import Sigil.Position

/-! Tokens and the illegal token that ends a reading of a source text. -/
namespace Sigil

/-- The lexeme of a string is what stands between its quotes, of any other token its source text. -/
structure Token where
  kind : Kind
  lexeme : String
  position : Position
deriving DecidableEq, Repr

def Token.render (t : Token) : String :=
  Text.alignRight 4 ' ' (Text.decimal t.position.line) ++ ":" ++
    Text.alignLeft 4 (Text.decimal t.position.column) ++ " " ++
    Text.alignLeft 12 t.kind.name ++ " " ++ t.lexeme

structure LexicalError where
  lexeme : String
  position : Position
deriving DecidableEq, Repr

def LexicalError.message (e : LexicalError) : String :=
  "Illegal token \"" ++ e.lexeme ++ "\" at " ++ e.position.render

end Sigil
