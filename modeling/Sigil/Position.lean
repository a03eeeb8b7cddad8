import Sigil.Text.Column

/-! Places in a source text, counted in characters from line 1, column 1. -/
namespace Sigil

structure Position where
  line : Nat
  column : Nat
deriving DecidableEq, Repr

def Position.start : Position := ⟨1, 1⟩

def Position.advance (p : Position) (c : Char) : Position :=
  if c = '\n' then ⟨p.line + 1, 1⟩ else ⟨p.line, p.column + 1⟩

def Position.after (p : Position) (text : List Char) : Position := text.foldl advance p

theorem Position.after_append (p : Position) (a b : List Char) :
    p.after (a ++ b) = (p.after a).after b := List.foldl_append

def Position.render (p : Position) : String :=
  Text.decimal p.line ++ ":" ++ Text.decimal p.column

end Sigil
