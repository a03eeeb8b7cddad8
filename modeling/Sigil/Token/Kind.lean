/-! Kinds of tokens, their names, and the fixed texts of the symbols among them. -/
namespace Sigil

inductive Kind where
  | identifier | string | number
  | leftParen | rightParen | leftBrace | rightBrace
  | matchAll | matchFirst | loop | assign | function | concat | not
  | plus | minus | star | slash | percent
  | plusEqual | minusEqual | starEqual | slashEqual | percentEqual
  | plusPlus | minusMinus
  | less | lessEqual | greater | greaterEqual | equalEqual | bangEqual | andAnd | orOr
  | illegal | eof
deriving DecidableEq, Repr

def Kind.text : Kind → String
  | identifier => "identifier"
  | string => "string"
  | number => "number"
  | leftParen => "("
  | rightParen => ")"
  | leftBrace => "\x7b"
  | rightBrace => "\x7d"
  | matchAll => "@"
  | matchFirst => "|"
  | loop => "^"
  | assign => ":"
  | function => "~"
  | concat => "."
  | not => "!"
  | plus => "+"
  | minus => "-"
  | star => "*"
  | slash => "/"
  | percent => "%"
  | plusEqual => "+="
  | minusEqual => "-="
  | starEqual => "*="
  | slashEqual => "/="
  | percentEqual => "%="
  | plusPlus => "++"
  | minusMinus => "--"
  | less => "<"
  | lessEqual => "<="
  | greater => ">"
  | greaterEqual => ">="
  | equalEqual => "=="
  | bangEqual => "!="
  | andAnd => "&&"
  | orOr => "||"
  | illegal => "illegal"
  | eof => "end of input"

def Kind.name : Kind → String
  | identifier => "Identifier"
  | string => "String"
  | number => "Number"
  | leftParen => "LeftParen"
  | rightParen => "RightParen"
  | leftBrace => "LeftBrace"
  | rightBrace => "RightBrace"
  | matchAll => "MatchAll"
  | matchFirst => "MatchFirst"
  | loop => "Repeat"
  | assign => "Assign"
  | function => "Function"
  | concat => "Concat"
  | not => "Not"
  | plus => "Plus"
  | minus => "Minus"
  | star => "Star"
  | slash => "Slash"
  | percent => "Percent"
  | plusEqual => "PlusEqual"
  | minusEqual => "MinusEqual"
  | starEqual => "StarEqual"
  | slashEqual => "SlashEqual"
  | percentEqual => "PercentEqual"
  | plusPlus => "PlusPlus"
  | minusMinus => "MinusMinus"
  | less => "Less"
  | lessEqual => "LessEqual"
  | greater => "Greater"
  | greaterEqual => "GreaterEqual"
  | equalEqual => "EqualEqual"
  | bangEqual => "BangEqual"
  | andAnd => "AndAnd"
  | orOr => "OrOr"
  | illegal => "Illegal"
  | eof => "Eof"

def Kind.symbols : List Kind :=
  [leftParen, rightParen, leftBrace, rightBrace, matchAll, matchFirst, loop, assign, function,
    concat, not, plus, minus, star, slash, percent, plusEqual, minusEqual, starEqual, slashEqual,
    percentEqual, plusPlus, minusMinus, less, lessEqual, greater, greaterEqual, equalEqual,
    bangEqual, andAnd, orOr]

end Sigil
