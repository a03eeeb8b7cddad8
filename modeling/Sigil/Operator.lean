import Sigil.Token.Kind

/-! Binary operators of the language and the machine operations behind them. -/
namespace Sigil

inductive Arithmetic where
  | add | subtract | multiply | divide | modulo
deriving DecidableEq, Repr

inductive Order where
  | less | lessEqual | greater | greaterEqual
deriving DecidableEq, Repr

inductive Operation where
  | arithmetic (a : Arithmetic)
  | order (o : Order)
  | equal | notEqual | and | or | concat
deriving DecidableEq, Repr

inductive Operator where
  | arithmetic (a : Arithmetic)
  | update (a : Arithmetic)
  | order (o : Order)
  | equal | notEqual | and | or
deriving DecidableEq, Repr

def Arithmetic.symbol : Arithmetic → String
  | add => "+"
  | subtract => "-"
  | multiply => "*"
  | divide => "/"
  | modulo => "%"

def Arithmetic.mnemonic : Arithmetic → String
  | add => "Add"
  | subtract => "Sub"
  | multiply => "Mul"
  | divide => "Div"
  | modulo => "Mod"

def Order.symbol : Order → String
  | less => "<"
  | lessEqual => "<="
  | greater => ">"
  | greaterEqual => ">="

def Order.mnemonic : Order → String
  | less => "Less"
  | lessEqual => "LessEqual"
  | greater => "Greater"
  | greaterEqual => "GreaterEqual"

def Operation.mnemonic : Operation → String
  | arithmetic a => a.mnemonic
  | order o => o.mnemonic
  | equal => "Equal"
  | notEqual => "NotEqual"
  | and => "And"
  | or => "Or"
  | concat => "Concat"

namespace Operator

def symbol : Operator → String
  | arithmetic a => a.symbol
  | update a => a.symbol ++ "="
  | order o => o.symbol
  | equal => "=="
  | notEqual => "!="
  | and => "&&"
  | or => "||"

def operation : Operator → Operation
  | arithmetic a => .arithmetic a
  | update a => .arithmetic a
  | order o => .order o
  | equal => .equal
  | notEqual => .notEqual
  | and => .and
  | or => .or

def isUpdate : Operator → Bool
  | update _ => true
  | _ => false

def all : List Operator :=
  [arithmetic .add, arithmetic .subtract, arithmetic .multiply, arithmetic .divide,
    arithmetic .modulo, update .add, update .subtract, update .multiply, update .divide,
    update .modulo, order .less, order .lessEqual, order .greater, order .greaterEqual,
    equal, notEqual, and, or]

def kind : Operator → Kind
  | arithmetic .add => .plus
  | arithmetic .subtract => .minus
  | arithmetic .multiply => .star
  | arithmetic .divide => .slash
  | arithmetic .modulo => .percent
  | update .add => .plusEqual
  | update .subtract => .minusEqual
  | update .multiply => .starEqual
  | update .divide => .slashEqual
  | update .modulo => .percentEqual
  | order .less => .less
  | order .lessEqual => .lessEqual
  | order .greater => .greater
  | order .greaterEqual => .greaterEqual
  | equal => .equalEqual
  | notEqual => .bangEqual
  | and => .andAnd
  | or => .orOr

def ofKind? (kind : Kind) : Option Operator := all.find? (·.kind = kind)

theorem mem_all (op : Operator) : op ∈ all := by
  rcases op with a | a | o | _ | _ | _ | _
  · cases a <;> decide
  · cases a <;> decide
  · cases o <;> decide
  all_goals decide

theorem ofKind?_kind (op : Operator) : ofKind? op.kind = some op := by
  rcases op with a | a | o | _ | _ | _ | _
  · cases a <;> rfl
  · cases a <;> rfl
  · cases o <;> rfl
  all_goals rfl

theorem kind_of_ofKind? {kind : Kind} {op : Operator} (h : ofKind? kind = some op) :
    op.kind = kind := by
  simpa using List.find?_some h

theorem symbol_eq_text (op : Operator) : op.symbol = op.kind.text := by
  rcases op with a | a | o | _ | _ | _ | _
  · cases a <;> rfl
  · cases a <;> decide
  · cases o <;> rfl
  all_goals rfl

end Operator
end Sigil
