import Sigil.Value

/-! Programs as trees: functions and a body. -/
namespace Sigil

inductive Mode where
  | all | first
deriving DecidableEq, Repr

inductive Expr where
  | literal (value : Value)
  | variable (name : String)
  | assign (name : String) (value : Expr)
  | letIn (names : List String) (values : List Expr) (body : Expr)
  | loop (condition body : Expr)
  | select (mode : Mode) (conditions branches : List Expr)
  | call (name : String) (arguments : List Expr)
  | not (operand : Expr)
  | concat (parts : List Expr)
  | binary (op : Operator) (left right : Expr)

structure Function where
  name : String
  parameters : List String
  body : Expr

structure Program where
  functions : List Function
  body : Expr

mutual

def Expr.beq : Expr → Expr → Bool
  | .literal a, .literal b => a == b
  | .variable a, .variable b => a = b
  | .assign a x, .assign b y => a = b && x.beq y
  | .letIn a xs x, .letIn b ys y => a = b && Expr.beqAll xs ys && x.beq y
  | .loop a x, .loop b y => a.beq b && x.beq y
  | .select m as xs, .select n bs ys => m = n && Expr.beqAll as bs && Expr.beqAll xs ys
  | .call a xs, .call b ys => a = b && Expr.beqAll xs ys
  | .not x, .not y => x.beq y
  | .concat xs, .concat ys => Expr.beqAll xs ys
  | .binary f a x, .binary g b y => f = g && a.beq b && x.beq y
  | _, _ => false

def Expr.beqAll : List Expr → List Expr → Bool
  | [], [] => true
  | x :: xs, y :: ys => x.beq y && Expr.beqAll xs ys
  | _, _ => false

end

instance : BEq Expr := ⟨Expr.beq⟩

def Function.beq (f g : Function) : Bool :=
  f.name = g.name && f.parameters = g.parameters && f.body == g.body

instance : BEq Function := ⟨Function.beq⟩

def Program.beq (p q : Program) : Bool :=
  p.functions == q.functions && p.body == q.body

instance : BEq Program := ⟨Program.beq⟩

end Sigil
