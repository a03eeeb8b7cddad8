import Sigil.Expr.Basic
import Sigil.Text.Column

/-! Programs as text, with operators before their operands. -/
namespace Sigil

def Value.literalText : Value → String
  | .number x => Number.render x
  | .string s => "'" ++ s ++ "'"

def Mode.symbol : Mode → String
  | all => "@"
  | first => "|"

def armsText : List String → List String → String
  | c :: cs, b :: bs => c ++ " " ++ b ++ (if cs = [] then "" else " ") ++ armsText cs bs
  | _, _ => ""

mutual

def Expr.render : Expr → String
  | .literal v => v.literalText
  | .variable name => name
  | .assign name value => "(: " ++ name ++ " " ++ value.render ++ ")"
  | .letIn names values body =>
    "(:(" ++ Text.spaced names ++ ")(" ++ Text.spaced (Expr.renderAll values) ++ ") " ++
      body.render ++ ")"
  | .loop condition body => "(^ " ++ condition.render ++ " " ++ body.render ++ ")"
  | .select mode conditions branches =>
    mode.symbol ++ "(" ++ armsText (Expr.renderAll conditions) (Expr.renderAll branches) ++ ")"
  | .call name arguments =>
    name ++ "\x7b" ++ Text.spaced (Expr.renderAll arguments) ++ "\x7d"
  | .not operand => "!" ++ operand.render
  | .concat parts => ".(" ++ Text.spaced (Expr.renderAll parts) ++ ")"
  | .binary op left right =>
    "(" ++ op.symbol ++ " " ++ left.render ++ " " ++ right.render ++ ")"

def Expr.renderAll : List Expr → List String
  | [] => []
  | e :: es => e.render :: Expr.renderAll es

end

theorem Expr.renderAll_eq_map (es : List Expr) : Expr.renderAll es = es.map Expr.render := by
  induction es with
  | nil => rfl
  | cons e es ih => rw [Expr.renderAll, ih, List.map_cons]

def Function.render (f : Function) : String :=
  "~" ++ f.name ++ "(" ++ Text.spaced f.parameters ++ ")(" ++ f.body.render ++ ")"

def Program.render (p : Program) : String :=
  String.join (p.functions.map fun f => f.render ++ "\n") ++ p.body.render

end Sigil
