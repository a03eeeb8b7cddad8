import Sigil.Expr.Basic
import Sigil.Expr.SyntaxError

/-!
Reading programs off tokens. Every form is announced by its first token, save that a name is a call
only in front of a brace and an assignment sign opens a binding only in front of a parenthesis. A
reader that has seen the first token of its form either succeeds or ends the reading; `none` says
that no form begins here. What is left is shorter than what was there, and readers recurse on it.
-/
namespace Sigil

/-- A value read off the front of a token list, and what is left: fewer than `n` tokens. -/
structure Parsed (α : Type) (n : Nat) where
  value : α
  rest : List Token
  shorter : rest.length < n

namespace Parser

abbrev Path := List Rule

abbrev Reading (α : Type) := Except SyntaxError α

def fail {α : Type} (path : Path) (cause : SyntaxCause) (ts : List Token) : Reading α :=
  .error ⟨cause, path, ts.head?⟩

def next (path : Path) : (ts : List Token) → Reading (Parsed Token ts.length)
  | [] => fail path .prematureEnd []
  | t :: ts =>
    if t.kind = .eof then fail path .prematureEnd (t :: ts) else .ok ⟨t, ts, by simp⟩

def expect (path : Path) (kind : Kind) (ts : List Token) : Reading (Parsed Unit ts.length) := do
  let ⟨t, rest, h⟩ ← next path ts
  if t.kind = kind then return ⟨(), rest, h⟩ else fail path (.expected kind) ts

def name (path : Path) (place : NamePlace) (ts : List Token) :
    Reading (Parsed String ts.length) := do
  let ⟨t, rest, h⟩ ← next path ts
  if t.kind = .identifier then return ⟨t.lexeme, rest, h⟩ else fail path (.noName place) ts

def parameters (path : Path) (ts : List Token) : Reading (Parsed (List String) ts.length) := do
  let ⟨t, rest, h⟩ ← next path ts
  if t.kind = .identifier then
    let ⟨names, rest, h⟩ ← parameters path rest
    return ⟨t.lexeme :: names, rest, by omega⟩
  else if t.kind = .rightParen then return ⟨[], rest, h⟩
  else fail path (.noName .parameter) ts
termination_by ts.length

def startsWith (kind : Kind) (ts : List Token) : Bool := ts.head?.any (·.kind = kind)

def numeral? (lexeme : String) : Option Float :=
  (Number.read? lexeme).filter Number.isFinite

def increment (path : Path) (a : Arithmetic) (ts : List Token) :
    Reading (Parsed Expr ts.length) := do
  let ⟨x, rest, h⟩ ← name path .increment ts
  return ⟨.binary (.update a) (.variable x) (.literal (.number 1)), rest, h⟩

mutual

/-- An expression, or `none` if no form begins here. A parenthesis opens a group of one expression
and any number of infix operators with their right operands. -/
def expression (path : Path) (ts : List Token) : Reading (Option (Parsed Expr ts.length)) := do
  let path := .expression :: path
  let ⟨t, inner, h⟩ ← next path ts
  if t.kind = .leftParen then
    match ← if startsWith .leftParen inner then expression path inner else form path inner with
    | some ⟨e, rest, h⟩ =>
      let ⟨e, rest, h⟩ ← closeGroup path e rest
      return some ⟨e, rest, by omega⟩
    | none => return none
  else form path ts
termination_by 4 * ts.length + 1

def form (path : Path) (ts : List Token) : Reading (Option (Parsed Expr ts.length)) := do
  let ⟨t, rest, h⟩ ← next (.letIn :: path) ts
  let widen (p : Parsed Expr rest.length) : Option (Parsed Expr ts.length) :=
    some ⟨p.value, p.rest, Nat.lt_trans p.shorter h⟩
  match t.kind with
  | .assign => do
    let _ ← next (.letIn :: path) rest
    if startsWith .leftParen rest then return widen (← letIn (.letIn :: path) rest)
    else return widen (← assign (.assign :: .binary :: path) rest)
  | .matchAll => return widen (← select (.select :: .unary :: path) .all rest)
  | .matchFirst => return widen (← select (.select :: .unary :: path) .first rest)
  | .concat => return widen (← concat (.concat :: .unary :: path) rest)
  | .not => do
    let ⟨e, rest, h⟩ ← required (.not :: .unary :: path) .notOperand rest
    return some ⟨.not e, rest, by omega⟩
  | .plusPlus => return widen (← increment (.increment :: .unary :: path) .add rest)
  | .minusMinus => return widen (← increment (.increment :: .unary :: path) .subtract rest)
  | .loop => do
    let path := .loop :: .binary :: path
    let ⟨condition, rest, h⟩ ← required path .loopCondition rest
    let ⟨body, rest, h⟩ ← required path .loopBody rest
    return some ⟨.loop condition body, rest, by omega⟩
  | .identifier =>
    if startsWith .leftBrace rest then
      return widen (← call (.call :: .unary :: path) t.lexeme rest)
    else return some ⟨.variable t.lexeme, rest, h⟩
  | .string => return some ⟨.literal (.string t.lexeme), rest, h⟩
  | .number =>
    match numeral? t.lexeme with
    | some x => return some ⟨.literal (.number x), rest, h⟩
    | none => fail path (.invalidNumber t.lexeme) ts
  | kind =>
    match Operator.ofKind? kind with
    | some op => do
      let path := .binary :: path
      let ⟨left, rest, h⟩ ← required path .leftOperand rest
      let ⟨right, rest, h⟩ ← required path .rightOperand rest
      return some ⟨.binary op left right, rest, by omega⟩
    | none => return none
termination_by 4 * ts.length

def required (path : Path) (place : ExprPlace) (ts : List Token) :
    Reading (Parsed Expr ts.length) := do
  match ← expression path ts with
  | some p => return p
  | none => fail path (.noExpression place) ts
termination_by 4 * ts.length + 2

def expressions (path : Path) (ts : List Token) :
    Reading (Parsed (List Expr) (ts.length + 1)) := do
  match ← expression path ts with
  | some ⟨e, rest, h⟩ =>
    let ⟨es, rest, h⟩ ← expressions path rest
    return ⟨e :: es, rest, by omega⟩
  | none => return ⟨[], ts, by omega⟩
termination_by 4 * ts.length + 2

def arms (path : Path) (ts : List Token) :
    Reading (Parsed (List Expr × List Expr) (ts.length + 1)) := do
  match ← expression path ts with
  | some ⟨condition, rest, h⟩ =>
    match ← expression path rest with
    | some ⟨branch, rest, h⟩ =>
      let ⟨(conditions, branches), rest, h⟩ ← arms path rest
      return ⟨(condition :: conditions, branch :: branches), rest, by omega⟩
    | none => fail path .missingBranch rest
  | none => return ⟨([], []), ts, by omega⟩
termination_by 4 * ts.length + 2

def closeGroup (path : Path) (left : Expr) (ts : List Token) :
    Reading (Parsed Expr ts.length) := do
  match ts.head?.bind fun t => Operator.ofKind? t.kind with
  | some op =>
    let ⟨_, rest, h⟩ ← next path ts
    let ⟨right, rest, h⟩ ← required path .infixOperand rest
    let ⟨e, rest, h⟩ ← closeGroup path (.binary op left right) rest
    return ⟨e, rest, by omega⟩
  | none =>
    let ⟨_, rest, h⟩ ← expect path .rightParen ts
    return ⟨left, rest, h⟩
termination_by 4 * ts.length

def letIn (path : Path) (ts : List Token) : Reading (Parsed Expr ts.length) := do
  let ⟨_, rest, h⟩ ← expect path .leftParen ts
  let ⟨names, rest, h⟩ ← parameters path rest
  let ⟨_, rest, h⟩ ← expect path .leftParen rest
  let ⟨values, rest, h⟩ ← expressions path rest
  if names.length ≠ values.length then
    fail path (.letArity names.length values.length) rest
  else
    let ⟨_, rest, h⟩ ← expect path .rightParen rest
    let ⟨body, rest, h⟩ ← required path .letBody rest
    return ⟨.letIn names values body, rest, by omega⟩
termination_by 4 * ts.length + 3

def assign (path : Path) (ts : List Token) : Reading (Parsed Expr ts.length) := do
  let ⟨x, rest, h⟩ ← name path .assign ts
  let ⟨value, rest, h⟩ ← required path .assignedValue rest
  return ⟨.assign x value, rest, by omega⟩
termination_by 4 * ts.length + 3

def select (path : Path) (mode : Mode) (ts : List Token) : Reading (Parsed Expr ts.length) := do
  let ⟨_, inner, h⟩ ← expect path .leftParen ts
  let ⟨(conditions, branches), rest, h⟩ ← arms path inner
  if conditions.isEmpty then fail path .emptySelection rest
  else
    let ⟨_, rest, h⟩ ← expect path .rightParen rest
    return ⟨.select mode conditions branches, rest, by omega⟩
termination_by 4 * ts.length + 3

def call (path : Path) (f : String) (ts : List Token) : Reading (Parsed Expr ts.length) := do
  let ⟨_, rest, h⟩ ← expect path .leftBrace ts
  let ⟨arguments, rest, h⟩ ← expressions path rest
  let ⟨_, rest, h⟩ ← expect path .rightBrace rest
  return ⟨.call f arguments, rest, by omega⟩
termination_by 4 * ts.length + 3

def concat (path : Path) (ts : List Token) : Reading (Parsed Expr ts.length) := do
  let ⟨_, rest, h⟩ ← expect path .leftParen ts
  let ⟨parts, rest, h⟩ ← expressions path rest
  let ⟨_, rest, h⟩ ← expect path .rightParen rest
  return ⟨.concat parts, rest, by omega⟩
termination_by 4 * ts.length + 3

end

def function (path : Path) (ts : List Token) : Reading (Parsed Function ts.length) := do
  let ⟨f, rest, h⟩ ← name path .function ts
  let ⟨_, rest, h⟩ ← expect path .leftParen rest
  let ⟨names, rest, h⟩ ← parameters path rest
  let ⟨_, rest, h⟩ ← expect path .leftParen rest
  let ⟨body, rest, h⟩ ← required path .functionBody rest
  let ⟨body, rest, h⟩ ← closeGroup path body rest
  return ⟨⟨f, names, body⟩, rest, by omega⟩

def functions (path : Path) (ts : List Token) :
    Reading (Parsed (List Function) (ts.length + 1)) := do
  let ⟨t, rest, h⟩ ← next (.function :: path) ts
  if t.kind = .function then
    let ⟨f, rest, h⟩ ← function (.function :: path) rest
    let ⟨fs, rest, h⟩ ← functions path rest
    return ⟨f :: fs, rest, by omega⟩
  else return ⟨[], ts, by omega⟩
termination_by ts.length

end Parser

def Program.ofTokens (ts : List Token) : Except SyntaxError Program := do
  let path := [.program]
  let ⟨functions, rest, _⟩ ← Parser.functions path ts
  let ⟨body, rest, _⟩ ← Parser.required path .programBody rest
  if rest.head?.any (·.kind ≠ .eof) then Parser.fail path .trailingInput rest
  else return ⟨functions, body⟩

end Sigil
