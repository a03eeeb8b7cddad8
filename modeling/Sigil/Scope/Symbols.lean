import Sigil.Scope.Error

/-!
The symbol table: the arities of the functions and a stack of scopes, innermost first. All ids come
from one counter, so that no id is ever given twice, not even after a scope is closed or fails to
open. Within a scope the name bound last comes first.
-/
namespace Sigil

structure Symbols where
  functions : List (String × Nat)
  scopes : List (List (String × Nat))
  lastId : Nat
deriving DecidableEq, Repr

namespace Symbols

def empty : Symbols := ⟨[], [], 0⟩

abbrev Update := EStateM SemanticError Symbols

def freshId : Update Nat := do
  modify fun s => { s with lastId := s.lastId + 1 }
  return (← get).lastId

def arity? (s : Symbols) (name : String) : Option Nat := s.functions.lookup name

def depth (s : Symbols) : Nat := s.scopes.length

def binding? (s : Symbols) (name : String) : Option Nat :=
  s.scopes.findSome? fun scope => scope.lookup name

def register (name : String) (arity : Nat) : Update Nat := do
  if ((← get).arity? name).isSome then throw (.functionRedeclared name)
  else
    let id ← freshId
    modify fun s => { s with functions := (name, arity) :: s.functions }
    return id

def bindNames (scope : List (String × Nat)) : List String → Update (List (String × Nat))
  | [] => return scope
  | name :: names => do
    if (scope.lookup name).isSome then throw (.duplicateBinding name)
    else
      let id ← freshId
      bindNames ((name, id) :: scope) names

def pushScope (names : List String) : Update (List Nat) := do
  let scope ← bindNames [] names
  modify fun s => { s with scopes := scope :: s.scopes }
  return scope.reverse.map Prod.snd

def popScope (s : Symbols) : Symbols := { s with scopes := s.scopes.tail }

end Symbols
end Sigil
