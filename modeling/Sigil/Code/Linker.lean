import Sigil.Code.Basic

/-!
Linking: calls are emitted before their functions have an address, and remembered; linking sets
their targets in the order of the calls. Of the addresses bound to a name the last one counts.
-/
namespace Sigil

inductive LinkError where
  | unresolved (name : String)
  | notACall (address : Nat)
deriving DecidableEq, Repr

def LinkError.message : LinkError → String
  | unresolved name => "Call to " ++ name ++ " could not be resolved"
  | notACall address => "Instruction at " ++ Text.address address ++ " is not a call"

structure Linker where
  addresses : List (String × Nat)
  sites : List (Nat × String)
deriving DecidableEq, Repr

namespace Linker

def empty : Linker := ⟨[], []⟩

def bind (l : Linker) (name : String) (address : Nat) : Linker :=
  { l with addresses := (name, address) :: l.addresses }

def address? (l : Linker) (name : String) : Option Nat := l.addresses.lookup name

def unlinked : Instruction := .call 0

def call (l : Linker) (code : Code) (name : String) : Linker × Code :=
  ({ l with sites := l.sites ++ [(code.size, name)] }, code.emit unlinked)

/-- Stops at the first call that cannot be linked; the calls before it stay linked. -/
def linkSites (l : Linker) : List (Nat × String) → EStateM LinkError Code Unit
  | [] => pure ()
  | (site, name) :: sites => do
    match l.address? name with
    | none => throw (.unresolved name)
    | some target =>
      match (← get).patch? site target with
      | none => throw (.notACall site)
      | some code =>
        set code
        l.linkSites sites

def link : EStateM LinkError (Linker × Code) Unit := fun (l, code) =>
  match l.linkSites l.sites code with
  | .ok _ code => .ok () ({ l with sites := [] }, code)
  | .error e code => .error e ({ l with sites := [] }, code)

end Linker
end Sigil
