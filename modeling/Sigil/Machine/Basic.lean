import Sigil.Machine.Fault
import Sigil.Machine.Stack
import Sigil.Machine.Heap
import Sigil.Code.Basic

/-!
Machines and the access to their values. A refused access leaves the machine as it was. Return addresses
are innermost first.
-/
namespace Sigil

structure Config where
  stackSize : Nat
  stepLimit : Option Nat
deriving DecidableEq, Repr

def Config.default : Config := ⟨1024, none⟩

inductive Status where
  | running | halted | faulted
deriving DecidableEq, Repr

def Status.name : Status → String
  | running => "running"
  | halted => "halted"
  | faulted => "faulted"

structure Machine where
  stack : Stack
  heap : Heap
  pc : Nat
  returns : List Nat
  accumulator : Value
  status : Status
  stepLimit : Option Nat
  steps : Nat

abbrev Action := EStateM Fault Machine

namespace Machine

def start (config : Config) : Machine where
  stack := .ofLimit config.stackSize
  heap := []
  pc := 0
  returns := []
  accumulator := .zero
  status := .running
  stepLimit := config.stepLimit
  steps := 0

def read (m : Machine) : Operand → Except Fault Value
  | .stack offset =>
    match m.stack.get? offset with
    | some v => .ok v
    | none => .error (.stackOutOfBounds offset)
  | .heap address =>
    match m.heap.load? address with
    | some v => .ok v
    | none => .error (.useAfterRelease address)
  | .register id => if id = 0 then .ok m.accumulator else .error (.invalidRegister id)
  | .constant v => .ok v

def fetch (source : Operand) : Action Value := fun m =>
  match m.read source with
  | .ok v => .ok v m
  | .error fault => .error fault m

def store (target : Operand) (v : Value) : Action Unit := fun m =>
  match target with
  | .stack offset =>
    match m.stack.index? offset with
    | some i => .ok () { m with stack := m.stack.set i v }
    | none => .error (.stackOutOfBounds offset) m
  | .heap address =>
    if m.heap.isLive address then .ok () { m with heap := m.heap.store address v }
    else .error (.useAfterRelease address) m
  | .register id =>
    if id = 0 then .ok () { m with accumulator := v } else .error (.invalidRegister id) m
  | .constant _ => .error .constantAssignment m

end Machine
end Sigil
