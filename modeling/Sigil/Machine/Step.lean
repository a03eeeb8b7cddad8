import Sigil.Machine.Basic

/-! What a machine does in one step. -/
namespace Sigil.Machine

def push (v : Value) : Action Unit := fun m =>
  if m.stack.hasRoom then .ok () { m with stack := m.stack.push v }
  else .error (.stackOverflow m.stack.limit) m

def pop : Action Value := fun m =>
  match m.stack.top? with
  | some v => .ok v { m with stack := m.stack.drop 1 }
  | none => .error .stackUnderflow m

def drop (n : Nat) : Action Unit := fun m =>
  if m.stack.holds n then .ok () { m with stack := m.stack.drop n }
  else .error .stackUnderflow m

def call (target : Nat) : Action Unit := fun m =>
  if m.stack.hasRoom then
    .ok () { m with stack := m.stack.pushFrame, returns := m.pc :: m.returns, pc := target }
  else .error (.stackOverflow m.stack.limit) m

def leave : Action Unit := fun m =>
  match m.returns with
  | [] => .error .returnOutsideFunction m
  | pc :: returns => .ok () { m with pc, returns }

def popFrame : Action Unit := fun m =>
  match m.stack.saved.back? with
  | none => .error .stackUnderflow m
  | some base => .ok () { m with stack := m.stack.popFrame base }

def jump (target : Nat) : Action Unit := fun m => .ok () { m with pc := target }

def accumulate (v : Value) : Action Unit := fun m => .ok () { m with accumulator := v }

def halt : Action Unit := fun m => .ok () { m with status := .halted }

def allocate (address : Nat) : Action Unit := fun m =>
  if m.heap.isLive address then .error (.doubleAllocation address) m
  else .ok () { m with heap := m.heap.allocate address }

def release (address : Nat) : Action Unit := fun m =>
  if m.heap.isLive address then .ok () { m with heap := m.heap.release address }
  else .error (.invalidRelease address) m

def combine (op : Operation) (a b : Value) : Action Value :=
  match op.apply a b with
  | .ok v => return v
  | .error cause => throw (.typeMismatch cause)

/-- The program counter has already gone on to the next instruction. -/
def execute : Instruction → Action Unit
  | .move target source => do store target (← fetch source)
  | .push source => do push (← fetch source)
  | .pop target => do store target (← pop)
  | .drop n => drop n
  | .binary op target source => do
    let a ← fetch target
    let b ← fetch source
    store target (← combine op a b)
  | .not target => do store target (.ofBool !(← fetch target).isTruthy)
  | .call target => call target
  | .result source => do
    let v ← fetch source
    leave
    popFrame
    accumulate v
  | .exit source => do
    accumulate (← fetch source)
    halt
  | .goto target => jump target
  | .jumpUnless source target => do
    unless (← fetch source).isTruthy do jump target
  | .new address => allocate address
  | .release address => release address

def exhausted? (m : Machine) : Option Nat := m.stepLimit.filter (· ≤ m.steps)

def upcoming? (code : Code) (m : Machine) : Option Instruction :=
  if m.status = .running ∧ m.exhausted? = none then code.get? m.pc else none

/-- A refused step counts only if the limit allowed it. -/
def cycle (code : Code) : Action Unit := fun m =>
  match m.exhausted? with
  | some limit => .error (.stepLimitExceeded limit) m
  | none =>
    match code.get? m.pc with
    | none => .error (.pcOutOfBounds m.pc) { m with steps := m.steps + 1 }
    | some i => execute i { m with steps := m.steps + 1, pc := m.pc + 1 }

def step (code : Code) : Action Unit := fun m =>
  if m.status = .running then
    match cycle code m with
    | .ok _ m => .ok () m
    | .error fault m => .error fault { m with status := .faulted }
  else .error .notRunning m

/-- A run of at most `n` steps: the value of a machine that halts, or `none` while it runs. -/
def run (code : Code) (n : Nat) : Action (Option Value) := fun m =>
  match m.status with
  | .halted => .ok (some m.accumulator) m
  | .faulted => .error .notRunning m
  | .running =>
    match n with
    | 0 => .ok none m
    | n + 1 =>
      match step code m with
      | .ok _ m => run code n m
      | .error fault m => .error fault m

end Sigil.Machine
