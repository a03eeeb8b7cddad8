import Sigil.Proofs.Draft.Basic

/-! Code in another place: jumps lead to other addresses, and other heap cells are used. -/
namespace Sigil

def Operand.relocate (cell : Nat → Nat) : Operand → Operand
  | .heap address => .heap (cell address)
  | o => o

def Instruction.relocate (jump cell : Nat → Nat) : Instruction → Instruction
  | .move a b => .move (a.relocate cell) (b.relocate cell)
  | .push a => .push (a.relocate cell)
  | .pop a => .pop (a.relocate cell)
  | .drop n => .drop n
  | .binary op a b => .binary op (a.relocate cell) (b.relocate cell)
  | .not a => .not (a.relocate cell)
  | .call target => .call target
  | .result a => .result (a.relocate cell)
  | .exit a => .exit (a.relocate cell)
  | .goto target => .goto (jump target)
  | .jumpUnless a target => .jumpUnless (a.relocate cell) (jump target)
  | .new address => .new (cell address)
  | .release address => .release (cell address)

theorem Operand.relocate_id (o : Operand) : o.relocate id = o := by cases o <;> rfl

theorem Instruction.relocate_id (i : Instruction) : i.relocate id id = i := by
  cases i <;> simp [relocate, Operand.relocate_id]

theorem Instruction.retarget?_relocate (cell : Nat → Nat) (target : Nat) (i : Instruction) :
    (i.relocate id cell).retarget? target = (i.retarget? target).map (relocate id cell) := by
  cases i <;> rfl

namespace Code

def rename (cell : Nat → Nat) (code : Code) : Code :=
  { code with instructions := code.instructions.map (Instruction.relocate id cell) }

variable {cell : Nat → Nat} {code : Code}

@[simp] theorem size_rename : (code.rename cell).size = code.size := by
  simp [size, rename]

theorem rename_empty : Code.empty.rename cell = .empty := by simp [rename, empty]

theorem rename_emit (i : Instruction) :
    (code.emit i).rename cell = (code.rename cell).emit (i.relocate id cell) := by
  simp [emit, rename, Array.map_push]

theorem rename_label (address : Nat) (name : String) :
    (code.label address name).rename cell = (code.rename cell).label address name := rfl

theorem get?_rename (address : Nat) :
    (code.rename cell).get? address = (code.get? address).map (Instruction.relocate id cell) := by
  simp [get?, rename]

theorem patch?_rename (address target : Nat) :
    (code.rename cell).patch? address target = (code.patch? address target).map (rename cell) := by
  unfold patch?
  rw [get?_rename]
  cases code.get? address with
  | none => rfl
  | some i =>
    simp only [Option.map_some, Option.bind_eq_bind, Option.bind_some,
      Instruction.retarget?_relocate]
    cases i.retarget? target with
    | none => rfl
    | some j => simp [rename]

end Code
end Sigil
