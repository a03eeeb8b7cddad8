import Sigil.Code.Instruction

/-! Code: instructions by address, and the names of the blocks that start among them. -/
namespace Sigil

structure Code where
  instructions : Array Instruction
  labels : List (Nat × String)

namespace Code

def empty : Code := ⟨#[], []⟩

def size (code : Code) : Nat := code.instructions.size

def get? (code : Code) (address : Nat) : Option Instruction := code.instructions[address]?

def emit (code : Code) (i : Instruction) : Code :=
  { code with instructions := code.instructions.push i }

def label (code : Code) (address : Nat) (name : String) : Code :=
  { code with labels := code.labels ++ [(address, name)] }

def patch? (code : Code) (address target : Nat) : Option Code := do
  let i ← (← code.get? address).retarget? target
  return { code with instructions := code.instructions.setIfInBounds address i }

def labelLines (code : Code) (address : Nat) : String :=
  String.join ((code.labels.filter (·.1 = address)).map fun l => l.2 ++ ":\n")

def line (address : Nat) (i : Instruction) : String :=
  Text.address address ++ "\t" ++ i.render ++ "\n"

def listing (code : Code) : String :=
  String.join (code.instructions.toList.zipIdx.map fun (i, address) =>
    code.labelLines address ++ line address i)

@[simp] theorem size_emit (code : Code) (i : Instruction) :
    (code.emit i).size = code.size + 1 := by
  simp [size, emit]

theorem get?_emit (code : Code) (i : Instruction) (address : Nat) :
    (code.emit i).get? address = if address = code.size then some i else code.get? address :=
  Array.getElem?_push

theorem lt_size {code : Code} {address : Nat} {i : Instruction} (h : code.get? address = some i) :
    address < code.size :=
  (Array.getElem?_eq_some_iff.1 h).1

theorem patch?_eq_some {code patched : Code} {address target : Nat} :
    code.patch? address target = some patched ↔
      ∃ i j, code.get? address = some i ∧ i.retarget? target = some j ∧
        patched = { code with instructions := code.instructions.setIfInBounds address j } := by
  simp only [patch?, Option.bind_eq_bind, Option.bind_eq_some_iff, Option.pure_def,
    Option.some.injEq]
  constructor
  · rintro ⟨i, hi, j, hj, rfl⟩; exact ⟨i, j, hi, hj, rfl⟩
  · rintro ⟨i, j, hi, hj, rfl⟩; exact ⟨i, hi, j, hj, rfl⟩

theorem size_of_patch? {code patched : Code} {address target : Nat}
    (h : code.patch? address target = some patched) : patched.size = code.size := by
  obtain ⟨i, j, -, -, rfl⟩ := patch?_eq_some.1 h
  simp [size]

theorem get?_of_patch? {code patched : Code} {address target other : Nat}
    (h : code.patch? address target = some patched) (ho : other ≠ address) :
    patched.get? other = code.get? other := by
  obtain ⟨i, j, -, -, rfl⟩ := patch?_eq_some.1 h
  simp [get?, ho.symm]

end Code
end Sigil
