import Sigil.Value

/-!
The value stack. Cells are addressed from the base of the current frame; the bases of the frames
below are saved, outermost first, and count against the same limit as the cells.
-/
namespace Sigil

structure Stack where
  cells : Array Value
  base : Nat
  saved : Array Nat
  limit : Nat

namespace Stack

def ofLimit (limit : Nat) : Stack := ⟨#[], 0, #[], limit⟩

def height (s : Stack) : Nat := s.cells.size

def hasRoom (s : Stack) : Bool := s.cells.size + s.saved.size < s.limit

def index? (s : Stack) (offset : Int) : Option Nat :=
  let i := s.base + offset
  if 0 ≤ i ∧ i < s.cells.size then some i.toNat else none

def get? (s : Stack) (offset : Int) : Option Value :=
  (s.index? offset).bind fun i => s.cells[i]?

@[inline] def set (s : Stack) (i : Nat) (v : Value) : Stack :=
  { s with cells := s.cells.setIfInBounds i v }

@[inline] def push (s : Stack) (v : Value) : Stack := { s with cells := s.cells.push v }

@[inline] def drop (s : Stack) (n : Nat) : Stack :=
  { s with cells := s.cells.shrink (s.cells.size - n) }

def holds (s : Stack) (n : Nat) : Bool := s.base + n ≤ s.cells.size

def top? (s : Stack) : Option Value := if s.holds 1 then s.cells.back? else none

@[inline] def pushFrame (s : Stack) : Stack :=
  { s with base := s.cells.size, saved := s.saved.push s.base }

@[inline] def popFrame (s : Stack) (base : Nat) : Stack :=
  { s with cells := s.cells.shrink s.base, base := base, saved := s.saved.pop }

def render (s : Stack) : String :=
  String.join (s.cells.toList.zipIdx.map fun (v, i) =>
    (if i = s.base then "| " else "") ++ "[ " ++ v.render ++ " ]")

@[simp] theorem height_set (s : Stack) (i : Nat) (v : Value) : (s.set i v).height = s.height := by
  simp [height, set]

@[simp] theorem height_push (s : Stack) (v : Value) : (s.push v).height = s.height + 1 := by
  simp [height, push]

@[simp] theorem height_drop (s : Stack) (n : Nat) : (s.drop n).height = s.height - n := by
  simp [height, drop]

@[simp] theorem height_pushFrame (s : Stack) : s.pushFrame.height = s.height := rfl

@[simp] theorem height_popFrame (s : Stack) (base : Nat) :
    (s.popFrame base).height = min s.base s.height := by
  simp [height, popFrame]

theorem getElem?_shrink (cells : Array Value) {i n : Nat} (h : i < n) :
    (cells.shrink n)[i]? = cells[i]? := by
  rw [← Array.getElem?_toList, Array.toList_shrink, List.getElem?_take, if_pos h,
    Array.getElem?_toList]

theorem index?_eq_some {s : Stack} {offset : Int} {i : Nat} :
    s.index? offset = some i ↔ (i : Int) = s.base + offset ∧ i < s.height := by
  simp only [index?, height]
  split <;> simp <;> omega

end Stack
end Sigil
