import Sigil.Value

/-! The heap: a value for every live address. -/
namespace Sigil

abbrev Heap := List (Nat × Value)

namespace Heap

def load? (h : Heap) (address : Nat) : Option Value := h.lookup address

def isLive (h : Heap) (address : Nat) : Bool := (h.load? address).isSome

def allocate (h : Heap) (address : Nat) : Heap := (address, .zero) :: h

def release (h : Heap) (address : Nat) : Heap := h.filter (·.1 ≠ address)

def store (h : Heap) (address : Nat) (v : Value) : Heap :=
  h.map fun (a, w) => if a = address then (a, v) else (a, w)

theorem load?_cons (a : Nat) (v : Value) (h : Heap) (b : Nat) :
    Heap.load? ((a, v) :: h) b = if b = a then some v else h.load? b := by
  by_cases hb : b = a
  · simp [load?, hb]
  · have : (b == a) = false := by simpa using hb
    simp [load?, List.lookup_cons, hb, this]

theorem load?_allocate (h : Heap) (a b : Nat) :
    (h.allocate a).load? b = if b = a then some .zero else h.load? b :=
  load?_cons a .zero h b

theorem load?_release (h : Heap) (a b : Nat) :
    (h.release a).load? b = if b = a then none else h.load? b := by
  induction h with
  | nil => simp [release, load?]
  | cons e h ih =>
    obtain ⟨c, w⟩ := e
    by_cases hc : c = a
    · have hrelease : Heap.release ((c, w) :: h) a = release h a := by simp [release, hc]
      rw [hrelease, ih, load?_cons, hc]
      split <;> rfl
    · have hrelease : Heap.release ((c, w) :: h) a = (c, w) :: release h a := by simp [release, hc]
      rw [hrelease, load?_cons, load?_cons, ih]
      by_cases hb : b = c
      · rw [if_pos hb, if_pos hb, if_neg (hb ▸ hc)]
      · rw [if_neg hb, if_neg hb]

theorem load?_store (h : Heap) (a b : Nat) (v : Value) :
    (h.store a v).load? b = if b = a then (h.load? b).map fun _ => v else h.load? b := by
  induction h with
  | nil => simp [store, load?]
  | cons e h ih =>
    obtain ⟨c, w⟩ := e
    have hstore : Heap.store ((c, w) :: h) a v =
        (c, if c = a then v else w) :: store h a v := by
      by_cases hc : c = a
      · simp [store, hc]
      · simp [store, hc]
    rw [hstore, load?_cons, load?_cons, ih]
    by_cases hb : b = c
    · subst hb
      by_cases hc : b = a
      · simp [hc]
      · simp [hc]
    · rw [if_neg hb, if_neg hb]

end Heap
end Sigil
