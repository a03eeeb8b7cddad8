import Sigil.Proofs.Session.Additions

/-!
Lowering an expression is neutral: it appends code, calls to be linked and slots of new ids, and leaves
everything else as it finds it. This holds wherever the ids of the slots are not above the last one given
out.
-/
namespace Sigil

structure Neutral (s : Lowering) (cells : Nat) (t : Lowering) : Prop where
  offset : t.offset = s.offset
  scopes : t.symbols.scopes = s.symbols.scopes
  functions : t.symbols.functions = s.symbols.functions
  instructions : s.code.instructions.toList <+: t.code.instructions.toList
  labels : t.code.labels = s.code.labels
  /-- The calls that are remembered in addition are among the new instructions. -/
  sites : ∃ added, t.linker.sites = s.linker.sites ++ added ∧ ∀ call ∈ added,
    s.code.size ≤ call.1 ∧ ∃ target, t.code.get? call.1 = some (.call target)
  slots : ∀ id slot, s.slots.lookup id = some slot → t.slots.lookup id = some slot
  newKeys : ∀ e ∈ t.slots, e ∈ s.slots ∨ s.symbols.lastId < e.1
  keys : ∀ e ∈ t.slots, e.1 ≤ t.symbols.lastId
  /-- The new instructions lead to one another, or right behind the last one. -/
  jumps : ∀ address i target, s.code.size ≤ address → t.code.get? address = some i →
    i.jump? = some target → s.code.size ≤ target ∧ target ≤ t.code.size
  nextHeap : t.nextHeap = s.nextHeap + cells

namespace Lowering

variable {s t : Lowering}

/-- Neutrality is what a success adds that raises nothing and leaves no jump pending. -/
theorem Adds.neutral {cells : Nat} (h : Adds s 0 cells [] t)
    (hs : ∀ e ∈ s.slots, e.1 ≤ s.symbols.lastId) : Neutral s cells t := by
  obtain ⟨new, hnew, hid⟩ := h.slots
  exact
    { offset := by rw [h.offset, Int.add_zero]
      scopes := h.scopes
      functions := h.functions
      instructions := by
        refine List.prefix_iff_getElem?.2 fun address haddress => ?_
        have hkept := h.kept address haddress
        simpa [Code.get?, Array.getElem?_eq_getElem haddress] using hkept
      labels := h.labels
      sites := h.sites
      slots := by
        intro id slot hslot
        have hfree : new.lookup id = none := by
          refine List.lookup_eq_none_iff.2 fun e he => ?_
          have := hs _ (mem_of_lookup hslot)
          have := (hid e he).1
          simp only [bne_iff_ne, ne_eq]
          omega
        rw [hnew, List.lookup_append, hfree, Option.none_or, hslot]
      newKeys := by
        rw [hnew]
        exact List.forall_mem_append.2 ⟨fun e he => .inr (hid e he).1, fun e he => .inl he⟩
      keys := h.keys hs
      jumps := fun address i target haddress => h.jumps address i target haddress nofun
      nextHeap := h.nextHeap }

end Lowering

/-- Wherever the ids of the slots are not above the last one given out, lowering is neutral. -/
theorem Expr.lower_neutral {e : Expr} {s t : Lowering} (hs : ∀ k ∈ s.slots, k.1 ≤ s.symbols.lastId)
    (h : e.lower s = .ok () t) : Neutral s e.concats t :=
  (Lowering.raises_expr e s () t h).neutral hs

def midway : Lowering where
  code := ⟨#[.push (.constant .zero)], [(0, "main")]⟩
  linker := .empty
  symbols := ⟨[("f", 1)], [[("x", 2)]], 2⟩
  slots := [(2, 0)]
  offset := 1
  nextHeap := 3

def Expr.calling : Expr :=
  .loop (.variable "x") (.letIn ["y"] [.concat [.variable "x"]] (.call "f" [.variable "y"]))

/-- The loop takes one heap cell, and its call is remembered. -/
theorem Expr.calling_neutral :
    ∃ t, calling.lower midway = .ok () t ∧ Neutral midway 1 t ∧ t.linker.sites = [(16, "f")] := by
  obtain ⟨t, ht, hsites⟩ : ∃ t, calling.lower midway = .ok () t ∧ t.linker.sites = [(16, "f")] :=
    ⟨_, rfl, rfl⟩
  exact ⟨t, ht, lower_neutral (by decide) ht, hsites⟩

end Sigil
