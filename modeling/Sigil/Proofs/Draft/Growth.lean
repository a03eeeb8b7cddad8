import Sigil.Proofs.Draft.Basic
import Sigil.Proofs.Lookup
import Sigil.Proofs.Machine.Run

/-!
What lowering adds to its state: a draft, with its calls yet to be linked, and slots of new ids.
Everything that was there stays, save that jumps of the draft are patched.
-/
namespace Sigil

def Draft.unlinked : Draft → Instruction := Draft.link fun _ => 0

namespace Lowering

def layout (s : Lowering) : Layout := ⟨s.slot?, s.symbols.arity?, s.offset, s.nextHeap, s.code.size⟩

@[simp] theorem layout_slot? (s : Lowering) : s.layout.slot? = s.slot? := rfl

@[simp] theorem layout_arity? (s : Lowering) : s.layout.arity? = s.symbols.arity? := rfl

@[simp] theorem layout_offset (s : Lowering) : s.layout.offset = s.offset := rfl

@[simp] theorem layout_cell (s : Lowering) : s.layout.cell = s.nextHeap := rfl

@[simp] theorem layout_start (s : Lowering) : s.layout.start = s.code.size := rfl

structure Keyed (s : Lowering) : Prop where
  slots : ∀ e ∈ s.slots, e.1 ≤ s.symbols.lastId
  scopes : ∀ scope ∈ s.symbols.scopes, ∀ e ∈ scope, e.2 ≤ s.symbols.lastId

/-- From `s` to `t` the stack has grown by `n`, heap cells are taken, and slots of new ids are added.
Scopes, functions and labels are as they were. -/
structure Rises (s : Lowering) (n : Int) (cells : Nat) (t : Lowering) : Prop where
  offset : t.offset = s.offset + n
  nextHeap : t.nextHeap = s.nextHeap + cells
  scopes : t.symbols.scopes = s.symbols.scopes
  functions : t.symbols.functions = s.symbols.functions
  lastId : s.symbols.lastId ≤ t.symbols.lastId
  slots : ∃ new, t.slots = new ++ s.slots ∧
    ∀ e ∈ new, s.symbols.lastId < e.1 ∧ e.1 ≤ t.symbols.lastId
  labels : t.code.labels = s.code.labels

structure Grows (s : Lowering) (n : Int) (code : List Draft) (t : Lowering) : Prop
    extends Rises s n (code.countP Draft.isNew) t where
  instructions : t.code.instructions.toList = s.code.instructions.toList ++ code.map Draft.unlinked
  sites : t.linker.sites = s.linker.sites ++ Draft.sites s.code.size code
  addresses : t.linker.addresses = s.linker.addresses

variable {s t u : Lowering} {n m : Int} {k l : Nat} {a b : List Draft}

/-- Variables, functions and scopes are as they were. -/
theorem Rises.of_symbols (hsymbols : t.symbols = s.symbols) (hslots : t.slots = s.slots)
    (hlabels : t.code.labels = s.code.labels) (hoffset : t.offset = s.offset + n)
    (hheap : t.nextHeap = s.nextHeap + k) : Rises s n k t where
  offset := hoffset
  nextHeap := hheap
  scopes := by rw [hsymbols]
  functions := by rw [hsymbols]
  lastId := Nat.le_of_eq (by rw [hsymbols])
  slots := ⟨[], hslots, nofun⟩
  labels := hlabels

theorem Rises.refl (s : Lowering) : Rises s 0 0 s :=
  .of_symbols rfl rfl rfl (Int.add_zero _).symm rfl

theorem Rises.trans (h : Rises s n k t) (g : Rises t m l u) : Rises s (n + m) (k + l) u where
  offset := by rw [g.offset, h.offset, Int.add_assoc]
  nextHeap := by rw [g.nextHeap, h.nextHeap, Nat.add_assoc]
  scopes := g.scopes.trans h.scopes
  functions := g.functions.trans h.functions
  lastId := Nat.le_trans h.lastId g.lastId
  slots := by
    obtain ⟨x, hx, hx'⟩ := h.slots
    obtain ⟨y, hy, hy'⟩ := g.slots
    refine ⟨y ++ x, by rw [hy, hx, List.append_assoc], List.forall_mem_append.2 ⟨?_, ?_⟩⟩
    · exact fun e he => ⟨Nat.lt_of_le_of_lt h.lastId (hy' e he).1, (hy' e he).2⟩
    · exact fun e he => ⟨(hx' e he).1, Nat.le_trans (hx' e he).2 g.lastId⟩
  labels := g.labels.trans h.labels

theorem Rises.keys (h : Rises s n k t) (hs : ∀ e ∈ s.slots, e.1 ≤ s.symbols.lastId) :
    ∀ e ∈ t.slots, e.1 ≤ t.symbols.lastId := by
  obtain ⟨x, hx, hx'⟩ := h.slots
  rw [hx]
  exact List.forall_mem_append.2
    ⟨fun e he => (hx' e he).2, fun e he => Nat.le_trans (hs e he) h.lastId⟩

theorem Rises.keyed (h : Rises s n k t) (hs : s.Keyed) : t.Keyed where
  slots := h.keys hs.slots
  scopes := by
    intro scope hscope e he
    rw [h.scopes] at hscope
    exact Nat.le_trans (hs.scopes scope hscope e he) h.lastId

theorem Grows.size (h : Grows s n a t) : t.code.size = s.code.size + a.length := by
  have hl := congrArg List.length h.instructions
  simpa [Code.size] using hl

theorem Grows.refl (s : Lowering) : Grows s 0 [] s where
  toRises := .refl s
  instructions := by simp
  sites := by simp [Draft.sites]
  addresses := rfl

theorem Grows.trans (h : Grows s n a t) (g : Grows t m b u) : Grows s (n + m) (a ++ b) u where
  toRises := List.countP_append ▸ h.toRises.trans g.toRises
  instructions := by rw [g.instructions, h.instructions, List.map_append, List.append_assoc]
  sites := by rw [g.sites, h.sites, h.size, Draft.sites_append, List.append_assoc]
  addresses := g.addresses.trans h.addresses

theorem Grows.cast (h : Grows s n a t) (hn : n = m) (ha : a = b) : Grows s m b t := by
  subst hn ha
  exact h

def frames (s : Lowering) : List (String → Option (Option Int)) :=
  s.symbols.scopes.map fun scope x => (scope.lookup x).map fun id => s.slots.lookup id

theorem slot?_eq_frames (s : Lowering) (x : String) :
    s.slot? x = (s.frames.findSome? fun frame => frame x).join := by
  rw [slot?, Symbols.binding?, frames, List.findSome?_map]
  induction s.symbols.scopes with
  | nil => rfl
  | cons scope scopes ih =>
    simp only [List.findSome?_cons, Function.comp_apply]
    cases scope.lookup x with
    | none => exact ih
    | some id => rfl

/-- Slots of new ids are not met in old scopes. -/
theorem Keyed.frames_append (hs : s.Keyed) {new : List (Nat × Int)}
    (hnew : ∀ e ∈ new, s.symbols.lastId < e.1) :
    (s.symbols.scopes.map fun scope x => (scope.lookup x).map fun id => (new ++ s.slots).lookup id) =
      s.frames := by
  refine List.map_congr_left fun scope hscope => ?_
  funext x
  cases hx : scope.lookup x with
  | none => rfl
  | some id =>
    have hfresh : new.lookup id = none := by
      refine List.lookup_eq_none_iff.2 fun e he => ?_
      have hle := hs.scopes scope hscope _ (mem_of_lookup hx)
      have hlt := hnew e he
      simp only [bne_iff_ne, ne_eq]
      omega
    simp [List.lookup_append, hfresh]

theorem Rises.frames (h : Rises s n k t) (hs : s.Keyed) : t.frames = s.frames := by
  obtain ⟨new, hnew, hid⟩ := h.slots
  rw [Lowering.frames, h.scopes, hnew]
  exact hs.frames_append fun e he => (hid e he).1

theorem Rises.slot? (h : Rises s n k t) (hs : s.Keyed) : t.slot? = s.slot? := by
  funext x
  rw [slot?_eq_frames, slot?_eq_frames, h.frames hs]

theorem Grows.layout (h : Grows s n a t) (hs : s.Keyed) :
    t.layout = (s.layout.behind a).raised n := by
  have ha : t.symbols.arity? = s.symbols.arity? := by
    funext x
    simp only [Symbols.arity?, h.functions]
  simp only [Lowering.layout, Layout.behind, Layout.raised, h.slot? hs, h.offset, h.nextHeap,
    h.size, ha]

/-- One more instruction. -/
theorem Grows.one {d : Draft} (hcode : t.code = s.code.emit d.unlinked)
    (haddresses : t.linker.addresses = s.linker.addresses)
    (hsites : t.linker.sites = s.linker.sites ++ Draft.sites s.code.size [d])
    (hsymbols : t.symbols = s.symbols) (hslots : t.slots = s.slots) (hoffset : t.offset = s.offset + n)
    (hheap : t.nextHeap = s.nextHeap + [d].countP Draft.isNew) : Grows s n [d] t where
  toRises := .of_symbols hsymbols hslots (by rw [hcode]; rfl) hoffset hheap
  instructions := by simp [hcode, Code.emit]
  sites := hsites
  addresses := haddresses

end Lowering
end Sigil
