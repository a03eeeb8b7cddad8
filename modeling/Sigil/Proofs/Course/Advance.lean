import Sigil.Proofs.Course.Point
import Sigil.Proofs.Draft.Calls
import Sigil.Proofs.Machine.Moves

/-!
What an instruction does in a machine of which its place knows: it goes on to a place that knows of the
machine behind it, or it enters a function, or it faults while no heap cell is live.
-/
namespace Sigil

open Machine
open Draft (fixed)
open Operand (accumulator)

namespace Point

structure Describes (P : Point) (m : Machine) : Prop where
  height : m.stack.height = m.stack.base + P.height
  heap : m.heap.map (fun e => (e.1, e.2.type)) = P.buffer.toList

variable {c : Limits} {P : Point} {d : Draft} {m : Machine} {entry : String → Nat} {t : Int}
  {cell : Nat} {type : ValueType}

theorem Describes.heap_nil (h : P.Describes m) (hb : P.buffer = none) : m.heap = [] := by
  have hheap := h.heap
  rw [hb] at hheap
  exact List.map_eq_nil_iff.1 hheap

theorem Describes.heap_singleton (h : P.Describes m) (hb : P.buffer = some (cell, type)) :
    ∃ v, m.heap = [(cell, v)] ∧ v.type = type := by
  have hheap := h.heap
  rw [hb] at hheap
  obtain ⟨⟨cell', v⟩, hm, he⟩ := List.map_eq_singleton_iff.1 hheap
  cases he
  exact ⟨v, hm, rfl⟩

/-- A slot leads to a cell of the frame or to a parameter. -/
theorem Describes.slot (h : P.Describes m) (hbase : c.parameters ≤ m.stack.base)
    (ht : P.HasSlot c t) : ∃ i v, m.stack.index? t = some i ∧ m.stack.get? t = some v ∧
      m.stack.base ≤ i + c.parameters := by
  obtain ⟨hlow, hhigh⟩ := ht
  have hheight := h.height
  obtain ⟨i, hi⟩ : ∃ i : Nat, (i : Int) = m.stack.base + t :=
    ⟨(m.stack.base + t).toNat, Int.toNat_of_nonneg (by omega)⟩
  have hlt : i < m.stack.height := by omega
  have hindex : m.stack.index? t = some i := Stack.index?_eq_some.2 ⟨hi, hlt⟩
  refine ⟨i, m.stack.cells[i], hindex, ?_, by omega⟩
  rw [Stack.get?, hindex]
  exact Array.getElem?_eq_getElem hlt

structure Advances (c : Limits) (P : Point) (d : Draft) (m m' : Machine) : Prop where
  base : m'.stack.base = m.stack.base
  saved : m'.stack.saved = m.stack.saved
  returns : m'.returns = m.returns
  status : m'.status = m.status
  point : (P.after d).Describes m'
  pc : m'.pc = m.pc + 1 ∨ d.jump? = some m'.pc ∧ P.after d = P
  cells : ∀ i, i + c.parameters < m.stack.base → m'.stack.cells[i]? = m.stack.cells[i]?

inductive Effect (c : Limits) (entry : String → Nat) (P : Point) (d : Draft) (m : Machine) :
    EStateM.Result Fault Machine Unit → Prop
  | advances {m' : Machine} (h : Advances c P d m m') : Effect c entry P d m (.ok () m')
  | enters {name : String} (hd : d = .call name) :
      Effect c entry P d m (.ok () (m.called (entry name)))
  | overflows (hb : P.buffer = none) (hroom : ¬ m.stack.hasRoom)
      (hheight : d.callee? = none → P.height < c.height) :
      Effect c entry P d m (.error (.stackOverflow m.stack.limit) m.fetched)
  | mismatches {cause : TypeMismatch} (hb : P.buffer = none) :
      Effect c entry P d m (.error (.typeMismatch cause) m.fetched)

theorem advances_accumulated (h : P.Describes m) (hd : P.after d = P) (v : Value) :
    Advances c P d m (m.accumulated v) where
  base := rfl
  saved := rfl
  returns := rfl
  status := rfl
  point := by
    rw [hd]
    exact ⟨h.height, h.heap⟩
  pc := .inl rfl
  cells := fun _ _ => rfl

theorem advances_written {i : Nat} (h : P.Describes m) (hd : P.after d = P)
    (hi : m.stack.base ≤ i + c.parameters) (v : Value) : Advances c P d m (m.written i v) where
  base := rfl
  saved := rfl
  returns := rfl
  status := rfl
  point := by
    rw [hd]
    exact ⟨(Stack.height_set _ _ _).trans h.height, h.heap⟩
  pc := .inl rfl
  cells := fun j hj => Array.getElem?_setIfInBounds_ne (by omega)

theorem advances_jumped {target : Nat} (h : P.Describes m) (hd : P.after d = P)
    (ht : target = m.pc + 1 ∨ d.jump? = some target) : Advances c P d m (m.jumped target) where
  base := rfl
  saved := rfl
  returns := rfl
  status := rfl
  point := by
    rw [hd]
    exact ⟨h.height, h.heap⟩
  pc := ht.imp_right fun ht => ⟨ht, hd⟩
  cells := fun _ _ => rfl

theorem advances_pushed (h : P.Describes m) (hd : P.after d = { P with height := P.height + 1 })
    (v : Value) : Advances c P d m (m.pushed v) where
  base := rfl
  saved := rfl
  returns := rfl
  status := rfl
  point := by
    rw [hd]
    exact ⟨(Stack.height_push _ _).trans (congrArg (· + 1) h.height), h.heap⟩
  pc := .inl rfl
  cells := by
    intro i hi
    have hheight : m.stack.cells.size = _ := h.height
    exact (Array.getElem?_push_lt (by omega)).trans (Array.getElem?_eq_getElem _).symm

theorem advances_dropped {n : Nat} (h : P.Describes m) (hn : n ≤ P.height) :
    Advances c P (fixed (.drop n)) m (m.dropped n) where
  base := rfl
  saved := rfl
  returns := rfl
  status := rfl
  point := by
    refine ⟨?_, h.heap⟩
    have hheight := h.height
    have hdrop : (m.dropped n).stack.height = m.stack.height - n := Stack.height_drop _ _
    rw [hdrop]
    show _ = m.stack.base + (P.height - n)
    omega
  pc := .inl rfl
  cells := by
    intro i hi
    have hheight : m.stack.cells.size = _ := h.height
    exact Stack.getElem?_shrink _ (by omega)

theorem advances_allocated {Q : Point} {heap : Heap} (h : P.Describes m) (hd : P.after d = Q)
    (hheight : Q.height = P.height)
    (hheap : heap.map (fun e => (e.1, e.2.type)) = Q.buffer.toList) :
    Advances c P d m (m.allocated heap) where
  base := rfl
  saved := rfl
  returns := rfl
  status := rfl
  point := by
    subst hd
    exact ⟨hheight ▸ h.height, hheap⟩
  pc := .inl rfl
  cells := fun _ _ => rfl

theorem Effect.of_advances {m' : Machine} (h : execute (d.link entry) m.fetched = .ok () m')
    (ha : Advances c P d m m') : Effect c entry P d m (execute (d.link entry) m.fetched) :=
  h ▸ .advances ha

theorem effect_push {source : Operand} {v : Value} (h : P.Describes m) (hv : m.read source = .ok v)
    (hb : P.buffer = none) (hroom : P.height < c.height) :
    Effect c entry P (fixed (.push source)) m (execute (.push source) m.fetched) := by
  rw [execute_push hv]
  split
  · exact .advances (advances_pushed h rfl v)
  · exact .overflows hb ‹_› fun _ => hroom

theorem effect_binary {s t : Int} (op : Operation) (h : P.Describes m)
    (hbase : c.parameters ≤ m.stack.base) (hb : P.buffer = none) (hs : P.HasSlot c s)
    (ht : P.HasSlot c t) : Effect c entry P (fixed (.binary op (.stack s) (.stack t))) m
      (execute (.binary op (.stack s) (.stack t)) m.fetched) := by
  obtain ⟨i, v, hi, hv, hbelow⟩ := h.slot hbase hs
  obtain ⟨_, w, -, hw, -⟩ := h.slot hbase ht
  rw [execute_binary hv (read_stack hw) hi]
  cases op.apply v w with
  | ok u => exact .advances (advances_written h rfl hbelow u)
  | error cause => exact .mismatches hb

/-- An instruction that has what it needs does what its place knows of. -/
theorem effect_of_fits (hd : P.Fits c d) (h : P.Describes m) (hbase : c.parameters ≤ m.stack.base) :
    Effect c entry P d m (execute (d.link entry) m.fetched) := by
  cases hd with
  | literal v => exact .of_advances (execute_accumulate rfl) (advances_accumulated h rfl v)
  | load ht =>
    obtain ⟨_, v, -, hv, -⟩ := h.slot hbase ht
    exact .of_advances (execute_accumulate (read_stack hv)) (advances_accumulated h rfl v)
  | store ht =>
    obtain ⟨i, _, hi, -, hbelow⟩ := h.slot hbase ht
    exact .of_advances (execute_store hi) (advances_written h rfl hbelow _)
  | push hroom hb => exact effect_push h rfl hb hroom
  | pushZero hroom hb => exact effect_push h rfl hb hroom
  | pushSlot hroom hb ht =>
    obtain ⟨_, v, -, hv, -⟩ := h.slot hbase ht
    exact effect_push h (read_stack hv) hb hroom
  | drop hn =>
    have hheight := h.height
    exact .of_advances (execute_drop (by omega)) (advances_dropped h hn)
  | not => exact .of_advances execute_not (advances_accumulated h rfl _)
  | binary op hb hs ht => exact effect_binary op h hbase hb hs ht
  | goto target _ => exact .advances (advances_jumped h rfl (.inr rfl))
  | jumpUnless target _ =>
    refine .of_advances execute_jumpUnless (advances_jumped h rfl ?_)
    split
    · exact .inl rfl
    · exact .inr rfl
  | new cell hb =>
    exact .of_advances (execute_new (h.heap_nil hb)) (advances_allocated h rfl rfl rfl)
  | fill v hb =>
    obtain ⟨_, hheap, -⟩ := h.heap_singleton hb
    exact .of_advances (execute_fill hheap rfl) (advances_allocated h rfl rfl rfl)
  | join hb ht =>
    obtain ⟨w, hheap, hw⟩ := h.heap_singleton hb
    obtain ⟨_, v, -, hv, -⟩ := h.slot hbase ht
    cases w with
    | number x => cases hw
    | string s =>
      exact .of_advances (execute_binaryHeap hheap (read_stack hv) rfl)
        (advances_allocated (Q := P) h rfl rfl (by rw [hb]; rfl))
  | take hb =>
    obtain ⟨v, hheap, -⟩ := h.heap_singleton hb
    exact .of_advances (execute_accumulate (read_heap hheap)) (advances_accumulated h rfl v)
  | release hb =>
    obtain ⟨_, hheap, -⟩ := h.heap_singleton hb
    exact .of_advances (execute_release hheap) (advances_allocated h rfl rfl rfl)
  | call hb _ _ =>
    rw [Draft.link, execute_call]
    split
    · exact .enters rfl
    · exact .overflows hb ‹_› nofun

end Point
end Sigil
