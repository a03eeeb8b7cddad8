import Sigil.Proofs.Course.Standing

/-!
Heap cells are taken and released within the code of one concatenation, and whatever may lead out of
it needs that there is none: in a compiled program no heap cell is ever left behind.
-/
namespace Sigil

open Machine

def Instruction.NeedsEmptyHeap : Instruction → Prop
  | call _ | result _ | exit _ | goto _ | jumpUnless _ _ | new _ => True
  | _ => False

/-- There is at most one heap cell, and none where an instruction needs that there is none, or where
the run has ended, unless the limit of steps was met. -/
structure Machine.Tidy (code : Code) (m : Machine) : Prop where
  single : m.heap.length ≤ 1
  empty : m.status = .running → ∀ i, code.get? m.pc = some i → i.NeedsEmptyHeap → m.heap = []
  halted : m.status = .halted → m.heap = []
  faulted : m.status = .running → ∀ f m', step code m = .error f m' →
    (∀ limit, f ≠ .stepLimitExceeded limit) → m'.heap = []

variable {p : Program} {code : Code} {entry : String → Nat} {sections : List Section}
  {a : Activation} {config : Config} {m : Machine}

theorem Point.Fits.buffer_eq_none {c : Limits} {P : Point} {d : Draft} (hd : P.Fits c d)
    (hi : (d.link entry).NeedsEmptyHeap) : P.buffer = none := by
  cases hd with
  | goto _ hb => exact hb
  | jumpUnless _ hb => exact hb
  | new _ hb => exact hb
  | call hb _ _ => exact hb
  | _ => cases hi

namespace Stands

theorem length_heap (hm : Stands sections m a) : m.heap.length ≤ 1 := by
  obtain ⟨P, -, hP⟩ := hm.place
  have hlength := congrArg List.length hP.heap
  rw [List.length_map] at hlength
  rw [hlength]
  cases P.buffer with
  | none => exact Nat.zero_le 1
  | some b => exact Nat.le_refl 1

theorem heap_eq_nil {i : Instruction} (h : p.Sectioned code entry sections)
    (hm : Stands sections m a) (hget : code.get? m.pc = some i) (hi : i.NeedsEmptyHeap) :
    m.heap = [] := by
  obtain ⟨P, ⟨x, d, y, hdraft, hpc, rfl⟩, hP⟩ := hm.place
  have hd : code.get? m.pc = some (d.link entry) := hpc ▸ h.get hm.active.home_mem hdraft
  obtain rfl := Option.some.inj (hget.symm.trans hd)
  cases h.spot hm.active.home_mem hdraft with
  | last hx => exact hP.heap_nil (congrArg Point.buffer hx)
  | inner hd _ _ => exact hP.heap_nil (hd.buffer_eq_none hi)

end Stands

/-- Running or not, a machine never has more than one heap cell, and none when it has halted. -/
theorem heap_of_reachable (h : p.Sectioned code entry sections) (hm : Reachable code config m) :
    m.heap.length ≤ 1 ∧ (m.status = .halted → m.heap = []) := by
  induction hm with
  | init => exact ⟨Nat.zero_le 1, nofun⟩
  | @next m m' hm hstep _ =>
    by_cases hr' : m'.status = .running
    · obtain ⟨a, ha⟩ := stands_of_reachable h (.next hm hstep) hr'
      rw [hr']
      exact ⟨ha.length_heap, nofun⟩
    · have hr := running_of_step hstep
      obtain ⟨a, ha⟩ := stands_of_reachable h hm hr
      have hturn := ha.turn h hr
      rw [hstep] at hturn
      cases hturn with
      | goes _ hr _ => exact absurd hr hr'
      | enters _ _ hr _ => exact absurd hr hr'
      | leaves _ _ hr _ => exact absurd hr hr'
      | exits _ hheap _ =>
        rw [hheap]
        exact ⟨Nat.zero_le 1, fun _ => rfl⟩
  | @fault m m' f hm hfault ih =>
    by_cases hr : m.status = .running
    · obtain ⟨a, ha⟩ := stands_of_reachable h hm hr
      have hturn := ha.turn h hr
      rw [hfault] at hturn
      cases hturn with
      | faults hs _ hheap _ _ =>
        rw [hheap, hs]
        exact ⟨ih.1, nofun⟩
    · rw [step, if_neg hr] at hfault
      cases hfault
      exact ih

/-- Compiled code leaves no heap cell behind. -/
theorem Program.tidy_of_reachable (h : p.compile = .ok code) (hm : Reachable code config m) :
    m.Tidy code := by
  obtain ⟨entry, sections, hp⟩ := sectioned_of_compile h
  obtain ⟨hsingle, hhalted⟩ := heap_of_reachable hp hm
  refine ⟨hsingle, fun hr i hget hi => ?_, hhalted, fun hr f m' hfault hlimit => ?_⟩
  · obtain ⟨a, ha⟩ := stands_of_reachable hp hm hr
    exact ha.heap_eq_nil hp hget hi
  · obtain ⟨a, ha⟩ := stands_of_reachable hp hm hr
    have hturn := ha.turn hp hr
    rw [hfault] at hturn
    cases hturn with
    | faults _ _ hheap hempty _ => exact hheap.trans (hempty hlimit)

/-- A heap cell that a called function has taken. -/
theorem Program.tidy_echo : ∃ m, Reachable .echo ⟨6, none⟩ m ∧ m.returns = [6] ∧
    m.heap = [(0, .zero)] ∧ m.Tidy .echo :=
  have h : Reachable .echo ⟨6, none⟩ _ := .next (.next (.next (.next (.next (.next (.next (.next
    (.next (.next (.next .init rfl) rfl) rfl) rfl) rfl) rfl) rfl) rfl) rfl) rfl) rfl
  ⟨_, h, rfl, rfl, tidy_of_reachable compile_echo h⟩

end Sigil
