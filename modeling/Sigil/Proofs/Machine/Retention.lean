import Sigil.Proofs.Machine.Moves
import Sigil.Proofs.Machine.Visits

/-!
What a step that faults leaves behind: all data as they were. An instruction asks everything it has to
ask before it changes anything, save that a pop has taken the value off the stack when its destination
turns out not to take it.
-/
namespace Sigil

theorem Stack.push_drop_top {s : Stack} {v : Value} (h : s.top? = some v) :
    (s.drop 1).push v = s := by
  unfold top? at h
  split at h
  case isFalse => cases h
  case isTrue =>
    rw [← Array.getLast?_toList, List.getLast?_eq_some_iff] at h
    obtain ⟨below, hcells⟩ := h
    have hcells : (s.cells.shrink (s.cells.size - 1)).push v = s.cells := by
      apply Array.toList_inj.1
      rw [Array.toList_push, Array.toList_shrink, ← Array.length_toList, hcells]
      simp
    simp only [push, drop, hcells]

def Fault.isEarly : Fault → Bool
  | .stepLimitExceeded _ | .pcOutOfBounds _ => true
  | _ => false

namespace Machine

variable {α β : Type} {code : Code} {config : Config} {m m' t : Machine} {f : Fault} {v : Value}

/-- What a machine works on: all but where it is, its limits, its status and the count of its steps. -/
structure Data where
  stack : Stack
  heap : Heap
  returns : List Nat
  accumulator : Value

def data (m : Machine) : Data := ⟨m.stack, m.heap, m.returns, m.accumulator⟩

def Rejects (code : Code) (m : Machine) : Prop :=
  ∃ target v f t, m.upcoming? code = some (.pop target) ∧ m.stack.top? = some v ∧
    store target v (m.dropped 1) = .error f t

def Looks (x : Action α) : Prop := ∀ m, after x m = m

def Recoils (x : Action α) : Prop := ∀ m f t, x m = .error f t → f.isEarly = false ∧ t = m

theorem Recoils.bind {x : Action α} {g : α → Action β} (hlooks : Looks x) (hx : Recoils x)
    (hg : ∀ a, Recoils (g a)) : Recoils (x >>= g) := by
  intro m f t h
  rcases bind_eq_error.1 h with h | ⟨a, u, ha, h⟩
  · exact hx m f t h
  · have hu : u = m := (after_of_ok ha).symm.trans (hlooks m)
    exact hu ▸ hg a u f t h

theorem early_of_read {source : Operand} (h : m.read source = .error f) : f.isEarly = false := by
  cases source with
  | constant c => cases h
  | stack place | heap place | register place =>
    simp only [read] at h
    split at h <;> cases h
    rfl

theorem looks_fetch (source : Operand) : Looks (fetch source) := by
  intro m
  simp only [after, fetch]
  cases m.read source <;> rfl

theorem looks_combine (op : Operation) (a b : Value) : Looks (combine op a b) := by
  intro m
  simp only [after, combine]
  cases op.apply a b <;> rfl

theorem recoils_fetch (source : Operand) : Recoils (fetch source) := by
  intro m f t h
  cases hread : m.read source with
  | ok v =>
    rw [fetch_of_ok hread] at h
    cases h
  | error g =>
    rw [fetch_of_error hread] at h
    cases h
    exact ⟨early_of_read hread, rfl⟩

theorem recoils_combine (op : Operation) (a b : Value) : Recoils (combine op a b) := by
  intro m f t h
  unfold combine at h
  cases hop : op.apply a b with
  | ok v =>
    simp only [hop] at h
    cases h
  | error cause =>
    simp only [hop] at h
    cases h
    exact ⟨rfl, rfl⟩

theorem recoils_store (target : Operand) (v : Value) : Recoils (store target v) := by
  intro m f t h
  cases target with
  | constant c =>
    cases h
    exact ⟨rfl, rfl⟩
  | stack place | heap place | register place =>
    simp only [store] at h
    split at h <;> cases h
    exact ⟨rfl, rfl⟩

/-- An action that is either refused at once or done. -/
theorem recoils_of_ite {p : Machine → Prop} [DecidablePred p] {x : Action Unit} {g : Machine → Fault}
    {next : Machine → Machine} (hx : ∀ m, x m = if p m then .ok () (next m) else .error (g m) m)
    (hg : ∀ m, (g m).isEarly = false) : Recoils x := by
  intro m f t h
  rw [hx] at h
  split at h <;> cases h
  exact ⟨hg m, rfl⟩

theorem recoils_push (v : Value) : Recoils (push v) := recoils_of_ite (fun _ => rfl) fun _ => rfl

theorem recoils_drop (n : Nat) : Recoils (drop n) := recoils_of_ite (fun _ => rfl) fun _ => rfl

theorem recoils_call (target : Nat) : Recoils (call target) :=
  recoils_of_ite (fun _ => rfl) fun _ => rfl

theorem recoils_release (address : Nat) : Recoils (release address) :=
  recoils_of_ite (fun _ => rfl) fun _ => rfl

theorem recoils_allocate (address : Nat) : Recoils (allocate address) := by
  intro m f t h
  simp only [allocate] at h
  split at h <;> cases h
  exact ⟨rfl, rfl⟩

theorem recoils_of_ok {x : Action α} (hx : ∀ m, ∃ a t, x m = .ok a t) : Recoils x := by
  intro m f t h
  obtain ⟨a, u, hok⟩ := hx m
  rw [hok] at h
  cases h

def Hasty : Instruction → Prop
  | .pop _ | .result _ => True
  | _ => False

theorem recoils_execute {i : Instruction} (hi : ¬ Hasty i) : Recoils (execute i) := by
  cases i with
  | move target source =>
    exact (recoils_fetch source).bind (looks_fetch source) fun v => recoils_store target v
  | push source => exact (recoils_fetch source).bind (looks_fetch source) recoils_push
  | pop target => exact absurd trivial hi
  | drop n => exact recoils_drop n
  | binary op target source =>
    exact (recoils_fetch target).bind (looks_fetch target) fun a =>
      (recoils_fetch source).bind (looks_fetch source) fun b =>
        (recoils_combine op a b).bind (looks_combine op a b) fun v => recoils_store target v
  | not target =>
    exact (recoils_fetch target).bind (looks_fetch target) fun v => recoils_store target _
  | call target => exact recoils_call target
  | result source => exact absurd trivial hi
  | exit source => exact (recoils_fetch source).bind (looks_fetch source) fun v =>
      recoils_of_ok fun _ => ⟨_, _, rfl⟩
  | goto target => exact recoils_of_ok fun _ => ⟨_, _, rfl⟩
  | jumpUnless source target =>
    refine (recoils_fetch source).bind (looks_fetch source) fun v => ?_
    show Recoils (if v.isTruthy then pure () else jump target)
    split <;> exact recoils_of_ok fun _ => ⟨_, _, rfl⟩
  | new address => exact recoils_allocate address
  | release address => exact recoils_release address

inductive Fails (i : Instruction) (m : Machine) (f : Fault) : Machine → Prop
  | recoiled (h : ∀ target, i = .pop target → m.stack.top? = none) : Fails i m f m
  | popped {target : Operand} {v : Value} (hi : i = .pop target) (hv : m.stack.top? = some v)
      (h : store target v { m with stack := m.stack.drop 1 } =
        .error f { m with stack := m.stack.drop 1 }) :
      Fails i m f { m with stack := m.stack.drop 1 }

theorem fails_execute {i : Instruction} (hm : m.stack.saved.size = m.returns.length)
    (h : execute i m = .error f t) : f.isEarly = false ∧ Fails i m f t := by
  by_cases hi : Hasty i
  · cases i with
    | pop target =>
      cases htop : m.stack.top? with
      | none =>
        have hpop : pop m = .error .stackUnderflow m := by simp only [pop, htop]
        rw [execute, bind_of_error hpop] at h
        cases h
        exact ⟨rfl, .recoiled fun _ _ => htop⟩
      | some v =>
        have hpop : pop m = .ok v { m with stack := m.stack.drop 1 } := by simp only [pop, htop]
        rw [execute, bind_of_ok hpop] at h
        obtain ⟨hearly, rfl⟩ := recoils_store target v _ _ _ h
        exact ⟨hearly, .popped rfl htop h⟩
    | result source =>
      have hpop : ∀ target, Instruction.result source = .pop target → m.stack.top? = none := by
        intro _ hpop
        cases hpop
      have hresults : Results source m _ := results_execute source hm
      rw [h] at hresults
      cases hresults with
      | unreadable hread => exact ⟨early_of_read hread, .recoiled hpop⟩
      | outside _ => exact ⟨rfl, .recoiled hpop⟩
    | _ => cases hi
  · obtain ⟨hearly, rfl⟩ := recoils_execute hi _ _ _ h
    refine ⟨hearly, .recoiled ?_⟩
    rintro target rfl
    exact absurd trivial hi

/-- A step that takes no instruction from the code changes nothing but the count of steps. -/
theorem refused_of_not_upcoming (hi : m.upcoming? code = none) (hf : step code m = .error f m')
    (hrun : f ≠ .notRunning) :
    f.isEarly = true ∧ ∃ steps, m' = { m with steps, status := .faulted } := by
  by_cases hr : m.status = .running
  · simp only [step, if_pos hr, cycle] at hf
    cases he : m.exhausted? with
    | some limit =>
      simp only [he] at hf
      cases hf
      exact ⟨rfl, m.steps, rfl⟩
    | none =>
      rw [upcoming?, if_pos ⟨hr, he⟩] at hi
      simp only [he, hi] at hf
      cases hf
      exact ⟨rfl, m.steps + 1, rfl⟩
  · rw [step, if_neg hr] at hf
    cases hf
    exact absurd rfl hrun

/-- A step that faults leaves all data as they were, but for a value that it has popped and that the
destination does not take. It stands behind its instruction, if it has come to take one. -/
theorem fault_keeps_data (h : Visited code config m) (hf : step code m = .error f m')
    (hrun : f ≠ .notRunning) :
    m'.status = .faulted ∧ m'.pc = (if f.isEarly then m.pc else m.pc + 1) ∧
      (¬ Rejects code m → m'.data = m.data) ∧
      (Rejects code m → ∃ v, m.data = { m'.data with stack := m'.stack.push v }) := by
  cases hi : m.upcoming? code with
  | none =>
    have hrejects : ¬ Rejects code m := by
      rintro ⟨_, _, _, _, hpop, -⟩
      rw [hi] at hpop
      cases hpop
    obtain ⟨hearly, steps, rfl⟩ := refused_of_not_upcoming hi hf hrun
    exact ⟨rfl, (if_pos hearly).symm, fun _ => rfl, fun hr => absurd hr hrejects⟩
  | some i =>
    rw [step_of_upcoming hi] at hf
    cases he : execute i m.fetched with
    | ok _ t =>
      simp only [he] at hf
      cases hf
    | error g t =>
      simp only [he] at hf
      cases hf
      have hbalanced : m.fetched.stack.saved.size = m.fetched.returns.length := h.nested.balanced
      obtain ⟨hearly, hfails⟩ := fails_execute hbalanced he
      have hpc : m.pc + 1 = if f.isEarly then m.pc else m.pc + 1 := by simp [hearly]
      cases hfails with
      | recoiled hnone =>
        refine ⟨rfl, hpc, fun _ => rfl, fun ⟨target, v, _, _, hpop, htop, _⟩ => ?_⟩
        have hsome : m.fetched.stack.top? = some v := htop
        rw [hnone target (Option.some.inj (hi.symm.trans hpop))] at hsome
        cases hsome
      | @popped target v hpop htop hstore =>
        have hrejects : Rejects code m := ⟨target, v, f, _, hpop ▸ hi, htop, hstore⟩
        refine ⟨rfl, hpc, fun hr => absurd hrejects hr, fun _ => ⟨v, ?_⟩⟩
        have hstack : (m.stack.drop 1).push v = m.stack := Stack.push_drop_top htop
        exact congrArg (Data.mk · m.heap m.returns m.accumulator) hstack.symm

def discarding : Code where
  instructions :=
    #[.push (.constant .zero), .call 2, .push (.constant (.string "a")), .pop (.constant .zero)]
  labels := []

theorem fault_discarding : ∃ m m', Visited discarding ⟨4, none⟩ m ∧
    step discarding m = .error .constantAssignment m' ∧ Rejects discarding m ∧
    m'.status = .faulted ∧ m'.pc = 4 ∧ m'.stack.height = 1 ∧
    ∃ v, m.data = { m'.data with stack := m'.stack.push v } :=
  have h : Visited discarding ⟨4, none⟩ _ := .use (.use (.use .start .step) .step) .step
  have hrejects : Rejects discarding _ := ⟨_, _, _, _, rfl, rfl, rfl⟩
  have hkeeps := fault_keeps_data h rfl nofun
  ⟨_, _, h, rfl, hrejects, hkeeps.1, hkeeps.2.1, rfl, hkeeps.2.2.2 hrejects⟩

end Machine
end Sigil
