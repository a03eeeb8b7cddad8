import Sigil.Proofs.Machine.Frames

/-!
Machines as their users find them: whatever was done to a machine before, steps, runs and accesses
from outside, with faults or without, its frames are nested.
-/
namespace Sigil.Machine

/-- What can be done to a machine. A run counts as far as it has come. -/
inductive Use where
  | step
  | run (n : Nat)
  | read (source : Operand)
  | write (target : Operand) (v : Value)

def Use.apply (code : Code) (m : Machine) : Use → Machine
  | step => after (Machine.step code) m
  | run n => after (Machine.run code n) m
  | read source => after (fetch source) m
  | write target v => after (store target v) m

inductive Visited (code : Code) (config : Config) : Machine → Prop
  | start : Visited code config (start config)
  | use {m : Machine} (h : Visited code config m) (u : Use) : Visited code config (u.apply code m)

variable {code : Code} {config : Config} {m m' : Machine} {limit : Nat} {f : Fault}

theorem Nested.run (h : Nested limit m) (code : Code) (n : Nat) :
    Nested limit (after (Machine.run code n) m) := by
  induction n generalizing m with
  | zero =>
    unfold after Machine.run
    cases m.status <;> exact h
  | succ n ih =>
    have hstep := h.step code
    unfold after at hstep ih ⊢
    unfold Machine.run
    cases m.status with
    | halted => exact h
    | faulted => exact h
    | running =>
      simp only
      cases ht : Machine.step code m with
      | error f t =>
        simp only [ht] at hstep ⊢
        exact hstep
      | ok _ t =>
        simp only [ht] at hstep ⊢
        exact ih hstep

theorem Nested.apply (h : Nested limit m) (code : Code) (u : Use) :
    Nested limit (u.apply code m) := by
  cases u with
  | step => exact h.step code
  | run n => exact h.run code n
  | read source => exact h.stays (staying_fetch source m)
  | write target v => exact h.stays (staying_store target v m)

theorem Visited.nested (h : Visited code config m) : Nested config.stackSize m := by
  induction h with
  | start => exact nested_start config
  | use _ u ih => exact ih.apply code u

/-- A result finds a frame to go back to wherever it finds a return address. -/
theorem fault_of_result {source : Operand} (hm : m.stack.saved.size = m.returns.length)
    (hi : m.upcoming? code = some (.result source)) (hf : step code m = .error f m') :
    m.read source = .error f ∨ m.returns = [] ∧ f = .returnOutsideFunction := by
  have hread : m.fetched.read source = m.read source := by cases source <;> rfl
  have hresults : Results source m.fetched _ := results_execute source hm
  rw [step_of_upcoming hi] at hf
  generalize execute (.result source) m.fetched = r at hresults hf
  cases hresults with
  | unreadable hv =>
    cases hf
    exact .inl (hread.symm.trans hv)
  | outside hr =>
    cases hf
    exact .inr ⟨hr, rfl⟩
  | returned _ _ _ => cases hf

/-- The frames of a machine are nested at all times, so that a result never lacks a frame below. -/
theorem nested_of_visited (h : Visited code config m) :
    Nested config.stackSize m ∧
      ∀ source f m', m.upcoming? code = some (.result source) → step code m = .error f m' →
        m.read source = .error f ∨ m.returns = [] ∧ f = .returnOutsideFunction :=
  ⟨h.nested, fun _ _ _ => fault_of_result h.nested.balanced⟩

def straying : Code := ⟨#[.push (.constant .zero), .call 2, .result (.stack 5)], []⟩

theorem nested_straying : ∃ m m', Visited straying ⟨2, none⟩ m ∧ m.stack.bases = [0, 1] ∧
    Nested 2 m ∧ m.upcoming? straying = some (.result (.stack 5)) ∧
    step straying m = .error (.stackOutOfBounds 5) m' ∧
    (m.read (.stack 5) = .error (.stackOutOfBounds 5) ∨
      m.returns = [] ∧ Fault.stackOutOfBounds 5 = .returnOutsideFunction) :=
  have h : Visited straying ⟨2, none⟩ _ :=
    .use (.use (.use .start .step) .step) (.write (.stack (-1)) (.string "a"))
  have hn := nested_of_visited h
  ⟨_, _, h, rfl, hn.1, rfl, rfl, hn.2 _ _ _ rfl rfl⟩

end Sigil.Machine
