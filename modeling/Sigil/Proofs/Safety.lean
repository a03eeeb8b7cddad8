import Sigil.Proofs.Correctness

/-!
Compiled code never goes wrong: unless a limit is met, a machine that runs it faults in arithmetic and
in comparisons only, and there only on operands of the wrong types.
-/
namespace Sigil

namespace Machine

inductive Reachable (code : Code) (config : Config) : Machine → Prop where
  | init : Reachable code config (start config)
  | next {m m' : Machine} : Reachable code config m → step code m = .ok () m' →
      Reachable code config m'
  | fault {m m' : Machine} {f : Fault} : Reachable code config m → step code m = .error f m' →
      Reachable code config m'

inductive Expected (code : Code) (m : Machine) : Fault → Prop where
  | stackOverflow (limit : Nat) : Expected code m (.stackOverflow limit)
  | stepLimitExceeded (limit : Nat) : Expected code m (.stepLimitExceeded limit)
  | arithmetic {a : Arithmetic} {target source : Operand} {left right : ValueType} :
      code.get? m.pc = some (.binary (.arithmetic a) target source) →
      Expected code m (.typeMismatch ⟨.arithmetic a, left, right⟩)
  | order {r : Order} {target source : Operand} {left right : ValueType} :
      code.get? m.pc = some (.binary (.order r) target source) →
      Expected code m (.typeMismatch ⟨.order r, left, right⟩)

variable {code : Code} {config : Config} {m m' : Machine} {f : Fault}

theorem not_running_of_fault (h : step code m = .error f m') : m'.status ≠ .running := by
  intro hs
  by_cases hm : m.status = .running
  · rw [step, if_pos hm] at h
    cases hc : cycle code m with
    | ok _ t =>
      simp only [hc] at h
      cases h
    | error g t =>
      simp only [hc] at h
      cases h
      cases hs
  · rw [step, if_neg hm] at h
    cases h
    exact hm hs

/-- A machine that still runs has met no fault. -/
theorem Reachable.steps (h : Reachable code config m) (hm : m.status = .running) :
    ∃ k, Steps code k (start config) m := by
  induction h with
  | init => exact ⟨0, rfl⟩
  | @next m m' _ hstep ih =>
    obtain ⟨k, hk⟩ := ih (running_of_step hstep)
    exact ⟨k + 1, hk.trans ⟨m', hstep, rfl⟩⟩
  | fault _ hfault _ => exact absurd hm (not_running_of_fault hfault)

end Machine

open Machine

variable {p : Program} {code : Code} {entry : String → Nat} {config : Config} {m m' : Machine}
  {f : Fault}

/-- The evaluation, with more fuel than there were steps, meets the same fault. -/
theorem Program.checked_of_fault {k : Nat} (hp : p.Placed code entry)
    (hk : Steps code k (start config) m) (hm : Concludes code m (.error f)) (hf : ¬ Limiting f) :
    ∃ cause, f = .typeMismatch cause ∧ cause.operation.Checked ∧
      ∃ target source, code.get? m.pc = some (.binary cause.operation target source) := by
  obtain ⟨s, limit⟩ := config
  have hlimiting : ∀ g, Except.error f = (Except.error g : Except Fault Value) → ¬ Limiting g := by
    rintro _ ⟨⟩
    exact hf
  cases heval : p.eval (k + 1) with
  | none =>
    obtain ⟨d, j, u, hj, hsteps⟩ := steps_of_eval_eq_none hp heval
    have h1 := hk.relax d
    have h2 := hsteps.relax s
    rw [start_relax] at h1 h2
    rw [Nat.add_comm] at h2
    have := h1.le_of_concludes (hm.relax d hlimiting) h2
    omega
  | some o =>
    obtain ⟨d, j, u, hsteps, hu, hcause⟩ := steps_of_eval hp heval
    have h1 := hk.relax d
    have h2 := hsteps.relax s
    rw [start_relax] at h1 h2
    rw [Nat.add_comm] at h2
    obtain ⟨heq, ho⟩ := h1.eq_of_concludes (hm.relax d hlimiting) h2
      (hu.relax s fun f => not_limiting_of_mapError)
    cases o with
    | ok v => cases ho
    | error cause =>
      cases ho
      obtain ⟨hchecked, target, source, hget⟩ := hcause cause rfl
      have hpc := congrArg Machine.pc heq
      exact ⟨cause, rfl, hchecked, target, source, (congrArg code.get? hpc).trans hget⟩

theorem Program.expected_of_fault (h : p.compile = .ok code) (hm : Reachable code config m)
    (hf : step code m = .error f m') :
    (m.status = .running → Expected code m f) ∧ (m.status ≠ .running → f = .notRunning) := by
  obtain ⟨entry, hp⟩ := placed_of_compile h
  constructor
  · intro hs
    obtain ⟨k, hk⟩ := hm.steps hs
    by_cases hl : Limiting f
    · cases f with
      | stackOverflow limit => exact .stackOverflow limit
      | stepLimitExceeded limit => exact .stepLimitExceeded limit
      | _ => cases hl
    · obtain ⟨⟨op, left, right⟩, rfl, hchecked, target, source, hget⟩ :=
        checked_of_fault hp hk ⟨hs, m', hf⟩ hl
      cases op with
      | arithmetic a => exact .arithmetic hget
      | order r => exact .order hget
      | _ => cases hchecked
  · intro hs
    rw [step, if_neg hs] at hf
    cases hf
    rfl

def Program.difference : Program :=
  ⟨[], .binary (.arithmetic .subtract) (.literal (.string "a")) (.literal (.string "b"))⟩

def Code.difference : Code where
  instructions :=
    #[.move .accumulator (.constant (.string "a")), .push .accumulator,
      .move .accumulator (.constant (.string "b")), .push .accumulator,
      .binary (.arithmetic .subtract) (.stack 0) (.stack 1), .move .accumulator (.stack 0), .drop 2,
      .exit .accumulator]
  labels := []

theorem Program.fault_difference : difference.compile = .ok .difference ∧
    ∃ m m', Reachable .difference ⟨2, none⟩ m ∧ m.status = .running ∧
      step .difference m = .error (.typeMismatch ⟨.arithmetic .subtract, .string, .string⟩) m' ∧
      Expected .difference m (.typeMismatch ⟨.arithmetic .subtract, .string, .string⟩) :=
  have h : Reachable .difference ⟨2, none⟩ _ := .next (.next (.next (.next .init rfl) rfl) rfl) rfl
  ⟨rfl, _, _, h, rfl, rfl, (expected_of_fault (p := difference) rfl h rfl).1 rfl⟩

end Sigil
