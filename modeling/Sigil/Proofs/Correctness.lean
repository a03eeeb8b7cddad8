import Sigil.Proofs.Machine.Conclusion
import Sigil.Proofs.Simulation.Program

/-!
Compilation is correct: on a stack that is large enough, compiled code ends as the evaluation of the
tree does, and without end where the evaluation has none.
-/
namespace Sigil

open Machine

variable {p : Program} {code : Code} {entry : String → Nat} {n : Nat}

theorem Program.steps_of_eval {o : Except TypeMismatch Value} (hp : p.Placed code entry)
    (h : p.eval n = some o) : ∃ d k m, Steps code k (start ⟨d, none⟩) m ∧
      Concludes code m (o.mapError .typeMismatch) ∧
      ∀ cause, o = .error cause → cause.operation.Checked ∧
        ∃ target source, code.get? m.pc = some (.binary cause.operation target source) := by
  have hm := Simulation.meets_program hp n ⟨0, none⟩
  rw [h] at hm
  cases o with
  | ok v =>
    obtain ⟨k, m, ⟨d, hsteps⟩, hstatus, hv⟩ := hm
    rw [start_relax, Nat.zero_add] at hsteps
    exact ⟨d, k, m.relax d, hsteps, ⟨hstatus, hv⟩, by simp⟩
  | error cause =>
    obtain ⟨k, m, ⟨d, hsteps⟩, hstatus, hchecked, hget, hstep⟩ := hm
    rw [start_relax, Nat.zero_add] at hsteps
    refine ⟨d, k, m.relax d, hsteps, ⟨hstatus, hstep d⟩, ?_⟩
    rintro _ ⟨⟩
    exact ⟨hchecked, hget⟩

theorem Program.steps_of_eval_eq_none (hp : p.Placed code entry) (h : p.eval n = none) :
    ∃ d k m, n ≤ k ∧ Steps code k (start ⟨d, none⟩) m := by
  have hm := Simulation.meets_program hp n ⟨0, none⟩
  rw [h] at hm
  obtain ⟨k, m, hk, d, hsteps⟩ := hm
  rw [start_relax, Nat.zero_add] at hsteps
  exact ⟨d, k, _, hk, hsteps⟩

theorem not_limiting_of_mapError {o : Except TypeMismatch Value} {f : Fault}
    (h : o.mapError .typeMismatch = .error f) : ¬ Limiting f := by
  cases o with
  | ok v => cases h
  | error cause =>
    cases h
    exact id

theorem Program.ends_of_eval {o : Except TypeMismatch Value} (hp : p.Placed code entry)
    (h : p.eval n = some o) :
    ∃ s₀, ∀ s, s₀ ≤ s → Ends code ⟨s, none⟩ (o.mapError .typeMismatch) := by
  obtain ⟨d, k, m, hsteps, hm, -⟩ := steps_of_eval hp h
  refine ⟨d, fun s hs => ?_⟩
  have hsteps' := hsteps.relax (s - d)
  rw [start_relax, Nat.add_sub_cancel' hs] at hsteps'
  exact ends_of_steps hsteps' (hm.relax _ fun f => not_limiting_of_mapError)

theorem Program.evaluates_iff_ends (h : p.compile = .ok code) (o : Except TypeMismatch Value) :
    p.Evaluates o ↔ ∃ s₀, ∀ s, s₀ ≤ s → Ends code ⟨s, none⟩ (o.mapError .typeMismatch) := by
  obtain ⟨entry, hp⟩ := placed_of_compile h
  constructor
  · rintro ⟨n, hn⟩
    exact ends_of_eval hp hn
  · rintro ⟨s₀, hends⟩
    obtain ⟨n, m', hrun⟩ := hends s₀ (Nat.le_refl s₀)
    have ho : o.mapError Fault.typeMismatch ≠ .error .notRunning := by
      cases o <;> simp [Except.mapError]
    obtain ⟨k, m, hk, hsteps, hm⟩ := steps_of_run ho hrun
    -- more fuel than there are steps
    refine ⟨n + 1, ?_⟩
    cases heval : p.eval (n + 1) with
    | none =>
      obtain ⟨d, j, u, hj, hsteps'⟩ := steps_of_eval_eq_none hp heval
      have h1 := hsteps.relax d
      have h2 := hsteps'.relax s₀
      rw [start_relax] at h1 h2
      rw [Nat.add_comm] at h2
      have := h1.le_of_concludes (hm.relax d fun f => not_limiting_of_mapError) h2
      omega
    | some o' =>
      obtain ⟨d, j, u, hsteps', hu, -⟩ := steps_of_eval hp heval
      have h1 := hsteps.relax d
      have h2 := hsteps'.relax s₀
      rw [start_relax] at h1 h2
      rw [Nat.add_comm] at h2
      have := (h1.eq_of_concludes (hm.relax d fun f => not_limiting_of_mapError) h2
        (hu.relax s₀ fun f => not_limiting_of_mapError)).2
      cases o <;> cases o' <;> simp_all [Except.mapError]

def Program.echo : Program :=
  ⟨[⟨"echo", ["x"], .concat [.variable "x", .variable "x"]⟩],
    .letIn ["x"] [.literal (.string "a")] (.call "echo" [.variable "x"])⟩

def Code.echo : Code where
  instructions :=
    #[.move .accumulator (.constant (.string "a")), .push .accumulator,
      .move .accumulator (.stack 0), .push .accumulator, .push (.stack 1), .call 9, .drop 2, .drop 1,
      .exit .accumulator,
      .move .accumulator (.stack (-1)), .push .accumulator,
      .move .accumulator (.stack (-1)), .push .accumulator,
      .new 0, .move (.heap 0) (.constant (.string "")),
      .binary .concat (.heap 0) (.stack 0), .binary .concat (.heap 0) (.stack 1),
      .move .accumulator (.heap 0), .release 0, .drop 2, .result .accumulator]
  labels := [(9, "echo")]

theorem Program.compile_echo : echo.compile = .ok .echo := rfl

theorem Program.echo_ends : echo.compile = .ok .echo ∧
    ∃ s₀, ∀ s, s₀ ≤ s → Ends .echo ⟨s, none⟩ (.ok (.string "aa")) :=
  ⟨compile_echo, (Program.evaluates_iff_ends compile_echo (.ok (.string "aa"))).1 ⟨2, rfl⟩⟩

end Sigil
