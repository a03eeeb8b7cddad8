import Sigil.Proofs.Machine.Run

/-!
How runs end: with a machine that has halted, or with a fault in the next step. Such a machine has no
other step, so that a run has one end at most.
-/
namespace Sigil.Machine

variable {code : Code} {m u m' : Machine} {j k n : Nat} {f : Fault} {v : Value}
  {o : Except Fault Value}

theorem running_of_step (h : step code m = .ok () m') : m.status = .running := by
  refine Decidable.byContradiction fun hs => ?_
  rw [step, if_neg hs] at h
  cases h

def Concludes (code : Code) (m : Machine) : Except Fault Value → Prop
  | .ok v => m.status = .halted ∧ m.accumulator = v
  | .error f => m.status = .running ∧ ∃ m', step code m = .error f m'

theorem Concludes.no_step (h : Concludes code m o) : step code m ≠ .ok () m' := by
  intro hs
  cases o with
  | ok v =>
    have := running_of_step hs
    rw [h.1] at this
    cases this
  | error f =>
    obtain ⟨-, u, hu⟩ := h
    rw [hs] at hu
    cases hu

theorem Concludes.unique {o' : Except Fault Value} (h : Concludes code m o)
    (g : Concludes code m o') : o = o' := by
  cases o with
  | ok v =>
    cases o' with
    | ok w => exact congrArg _ (h.2.symm.trans g.2)
    | error f => exact absurd (h.1.symm.trans g.1) (by decide)
  | error f =>
    cases o' with
    | ok w => exact absurd (h.1.symm.trans g.1) (by decide)
    | error e =>
      obtain ⟨-, u, hu⟩ := h
      obtain ⟨-, w, hw⟩ := g
      rw [hu] at hw
      cases hw
      rfl

theorem Steps.le_of_concludes (h : Steps code k m u) (hu : Concludes code u o)
    (g : Steps code j m m') : j ≤ k := by
  refine Nat.le_of_not_lt fun hlt => ?_
  obtain ⟨i, rfl⟩ : ∃ i, j = k + (i + 1) := ⟨j - k - 1, by omega⟩
  obtain ⟨t, ht, t', hstep, -⟩ := g.take
  rw [← h.unique ht] at hstep
  exact hu.no_step hstep

theorem Steps.eq_of_concludes {o' : Except Fault Value} (h : Steps code k m u)
    (hu : Concludes code u o) (g : Steps code j m m') (hm : Concludes code m' o') :
    u = m' ∧ o = o' := by
  obtain rfl := Nat.le_antisymm (g.le_of_concludes hm h) (h.le_of_concludes hu g)
  obtain rfl := h.unique g
  exact ⟨rfl, hu.unique hm⟩

/-- A fault that no limit has caused is met under more generous limits too. -/
theorem Concludes.relax (d : Nat) (h : Concludes code m o) (hf : ∀ f, o = .error f → ¬ Limiting f) :
    Concludes code (m.relax d) o := by
  cases o with
  | ok v => exact h
  | error f =>
    obtain ⟨hr, u, hu⟩ := h
    exact ⟨hr, u.relax d, step_relax_of_error d hu (hf f rfl)⟩

def ended (m : Machine) : Except Fault Value → EStateM.Result Fault Machine (Option Value)
  | .ok v => .ok (some v) m
  | .error f => .error f m

def Ends (code : Code) (config : Config) (o : Except Fault Value) : Prop :=
  ∃ n m, run code n (start config) = ended m o

theorem start_relax (a d : Nat) (limit : Option Nat) :
    (start ⟨a, limit⟩).relax d = start ⟨a + d, none⟩ := rfl

theorem run_of_steps (h : Steps code k m u) (n : Nat) : run code (k + n) m = run code n u := by
  induction k generalizing m with
  | zero =>
    cases h
    rw [Nat.zero_add]
  | succ k ih =>
    obtain ⟨t, ht, h⟩ := h
    rw [Nat.add_right_comm, run, running_of_step ht]
    simp only [ht]
    exact ih h

theorem ends_of_steps {config : Config} (h : Steps code k (start config) u)
    (hu : Concludes code u o) : Ends code config o := by
  refine ⟨k + 1, ?_⟩
  rw [run_of_steps h]
  cases o with
  | ok v => exact ⟨u, by simp only [run, hu.1, hu.2, ended]⟩
  | error f =>
    obtain ⟨hr, m', hm'⟩ := hu
    exact ⟨m', by simp only [run, hr, hm', ended]⟩

theorem steps_of_run (ho : o ≠ .error .notRunning) (h : run code n m = ended m' o) :
    ∃ k u, k ≤ n ∧ Steps code k m u ∧ Concludes code u o := by
  induction n generalizing m with
  | zero =>
    cases o with
    | ok v =>
      unfold run at h
      cases hs : m.status <;> simp only [hs, ended] at h <;> cases h
      exact ⟨0, _, Nat.le_refl 0, rfl, hs, rfl⟩
    | error f =>
      unfold run at h
      cases hs : m.status <;> simp only [hs, ended] at h <;> cases h
      exact absurd rfl ho
  | succ n ih =>
    unfold run at h
    cases hs : m.status with
    | halted =>
      simp only [hs] at h
      cases o with
      | ok v =>
        cases h
        exact ⟨0, _, Nat.zero_le _, rfl, hs, rfl⟩
      | error f => cases h
    | faulted =>
      simp only [hs] at h
      cases o with
      | ok v => cases h
      | error f =>
        cases h
        exact absurd rfl ho
    | running =>
      simp only [hs] at h
      cases ht : step code m with
      | error f t =>
        simp only [ht] at h
        cases o with
        | ok v => cases h
        | error f' =>
          cases h
          exact ⟨0, m, Nat.zero_le _, rfl, hs, _, ht⟩
      | ok _ t =>
        simp only [ht] at h
        obtain ⟨k, u, hk, hsteps, hu⟩ := ih h
        exact ⟨k + 1, u, Nat.succ_le_succ hk, ⟨t, ht, hsteps⟩, hu⟩

end Sigil.Machine
