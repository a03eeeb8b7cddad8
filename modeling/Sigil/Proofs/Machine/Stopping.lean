import Sigil.Proofs.Machine.Balance
import Sigil.Proofs.Machine.Conclusion

/-!
With which step a run stops, and how. Every step that meets no fault counts as one.
-/
namespace Sigil.Machine

variable {code : Code} {config : Config} {m t u m' : Machine} {j k n limit : Nat} {f : Fault}
  {o : Except Fault Value}

/-- The run stops with its `n`-th step: so far it goes on, and then it ends like that in `m`. -/
structure Stops (code : Code) (config : Config) (n : Nat) (o : Except Fault Value) (m : Machine) :
    Prop where
  result : run code n (start config) = ended m o
  before : ∀ k < n, ∃ t, run code k (start config) = .ok none t

theorem ended_ne_none : ended m o ≠ .ok none t := by
  cases o with
  | ok v => exact nofun
  | error f => exact nofun

theorem ended_injective {o' : Except Fault Value} (h : ended m o = ended m' o') :
    m = m' ∧ o = o' := by
  cases o with
  | ok v =>
    cases o' with
    | ok w =>
      cases h
      exact ⟨rfl, rfl⟩
    | error f => cases h
  | error f =>
    cases o' with
    | ok w => cases h
    | error g =>
      cases h
      exact ⟨rfl, rfl⟩

theorem Stops.unique {n' : Nat} {o' : Except Fault Value} (h : Stops code config n o m)
    (g : Stops code config n' o' m') : n = n' ∧ o = o' ∧ m = m' := by
  have hn : n = n' := by
    refine Nat.le_antisymm (Nat.le_of_not_lt fun hlt => ?_) (Nat.le_of_not_lt fun hlt => ?_)
    · obtain ⟨t, ht⟩ := h.before n' hlt
      exact ended_ne_none (g.result.symm.trans ht)
    · obtain ⟨t, ht⟩ := g.before n hlt
      exact ended_ne_none (h.result.symm.trans ht)
  subst hn
  obtain ⟨hm, ho⟩ := ended_injective (h.result.symm.trans g.result)
  exact ⟨rfl, ho, hm⟩

/-- An instruction may halt the machine; it changes nothing else of the control part. -/
theorem execute_control {i : Instruction} (h : execute i m = .ok () t) :
    t.control = m.control ∨ t.control = { m.control with status := .halted } := by
  by_cases hi : Plain i
  · exact .inl ((indifferent_execute hi).control_eq h)
  · cases i with
    | push source =>
      obtain ⟨v, s, hv, h⟩ := bind_eq_ok.1 h
      have hs : s.control = m.control := (indifferent_fetch source).control_eq hv
      unfold push at h
      split at h <;> cases h
      exact .inl hs
    | call target =>
      simp only [execute, call] at h
      split at h <;> cases h
      exact .inl rfl
    | exit source =>
      obtain ⟨v, s, hv, h⟩ := bind_eq_ok.1 h
      have hs : s.control = m.control := (indifferent_fetch source).control_eq hv
      cases h
      exact .inr (congrArg (fun c : Control => { c with status := .halted }) hs)
    | _ => exact absurd trivial hi

def faulting : EStateM.Result Fault Machine Unit → EStateM.Result Fault Machine Unit
  | .ok _ t => .ok () t
  | .error f t => .error f { t with status := .faulted }

theorem step_of_allowed (code : Code) (hr : m.status = .running) (hx : m.exhausted? = none) :
    step code m =
      match code.get? m.pc with
      | none => .error (.pcOutOfBounds m.pc) { m with steps := m.steps + 1, status := .faulted }
      | some i => faulting (execute i m.fetched) := by
  rw [step, if_pos hr]
  simp only [cycle, hx]
  cases code.get? m.pc with
  | none => rfl
  | some i => rfl

theorem step_exhausted {limit : Nat} (hr : m.status = .running) (hx : m.exhausted? = some limit) :
    step code m = .error (.stepLimitExceeded limit) { m with status := .faulted } := by
  rw [step, if_pos hr]
  simp only [cycle, hx]

theorem exhausted_of_step (h : step code m = .ok () t) : m.exhausted? = none := by
  cases he : m.exhausted? with
  | none => rfl
  | some limit =>
    rw [step, if_pos (running_of_step h)] at h
    simp only [cycle, he] at h
    cases h

/-- What a step without a fault does to the control part. -/
theorem step_control (h : step code m = .ok () t) :
    t.control = { m.control with steps := m.steps + 1 } ∨
      t.control = { m.control with steps := m.steps + 1, status := .halted } := by
  have hr := running_of_step h
  rw [step, if_pos hr] at h
  simp only [cycle, exhausted_of_step (by rwa [step, if_pos hr])] at h
  cases hi : code.get? m.pc with
  | none =>
    simp only [hi] at h
    cases h
  | some i =>
    simp only [hi] at h
    cases he : execute i { m with steps := m.steps + 1, pc := m.pc + 1 } with
    | error f s =>
      simp only [he] at h
      cases h
    | ok _ s =>
      simp only [he] at h
      cases h
      exact execute_control he

theorem limit_of_step (h : step code m = .ok () t) : t.stack.limit = m.stack.limit := by
  rcases step_control h with hc | hc
  · exact congrArg Control.stackLimit hc
  · exact congrArg Control.stackLimit hc

theorem stepLimit_of_step (h : step code m = .ok () t) : t.stepLimit = m.stepLimit := by
  rcases step_control h with hc | hc
  · exact congrArg Control.stepLimit hc
  · exact congrArg Control.stepLimit hc

theorem count_of_step (h : step code m = .ok () t) : t.steps = m.steps + 1 := by
  rcases step_control h with hc | hc
  · exact congrArg Control.steps hc
  · exact congrArg Control.steps hc

theorem status_of_step (h : step code m = .ok () t) :
    t.status = .running ∨ t.status = .halted := by
  rcases step_control h with hc | hc
  · exact .inl ((congrArg Control.status hc).trans (running_of_step h))
  · exact .inr (congrArg Control.status hc)

theorem Steps.stackLimit (h : Steps code k m u) : u.stack.limit = m.stack.limit := by
  induction k generalizing m with
  | zero =>
    cases h
    rfl
  | succ k ih =>
    obtain ⟨t, ht, h⟩ := h
    exact (ih h).trans (limit_of_step ht)

theorem Steps.stepLimit (h : Steps code k m u) : u.stepLimit = m.stepLimit := by
  induction k generalizing m with
  | zero =>
    cases h
    rfl
  | succ k ih =>
    obtain ⟨t, ht, h⟩ := h
    exact (ih h).trans (stepLimit_of_step ht)

theorem Steps.count (h : Steps code k m u) : u.steps = m.steps + k := by
  induction k generalizing m with
  | zero =>
    cases h
    rfl
  | succ k ih =>
    obtain ⟨t, ht, h⟩ := h
    rw [ih h, count_of_step ht]
    omega

theorem Steps.snoc (h : Steps code k m u) (hu : step code u = .ok () t) : Steps code (k + 1) m t :=
  h.trans (g := ⟨t, hu, rfl⟩)

theorem Steps.stepped_eq (h : Steps code k m u) (hj : j ≤ k) :
    Steps code j m (stepped code m j) := by
  induction j with
  | zero => rfl
  | succ j ih =>
    have hsteps := ih (Nat.le_of_succ_le hj)
    obtain ⟨i, rfl⟩ : ∃ i, k = j + (i + 1) := ⟨k - j - 1, by omega⟩
    obtain ⟨s, hs, t, ht, -⟩ := h.take
    obtain rfl := hsteps.unique hs
    rw [stepped, after_of_ok ht]
    exact hs.snoc ht

def Finishes (code : Code) (u : Machine) (m : Machine) : Except Fault Value → Prop
  | .ok v => step code u = .ok () m ∧ m.status = .halted ∧ m.accumulator = v
  | .error f => u.status = .running ∧ step code u = .error f m

theorem steps_of_run_none (h : run code k m = .ok none u) : Steps code k m u ∧ u.status = .running := by
  induction k generalizing m with
  | zero =>
    unfold run at h
    cases hs : m.status <;> simp only [hs] at h <;> cases h
    exact ⟨rfl, hs⟩
  | succ k ih =>
    unfold run at h
    cases hs : m.status with
    | halted =>
      simp only [hs] at h
      cases h
    | faulted =>
      simp only [hs] at h
      cases h
    | running =>
      simp only [hs] at h
      cases ht : step code m with
      | error f t =>
        simp only [ht] at h
        cases h
      | ok _ t =>
        simp only [ht] at h
        obtain ⟨hsteps, hu⟩ := ih h
        exact ⟨⟨t, ht, hsteps⟩, hu⟩

theorem Steps.run_none (h : Steps code k m u) (hu : u.status = .running) :
    run code k m = .ok none u := by
  have hrun := run_of_steps h 0
  rw [Nat.add_zero] at hrun
  rw [hrun, run, hu]

theorem Steps.running (h : Steps code k m u) (hu : u.status = .running) : m.status = .running := by
  cases k with
  | zero =>
    cases h
    exact hu
  | succ k =>
    obtain ⟨t, ht, -⟩ := h
    exact running_of_step ht

theorem Finishes.running (h : Finishes code u m o) : u.status = .running := by
  cases o with
  | ok v => exact running_of_step h.1
  | error f => exact h.1

theorem finishes_iff (hu : u.status = .running) :
    Finishes code u m o ↔ run code 1 u = ended m o := by
  have hrun : run code 1 u =
      match step code u with
      | .ok _ t => run code 0 t
      | .error f t => .error f t := by
    cases ht : step code u <;> simp only [run, hu, ht]
  rw [hrun]
  cases ht : step code u with
  | error f t =>
    cases o with
    | ok v => simp [Finishes, ht, ended]
    | error g => simp [Finishes, ht, hu, ended]
  | ok _ t =>
    rcases status_of_step ht with hs | hs
    · cases o with
      | ok v =>
        simp only [Finishes, ht, run, hs, ended]
        constructor
        · rintro ⟨⟨⟩, hm, -⟩
          rw [hs] at hm
          cases hm
        · intro hrun
          cases hrun
      | error g => simp [Finishes, ht, run, hs, ended]
    · cases o with
      | ok v =>
        simp only [Finishes, ht, run, hs, ended]
        constructor
        · rintro ⟨⟨⟩, -, rfl⟩
          rfl
        · rintro ⟨⟩
          exact ⟨rfl, hs, rfl⟩
      | error g => simp [Finishes, ht, run, hs, ended]

/-- A run stops with the step behind those without a fault that leave it running. -/
theorem stops_iff : Stops code config n o m ↔
    ∃ k u, n = k + 1 ∧ Steps code k (start config) u ∧ Finishes code u m o := by
  constructor
  · intro h
    cases n with
    | zero => exact absurd h.result.symm ended_ne_none
    | succ k =>
      obtain ⟨u, hrun⟩ := h.before k (Nat.lt_succ_self k)
      obtain ⟨hsteps, hu⟩ := steps_of_run_none hrun
      exact ⟨k, u, rfl, hsteps, (finishes_iff hu).2 ((run_of_steps hsteps 1).symm.trans h.result)⟩
  · rintro ⟨k, u, rfl, hsteps, hlast⟩
    have hu := hlast.running
    refine ⟨(run_of_steps hsteps 1).trans ((finishes_iff hu).1 hlast), fun j hj => ?_⟩
    obtain ⟨i, rfl⟩ : ∃ i, k = j + i := ⟨k - j, by omega⟩
    obtain ⟨t, ht, hrest⟩ := hsteps.take
    exact ⟨t, ht.run_none (hrest.running hu)⟩

end Sigil.Machine
