import Mathlib.Data.Nat.Find
import Sigil.Proofs.Machine.Stopping

/-!
Limits are thresholds: a run that stays within other limits goes the same way under them, and one
that does not goes the same way up to the step that is refused.
-/
namespace Sigil

/-- What counts against the limit of a stack. -/
def Stack.load (s : Stack) : Nat := s.height + s.saved.size

theorem Stack.load_push (s : Stack) (v : Value) : (s.push v).load = s.load + 1 := by
  rw [load, load, height_push, Nat.add_right_comm]
  rfl

theorem Stack.load_pushFrame (s : Stack) : s.pushFrame.load = s.load + 1 := by
  have hsize : s.pushFrame.saved.size = s.saved.size + 1 := Array.size_push _
  rw [load, load, height_pushFrame, hsize, Nat.add_assoc]

namespace Machine

variable {code : Code} {config limits : Config} {m t u w : Machine} {j k n : Nat} {f : Fault}
  {o : Except Fault Value}

def relimit (limits : Config) (m : Machine) : Machine :=
  { m with stack := { m.stack with limit := limits.stackSize }, stepLimit := limits.stepLimit }

theorem relimit_eq_withControl (limits : Config) (m : Machine) :
    m.relimit limits = m.withControl ⟨limits.stackSize, limits.stepLimit, m.status, m.steps⟩ := rfl

theorem read_relimit (limits : Config) (m : Machine) (source : Operand) :
    (m.relimit limits).read source = m.read source := by
  rw [relimit_eq_withControl, read_withControl]

inductive Strides (load : Nat) (x : Config → EStateM.Result Fault Machine Unit) : Prop
  | same (r : EStateM.Result Fault Machine Unit)
      (h : ∀ limits, x limits = mapResult (relimit limits) r) : Strides load x
  | grows (t u : Machine) (hload : t.stack.load = load + 1)
      (h : ∀ limits, x limits =
        if load < limits.stackSize then .ok () (t.relimit limits)
        else .error (.stackOverflow limits.stackSize) (u.relimit limits)) : Strides load x

theorem hasRoom_relimit (limits : Config) (m : Machine) :
    (m.relimit limits).stack.hasRoom = decide (m.stack.load < limits.stackSize) := rfl

theorem strides_push (source : Operand) (m : Machine) :
    Strides m.stack.load fun limits => execute (.push source) (m.relimit limits) := by
  cases hv : m.read source with
  | error f =>
    refine .same (.error f m) fun limits => bind_of_error (fetch_of_error ?_)
    rw [read_relimit, hv]
  | ok v =>
    refine .grows { m with stack := m.stack.push v } m (m.stack.load_push v) fun limits => ?_
    have hread : (m.relimit limits).read source = .ok v := by rw [read_relimit, hv]
    rw [execute, bind_of_ok (fetch_of_ok hread), push, hasRoom_relimit]
    simp only [decide_eq_true_eq]
    rfl

theorem strides_call (target : Nat) (m : Machine) :
    Strides m.stack.load fun limits => execute (.call target) (m.relimit limits) := by
  refine .grows { m with stack := m.stack.pushFrame, returns := m.pc :: m.returns, pc := target } m
    m.stack.load_pushFrame fun limits => ?_
  rw [execute, call, hasRoom_relimit]
  simp only [decide_eq_true_eq]
  rfl

theorem strides_exit (source : Operand) (m : Machine) :
    Strides m.stack.load fun limits => execute (.exit source) (m.relimit limits) := by
  refine .same (execute (.exit source) m) fun limits => ?_
  cases hv : m.read source with
  | error f =>
    have hread : (m.relimit limits).read source = .error f := by rw [read_relimit, hv]
    rw [execute, bind_of_error (fetch_of_error hread), bind_of_error (fetch_of_error hv)]
    rfl
  | ok v =>
    have hread : (m.relimit limits).read source = .ok v := by rw [read_relimit, hv]
    rw [execute, bind_of_ok (fetch_of_ok hread), bind_of_ok (fetch_of_ok hv)]
    rfl

theorem strides_execute (i : Instruction) (m : Machine) :
    Strides m.stack.load fun limits => execute i (m.relimit limits) := by
  by_cases hi : Plain i
  · have hx := indifferent_execute hi
    refine .same (execute i m) fun limits => ?_
    rw [relimit_eq_withControl, hx, ← hx.own m]
    cases execute i m <;> rfl
  · cases i with
    | push source => exact strides_push source m
    | call target => exact strides_call target m
    | exit source => exact strides_exit source m
    | _ => exact absurd trivial hi

theorem Strides.faulting {x : Config → EStateM.Result Fault Machine Unit} {load : Nat}
    (h : Strides load x) : Strides load fun limits => Machine.faulting (x limits) := by
  cases h with
  | same r h =>
    refine .same (Machine.faulting r) fun limits => ?_
    rw [h]
    cases r <;> rfl
  | grows t u hload h =>
    refine .grows t { u with status := .faulted } hload fun limits => ?_
    rw [h]
    split <;> rfl

theorem strides_step (code : Code) (hr : m.status = .running) :
    ∃ x, Strides m.stack.load x ∧
      ∀ limits, (m.relimit limits).exhausted? = none → step code (m.relimit limits) = x limits := by
  have hstep : ∀ limits, (m.relimit limits).exhausted? = none → step code (m.relimit limits) = _ :=
    fun limits => step_of_allowed code (m := m.relimit limits) hr
  have hpc : ∀ limits, (m.relimit limits).pc = m.pc := fun _ => rfl
  have hfetched : ∀ limits, (m.relimit limits).fetched = m.fetched.relimit limits := fun _ => rfl
  simp only [hpc, hfetched] at hstep
  cases hi : code.get? m.pc with
  | none =>
    rw [hi] at hstep
    refine ⟨_, .same (.error (.pcOutOfBounds m.pc)
      { m with steps := m.steps + 1, status := .faulted }) fun _ => rfl, hstep⟩
  | some i =>
    rw [hi] at hstep
    exact ⟨_, (strides_execute i m.fetched).faulting, hstep⟩

/-- Under other limits the next step does the same, unless the stack is full under one of them. -/
theorem step_relimit (code : Code) (hr : m.status = .running) (hown : m.exhausted? = none)
    (hx : (m.relimit limits).exhausted? = none) :
    step code (m.relimit limits) = mapResult (relimit limits) (step code m) ∨
      (limits.stackSize ≠ m.stack.limit ∧
        ∃ u, step code m = .error (.stackOverflow m.stack.limit) u) ∨
      (limits.stackSize ≤ m.stack.load ∧ ∃ t u, step code m = .ok () t ∧
        t.stack.load = m.stack.load + 1 ∧
        step code (m.relimit limits) = .error (.stackOverflow limits.stackSize) u) := by
  obtain ⟨x, hs, hstep⟩ := strides_step code hr
  have howns : step code m = x ⟨m.stack.limit, m.stepLimit⟩ :=
    hstep ⟨m.stack.limit, m.stepLimit⟩ hown
  rw [hstep limits hx, howns]
  cases hs with
  | same r h =>
    left
    rw [h, h]
    cases r <;> rfl
  | grows t u hload h =>
    rw [h, h]
    by_cases hold : m.stack.load < m.stack.limit
    · rw [if_pos hold]
      by_cases hnew : m.stack.load < limits.stackSize
      · exact .inl (if_pos hnew)
      · exact .inr (.inr ⟨Nat.le_of_not_lt hnew, _, _, rfl, hload, if_neg hnew⟩)
    · rw [if_neg hold]
      by_cases heq : limits.stackSize = m.stack.limit
      · rw [heq, if_neg hold]
        exact .inl rfl
      · exact .inr (.inl ⟨heq, _, rfl⟩)

theorem exhausted_relimit {S limit : Nat} :
    (m.relimit ⟨S, some limit⟩).exhausted? = none ↔ m.steps < limit := by
  show (some limit).filter (fun limit => decide (limit ≤ m.steps)) = none ↔ _
  simp

theorem Steps.eq_stepped (h : Steps code k m u) : stepped code m k = u :=
  (h.stepped_eq (Nat.le_refl k)).unique h

/-- A run goes the same way under other limits that it stays within. -/
theorem Steps.relimit (h : Steps code k m u)
    (hx : ∀ j < k, ((stepped code m j).relimit limits).exhausted? = none)
    (hroom : ∀ j ≤ k, (stepped code m j).stack.load ≤ limits.stackSize) :
    Steps code k (m.relimit limits) (u.relimit limits) := by
  induction k generalizing u with
  | zero =>
    cases h
    rfl
  | succ k ih =>
    obtain ⟨s, hs, t, ht, hu⟩ := h.take
    cases hu
    have hsteps := ih hs (fun j hj => hx j (Nat.lt_succ_of_lt hj))
      fun j hj => hroom j (Nat.le_succ_of_le hj)
    have hallowed := hx k (Nat.lt_succ_self k)
    have hload := hroom (k + 1) (Nat.le_refl _)
    rw [hs.eq_stepped] at hallowed
    rw [h.eq_stepped] at hload
    rcases step_relimit code (running_of_step ht) (exhausted_of_step ht) hallowed with
      h1 | ⟨-, _, h2⟩ | ⟨hfull, s', -, h3, hload', -⟩
    · rw [ht] at h1
      exact hsteps.snoc h1
    · rw [ht] at h2
      cases h2
    · rw [ht] at h3
      cases h3
      omega

theorem Finishes.relimit (h : Finishes code u m o)
    (hstep : step code (u.relimit limits) = mapResult (relimit limits) (step code u)) :
    Finishes code (u.relimit limits) (m.relimit limits) o := by
  cases o with
  | ok v =>
    rw [h.1] at hstep
    exact ⟨hstep, h.2⟩
  | error f =>
    rw [h.2] at hstep
    exact ⟨h.1, hstep⟩

theorem load_stepped_le (code : Code) (config : Config) (j : Nat) :
    (stepped code (start config) j).stack.load ≤ config.stackSize :=
  (Visited.start.stepped j).nested.room

variable {S L : Nat} {limit : Option Nat}

theorem Steps.exhausted_relimit (h : Steps code k (start ⟨S, limit⟩) u) (hj : j ≤ k) :
    ((stepped code (start ⟨S, limit⟩) j).relimit ⟨S, some L⟩).exhausted? = none ↔ j < L := by
  have hcount : (stepped code (start ⟨S, limit⟩) j).steps = 0 + j := (h.stepped_eq hj).count
  rw [Machine.exhausted_relimit, hcount, Nat.zero_add]

/-- The first steps of a run without a limit are those of the run with one. -/
theorem Steps.limited (h : Steps code k (start ⟨S, none⟩) u) (hL : k ≤ L) :
    Steps code k (start ⟨S, some L⟩) (u.relimit ⟨S, some L⟩) :=
  h.relimit (fun _ hj => (h.exhausted_relimit (Nat.le_of_lt hj)).2 (Nat.lt_of_lt_of_le hj hL))
    fun j _ => load_stepped_le code ⟨S, none⟩ j

theorem Stops.limited (h : Stops code ⟨S, none⟩ n o m) (hL : n ≤ L) :
    Stops code ⟨S, some L⟩ n o (m.relimit ⟨S, some L⟩) := by
  obtain ⟨k, u, rfl, hsteps, hlast⟩ := stops_iff.1 h
  have hallowed := (hsteps.exhausted_relimit (L := L) (Nat.le_refl k)).2 hL
  rw [hsteps.eq_stepped] at hallowed
  have hsize : S = u.stack.limit := hsteps.stackLimit.symm
  have hown : u.exhausted? = none := by
    rw [exhausted?, hsteps.stepLimit]
    rfl
  refine stops_iff.2 ⟨k, _, rfl, hsteps.limited (Nat.le_of_succ_le hL), hlast.relimit ?_⟩
  rcases step_relimit code hlast.running hown hallowed with
    h1 | ⟨hne, -⟩ | ⟨hfull, t, -, ht, hload, -⟩
  · exact h1
  · exact absurd hsize hne
  · -- the stack was full, so that the step would not have succeeded
    have hnext : t.stack.load ≤ S :=
      (hsteps.snoc ht).eq_stepped ▸ load_stepped_le code ⟨S, none⟩ (k + 1)
    have hfull' : S ≤ u.stack.load := hfull
    omega

/-- A running machine that has used up its steps stops with the next one. -/
theorem Steps.stops_exhausted (h : Steps code L (start ⟨S, some L⟩) u) (hu : u.status = .running) :
    Stops code ⟨S, some L⟩ (L + 1) (.error (.stepLimitExceeded L)) { u with status := .faulted } := by
  have hx : u.exhausted? = some L := by
    have hcount : u.steps = 0 + L := h.count
    rw [exhausted?, h.stepLimit, hcount, Nat.zero_add]
    simp [start]
  exact stops_iff.2 ⟨L, u, rfl, h, hu, step_exhausted hu hx⟩

theorem Stops.cut (h : Stops code ⟨S, none⟩ n o m) (hL : L < n) :
    ∃ w, Steps code L (start ⟨S, some L⟩) w ∧
      Stops code ⟨S, some L⟩ (L + 1) (.error (.stepLimitExceeded L))
        { w with status := .faulted } := by
  obtain ⟨k, u, rfl, hsteps, hlast⟩ := stops_iff.1 h
  obtain ⟨i, rfl⟩ : ∃ i, k = L + i := ⟨k - L, by omega⟩
  obtain ⟨t, ht, hrest⟩ := hsteps.take
  have hrunning : (t.relimit ⟨S, some L⟩).status = .running := hrest.running hlast.running
  have hlimited := ht.limited (Nat.le_refl L)
  exact ⟨_, hlimited, hlimited.stops_exhausted hrunning⟩

/-- Every run with a limit on its steps stops. -/
theorem exists_stops (code : Code) (S L : Nat) :
    ∃ n o m, n ≤ L + 1 ∧ Stops code ⟨S, some L⟩ n o m := by
  have hrun : ∀ j, (∃ n o m, n ≤ j ∧ Stops code ⟨S, some L⟩ n o m) ∨
      ∃ w, Steps code j (start ⟨S, some L⟩) w ∧ w.status = .running := by
    intro j
    induction j with
    | zero => exact .inr ⟨_, rfl, rfl⟩
    | succ j ih =>
      rcases ih with ⟨n, o, m, hn, hstops⟩ | ⟨w, hw, hr⟩
      · exact .inl ⟨n, o, m, Nat.le_succ_of_le hn, hstops⟩
      · cases ht : step code w with
        | error f t =>
          exact .inl ⟨j + 1, .error f, t, Nat.le_refl _, stops_iff.2 ⟨j, w, rfl, hw, hr, ht⟩⟩
        | ok _ t =>
          rcases status_of_step ht with hs | hs
          · exact .inr ⟨t, hw.snoc ht, hs⟩
          · exact .inl ⟨j + 1, .ok t.accumulator, t, Nat.le_refl _,
              stops_iff.2 ⟨j, w, rfl, hw, ht, hs, rfl⟩⟩
  rcases hrun L with ⟨n, o, m, hn, hstops⟩ | ⟨w, hw, hr⟩
  · exact ⟨n, o, m, Nat.le_succ_of_le hn, hstops⟩
  · exact ⟨L + 1, _, _, Nat.le_refl _, hw.stops_exhausted hr⟩

def peak (code : Code) (m : Machine) : Nat → Nat
  | 0 => m.stack.load
  | n + 1 => max (peak code m n) (stepped code m (n + 1)).stack.load

theorem load_le_peak (code : Code) (m : Machine) (hj : j ≤ n) :
    (stepped code m j).stack.load ≤ peak code m n := by
  induction n with
  | zero =>
    obtain rfl := Nat.le_zero.1 hj
    exact Nat.le_refl _
  | succ n ih =>
    rcases Nat.le_succ_iff.1 hj with hj | rfl
    · exact Nat.le_trans (ih hj) (Nat.le_max_left _ _)
    · exact Nat.le_max_right _ _

theorem exists_load_eq_peak (code : Code) (m : Machine) (n : Nat) :
    ∃ j ≤ n, (stepped code m j).stack.load = peak code m n := by
  induction n with
  | zero => exact ⟨0, Nat.le_refl 0, rfl⟩
  | succ n ih =>
    obtain ⟨j, hj, hload⟩ := ih
    rcases Nat.le_total (stepped code m (n + 1)).stack.load (peak code m n) with h | h
    · exact ⟨j, Nat.le_succ_of_le hj, hload.trans (Nat.max_eq_left h).symm⟩
    · exact ⟨n + 1, Nat.le_refl _, (Nat.max_eq_right h).symm⟩

variable {S' : Nat}

theorem exhausted_relimit_stack (h : m.stepLimit = limit) :
    (m.relimit ⟨S, limit⟩).exhausted? = m.exhausted? := by
  subst h
  rfl

/-- The run goes the same way on a smaller stack, as long as that is large enough. -/
theorem Steps.shrunk (h : Steps code k (start ⟨S', limit⟩) u)
    (hroom : ∀ j ≤ k, (stepped code (start ⟨S', limit⟩) j).stack.load ≤ S) :
    Steps code k (start ⟨S, limit⟩) (u.relimit ⟨S, limit⟩) := by
  refine h.relimit (fun j hj => ?_) hroom
  obtain ⟨i, rfl⟩ : ∃ i, k = j + (i + 1) := ⟨k - j - 1, by omega⟩
  obtain ⟨s, hs, t, ht, -⟩ := h.take
  have hlimit : s.stepLimit = limit := hs.stepLimit
  rw [hs.eq_stepped, exhausted_relimit_stack hlimit]
  exact exhausted_of_step ht

theorem Stops.shrunk (h : Stops code ⟨S', limit⟩ n o m) (ho : ∀ l, o ≠ .error (.stackOverflow l))
    (hroom : peak code (start ⟨S', limit⟩) n ≤ S) :
    Stops code ⟨S, limit⟩ n o (m.relimit ⟨S, limit⟩) := by
  obtain ⟨k, u, rfl, hsteps, hlast⟩ := stops_iff.1 h
  have hfits : ∀ j ≤ k + 1, (stepped code (start ⟨S', limit⟩) j).stack.load ≤ S :=
    fun j hj => Nat.le_trans (load_le_peak code _ hj) hroom
  refine stops_iff.2 ⟨k, _, rfl, hsteps.shrunk fun j hj => hfits j (Nat.le_succ_of_le hj),
    hlast.relimit ?_⟩
  have hr := hlast.running
  have hxx : (u.relimit ⟨S, limit⟩).exhausted? = u.exhausted? :=
    exhausted_relimit_stack hsteps.stepLimit
  cases hx : u.exhausted? with
  | some l =>
    rw [step_exhausted hr hx, step_exhausted (m := u.relimit ⟨S, limit⟩) hr (hxx.trans hx)]
    rfl
  | none =>
    rcases step_relimit code hr hx (hxx.trans hx) with
      h1 | ⟨-, t, ht⟩ | ⟨hfull, t, -, ht, hload, -⟩
    · exact h1
    · cases o with
      | ok v =>
        rw [hlast.1] at ht
        cases ht
      | error f =>
        rw [hlast.2] at ht
        cases ht
        exact absurd rfl (ho _)
    · have hnext : t.stack.load ≤ S := (hsteps.snoc ht).eq_stepped ▸ hfits (k + 1) (Nat.le_refl _)
      have hfull' : S ≤ u.stack.load := hfull
      omega

/-- The run that stops on the stack of size `S'` passes through `w`, and does not overflow there. -/
theorem Stops.passes (h : Stops code ⟨S', limit⟩ n o m) (ho : ∀ l, o ≠ .error (.stackOverflow l))
    (hj : j < n) : ∃ w, Steps code j (start ⟨S', limit⟩) w ∧ w.status = .running ∧
      ∀ l t, step code w ≠ .error (.stackOverflow l) t := by
  obtain ⟨k, u, rfl, hsteps, hlast⟩ := stops_iff.1 h
  rcases Nat.lt_succ_iff_lt_or_eq.1 hj with hj | rfl
  · obtain ⟨i, rfl⟩ : ∃ i, k = j + (i + 1) := ⟨k - j - 1, by omega⟩
    obtain ⟨w, hw, t, ht, -⟩ := hsteps.take
    refine ⟨w, hw, running_of_step ht, fun l s hs => ?_⟩
    rw [ht] at hs
    cases hs
  · refine ⟨u, hsteps, hlast.running, fun l s hs => ?_⟩
    cases o with
    | ok v =>
      rw [hlast.1] at hs
      cases hs
    | error f =>
      rw [hlast.2] at hs
      cases hs
      exact ho l rfl

/-- The step that would take more places than there are is refused. -/
theorem Stops.overflow (h : Stops code ⟨S', limit⟩ n o m) (ho : ∀ l, o ≠ .error (.stackOverflow l))
    (hroom : S < peak code (start ⟨S', limit⟩) n) :
    ∃ k w, k ≤ n ∧ Stops code ⟨S, limit⟩ k (.error (.stackOverflow S)) w := by
  obtain ⟨j, hjn, hj⟩ := exists_load_eq_peak code (start ⟨S', limit⟩) n
  have hexceeds : ∃ j, S < (stepped code (start ⟨S', limit⟩) j).stack.load := ⟨j, hj ▸ hroom⟩
  -- the first machine that is too large for the stack, and the one before it
  obtain ⟨i, hi⟩ : ∃ i, Nat.find hexceeds = i + 1 := by
    refine Nat.exists_eq_succ_of_ne_zero fun h0 => ?_
    have hstart := Nat.find_spec hexceeds
    rw [h0] at hstart
    exact Nat.not_lt_zero _ hstart
  have hfirst := Nat.find_spec hexceeds
  have hle : i + 1 ≤ n := hi ▸ Nat.le_trans (Nat.find_min' hexceeds (hj ▸ hroom)) hjn
  have hfits : ∀ l ≤ i, (stepped code (start ⟨S', limit⟩) l).stack.load ≤ S := fun l hl =>
    Nat.le_of_not_lt (Nat.find_min hexceeds (by omega))
  rw [hi] at hfirst
  obtain ⟨w, hw, hr, hno⟩ := h.passes ho hle
  have hS := hw.shrunk hfits
  have hwS := hfits i (Nat.le_refl i)
  rw [stepped, hw.eq_stepped] at hfirst
  rw [hw.eq_stepped] at hwS
  have hxx : (w.relimit ⟨S, limit⟩).exhausted? = w.exhausted? := exhausted_relimit_stack hw.stepLimit
  cases hx : w.exhausted? with
  | some l =>
    rw [after_of_error (step_exhausted hr hx)] at hfirst
    exact absurd hwS (Nat.not_le_of_lt hfirst)
  | none =>
    rcases step_relimit code hr hx (hxx.trans hx) with h1 | ⟨-, t, ht⟩ | ⟨-, t, u, -, -, hu⟩
    · -- the stack of size `S` would hold more than `S` places
      have hnext := load_stepped_le code ⟨S, limit⟩ (i + 1)
      rw [stepped, hS.eq_stepped, after, h1] at hnext
      rw [after] at hfirst
      cases hstep : step code w with
      | ok _ t =>
        rw [hstep] at hnext hfirst
        exact absurd hnext (Nat.not_le_of_lt hfirst)
      | error f t =>
        rw [hstep] at hnext hfirst
        exact absurd hnext (Nat.not_le_of_lt hfirst)
    · exact absurd ht (hno _ _)
    · exact ⟨i + 1, u, hle, stops_iff.2 ⟨i, _, rfl, hS, hr, hu⟩⟩

/-- Limits are exact thresholds and change nothing else. Without a limit on its steps a run stops
with its `n`-th step: with a limit of at least `n` it does the same, and with a lower one it stops
when that many steps are made; with any limit it stops. On a stack that holds its greatest load a run
stops in the same way, unless it overflows, and on a smaller one it does overflow. -/
theorem limits_are_thresholds (code : Code) :
    (∀ S n o m, Stops code ⟨S, none⟩ n o m →
      (∀ L, n ≤ L → Stops code ⟨S, some L⟩ n o (m.relimit ⟨S, some L⟩)) ∧
      ∀ L < n, ∃ w, Steps code L (start ⟨S, some L⟩) w ∧
        Stops code ⟨S, some L⟩ (L + 1) (.error (.stepLimitExceeded L))
          { w with status := .faulted }) ∧
    (∀ S L, ∃ n o m, n ≤ L + 1 ∧ Stops code ⟨S, some L⟩ n o m) ∧
    ∀ S' limit n o m, Stops code ⟨S', limit⟩ n o m → (∀ l, o ≠ .error (.stackOverflow l)) →
      (∀ S, peak code (start ⟨S', limit⟩) n ≤ S →
        Stops code ⟨S, limit⟩ n o (m.relimit ⟨S, limit⟩)) ∧
      ∀ S < peak code (start ⟨S', limit⟩) n,
        ∃ k w, k ≤ n ∧ Stops code ⟨S, limit⟩ k (.error (.stackOverflow S)) w :=
  ⟨fun _ _ _ _ h => ⟨fun _ hL => h.limited hL, fun _ hL => h.cut hL⟩, exists_stops code,
    fun _ _ _ _ _ h ho => ⟨fun _ hS => h.shrunk ho hS, fun _ hS => h.overflow ho hS⟩⟩

def pushTwice : Code :=
  ⟨#[.push .accumulator, .push .accumulator, .exit .accumulator], []⟩

/-- Three steps and two places are enough for the code; two steps or one place are not. -/
theorem thresholds_pushTwice :
    (∃ m, Stops pushTwice ⟨2, some 3⟩ 3 (.ok .zero) m) ∧
    (∃ m, Stops pushTwice ⟨2, some 2⟩ 3 (.error (.stepLimitExceeded 2)) m) ∧
    ∃ k m, Stops pushTwice ⟨1, none⟩ k (.error (.stackOverflow 1)) m := by
  obtain ⟨steps, -, places⟩ := limits_are_thresholds pushTwice
  have h : ∃ m, Stops pushTwice ⟨2, none⟩ 3 (.ok .zero) m :=
    ⟨_, rfl, fun | 0, _ => ⟨_, rfl⟩ | 1, _ => ⟨_, rfl⟩ | 2, _ => ⟨_, rfl⟩⟩
  obtain ⟨m, h⟩ := h
  obtain ⟨w, -, hw⟩ := (steps _ _ _ _ h).2 2 (by decide)
  obtain ⟨k, t, -, ht⟩ := (places _ _ _ _ _ h nofun).2 1 (by decide)
  exact ⟨⟨_, (steps _ _ _ _ h).1 3 (Nat.le_refl 3)⟩, ⟨_, hw⟩, k, t, ht⟩

end Machine
end Sigil
