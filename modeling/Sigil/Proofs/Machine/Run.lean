import Sigil.Proofs.Machine.Control

/-!
Runs of machines. A run that meets no limit goes the same way under more generous limits, so that
it can be followed on a stack that is large enough, whatever the limit was.
-/
namespace Sigil

theorem bind_eq_ok {ε σ α β : Type} {x : EStateM ε σ α} {f : α → EStateM ε σ β} {s s' : σ} {b : β} :
    (x >>= f) s = .ok b s' ↔ ∃ a t, x s = .ok a t ∧ f a t = .ok b s' := by
  show EStateM.bind x f s = _ ↔ _
  unfold EStateM.bind
  cases h : x s with
  | ok a t =>
    constructor
    · intro hf
      exact ⟨a, t, rfl, hf⟩
    · rintro ⟨a', t', he, hf⟩
      cases he
      exact hf
  | error e t => simp

theorem bind_of_ok {ε σ α β : Type} {x : EStateM ε σ α} {f : α → EStateM ε σ β} {s t : σ} {a : α}
    (h : x s = .ok a t) : (x >>= f) s = f a t := by
  show EStateM.bind x f s = _
  simp only [EStateM.bind, h]

theorem bind_of_error {ε σ α β : Type} {x : EStateM ε σ α} {f : α → EStateM ε σ β} {s t : σ} {e : ε}
    (h : x s = .error e t) : (x >>= f) s = .error e t := by
  show EStateM.bind x f s = _
  simp only [EStateM.bind, h]

theorem bind_eq_error {ε σ α β : Type} {x : EStateM ε σ α} {f : α → EStateM ε σ β} {s s' : σ}
    {e : ε} : (x >>= f) s = .error e s' ↔
      x s = .error e s' ∨ ∃ a t, x s = .ok a t ∧ f a t = .error e s' := by
  cases h : x s with
  | ok a t =>
    rw [bind_of_ok h]
    constructor
    · exact fun hf => .inr ⟨a, t, rfl, hf⟩
    · rintro (⟨⟨⟩⟩ | ⟨_, _, ⟨⟩, hf⟩)
      exact hf
  | error e' t =>
    rw [bind_of_error h]
    constructor
    · rintro ⟨⟩
      exact .inl rfl
    · rintro (⟨⟨⟩⟩ | ⟨_, _, ⟨⟩, _⟩)
      rfl

theorem map_eq_ok {ε σ α β : Type} {x : EStateM ε σ α} {f : α → β} {s s' : σ} {b : β} :
    (f <$> x) s = .ok b s' ↔ ∃ a, x s = .ok a s' ∧ f a = b := by
  show EStateM.map f x s = _ ↔ _
  unfold EStateM.map
  cases h : x s with
  | ok a t =>
    constructor
    · intro hf
      cases hf
      exact ⟨a, rfl, rfl⟩
    · rintro ⟨a', he, rfl⟩
      cases he
      rfl
  | error e t => simp

theorem map_eq_error {ε σ α β : Type} {x : EStateM ε σ α} {f : α → β} {s s' : σ} {e : ε} :
    (f <$> x) s = .error e s' ↔ x s = .error e s' := by
  show EStateM.map f x s = _ ↔ _
  unfold EStateM.map
  cases h : x s with
  | ok a t => simp
  | error e' t =>
    constructor
    all_goals
      intro he
      cases he
      rfl

namespace Machine

/-- The machine with `d` more places on its stack, and with no limit on its steps. -/
def relax (d : Nat) (m : Machine) : Machine :=
  { m with stack := { m.stack with limit := m.stack.limit + d }, stepLimit := none }

theorem relax_relax (a b : Nat) (m : Machine) : (m.relax a).relax b = m.relax (a + b) := by
  simp [relax, Nat.add_assoc]

def relaxResult {α : Type} (d : Nat) : EStateM.Result Fault Machine α → EStateM.Result Fault Machine α
  | .ok a m => .ok a (m.relax d)
  | .error f m => .error f (m.relax d)

def Limiting : Fault → Prop
  | .stackOverflow _ | .stepLimitExceeded _ => True
  | _ => False

def Relaxes {α : Type} (x : Action α) : Prop :=
  ∀ d m, (∃ f m', x m = .error f m' ∧ Limiting f) ∨ x (m.relax d) = relaxResult d (x m)

theorem Relaxes.bind {α β : Type} {x : Action α} {f : α → Action β} (hx : Relaxes x)
    (hf : ∀ a, Relaxes (f a)) : Relaxes (x >>= f) := by
  intro d m
  show (∃ g m', EStateM.bind x f m = _ ∧ _) ∨
    EStateM.bind x f (m.relax d) = relaxResult d (EStateM.bind x f m)
  simp only [EStateM.bind]
  rcases hx d m with ⟨g, m', h, hg⟩ | h
  · exact .inl ⟨g, m', by rw [h], hg⟩
  · rw [h]
    cases hm : x m with
    | ok a m' => simpa only [relaxResult] using hf a d m'
    | error g m' => exact .inr rfl

theorem relax_eq_withControl (d : Nat) (m : Machine) :
    m.relax d = m.withControl ⟨m.stack.limit + d, none, m.status, m.steps⟩ := rfl

theorem read_relax (d : Nat) (m : Machine) (source : Operand) :
    (m.relax d).read source = m.read source := by
  rw [relax_eq_withControl, read_withControl]

theorem Indifferent.relaxes {α : Type} {x : Action α} (hx : Indifferent x) : Relaxes x := by
  intro d m
  right
  rw [relax_eq_withControl, hx, ← hx.own m]
  cases x m <;> rfl

theorem hasRoom_relax {d : Nat} {m : Machine} (h : m.stack.hasRoom) :
    (m.relax d).stack.hasRoom := by
  rw [Stack.hasRoom_iff] at h ⊢
  exact Nat.lt_add_right d h

theorem relaxes_push (v : Value) : Relaxes (push v) := by
  intro d m
  by_cases h : m.stack.hasRoom
  · right
    simp only [push, h, hasRoom_relax h, if_true]
    rfl
  · left
    exact ⟨.stackOverflow m.stack.limit, m, by simp only [push, h]; rfl, trivial⟩

theorem relaxes_call (target : Nat) : Relaxes (call target) := by
  intro d m
  by_cases h : m.stack.hasRoom
  · right
    simp only [call, h, hasRoom_relax h, if_true]
    rfl
  · left
    exact ⟨.stackOverflow m.stack.limit, m, by simp only [call, h]; rfl, trivial⟩

theorem relaxes_execute (i : Instruction) : Relaxes (execute i) := by
  by_cases hi : Plain i
  · exact (indifferent_execute hi).relaxes
  · cases i with
    | push source => exact (indifferent_fetch source).relaxes.bind relaxes_push
    | call target => exact relaxes_call target
    | exit source => exact (indifferent_fetch source).relaxes.bind fun v _ _ => .inr rfl
    | _ => exact absurd trivial hi

theorem exhausted?_relax (d : Nat) (m : Machine) : (m.relax d).exhausted? = none := rfl

theorem cycle_relax (code : Code) (d : Nat) (m : Machine) :
    (∃ f m', cycle code m = .error f m' ∧ Limiting f) ∨
      cycle code (m.relax d) = relaxResult d (cycle code m) := by
  have hpc : (m.relax d).pc = m.pc := rfl
  simp only [cycle, exhausted?_relax, hpc]
  cases m.exhausted? with
  | some limit => exact .inl ⟨_, _, rfl, trivial⟩
  | none =>
    cases code.get? m.pc with
    | none => exact .inr rfl
    | some i => exact relaxes_execute i d { m with steps := m.steps + 1, pc := m.pc + 1 }

theorem step_relax (code : Code) (d : Nat) (m : Machine) :
    (∃ f m', step code m = .error f m' ∧ Limiting f) ∨
      step code (m.relax d) = relaxResult d (step code m) := by
  have hs : (m.relax d).status = m.status := rfl
  simp only [step, hs]
  split
  · rcases cycle_relax code d m with ⟨f, m', h, hf⟩ | h
    · exact .inl ⟨f, _, by rw [h], hf⟩
    · right
      rw [h]
      cases cycle code m <;> rfl
  · exact .inr rfl

theorem step_relax_of_ok {code : Code} {m m' : Machine} (d : Nat) (h : step code m = .ok () m') :
    step code (m.relax d) = .ok () (m'.relax d) := by
  rcases step_relax code d m with ⟨f, t, ht, -⟩ | hr
  · rw [h] at ht
    cases ht
  · rw [hr, h]
    rfl

theorem step_relax_of_error {code : Code} {m m' : Machine} {f : Fault} (d : Nat)
    (h : step code m = .error f m') (hf : ¬ Limiting f) :
    step code (m.relax d) = .error f (m'.relax d) := by
  rcases step_relax code d m with ⟨g, t, ht, hg⟩ | hr
  · rw [h] at ht
    cases ht
    exact absurd hg hf
  · rw [hr, h]
    rfl

def Steps (code : Code) : Nat → Machine → Machine → Prop
  | 0, m, m' => m' = m
  | k + 1, m, m' => ∃ t, step code m = .ok () t ∧ Steps code k t m'

theorem Steps.trans {code : Code} {a b : Nat} {m t m' : Machine} (h : Steps code a m t)
    (g : Steps code b t m') : Steps code (a + b) m m' := by
  induction a generalizing m with
  | zero =>
    cases h
    rwa [Nat.zero_add]
  | succ a ih =>
    obtain ⟨u, hu, h⟩ := h
    rw [Nat.add_right_comm]
    exact ⟨u, hu, ih h⟩

theorem Steps.relax {code : Code} {k : Nat} {m m' : Machine} (d : Nat) (h : Steps code k m m') :
    Steps code k (m.relax d) (m'.relax d) := by
  induction k generalizing m with
  | zero =>
    cases h
    rfl
  | succ k ih =>
    obtain ⟨t, ht, h⟩ := h
    exact ⟨t.relax d, step_relax_of_ok d ht, ih h⟩

/-- The machines that `a + b` steps pass through after `a` steps. -/
theorem Steps.take {code : Code} {a b : Nat} {m m' : Machine} (h : Steps code (a + b) m m') :
    ∃ t, Steps code a m t ∧ Steps code b t m' := by
  induction a generalizing m with
  | zero => exact ⟨m, rfl, by rwa [Nat.zero_add] at h⟩
  | succ a ih =>
    rw [Nat.add_right_comm] at h
    obtain ⟨u, hu, h⟩ := h
    obtain ⟨t, ht, hb⟩ := ih h
    exact ⟨t, ⟨u, hu, ht⟩, hb⟩

theorem Steps.unique {code : Code} {k : Nat} {m t t' : Machine} (h : Steps code k m t)
    (g : Steps code k m t') : t = t' := by
  induction k generalizing m with
  | zero =>
    cases h
    cases g
    rfl
  | succ k ih =>
    obtain ⟨u, hu, h⟩ := h
    obtain ⟨v, hv, g⟩ := g
    rw [hu] at hv
    cases hv
    exact ih h g

def Leads (code : Code) (k : Nat) (m m' : Machine) : Prop :=
  ∃ d, Steps code k (m.relax d) (m'.relax d)

theorem Leads.refl (code : Code) (m : Machine) : Leads code 0 m m := ⟨0, rfl⟩

theorem Leads.trans {code : Code} {a b : Nat} {m t m' : Machine} (h : Leads code a m t)
    (g : Leads code b t m') : Leads code (a + b) m m' := by
  obtain ⟨d, h⟩ := h
  obtain ⟨e, g⟩ := g
  have h' := h.relax e
  have g' := g.relax d
  rw [relax_relax, relax_relax] at h' g'
  rw [Nat.add_comm e d] at g'
  exact ⟨d + e, h'.trans g'⟩

def fetched (m : Machine) : Machine := { m with pc := m.pc + 1, steps := m.steps + 1 }

theorem leads_of_execute {code : Code} {m m' : Machine} {i : Instruction} (d : Nat)
    (hr : m.status = .running) (hc : code.get? m.pc = some i)
    (h : execute i (m.fetched.relax d) = .ok () (m'.relax d)) : Leads code 1 m m' := by
  have hs : (m.relax d).status = .running := hr
  have hpc : code.get? (m.relax d).pc = some i := hc
  have hcycle : cycle code (m.relax d) = .ok () (m'.relax d) := by
    simp only [cycle, exhausted?_relax, hpc]
    exact h
  refine ⟨d, m'.relax d, ?_, rfl⟩
  rw [step, if_pos hs, hcycle]

end Machine
end Sigil
