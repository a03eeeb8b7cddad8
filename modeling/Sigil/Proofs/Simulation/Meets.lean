import Sigil.Proofs.Draft.Program
import Sigil.Proofs.Simulation.Frame

/-!
Machines that do what an evaluation says. Where the evaluation has a value the machine gets to it,
where it meets a mismatch the machine faults with the same one, and where its fuel runs out the
machine runs at least as many steps.
-/
namespace Sigil

open Machine

namespace Machine

variable {Γ : List (String × Int)} {ρ : Env} {pc i n : Nat} {offset t : Int} {m : Machine} {v : Value}
  {x : String}

structure At (Γ : List (String × Int)) (ρ : Env) (pc : Nat) (offset : Int) (m : Machine) : Prop where
  running : m.status = .running
  heap : m.heap = []
  pc : m.pc = pc
  height : (m.stack.height : Int) = m.stack.base + offset
  nonneg : 0 ≤ offset
  stored : Stored m.stack Γ ρ

theorem At.get {code : Code} {j : Instruction} (h : At Γ ρ pc offset m)
    (hc : code.get? pc = some j) : code.get? m.pc = some j := by
  rw [h.pc, hc]

theorem At.cast {pc' : Nat} {offset' : Int} (h : At Γ ρ pc offset m) (hp : pc = pc')
    (ho : offset = offset') : At Γ ρ pc' offset' m := by
  subst hp ho
  exact h

theorem At.accumulated (h : At Γ ρ pc offset m) (v : Value) :
    At Γ ρ (pc + 1) offset (m.accumulated v) :=
  ⟨h.running, h.heap, congrArg (· + 1) h.pc, h.height, h.nonneg, h.stored⟩

theorem At.jumped (h : At Γ ρ pc offset m) (target : Nat) : At Γ ρ target offset (m.jumped target) :=
  ⟨h.running, h.heap, rfl, h.height, h.nonneg, h.stored⟩

theorem At.pushed (h : At Γ ρ pc offset m) (v : Value) :
    At Γ ρ (pc + 1) (offset + 1) (m.pushed v) where
  running := h.running
  heap := h.heap
  pc := congrArg (· + 1) h.pc
  height := by
    have := h.height
    simp only [Machine.pushed, Stack.height_push]
    show ((m.stack.height + 1 : Nat) : Int) = m.stack.base + (offset + 1)
    omega
  nonneg := by
    have := h.nonneg
    omega
  stored := h.stored.congr fun _ _ _ hw => Stack.get?_push_of_get? hw v

theorem At.top (h : At Γ ρ pc offset m) (v : Value) : (m.pushed v).stack.get? offset = some v :=
  Stack.get?_push_top h.height v

theorem At.dropped (h : At Γ ρ pc (offset + n) m) (h0 : 0 ≤ offset)
    (hΓ : ∀ t ∈ Γ.map Prod.snd, t < offset) : At Γ ρ (pc + 1) offset (m.dropped n) where
  running := h.running
  heap := h.heap
  pc := congrArg (· + 1) h.pc
  height := by
    have := h.height
    simp only [Machine.dropped, Stack.height_drop]
    show ((m.stack.height - n : Nat) : Int) = m.stack.base + offset
    omega
  nonneg := h0
  stored := by
    refine h.stored.congr fun b hb w hw => Stack.get?_drop_of_get? hw ?_
    have := hΓ _ (List.mem_map_of_mem hb)
    have := h.height
    omega

/-- Writing to a cell that is no variable's. -/
theorem At.written (h : At Γ ρ pc offset m) (hi : m.stack.index? t = some i)
    (ht : t ∉ Γ.map Prod.snd) (v : Value) : At Γ ρ (pc + 1) offset (m.written i v) where
  running := h.running
  heap := h.heap
  pc := congrArg (· + 1) h.pc
  height := by
    simp only [Machine.written, Stack.height_set]
    exact h.height
  nonneg := h.nonneg
  stored := by
    refine h.stored.congr fun b hb w hw => ?_
    refine (Stack.get?_set_other hi ?_ v).trans hw
    rintro rfl
    exact ht (List.mem_map_of_mem hb)

theorem At.updated (h : At Γ ρ pc offset m) (hi : m.stack.index? t = some i)
    (hn : (Γ.map Prod.snd).Nodup) (hx : Γ.lookup x = some t) (v : Value) :
    At Γ (ρ.update x v) (pc + 1) offset (m.written i v) where
  running := h.running
  heap := h.heap
  pc := congrArg (· + 1) h.pc
  height := by
    simp only [Machine.written, Stack.height_set]
    exact h.height
  nonneg := h.nonneg
  stored := h.stored.update hn hx (Stack.get?_set_same hi v) fun _ _ hy hw =>
    (Stack.get?_set_other hi hy v).trans hw

end Machine

def Meets {α : Type} (code : Code) (n : Nat) (m : Machine) (o : Outcome α) (Q : α → Machine → Prop) :
    Prop :=
  match o with
  | none => ∃ k m', n ≤ k ∧ Leads code k m m'
  | some (.error cause) => ∃ k m', Leads code k m m' ∧ Mismatches code cause m'
  | some (.ok a) => ∃ k m', Leads code k m m' ∧ Q a m'

section

variable {α β : Type} {code : Code} {n k : Nat} {m m' : Machine} {o : Outcome α}
  {Q R : α → Machine → Prop}

theorem Meets.count (h : Leads code k m m') (g : Meets code n m' o Q) : Meets code (n + k) m o Q := by
  match o, g with
  | none, ⟨j, u, hj, g⟩ => exact ⟨k + j, u, by omega, h.trans g⟩
  | some (.error _), ⟨j, u, g, hu⟩ => exact ⟨k + j, u, h.trans g, hu⟩
  | some (.ok _), ⟨j, u, g, hu⟩ => exact ⟨k + j, u, h.trans g, hu⟩

theorem Meets.mono {n' : Nat} (h : Meets code n m o Q) (hn : n' ≤ n) : Meets code n' m o Q := by
  match o, h with
  | none, ⟨k, m', hk, h⟩ => exact ⟨k, m', Nat.le_trans hn hk, h⟩
  | some (.error _), h => exact h
  | some (.ok _), h => exact h

theorem Meets.step (h : Leads code k m m') (g : Meets code n m' o Q) : Meets code n m o Q :=
  (g.count h).mono (Nat.le_add_right n k)

theorem Meets.andThen (h : Meets code n m o Q)
    (hQ : ∀ a m', Q a m' → ∃ k u, Leads code k m' u ∧ R a u) : Meets code n m o R := by
  match o, h with
  | none, h => exact h
  | some (.error _), h => exact h
  | some (.ok a), ⟨k, m', h, hm⟩ =>
    obtain ⟨j, u, g, hu⟩ := hQ a m' hm
    exact ⟨k + j, u, h.trans g, hu⟩

theorem Meets.pure {ρ : Env} {a : α} {Q : α × Env → Machine → Prop} (h : Q (a, ρ) m) :
    Meets code n m ((Pure.pure a : Evaluation α) ρ) Q := ⟨0, m, .refl code m, h⟩

theorem Evaluation.bind_eq (e : Evaluation α) (f : α → Evaluation β) (ρ : Env) :
    (e >>= f) ρ = match e ρ with
      | none => none
      | some (.error cause) => some (.error cause)
      | some (.ok (a, ρ')) => f a ρ' := by
  show Option.bind (e ρ) _ = _
  cases e ρ with
  | none => rfl
  | some r => cases r <;> rfl

theorem Meets.bind {e : Evaluation α} {f : α → Evaluation β} {ρ : Env} {Q : α × Env → Machine → Prop}
    {R : β × Env → Machine → Prop} (h : Meets code n m (e ρ) Q)
    (hf : ∀ a ρ' m', Q (a, ρ') m' → Meets code n m' (f a ρ') R) : Meets code n m ((e >>= f) ρ) R := by
  rw [Evaluation.bind_eq]
  cases he : e ρ with
  | none => rwa [he] at h
  | some r =>
    cases r with
    | error cause => rwa [he] at h
    | ok p =>
      rw [he] at h
      obtain ⟨k, m', hk, hm⟩ := h
      exact (hf p.1 p.2 m' hm).step hk

theorem Meets.ofOutcome {R : α × Env → Machine → Prop} (ρ : Env) (h : Meets code n m o Q)
    (hQ : ∀ a m', Q a m' → ∃ k u, Leads code k m' u ∧ R (a, ρ) u) :
    Meets code n m (Evaluation.ofOutcome o ρ) R := by
  match o, h with
  | none, h => exact h
  | some (.error _), h => exact h
  | some (.ok a), ⟨k, m', h, hm⟩ =>
    obtain ⟨j, u, hj, hu⟩ := hQ a m' hm
    exact ⟨k + j, u, h.trans hj, hu⟩

theorem Evaluation.run'_eq (e : Evaluation α) (ρ : Env) :
    (StateT.run' e ρ : ExceptT TypeMismatch Option α) = match e ρ with
      | none => none
      | some (.error cause) => some (.error cause)
      | some (.ok (a, _)) => some (.ok a) := by
  show Option.bind (e ρ) _ = _
  cases e ρ with
  | none => rfl
  | some r => cases r <;> rfl

theorem Meets.run' {e : Evaluation α} {ρ : Env} {Q : α × Env → Machine → Prop}
    (h : Meets code n m (e ρ) Q) (hQ : ∀ r m', Q r m' → ∃ k u, Leads code k m' u ∧ R r.1 u) :
    Meets code n m (StateT.run' e ρ : ExceptT TypeMismatch Option α) R := by
  rw [Evaluation.run'_eq]
  cases he : e ρ with
  | none => rwa [he] at h
  | some r =>
    cases r with
    | error cause => rwa [he] at h
    | ok p =>
      rw [he] at h
      exact h.andThen hQ

end

end Sigil
